import CodePointText.Proofs.Text.Replicate
import CodePointText.Proofs.Utf8.Boundary

/-!
# Repetitions that do not fit

Whether copies fit is a question of bytes, and a code point in wide storage takes four of them. So a
wide text stops fitting before the compact text that is equal to it, unless all its characters take
four bytes there too.
-/

namespace CodePointText
namespace Text

/-- So many copies of a text are refused. -/
def Overflows (t : Text) (n : Nat) : Prop := t.replicate n = .error .repetitionTooLong

theorem overflows_iff {t : Text} (ht : t.WellFormed) {n : Nat} : t.Overflows n ↔ t.TooLong n :=
  replicate_eq_error_iff ht

theorem byteSize_compact (s : String) (n : Nat) (ascii : Bool) :
    (compact s n ascii).byteSize = (Utf8.encode s.toList).length := by
  rw [← Utf8.bytes_eq_encode, Utf8.length_bytes]
  rfl

theorem byteSize_of_not_isCompact {t : Text} (h : ¬ t.isCompact) :
    t.byteSize = 4 * t.codePoints.length := by
  cases t with
  | compact s n ascii => exact absurd rfl h
  | wide cs => rfl

theorem length_le_byteSize (t : Text) : t.codePoints.length ≤ t.byteSize := by
  cases t with
  | compact s n ascii =>
    rw [byteSize_compact, codePoints_compact, List.length_map]
    exact Utf8.length_le_length_encode s.toList
  | wide cs =>
    rw [codePoints_wide, byteSize]
    omega

theorem byteSize_le (t : Text) : t.byteSize ≤ 4 * t.codePoints.length := by
  cases t with
  | compact s n ascii =>
    rw [byteSize_compact, codePoints_compact, List.length_map]
    exact Utf8.length_encode_le s.toList
  | wide cs => exact Nat.le_refl _

theorem byteSize_lt_iff {t : Text} (h : t.isCompact) :
    t.byteSize < 4 * t.codePoints.length ↔ ∃ c ∈ t.codePoints, c.toNat < 0x10000 := by
  cases t with
  | compact s n ascii =>
    rw [byteSize_compact, codePoints_compact, List.length_map, Utf8.length_encode_lt_iff]
    simp only [List.mem_map, exists_exists_and_eq_and]
  | wide cs => cases h

/-- Between two sizes of which the smaller is not too large there is room for a count: as many
copies of the smaller one as fit. -/
theorem exists_count_between {size size' : Nat} (hpos : 0 < size) (hlt : size < size')
    (hsmall : size ≤ 0xB504F333) :
    ∃ n, 2 ≤ n ∧ size * n ≤ 0x7FFFFFFFFFFFFFFF ∧ 0x7FFFFFFFFFFFFFFF < size' * n := by
  have hsquare : size * size ≤ 0x7FFFFFFFFFFFFFFF :=
    Nat.le_trans (Nat.mul_le_mul hsmall hsmall) (by decide)
  have hle : size ≤ 0x7FFFFFFFFFFFFFFF / size := (Nat.le_div_iff_mul_le hpos).2 hsquare
  have hnext := Nat.lt_mul_div_succ 0x7FFFFFFFFFFFFFFF hpos
  have hfits := Nat.mul_div_le 0x7FFFFFFFFFFFFFFF size
  have htwo : 2 ≤ 0x7FFFFFFFFFFFFFFF / size := (Nat.le_div_iff_mul_le hpos).2 (by omega)
  generalize 0x7FFFFFFFFFFFFFFF / size = n at hle hnext hfits htwo
  refine ⟨n, htwo, hfits, ?_⟩
  calc 0x7FFFFFFFFFFFFFFF < size * (n + 1) := hnext
    _ ≤ (size + 1) * n := by rw [Nat.mul_succ, Nat.succ_mul]; omega
    _ ≤ size' * n := Nat.mul_le_mul_right n hlt

section

variable {a b : Text} (hcs : a.codePoints = b.codePoints) (hb : ¬ b.isCompact)
include hcs hb

/-- What is too long in any storage is too long in wide storage. -/
theorem TooLong.wide {n : Nat} (h : a.TooLong n) : b.TooLong n := by
  obtain ⟨h2, hne, hbytes⟩ := h
  have hle : a.byteSize * n ≤ b.byteSize * n := by
    rw [byteSize_of_not_isCompact hb, ← hcs]
    exact Nat.mul_le_mul_right n a.byteSize_le
  exact ⟨h2, hcs ▸ hne, Nat.lt_of_lt_of_le hbytes hle⟩

theorem tooLong_wide_only_iff {n : Nat} :
    (b.TooLong n ∧ ¬ a.TooLong n) ↔ 2 ≤ n ∧ a.byteSize * n ≤ 0x7FFFFFFFFFFFFFFF ∧
      0x7FFFFFFFFFFFFFFF < 4 * a.codePoints.length * n := by
  have hne : 0x7FFFFFFFFFFFFFFF < 4 * a.codePoints.length * n → a.codePoints ≠ [] := by
    intro h hnil
    rw [hnil] at h
    simp at h
  rw [TooLong, TooLong, byteSize_of_not_isCompact hb, ← hcs]
  constructor
  · rintro ⟨⟨h2, hne, hlong⟩, hfits⟩
    exact ⟨h2, Nat.not_lt.1 fun h => hfits ⟨h2, hne, h⟩, hlong⟩
  · rintro ⟨h2, hfits, hlong⟩
    exact ⟨⟨h2, hne hlong, hlong⟩, fun h => Nat.not_lt.2 hfits h.2.2⟩

variable (ha : a.isCompact)
include ha

theorem tooLong_iff_of_four_bytes (h : ∀ c ∈ a.codePoints, 0x10000 ≤ c.toNat) (n : Nat) :
    a.TooLong n ↔ b.TooLong n := by
  have hnone : ¬ ∃ c ∈ a.codePoints, c.toNat < 0x10000 := by
    rintro ⟨c, hc, hlt⟩
    exact Nat.not_lt.2 (h c hc) hlt
  have hsize : a.byteSize = b.byteSize := by
    have hle := a.byteSize_le
    have hge := mt (byteSize_lt_iff ha).1 hnone
    rw [byteSize_of_not_isCompact hb, ← hcs]
    omega
  rw [TooLong, TooLong, hcs, hsize]

/-- A character of fewer bytes makes room for a count at which only the wide text is too long. -/
theorem exists_tooLong_wide_only (h : ∃ c ∈ a.codePoints, c.toNat < 0x10000)
    (hsmall : a.byteSize ≤ 0xB504F333) :
    ∃ n < 0x10000000000000000, b.TooLong n ∧ ¬ a.TooLong n := by
  have hlt := (byteSize_lt_iff ha).2 h
  have hpos : 0 < a.byteSize := by
    have hle := a.length_le_byteSize
    omega
  obtain ⟨n, h2, hfits, hlong⟩ := exists_count_between hpos hlt hsmall
  have hn : n ≤ a.byteSize * n := Nat.le_mul_of_pos_left n hpos
  exact ⟨n, by omega, (tooLong_wide_only_iff hcs hb).2 ⟨h2, hfits, hlong⟩⟩

end

theorem call_eq_tooLong_iff {m : Method} (hm : m = .times ∨ m = .timesReflected) (t : Text)
    {v : Value} {k : Int} (hv : v.Counts k) :
    (Method.call m t [v]).result = .error .repetitionTooLong ↔ 0 < k ∧ t.Overflows k.toNat := by
  have hcall : (Method.call m t [v]).result = Method.timesOperand t v := by
    rcases hm with rfl | rfl <;> rfl
  rw [hcall, timesOperand_of_counts t hv, Overflows]
  split
  · next hk => exact ⟨nofun, fun h => absurd h.1 (by omega)⟩
  · next hk =>
    rw [and_iff_right (Int.not_le.1 hk)]
    cases t.replicate k.toNat <;> simp [Except.map]

/-- Whether a repetition fails depends on the storage. Equal texts stored alike fail alike, and a
wide text fails wherever an equal compact one does. It fails besides at those counts for which the
bytes of the copies fit and four for each of their code points do not. There is no such count if
every character takes four bytes, and there is one for any other compact text of at most 0xB504F333
bytes. A product by a number fails if and only if so many copies do. -/
theorem overflow_by_storage {a b : Text} (ha : a.WellFormed) (hb : b.WellFormed) (h : a.equal b) :
    (a.isCompact = b.isCompact → ∀ n, a.Overflows n ↔ b.Overflows n) ∧
    (a.isCompact → ¬ b.isCompact →
      (∀ n, a.Overflows n → b.Overflows n) ∧
      (∀ n, (b.Overflows n ∧ ¬ a.Overflows n) ↔
        2 ≤ n ∧ a.byteSize * n ≤ 0x7FFFFFFFFFFFFFFF ∧ 0x7FFFFFFFFFFFFFFF < 4 * a.length * n) ∧
      ((∀ c ∈ a.codePoints, 0x10000 ≤ c.toNat) → ∀ n, a.Overflows n ↔ b.Overflows n) ∧
      ((∃ c ∈ a.codePoints, c.toNat < 0x10000) → a.byteSize ≤ 0xB504F333 →
        ∃ n < 0x10000000000000000, b.Overflows n ∧ ¬ a.Overflows n)) ∧
    (∀ (t : Text) m v k, m = .times ∨ m = .timesReflected → Value.Counts v k →
      ((Method.call m t [v]).result = .error .repetitionTooLong ↔
        0 < k ∧ t.Overflows k.toNat)) := by
  have hcs := (equal_iff ha hb).1 h
  simp only [overflows_iff ha, overflows_iff hb, length_eq ha]
  refine ⟨fun hkind n => ?_, fun hcompact hwide => ?_, fun t m v k hm => call_eq_tooLong_iff hm t⟩
  · rw [eq_of_codePoints_eq ha hb hcs hkind]
  · exact ⟨fun n => TooLong.wide hcs hwide, fun n => tooLong_wide_only_iff hcs hwide,
      tooLong_iff_of_four_bytes hcs hwide hcompact, exists_tooLong_wide_only hcs hwide hcompact⟩

/-- Of a letter, 2^61 copies are 2^61 bytes as a string and one byte too many in wide storage. -/
theorem overflow_of_letter :
    (ofString "a").equal (wide [0x61]) ∧
      (wide [0x61]).Overflows 0x2000000000000000 ∧ ¬ (ofString "a").Overflows 0x2000000000000000 ∧
      (Method.call .times (wide [0x61]) [.int 0x2000000000000000]).result =
        .error .repetitionTooLong ∧
      (Method.call .times (ofString "a") [.int 0x2000000000000000]).result ≠
        .error .repetitionTooLong := by
  have heq : (ofString "a").equal (wide [0x61]) := by decide +kernel
  obtain ⟨_, hstorages, hproduct⟩ :=
    overflow_by_storage (wellFormed_ofString "a") (b := wide [0x61]) (by decide) heq
  obtain ⟨_, honly, _, _⟩ := hstorages rfl (by decide)
  obtain ⟨hover, hfits⟩ := (honly 0x2000000000000000).2 (by decide +kernel)
  have hcount := Value.Counts.int 0x2000000000000000
  refine ⟨heq, hover, hfits, ?_, fun h => ?_⟩
  · exact (hproduct _ .times _ _ (.inl rfl) hcount).2 ⟨by decide, hover⟩
  · exact hfits ((hproduct _ .times _ _ (.inl rfl) hcount).1 h).2

/-- Equal texts need not fail alike. -/
theorem not_overflow_alike :
    ¬ ∀ a b : Text, a.WellFormed → b.WellFormed → a.equal b → ∀ n < 0x10000000000000000,
      (a.replicate n = .error .repetitionTooLong ↔ b.replicate n = .error .repetitionTooLong) := by
  intro h
  have hb : (wide [0x61]).WellFormed := by decide
  have halike := h (ofString "a") (wide [0x61]) (wellFormed_ofString "a") hb (by decide +kernel)
    0x2000000000000000 (by decide)
  rw [replicate_eq_error_iff hb, replicate_eq_error_iff (wellFormed_ofString "a")] at halike
  have hlong : (wide [0x61]).TooLong 0x2000000000000000 := ⟨by decide, by decide, by decide⟩
  exact absurd (halike.2 hlong).2.2 (by decide +kernel)

end Text
end CodePointText
