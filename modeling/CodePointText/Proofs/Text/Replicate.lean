import CodePointText.Method.Call
import CodePointText.Proofs.Comparison
import CodePointText.Proofs.Text.Build
import CodePointText.Proofs.Text.Storage

/-!
# Texts repeated

A repetition fails if and only if its copies are more bytes than a storage takes, and it has no other
limit: what overflows a word is more bytes still. Repetitions of one text that fit together fit apart,
and are put together by concatenation.
-/

namespace CodePointText

inductive Value.Counts : Value → Int → Prop
  | int (i : Int64) : Counts (.int i) i.toInt
  | bool (b : Bool) : Counts (.bool b) b.toInt

theorem Value.Counts.exists_index {v : Value} {n : Int} (h : v.Counts n) :
    ∃ i, v.index? = some i ∧ i.toInt = n := by
  cases h with
  | int i => exact ⟨i, rfl, rfl⟩
  | bool b => cases b <;> exact ⟨_, rfl, rfl⟩

namespace Text

/-- So many copies are more bytes than a storage takes. One copy and copies of nothing never are. -/
def TooLong (t : Text) (n : Nat) : Prop :=
  2 ≤ n ∧ t.codePoints ≠ [] ∧ 0x7FFFFFFFFFFFFFFF < t.byteSize * n

theorem TooLong.of_le {t : Text} {m n : Nat} (h : t.TooLong m) (hle : m ≤ n) : t.TooLong n := by
  obtain ⟨h2, hne, hbytes⟩ := h
  have hmul : t.byteSize * m ≤ t.byteSize * n := Nat.mul_le_mul_left _ hle
  exact ⟨by omega, hne, by omega⟩

section

variable {t : Text} (ht : t.WellFormed)
include ht

theorem replicate_of_tooLong {n : Nat} (h : t.TooLong n) :
    t.replicate n = .error .repetitionTooLong := by
  obtain ⟨h2, hne, hbytes⟩ := h
  have h1 : ¬ (n = 1 ∨ t.isEmpty) := by
    rw [isEmpty_iff ht]
    rintro (h1 | hnil)
    · omega
    · exact hne hnil
  have hfit : ¬ Size.copiesFit t.byteSize n := by
    rw [Size.copiesFit_iff, Size.largest]
    omega
  unfold replicate
  rw [if_neg (by omega), if_neg h1, if_neg hfit]

theorem exists_replicate {n : Nat} (h : ¬ t.TooLong n) : ∃ u, t.replicate n = .ok u := by
  unfold replicate
  split_ifs with h0 h1 hfit
  · exact ⟨_, rfl⟩
  · exact ⟨_, rfl⟩
  · cases t <;> exact ⟨_, rfl⟩
  · rw [isEmpty_iff ht, not_or] at h1
    rw [Size.copiesFit_iff, Size.largest] at hfit
    exact absurd ⟨by omega, h1.2, by omega⟩ h

theorem replicate_eq_error_iff {n : Nat} :
    t.replicate n = .error .repetitionTooLong ↔ t.TooLong n := by
  refine ⟨fun he => ?_, replicate_of_tooLong ht⟩
  by_contra h
  obtain ⟨u, hu⟩ := exists_replicate ht h
  rw [hu] at he
  cases he

theorem length_replicate {n : Nat} {u : Text} (hu : t.replicate n = .ok u) :
    u.length = n * t.length := by
  rw [length_eq (wellFormed_replicate ht hu), codePoints_replicate ht hu, length_copies,
    length_eq ht]

theorem replicate_add {m n : Nat} {w : Text} (h : t.replicate (m + n) = .ok w) :
    ∃ u v, t.replicate m = .ok u ∧ t.replicate n = .ok v ∧ (u.concat v).equal w := by
  have hfits : ¬ t.TooLong (m + n) := fun hlong => by
    rw [replicate_of_tooLong ht hlong] at h
    cases h
  obtain ⟨u, hu⟩ := exists_replicate ht fun hm => hfits (hm.of_le (Nat.le_add_right m n))
  obtain ⟨v, hv⟩ := exists_replicate ht fun hn => hfits (hn.of_le (Nat.le_add_left n m))
  have hwu := wellFormed_replicate ht hu
  have hwv := wellFormed_replicate ht hv
  refine ⟨u, v, hu, hv, ?_⟩
  rw [equal_iff (wellFormed_concat hwu hwv) (wellFormed_replicate ht h)]
  calc (u.concat v).codePoints
      = u.codePoints ++ v.codePoints := codePoints_concat hwu hwv
    _ = copies m t.codePoints ++ copies n t.codePoints := by
        rw [codePoints_replicate ht hu, codePoints_replicate ht hv]
    _ = copies (m + n) t.codePoints := (copies_add m n t.codePoints).symm
    _ = w.codePoints := (codePoints_replicate ht h).symm

end

theorem timesOperand_of_counts (t : Text) {v : Value} {n : Int} (h : v.Counts n) :
    Method.timesOperand t v =
      if n ≤ 0 then .ok (.value (.text .empty))
      else (t.replicate n.toNat).map fun u => .value (.text u) := by
  obtain ⟨i, hi, rfl⟩ := h.exists_index
  have hle : i ≤ 0 ↔ i.toInt ≤ 0 := Int64.le_iff_toInt_le
  rw [Method.timesOperand, hi]
  simp only [hle]
  split
  · rfl
  · cases t.replicate i.toInt.toNat <;> rfl

/-- Repetition is exact. It fails if there are two copies or more of a text that is not empty, and
they are more bytes than a storage takes, where a compact text is the bytes of its string and a wide
one four bytes for each code point. Otherwise it gives so many copies of the code points in the
storage of the text, and the empty compact text if there are none. To multiply by a number is to
repeat so many times, and not at all if it is not positive. What can be repeated can be repeated in
two parts. -/
theorem repetition_exact {t : Text} (ht : t.WellFormed) :
    ((∀ s, t.string? = some s → t.byteSize = (Utf8.bytes s).length) ∧
      (t.string? = none → t.byteSize = 4 * t.codePoints.length)) ∧
    (∀ n, t.replicate n = .error .repetitionTooLong ↔
      2 ≤ n ∧ t.codePoints ≠ [] ∧ 0x7FFFFFFFFFFFFFFF < t.byteSize * n) ∧
    (∀ n, ¬ (2 ≤ n ∧ t.codePoints ≠ [] ∧ 0x7FFFFFFFFFFFFFFF < t.byteSize * n) →
      ∃ u, t.replicate n = .ok u ∧ u.codePoints = (List.replicate n t.codePoints).flatten ∧
        u.length = n * t.length ∧ (n = 0 → u = .empty) ∧ (n ≠ 0 → u.isCompact = t.isCompact)) ∧
    (∀ m v n, m = .times ∨ m = .timesReflected → Value.Counts v n →
      (n ≤ 0 → (Method.call m t [v]).result = .ok (.value (.text .empty))) ∧
      (1 ≤ n → (Method.call m t [v]).result =
        (t.replicate n.toNat).map fun u => .value (.text u))) ∧
    (∀ m n w, t.replicate (m + n) = .ok w →
      ∃ u v, t.replicate m = .ok u ∧ t.replicate n = .ok v ∧ (u.concat v).equal w) := by
  refine ⟨?_, fun n => replicate_eq_error_iff ht, fun n h => ?_, fun m v n hm hv => ?_,
    fun m n w => replicate_add ht⟩
  · cases t with
    | compact s n x =>
      refine ⟨fun p hp => ?_, nofun⟩
      obtain rfl := Option.some.inj hp
      exact (Utf8.length_bytes s).symm
    | wide cs => exact ⟨nofun, fun _ => rfl⟩
  · obtain ⟨u, hu⟩ := exists_replicate ht h
    refine ⟨u, hu, codePoints_replicate ht hu, length_replicate ht hu, ?_, fun hn => ?_⟩
    · rintro rfl
      exact (Except.ok.inj hu).symm
    · rw [isCompact_replicate hu, beq_false_of_ne hn, Bool.false_or]
  · have hcall : (Method.call m t [v]).result = Method.timesOperand t v := by
      rcases hm with rfl | rfl <;> rfl
    rw [hcall, timesOperand_of_counts t hv]
    exact ⟨fun hn => if_pos hn, fun hn => if_neg (by omega)⟩

/-- A lone surrogate is four bytes: 2^61 copies of it are one byte too many. One copy less fits, and
is put together from all but one of them and that one. -/
theorem repetition_of_surrogate :
    (wide [0xD800]).WellFormed ∧
      (wide [0xD800]).replicate 0x2000000000000000 = .error .repetitionTooLong ∧
      (∃ u v w, (wide [0xD800]).replicate 0x1FFFFFFFFFFFFFFE = .ok u ∧
        (wide [0xD800]).replicate 1 = .ok v ∧ (wide [0xD800]).replicate 0x1FFFFFFFFFFFFFFF = .ok w ∧
        (u.concat v).equal w ∧ w.length = 0x1FFFFFFFFFFFFFFF ∧ ¬ w.isCompact) ∧
      (Method.call .timesReflected (wide [0xD800]) [.bool false]).result =
        .ok (.value (.text .empty)) := by
  have ht : (wide [0xD800]).WellFormed := by decide
  obtain ⟨_, hfails, hfits, htimes, hparts⟩ := repetition_exact ht
  have hlong := (hfails 0x2000000000000000).2 ⟨by decide, by decide, by decide⟩
  obtain ⟨hnone, _⟩ := htimes .timesReflected _ _ (.inr rfl) (.bool false)
  obtain ⟨w, hw, _, hlength, _, hstorage⟩ := hfits 0x1FFFFFFFFFFFFFFF fun h => by
    exact absurd h.2.2 (by decide)
  obtain ⟨u, v, hu, hv, huv⟩ := hparts 0x1FFFFFFFFFFFFFFE 1 w hw
  refine ⟨ht, hlong, ⟨u, v, w, hu, hv, hw, huv, hlength, ?_⟩, hnone (by decide)⟩
  rw [hstorage (by decide)]
  decide

end Text
end CodePointText
