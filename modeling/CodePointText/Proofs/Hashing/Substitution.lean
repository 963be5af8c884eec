import CodePointText.Proofs.Text.Index
import CodePointText.Text.Hash
import Mathlib.Data.Nat.Bitwise
import Mathlib.Data.Nat.ModEq

/-!
# Hashes of texts that differ in one place

Every step of a hash can be undone. Mixing multiplies by an odd number, which has an inverse modulo
2^64, and the first code point, although it enters twice, is told from its lowest bits upwards. So a
difference in one place is carried to the end, where only the folding of the reserved value can lose
it.
-/

namespace CodePointText
namespace Text

def hashState : List CodePoint → UInt64
  | [] => 0
  | c :: cs => (c :: cs).foldl mix (c.toUInt64 <<< 7)

theorem hashValue_of_ne_nil {t : Text} (h : t.codePoints ≠ []) :
    t.hashValue = avoidReserved (hashState t.codePoints ^^^ UInt64.ofNat t.length).toInt64 := by
  rw [hashValue]
  cases hcs : t.codePoints with
  | nil => exact absurd hcs h
  | cons c cs => rfl

theorem mix_left_injective (c : CodePoint) : Function.Injective (mix · c) := by
  intro x y h
  have hinverse : (1000003 : UInt64) * 0xDF9187FD78819A6B = 1 := by decide
  have hproduct : x * 1000003 = y * 1000003 := (UInt64.xor_left_inj c.toUInt64).1 h
  calc x = x * 1000003 * 0xDF9187FD78819A6B := by rw [UInt64.mul_assoc, hinverse, UInt64.mul_one]
    _ = y * 1000003 * 0xDF9187FD78819A6B := by rw [hproduct]
    _ = y := by rw [UInt64.mul_assoc, hinverse, UInt64.mul_one]

theorem mix_right_injective (x : UInt64) : Function.Injective (mix x) := by
  intro c d h
  have hwords : c.toUInt64 = d.toUInt64 := (UInt64.xor_right_inj (x * 1000003)).1 h
  exact UInt32.toUInt64_inj.1 hwords

theorem foldl_mix_injective (cs : List CodePoint) :
    Function.Injective fun x : UInt64 => cs.foldl mix x := by
  induction cs with
  | nil => exact Function.injective_id
  | cons c cs ih => exact ih.comp (mix_left_injective c)

theorem toNat_mix_seed (c : CodePoint) :
    (mix (c.toUInt64 <<< 7) c).toNat = c.toNat * 2 ^ 7 * 1000003 % 2 ^ 64 ^^^ c.toNat := by
  have hc := c.toNat_lt
  have hseed : (c.toUInt64 <<< 7).toNat = c.toNat * 2 ^ 7 := by
    rw [UInt64.toNat_shiftLeft, UInt32.toNat_toUInt64]
    change c.toNat <<< 7 % 2 ^ 64 = _
    rw [Nat.shiftLeft_eq]
    omega
  rw [mix, UInt64.toNat_xor, UInt64.toNat_mul, hseed, UInt32.toNat_toUInt64]
  rfl

section

variable {m n : Nat}
  (h : m * 2 ^ 7 * 1000003 % 2 ^ 64 ^^^ m = n * 2 ^ 7 * 1000003 % 2 ^ 64 ^^^ n)
include h

/-- The shift of the seed puts seven zeros behind the bits that are known to agree, and so the next
seven agree too. -/
theorem modEq_of_seed_eq {k : Nat} (hk : k + 7 ≤ 64) (hmn : m ≡ n [MOD 2 ^ k]) :
    m ≡ n [MOD 2 ^ (k + 7)] := by
  have hproduct : m * 2 ^ 7 * 1000003 ≡ n * 2 ^ 7 * 1000003 [MOD 2 ^ (k + 7)] := by
    rw [Nat.pow_add]
    exact (hmn.mul_right' (2 ^ 7)).mul_right 1000003
  -- The lowest bits of either side are those of the product and of the number, each taken alone.
  have hdvd : 2 ^ (k + 7) ∣ 2 ^ 64 := Nat.pow_dvd_pow 2 hk
  have hlow := congrArg (· % 2 ^ (k + 7)) h
  simp only [Nat.xor_mod_two_pow, Nat.mod_mod_of_dvd _ hdvd] at hlow
  rw [hproduct] at hlow
  exact Nat.xor_right_inj.1 hlow

theorem modEq_of_seed_eq_rounds {rounds : Nat} (hr : 7 * rounds ≤ 64) :
    m ≡ n [MOD 2 ^ (7 * rounds)] := by
  induction rounds with
  | zero => exact Nat.modEq_one
  | succ rounds ih => exact modEq_of_seed_eq h hr (ih (by omega))

end

/-- A first code point is told from the state that it leaves: five rounds of seven bits are more
than it has. -/
theorem mix_seed_injective : Function.Injective fun c : CodePoint => mix (c.toUInt64 <<< 7) c := by
  intro c d h
  have hnat := congrArg UInt64.toNat h
  simp only [toNat_mix_seed] at hnat
  have hmod : c.toNat ≡ d.toNat [MOD 2 ^ (7 * 5)] := modEq_of_seed_eq_rounds hnat (by decide)
  have hc := c.toNat_lt
  have hd := d.toNat_lt
  exact UInt32.toNat_inj.1 (hmod.eq_of_lt_of_lt (by omega) (by omega))

/-- One code point in the place of another leaves another state, wherever it stands. -/
theorem hashState_substitution (before after : List CodePoint) :
    Function.Injective fun c : CodePoint => hashState (before ++ c :: after) := by
  cases before with
  | nil => exact (foldl_mix_injective after).comp mix_seed_injective
  | cons b bs =>
    -- Behind a first code point that is the same, the seeds agree and so do the states before `c`.
    intro c d h
    simp only [hashState, List.cons_append, List.foldl_cons, List.foldl_append] at h
    exact mix_right_injective _ (foldl_mix_injective after h)

/-- Two values that are folded into one are the reserved value and its neighbour. -/
theorem eq_of_avoidReserved_eq {g h : Int64} (he : avoidReserved g = avoidReserved h) :
    g = h ∨ avoidReserved g = -2 ∧ avoidReserved h = -2 := by
  by_cases hg : g = -1
  · have hfolded : avoidReserved g = -2 := if_pos hg
    exact .inr ⟨hfolded, he ▸ hfolded⟩
  by_cases hh : h = -1
  · have hfolded : avoidReserved h = -2 := if_pos hh
    exact .inr ⟨he.trans hfolded, hfolded⟩
  rw [avoidReserved, avoidReserved, if_neg hg, if_neg hh] at he
  exact .inl he

theorem exists_substitution {α : Type} {as bs : List α} (hlen : as.length = bs.length)
    (h : ∃! i : Nat, as[i]? ≠ bs[i]?) :
    ∃ before after x y, x ≠ y ∧ as = before ++ x :: after ∧ bs = before ++ y :: after := by
  obtain ⟨i, hi, hunique⟩ := h
  have hother : ∀ j, j ≠ i → as[j]? = bs[j]? := fun j hj => by
    by_contra hne
    exact hj (hunique j hne)
  have ha : i < as.length := by
    by_contra hge
    rw [List.getElem?_eq_none (by omega), List.getElem?_eq_none (by omega)] at hi
    exact hi rfl
  have hb : i < bs.length := hlen ▸ ha
  have htake : as.take i = bs.take i := List.ext_getElem? fun j => by
    rw [List.getElem?_take, List.getElem?_take]
    split
    · exact hother j (by omega)
    · rfl
  have hdrop : as.drop (i + 1) = bs.drop (i + 1) := List.ext_getElem? fun j => by
    rw [List.getElem?_drop, List.getElem?_drop]
    exact hother _ (by omega)
  refine ⟨as.take i, as.drop (i + 1), as[i], bs[i], fun he => hi ?_, ?_, ?_⟩
  · rw [List.getElem?_eq_getElem ha, List.getElem?_eq_getElem hb, he]
  · rw [List.getElem_cons_drop, List.take_append_drop]
  · rw [htake, hdrop, List.getElem_cons_drop, List.take_append_drop]

/-- A single code point in the place of another changes the hash, at the first position as at any
other, unless both texts hash to the value that the reserved one is folded into. -/
theorem substitution_changes_hash {a b : Text} (ha : a.WellFormed) (hb : b.WellFormed)
    (hlen : a.length = b.length) (h : ∃! i, a.get? i ≠ b.get? i) :
    a.hashValue ≠ b.hashValue ∨ a.hashValue = -2 ∧ b.hashValue = -2 := by
  simp only [get?_eq ha, get?_eq hb] at h
  have hcount : a.codePoints.length = b.codePoints.length := by
    rw [← length_eq ha, ← length_eq hb, hlen]
  obtain ⟨before, after, x, y, hxy, hcsa, hcsb⟩ := exists_substitution hcount h
  have hstates : hashState a.codePoints ≠ hashState b.codePoints := fun he => by
    rw [hcsa, hcsb] at he
    exact hxy (hashState_substitution before after he)
  have hva := hashValue_of_ne_nil (t := a) (by simp [hcsa])
  have hvb := hashValue_of_ne_nil (t := b) (by simp [hcsb])
  rw [hva, hvb, hlen]
  refine or_iff_not_imp_left.2 fun hsame => ?_
  rcases eq_of_avoidReserved_eq (not_not.1 hsame) with hwords | hfolded
  · exact absurd ((UInt64.xor_left_inj _).1 (congrArg Int64.toUInt64 hwords)) hstates
  · exact hfolded

/-- The first letter of a string against another one in wide storage. The second pair is one of
those that the folding makes alike: the hash of the first text would be the reserved value, and in
the last code point of the second only the lowest bit is another. -/
theorem hashes_of_substituted_letters :
    (∃! i, (ofString "na").get? i ≠ (wide [0x6D, 0x61]).get? i) ∧
      (ofString "na").hashValue ≠ (wide [0x6D, 0x61]).hashValue ∧
      (∃! i, (wide [0x39B, 0x233A, 0xD1504, 0xBCF4]).get? i ≠
        (wide [0x39B, 0x233A, 0xD1504, 0xBCF5]).get? i) ∧
      (wide [0x39B, 0x233A, 0xD1504, 0xBCF4]).hashValue = -2 ∧
      (wide [0x39B, 0x233A, 0xD1504, 0xBCF5]).hashValue = -2 := by
  have hna := wellFormed_ofString "na"
  have hfirst : ∃! i, (ofString "na").get? i ≠ (wide [0x6D, 0x61]).get? i := by
    refine ⟨0, by decide +kernel, fun j hj => ?_⟩
    simp only [get?_eq hna] at hj
    rcases j with _ | _ | j
    · rfl
    · exact absurd rfl hj
    · exact absurd rfl hj
  have hlast : ∃! i, (wide [0x39B, 0x233A, 0xD1504, 0xBCF4]).get? i ≠
      (wide [0x39B, 0x233A, 0xD1504, 0xBCF5]).get? i := by
    refine ⟨3, by decide, fun j hj => ?_⟩
    rcases j with _ | _ | _ | _ | j
    · exact absurd rfl hj
    · exact absurd rfl hj
    · exact absurd rfl hj
    · rfl
    · exact absurd rfl hj
  have hletters := substitution_changes_hash hna (by decide) (by decide +kernel) hfirst
  have hfolded := substitution_changes_hash (a := wide [0x39B, 0x233A, 0xD1504, 0xBCF4])
    (b := wide [0x39B, 0x233A, 0xD1504, 0xBCF5]) (by decide) (by decide) rfl hlast
  exact ⟨hfirst, hletters.resolve_right fun h => absurd h.1 (by decide +kernel), hlast,
    hfolded.resolve_left (not_not.2 (by decide +kernel))⟩

end Text
end CodePointText
