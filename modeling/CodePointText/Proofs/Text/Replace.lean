import CodePointText.Proofs.Comparison
import CodePointText.Proofs.Text.Find
import CodePointText.Proofs.Text.Storage

/-!
# Occurrences replaced

Replacement cuts a text at the leftmost occurrences of a pattern, as many as are counted and as the
limit allows, and joins the pieces by what is put in. The empty pattern has a place before every
character and one at the end, which are filled from the left.
-/

namespace CodePointText

namespace Occurrence

/-- The places that are filled are those before the first items, and the one at the end if there are
as many insertions as places. -/
theorem insertBetween_eq {α : Type} (insertion : List α) {limit k : Nat} {text : List α}
    (hk : k = min limit (text.length + 1)) :
    insertBetween insertion limit text =
      (text.take k).flatMap (insertion ++ [·]) ++ text.drop k ++
        if k = text.length + 1 then insertion else [] := by
  subst hk
  induction text generalizing limit with
  | nil => cases limit <;> simp [insertBetween]
  | cons x xs ih =>
    cases limit with
    | zero => simp [insertBetween]
    | succ n =>
      have hmin : min (n + 1) ((x :: xs).length + 1) = min n (xs.length + 1) + 1 := by
        rw [List.length_cons, Nat.add_min_add_right]
      rw [insertBetween, ih, hmin, List.take_succ_cons, List.drop_succ_cons, List.flatMap_cons,
        List.length_cons]
      simp

end Occurrence

namespace Text

open Occurrence

/-- How many occurrences are replaced: all that are counted, or as many as the limit allows. -/
def replaced (t pattern : Text) (limit : Option Nat) : Nat :=
  limit.elim (t.count pattern none none) (min · (t.count pattern none none))

section

variable {t pattern : Text}

theorem replaced_of_nil (hnil : pattern.codePoints = []) (limit : Option Nat) :
    t.replaced pattern limit =
      min (limit.getD (t.codePoints.length + 1)) (t.codePoints.length + 1) := by
  rw [replaced, count_none_none, if_pos hnil]
  cases limit with
  | none => exact (Nat.min_self _).symm
  | some n => rfl

theorem replaced_of_ne_nil (hne : pattern.codePoints ≠ []) (limit : Option Nat) :
    t.replaced pattern limit =
      min (limit.getD t.codePoints.length)
        (Occurrence.count pattern.codePoints t.codePoints) := by
  rw [replaced, count_none_none, if_neg hne]
  cases limit with
  | none => exact (Nat.min_eq_right (count_le_length hne t.codePoints)).symm
  | some n => rfl

theorem codePoints_replace_of_nil (hnil : pattern.codePoints = []) (substitute : Text)
    (limit : Option Nat) :
    (t.replace pattern substitute limit).codePoints =
      insertBetween substitute.codePoints (limit.getD (t.codePoints.length + 1))
        t.codePoints := by
  rw [codePoints_replace, replaceCodePoints, if_pos (List.isEmpty_iff.2 hnil)]

theorem codePoints_replace_of_ne_nil (hne : pattern.codePoints ≠ []) (substitute : Text)
    (limit : Option Nat) :
    (t.replace pattern substitute limit).codePoints =
      Occurrence.replace pattern.codePoints substitute.codePoints
        (limit.getD t.codePoints.length) t.codePoints := by
  rw [codePoints_replace, replaceCodePoints, if_neg (by rwa [List.isEmpty_iff])]

theorem exists_rounds_replace (hne : pattern.codePoints ≠ []) (substitute : Text)
    (limit : Option Nat) :
    ∃ passed rest, Rounds pattern.codePoints t.codePoints passed rest ∧
      passed.length = t.replaced pattern limit ∧
      (limit = some passed.length ∨ cut? pattern.codePoints rest = none) ∧
      (t.replace pattern substitute limit).codePoints =
        passed.flatMap (· ++ substitute.codePoints) ++ rest := by
  rw [replaced_of_ne_nil hne, codePoints_replace_of_ne_nil hne]
  cases limit with
  | none =>
    obtain ⟨passed, rest, hrounds, hnone, _⟩ := exists_rounds_count hne t.codePoints
    have hend := hrounds.ended_of_length_le hne hnone (Nat.le_refl t.codePoints.length)
    exact ⟨passed, rest, hrounds, hrounds.length_eq_min hne hend, .inr hnone,
      hrounds.replace_eq hend _⟩
  | some n =>
    obtain ⟨passed, rest, hrounds, hend⟩ := exists_rounds pattern.codePoints n t.codePoints
    exact ⟨passed, rest, hrounds, hrounds.length_eq_min hne hend,
      hend.imp (fun hlength => congrArg some hlength.symm) And.right, hrounds.replace_eq hend _⟩

theorem length_codePoints_replace (substitute : Text) (limit : Option Nat) :
    ((t.replace pattern substitute limit).codePoints.length : Int) =
      t.codePoints.length + t.replaced pattern limit *
        (substitute.codePoints.length - pattern.codePoints.length) := by
  by_cases hnil : pattern.codePoints = []
  · rw [codePoints_replace_of_nil hnil, replaced_of_nil hnil, length_insertBetween, hnil,
      List.length_nil, Int.natCast_add, Int.natCast_mul, Int.natCast_zero, Int.sub_zero]
  · have hlength : (t.replace pattern substitute limit).codePoints.length +
        t.replaced pattern limit * pattern.codePoints.length =
          t.codePoints.length + t.replaced pattern limit * substitute.codePoints.length := by
      rw [replaced_of_ne_nil hnil, codePoints_replace_of_ne_nil hnil]
      exact length_replace hnil substitute.codePoints _
    rw [Int.mul_sub]
    omega

theorem codePoints_replace_self (limit : Option Nat) :
    (t.replace pattern pattern limit).codePoints = t.codePoints := by
  by_cases hnil : pattern.codePoints = []
  · rw [codePoints_replace_of_nil hnil, hnil, insertBetween_eq [] rfl]
    simp
  · rw [codePoints_replace_of_ne_nil hnil, replace_self]

end

/-- Replacement is leftmost splitting and joining, in any storages. For a pattern that is not empty
the text is cut at its first occurrences in one way only, and the result is the pieces joined by the
substitute; the rounds of the search come to an end, at the limit or because nothing is found any
more. For the empty pattern the substitute goes before the first characters, and to the end if all
places are filled. So the length is known, and to replace a pattern by itself changes nothing. The
result is compact if all operands are, but a limit of zero leaves the text as it is stored. -/
theorem replacement_exact {t pattern substitute : Text} (ht : t.WellFormed)
    (hp : pattern.WellFormed) (hs : substitute.WellFormed) (limit : Option Nat) :
    (pattern.codePoints ≠ [] →
      (∃! pieces, pieces.length = t.replaced pattern limit + 1 ∧
        CutLeftmost pattern.codePoints t.codePoints pieces) ∧
      (∀ pieces, pieces.length = t.replaced pattern limit + 1 →
        CutLeftmost pattern.codePoints t.codePoints pieces →
        (t.replace pattern substitute limit).codePoints =
          substitute.codePoints.intercalate pieces) ∧
      (∃ passed rest, Rounds pattern.codePoints t.codePoints passed rest ∧
        passed.length = t.replaced pattern limit ∧
        (limit = some passed.length ∨ cut? pattern.codePoints rest = none) ∧
        (t.replace pattern substitute limit).codePoints =
          passed.flatMap (· ++ substitute.codePoints) ++ rest)) ∧
    (pattern.codePoints = [] →
      (t.replace pattern substitute limit).codePoints =
        (t.codePoints.take (t.replaced pattern limit)).flatMap (substitute.codePoints ++ [·]) ++
          t.codePoints.drop (t.replaced pattern limit) ++
          if t.replaced pattern limit = t.length + 1 then substitute.codePoints else []) ∧
    ((t.replace pattern substitute limit).length : Int) =
      t.length + t.replaced pattern limit * (substitute.length - pattern.length) ∧
    (t.replace pattern pattern limit).equal t ∧
    (limit = some 0 → t.replace pattern substitute limit = t) ∧
    (limit ≠ some 0 → ((t.replace pattern substitute limit).isCompact ↔
      t.isCompact ∧ pattern.isCompact ∧ substitute.isCompact)) := by
  refine ⟨fun hne => ⟨?_, fun pieces hlength hcut => ?_, exists_rounds_replace hne substitute limit⟩,
    fun hnil => ?_, ?_, ?_, fun h0 => ?_, fun h0 => ?_⟩
  · rw [replaced_of_ne_nil hne]
    exact existsUnique_cutLeftmost hne (Nat.min_le_right _ _)
  · rw [replaced_of_ne_nil hne] at hlength
    rw [codePoints_replace_of_ne_nil hne, replace_eq_intercalate hne hcut hlength]
  · rw [codePoints_replace_of_nil hnil, length_eq ht, insertBetween_eq _ (replaced_of_nil hnil limit)]
  · rw [length_eq (wellFormed_replace ht hs pattern limit), length_eq ht, length_eq hp,
      length_eq hs, length_codePoints_replace]
  · rw [equal_iff (wellFormed_replace ht hp pattern limit) ht, codePoints_replace_self]
  · rw [h0, replace_limit_zero]
  · rw [isCompact_replace, if_neg h0, Bool.and_eq_true, Bool.and_eq_true, and_assoc]

/-- Behind a surrogate the pattern stands at four positions. Two of them do not overlap and are taken,
fewer than the limit allows, and a single letter is left. -/
theorem replacement_behind_surrogate :
    (wide [0xD800, 0x61, 0x61, 0x61, 0x61, 0x61]).WellFormed ∧ (ofString "aa").WellFormed ∧
      (ofString "é").WellFormed ∧ (ofString "aa").codePoints ≠ [] ∧
      ∃ pieces, pieces.length = 3 ∧
        CutLeftmost (ofString "aa").codePoints [0xD800, 0x61, 0x61, 0x61, 0x61, 0x61] pieces ∧
        (ofString "é").codePoints.intercalate pieces = [0xD800, 0xE9, 0xE9, 0x61] := by
  have ht : (wide [0xD800, 0x61, 0x61, 0x61, 0x61, 0x61]).WellFormed := by decide
  have hp : (ofString "aa").WellFormed := wellFormed_ofString "aa"
  have hs : (ofString "é").WellFormed := wellFormed_ofString "é"
  have hne : (ofString "aa").codePoints ≠ [] := by decide
  have hreplaced : (wide [0xD800, 0x61, 0x61, 0x61, 0x61, 0x61]).replaced (ofString "aa")
      (some 3) = 2 := by decide
  have hresult : ((wide [0xD800, 0x61, 0x61, 0x61, 0x61, 0x61]).replace (ofString "aa")
      (ofString "é") (some 3)).codePoints = [0xD800, 0xE9, 0xE9, 0x61] := by decide
  obtain ⟨hpieces, _⟩ := replacement_exact ht hp hs (some 3)
  obtain ⟨⟨pieces, ⟨hlength, hcut⟩, _⟩, hjoin, _⟩ := hpieces hne
  have hjoined := hjoin pieces hlength hcut
  rw [hreplaced] at hlength
  rw [hresult] at hjoined
  exact ⟨ht, hp, hs, hne, pieces, hlength, hcut, hjoined.symm⟩

end Text
end CodePointText
