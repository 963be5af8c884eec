import CodePointText.Proofs.Occurrence
import CodePointText.Proofs.Occurrence.Rounds
import CodePointText.Text.Replace
import CodePointText.Text.Search

/-!
# Contents searched and replaced

What is done on the bytes of compact texts comes to what is done on the code points.
-/

namespace CodePointText
namespace Text

open Occurrence

theorem synchronizing_ofChar : Synchronizing fun c : Char => [CodePoint.ofChar c] :=
  synchronizing_singleton CodePoint.ofChar_injective

theorem contains_eq (t pattern : Text) :
    t.contains pattern = (first? pattern.codePoints t.codePoints).isSome := by
  unfold contains
  split
  · next s n x p m y =>
    rw [codePoints_compact, codePoints_compact, List.map_eq_flatMap, List.map_eq_flatMap,
      Utf8.bytes_eq_flatMap, Utf8.bytes_eq_flatMap, isSome_first?_flatMap synchronizing_ofChar,
      isSome_first?_flatMap synchronizing_encodeChar]
  · rfl

/-- Replacement on the bytes of a string is replacement on its characters. -/
theorem replaceString_of_ne_nil (s : String) {pattern : String} (hp : pattern.toList ≠ [])
    (substitute : String) (limit : Option Nat) :
    replaceString s pattern substitute limit =
      String.ofList (Occurrence.replace pattern.toList substitute.toList
        (limit.getD s.toList.length) s.toList) := by
  have hs : ¬ pattern.isEmpty = true := by
    rw [String.isEmpty_iff, ← String.toList_eq_nil_iff]
    exact hp
  have hb (n : Nat) : Occurrence.replace (Utf8.bytes pattern) (Utf8.bytes substitute) n
      (Utf8.bytes s) =
        Utf8.bytes
          (String.ofList (Occurrence.replace pattern.toList substitute.toList n s.toList)) := by
    rw [Utf8.bytes_eq_flatMap, Utf8.bytes_eq_flatMap, Utf8.bytes_eq_flatMap,
      replace_flatMap synchronizing_encodeChar hp, Utf8.bytes_ofList]
  rw [replaceString, if_neg hs]
  dsimp only
  rw [hb, Utf8.ofBytes_bytes]
  cases limit with
  | some n => rfl
  | none =>
    have hl : s.toList.length ≤ (Utf8.bytes s).length := by
      rw [Utf8.bytes_eq_encode]
      exact Utf8.length_le_length_encode s.toList
    rw [Option.getD_none, Option.getD_none,
      replace_of_length_le hp substitute.toList hl (Nat.le_refl _)]

theorem map_replaceString (s pattern substitute : String) (limit : Option Nat) :
    (replaceString s pattern substitute limit).toList.map CodePoint.ofChar =
      replaceCodePoints (s.toList.map CodePoint.ofChar) (pattern.toList.map CodePoint.ofChar)
        (substitute.toList.map CodePoint.ofChar) limit := by
  by_cases hp : pattern.toList = []
  · have hs : pattern.isEmpty = true := by
      rw [String.isEmpty_iff, ← String.toList_eq_nil_iff, hp]
    rw [replaceString, if_pos hs, replaceCodePoints, hp, List.map_nil, List.isEmpty_nil, if_pos rfl,
      String.toList_ofList, insertBetween_map, List.length_map, String.length_toList]
  · have hm : ¬ (pattern.toList.map CodePoint.ofChar).isEmpty = true := by
      rw [List.isEmpty_iff, List.map_eq_nil_iff]
      exact hp
    rw [replaceString_of_ne_nil s hp, replaceCodePoints, if_neg hm, String.toList_ofList,
      List.length_map]
    simp only [List.map_eq_flatMap]
    exact (replace_flatMap synchronizing_ofChar hp _ _ _).symm

theorem replaceCodePoints_limit_zero (cs pattern substitute : List CodePoint) :
    replaceCodePoints cs pattern substitute (some 0) = cs := by
  unfold replaceCodePoints
  split
  · cases cs <;> rfl
  · exact replace_zero pattern substitute cs

/-- Replacement is done on the code points. -/
theorem codePoints_replace (t pattern substitute : Text) (limit : Option Nat) :
    (t.replace pattern substitute limit).codePoints =
      replaceCodePoints t.codePoints pattern.codePoints substitute.codePoints limit := by
  unfold Text.replace
  split
  · next h => rw [h, replaceCodePoints_limit_zero]
  · split
    · exact map_replaceString _ _ _ limit
    · rfl

theorem mem_replaceCodePoints {cs pattern substitute : List CodePoint} {limit : Option Nat}
    {c : CodePoint} (h : c ∈ replaceCodePoints cs pattern substitute limit) :
    c ∈ substitute ∨ c ∈ cs := by
  unfold replaceCodePoints at h
  split at h
  · exact mem_insertBetween h
  · exact mem_replace h

theorem wellFormed_replace {t substitute : Text} (ht : t.WellFormed) (hs : substitute.WellFormed)
    (pattern : Text) (limit : Option Nat) : (t.replace pattern substitute limit).WellFormed := by
  unfold Text.replace
  split
  · exact ht
  · split
    · exact wellFormed_ofString _
    · intro c hc
      rcases mem_replaceCodePoints hc with h | h
      · exact inRange_of_mem hs h
      · exact inRange_of_mem ht h

end Text
end CodePointText
