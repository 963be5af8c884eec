import CodePointText.Proofs.Comparison
import CodePointText.Proofs.Text.Storage

/-!
# Texts concatenated

Concatenation is associative down to the storage. Whether a result is compact depends on which
operands are empty, and what it remembers of its string is put together from what the operands
remember.
-/

namespace CodePointText
namespace Text

section

variable {a b : Text} (ha : a.WellFormed) (hb : b.WellFormed)
include ha hb

theorem length_concat : (a.concat b).length = a.length + b.length := by
  rw [length_eq (wellFormed_concat ha hb), codePoints_concat ha hb, List.length_append,
    ← length_eq ha, ← length_eq hb]

theorem isAscii_concat : (a.concat b).isAscii = (a.isAscii && b.isAscii) := by
  rw [isAscii_eq (wellFormed_concat ha hb), codePoints_concat ha hb, List.all_append,
    ← isAscii_eq ha, ← isAscii_eq hb]

theorem isEmpty_concat : (a.concat b).isEmpty = (a.isEmpty && b.isEmpty) := by
  rw [Bool.eq_iff_iff, isEmpty_iff (wellFormed_concat ha hb), codePoints_concat ha hb,
    List.append_eq_nil_iff, Bool.and_eq_true, isEmpty_iff ha, isEmpty_iff hb]

end

section

variable {a b c : Text} (ha : a.WellFormed) (hb : b.WellFormed) (hc : c.WellFormed)
include ha hb hc

/-- However three texts are grouped, the same one of them settles the storage, or all that are not
empty do. -/
theorem isCompact_concat_assoc :
    ((a.concat b).concat c).isCompact = (a.concat (b.concat c)).isCompact := by
  rw [isCompact_concat, isCompact_concat, isCompact_concat, isCompact_concat, isEmpty_concat ha hb,
    isEmpty_concat hb hc]
  -- Which of the operands are empty settles all of the conditions.
  cases a.isEmpty <;> cases b.isEmpty <;> cases c.isEmpty <;> simp [Bool.and_assoc]

theorem concat_assoc : (a.concat b).concat c = a.concat (b.concat c) := by
  have hab := wellFormed_concat ha hb
  have hbc := wellFormed_concat hb hc
  refine eq_of_codePoints_eq (wellFormed_concat hab hc) (wellFormed_concat ha hbc) ?_
    (isCompact_concat_assoc ha hb hc)
  calc ((a.concat b).concat c).codePoints
      = a.codePoints ++ b.codePoints ++ c.codePoints := by
        rw [codePoints_concat hab hc, codePoints_concat ha hb]
    _ = a.codePoints ++ (b.codePoints ++ c.codePoints) := List.append_assoc ..
    _ = (a.concat (b.concat c)).codePoints := by
        rw [codePoints_concat ha hbc, codePoints_concat hb hc]

end

theorem codePoints_foldl_concat {items : List Text} (hitems : ∀ u ∈ items, u.WellFormed) {a : Text}
    (ha : a.WellFormed) :
    (items.foldl concat a).WellFormed ∧
      (items.foldl concat a).codePoints = a.codePoints ++ items.flatMap codePoints := by
  induction items generalizing a with
  | nil => exact ⟨ha, (List.append_nil _).symm⟩
  | cons u items ih =>
    rw [List.forall_mem_cons] at hitems
    obtain ⟨hwf, hcs⟩ := ih hitems.2 (wellFormed_concat ha hitems.1)
    refine ⟨hwf, ?_⟩
    rw [List.foldl_cons, hcs, codePoints_concat ha hitems.1, List.flatMap_cons, List.append_assoc]

/-- Concatenation is a monoid, exact down to the storage. The code points of the operands follow one
another; the length and the mark for ASCII that are remembered are those of the operands together;
grouping makes no difference to the code points or to their storage; the empty text is neutral, an
empty operand leaves the other one as it is stored, and of two others the result is compact if both
are. -/
theorem concatenation_exact {a b c : Text} (ha : a.WellFormed) (hb : b.WellFormed)
    (hc : c.WellFormed) :
    (a.concat b).codePoints = a.codePoints ++ b.codePoints ∧
    (a.concat b).length = a.length + b.length ∧
    (a.concat b).isAscii = (a.isAscii && b.isAscii) ∧
    (a.concat b).concat c = a.concat (b.concat c) ∧
    (b.codePoints = [] → a.concat b = a) ∧
    (a.codePoints = [] → b.codePoints ≠ [] → a.concat b = b) ∧
    (a.codePoints ≠ [] → b.codePoints ≠ [] →
      ((a.concat b).isCompact ↔ a.isCompact ∧ b.isCompact)) ∧
    a.concat .empty = a ∧ (Text.empty.concat a).equal a := by
  have hempty : Text.empty.WellFormed := wellFormed_ofString ""
  refine ⟨codePoints_concat ha hb, length_concat ha hb, isAscii_concat ha hb,
    concat_assoc ha hb hc, fun h => ?_, fun h h' => ?_, fun h h' => ?_, ?_, ?_⟩
  · exact concat_empty_right ((isEmpty_iff hb).2 h)
  · exact concat_empty_left ((isEmpty_iff ha).2 h) fun he => h' ((isEmpty_iff hb).1 he)
  · rw [isCompact_concat, if_neg (mt (isEmpty_iff hb).1 h'), if_neg (mt (isEmpty_iff ha).1 h),
      Bool.and_eq_true]
  · exact concat_empty_right rfl
  · rw [equal_iff (wellFormed_concat hempty ha) ha, codePoints_concat hempty ha]
    rfl

/-- An empty wide text between a compact one and a wide one: the storage of the result is settled by
the other two. -/
theorem concatenation_of_wide_empty :
    (ofString "é").WellFormed ∧ (wide []).WellFormed ∧ (wide [0xD800]).WellFormed ∧
      ((ofString "é").concat (wide [])).concat (wide [0xD800]) =
        (ofString "é").concat ((wide []).concat (wide [0xD800])) ∧
      (ofString "é").concat (wide []) = ofString "é" ∧
      (wide []).concat (wide [0xD800]) = wide [0xD800] ∧
      ¬ ((ofString "é").concat (wide [0xD800])).isCompact := by
  have ha := wellFormed_ofString "é"
  have hb : (wide []).WellFormed := by decide
  have hc : (wide [0xD800]).WellFormed := by decide
  obtain ⟨_, _, _, hassoc, hright, _⟩ := concatenation_exact ha hb hc
  obtain ⟨_, _, _, _, _, hleft, _⟩ := concatenation_exact hb hc ha
  obtain ⟨_, _, _, _, _, _, hboth, _⟩ := concatenation_exact ha hc hb
  refine ⟨ha, hb, hc, hassoc, hright rfl, hleft rfl (by decide), ?_⟩
  rw [hboth (by decide) (by decide)]
  exact fun h => absurd h.2 (by decide)

end Text
end CodePointText
