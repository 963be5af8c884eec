import CodePointText.Text.Basic

/-!
# Equality and order of texts

Texts are equal when their code points are, and ordered lexicographically by code point, whichever
storages hold them. Two compact texts are compared by their bytes; an operand in wide storage takes
the comparison to code points.
-/

namespace CodePointText
namespace Text

def equal : Text → Text → Bool
  | .compact s _ _, .compact t _ _ => s == t
  | .wide as, .wide bs => as == bs
  | a, b => (a.toSequence.equal b.toSequence).answer

def equalString (a : Text) (s : String) : Bool :=
  match a with
  | .compact t _ _ => t == s
  | .wide _ => (a.toSequence.equal (Sequence.ofString s)).answer

/-- Order of content. The order of UTF-8 bytes is the order of the code points they encode. -/
def order : Text → Text → Ordering
  | .compact s _ _, .compact t _ _ => compare (Utf8.bytes s) (Utf8.bytes t)
  | a, b => (a.toSequence.order b.toSequence).answer

def firstEqual (texts : List Text) (t : Text) : Nat := texts.findIdx t.equal

/-- The texts in ascending order; equal ones keep their places among each other. -/
def sort (texts : List Text) : List Text := texts.mergeSort fun a b => (a.order b).isLE

theorem honest_toSequence {t : Text} (h : t.WellFormed) : t.toSequence.Honest := by
  cases t with
  | compact s n ascii => simp [Sequence.Honest, toSequence, length, codePoints, h.1,
      String.length_toList]
  | wide cs => rfl

theorem map_ofChar_inj {as bs : List Char} :
    as.map CodePoint.ofChar = bs.map CodePoint.ofChar ↔ as = bs :=
  List.map_inj_right fun _ _ h => CodePoint.ofChar_injective h

theorem equal_eq {a b : Text} (ha : a.WellFormed) (hb : b.WellFormed) :
    a.equal b = decide (a.codePoints = b.codePoints) := by
  cases a with
  | compact s n x =>
    cases b with
    | compact t m y =>
      rw [Bool.eq_iff_iff]
      simp [equal, codePoints, map_ofChar_inj, String.toList_inj]
    | wide bs => exact Sequence.equal_answer_of_honest (honest_toSequence ha) (honest_toSequence hb)
  | wide as =>
    cases b with
    | compact t m y =>
      exact Sequence.equal_answer_of_honest (honest_toSequence ha) (honest_toSequence hb)
    | wide bs => rw [Bool.eq_iff_iff, equal, beq_iff_eq, decide_eq_true_iff]; rfl

end Text
end CodePointText
