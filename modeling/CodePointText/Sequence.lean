import CodePointText.CodePoint

/-!
# Sequences of code points and counted comparison

A sequence reports a length and can be traversed any number of times; nothing forces the report to
be true. The comparisons walk two traversals in step and carry the number of items that each side
has yielded. An attempt to read past the end yields nothing and is not counted.
-/

namespace CodePointText

structure Sequence where
  /-- The items of one traversal. -/
  items : List CodePoint
  /-- The length that the sequence reports. -/
  reported : Nat
  deriving DecidableEq, Repr

/-- An answer together with the reads it took on the left and on the right. -/
structure Scan (α : Type) where
  answer : α
  leftReads : Nat
  rightReads : Nat
  deriving DecidableEq, Repr

namespace Scan

def afterPair {α : Type} (s : Scan α) : Scan α :=
  ⟨s.answer, s.leftReads + 1, s.rightReads + 1⟩

@[simp] theorem afterPair_answer {α : Type} (s : Scan α) : s.afterPair.answer = s.answer := rfl

@[simp] theorem afterPair_leftReads {α : Type} (s : Scan α) :
    s.afterPair.leftReads = s.leftReads + 1 := rfl

@[simp] theorem afterPair_rightReads {α : Type} (s : Scan α) :
    s.afterPair.rightReads = s.rightReads + 1 := rfl

def totalReads {α : Type} (s : Scan α) : Nat := s.leftReads + s.rightReads

end Scan

namespace Sequence

def ofList (items : List CodePoint) : Sequence := ⟨items, items.length⟩

def ofChars (chars : List Char) : Sequence := ofList (chars.map CodePoint.ofChar)

def ofString (s : String) : Sequence := ofChars s.toList

def isEmpty (s : Sequence) : Bool := s.reported == 0

/-- The report agrees with the traversal. -/
def Honest (s : Sequence) : Prop := s.reported = s.items.length

theorem honest_ofList (items : List CodePoint) : (ofList items).Honest := rfl

theorem honest_ofChars (chars : List Char) : (ofChars chars).Honest := rfl

theorem honest_ofString (s : String) : (ofString s).Honest := rfl

/-- Whether the left items begin the right ones, stopping at the first difference. -/
def scanEqual : List CodePoint → List CodePoint → Scan Bool
  | [], _ => ⟨true, 0, 0⟩
  | _ :: _, [] => ⟨false, 1, 0⟩
  | a :: as, b :: bs => if a = b then (scanEqual as bs).afterPair else ⟨false, 1, 1⟩

/-- The order of two lists of items. When the left one ends, one more item is asked of the right. -/
def scanOrder : List CodePoint → List CodePoint → Scan Ordering
  | [], [] => ⟨.eq, 0, 0⟩
  | [], _ :: _ => ⟨.lt, 0, 1⟩
  | _ :: _, [] => ⟨.gt, 1, 0⟩
  | a :: as, b :: bs =>
    match Ord.compare a b with
    | .eq => (scanOrder as bs).afterPair
    | o => ⟨o, 1, 1⟩

/-- Equality. Sequences that report different lengths differ, and nothing is read. -/
def equal (a b : Sequence) : Scan Bool :=
  if a.reported = b.reported then scanEqual a.items b.items else ⟨false, 0, 0⟩

/-- Lexicographic order by code point; the reported lengths are not asked for. -/
def order (a b : Sequence) : Scan Ordering := scanOrder a.items b.items

theorem scanEqual_answer (as bs : List CodePoint) :
    (scanEqual as bs).answer = as.isPrefixOf bs := by
  induction as generalizing bs with
  | nil => rfl
  | cons a as ih =>
    cases bs with
    | nil => rfl
    | cons b bs => by_cases h : a = b <;> simp [scanEqual, List.isPrefixOf, h, ih]

theorem scanOrder_answer (as bs : List CodePoint) :
    (scanOrder as bs).answer = Ord.compare as bs := by
  induction as generalizing bs with
  | nil => cases bs <;> rfl
  | cons a as ih =>
    cases bs with
    | nil => rfl
    | cons b bs =>
      rw [List.compare_cons_cons, scanOrder]
      cases h : Ord.compare a b <;> simp [ih]

theorem equal_answer_of_honest {a b : Sequence} (ha : a.Honest) (hb : b.Honest) :
    (a.equal b).answer = decide (a.items = b.items) := by
  unfold equal
  split
  · next h =>
    have hl : a.items.length = b.items.length := by rw [← ha, ← hb, h]
    rw [scanEqual_answer, Bool.eq_iff_iff, List.isPrefixOf_iff_prefix, decide_eq_true_iff]
    exact ⟨fun hp => hp.eq_of_length hl, fun he => he ▸ List.prefix_refl _⟩
  · next h =>
    refine (decide_eq_false ?_).symm
    intro he
    exact h (by rw [ha, hb, he])

end Sequence
end CodePointText
