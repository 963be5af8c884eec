import CodePointText.Proofs.Sequence.Scan
import Mathlib.Logic.Function.Basic

/-!
# What a comparison reads

The loops of the two comparisons, with a meter for each sequence that every single read moves on.
They answer what the scans do and move the meters by the counts of the scans. A sequence that is
compared with itself is traversed twice and has one meter, which shows both counts together.
-/

namespace CodePointText

/-- How many items have been read from each of some sequences, over all traversals. -/
abbrev Meters (ι : Type) := ι → Nat

namespace Meters

variable {ι : Type} [DecidableEq ι]

def read (m : Meters ι) (i : ι) : Meters ι := Function.update m i (m i + 1)

def after (m : Meters ι) (i j : ι) (left right : Nat) : Meters ι := fun x =>
  m x + (if x = i then left else 0) + (if x = j then right else 0)

variable (m : Meters ι) (i j : ι)

@[simp] theorem after_zero : m.after i j 0 0 = m := by
  funext x
  simp [after]

theorem after_swap (left right : Nat) : m.after j i right left = m.after i j left right := by
  funext x
  exact Nat.add_right_comm _ _ _

theorem read_left_after (left right : Nat) :
    (m.read i).after i j left right = m.after i j (left + 1) right := by
  funext x
  by_cases hx : x = i
  · simp only [after, read, hx, Function.update_self, if_true]
    omega
  · simp only [after, read, hx, Function.update_of_ne, ne_eq, not_false_eq_true, if_false]

theorem read_right_after (left right : Nat) :
    (m.read j).after i j left right = m.after i j left (right + 1) := by
  rw [← after_swap, read_left_after, after_swap]

theorem read_pair_after (left right : Nat) :
    ((m.read i).read j).after i j left right = m.after i j (left + 1) (right + 1) := by
  rw [read_right_after, read_left_after]

theorem read_left : m.read i = m.after i j 1 0 := by
  rw [← read_left_after, after_zero]

theorem read_right : m.read j = m.after i j 0 1 := by
  rw [← read_right_after, after_zero]

theorem read_pair : (m.read i).read j = m.after i j 1 1 := by
  rw [← read_pair_after, after_zero]

/-- One meter shows the reads of both sides together. -/
theorem after_self (left right : Nat) : m.after i i left right i = m i + (left + right) := by
  simp [after, Nat.add_assoc]

end Meters

namespace Sequence

variable {ι : Type} [DecidableEq ι]

/-- A traversal under way: the sequence that it goes over, and the items still to come. -/
structure Traversal (ι : Type) where
  source : ι
  rest : List CodePoint

/-- Asks a traversal for an item. Only an item that is there moves the meter. -/
def Traversal.next (t : Traversal ι) (m : Meters ι) : Option CodePoint × Traversal ι × Meters ι :=
  match t.rest with
  | [] => (none, t, m)
  | c :: cs => (some c, ⟨t.source, cs⟩, m.read t.source)

/-- The loop of equality. The items of the left sequence drive it, and the right traversal is asked
for an item each time. -/
def walkEqual (i : ι) : List CodePoint → Traversal ι → Meters ι → Bool × Meters ι
  | [], _, m => (true, m)
  | a :: as, right, m =>
    match right.next (m.read i) with
    | (some b, right, m) => if a = b then walkEqual i as right m else (false, m)
    | (none, _, m) => (false, m)

/-- The loop of the order. When the left sequence ends, the right traversal is asked once more. -/
def walkOrder (i : ι) : List CodePoint → Traversal ι → Meters ι → Ordering × Meters ι
  | [], right, m =>
    match right.next m with
    | (some _, _, m) => (.lt, m)
    | (none, _, m) => (.eq, m)
  | a :: as, right, m =>
    match right.next (m.read i) with
    | (some b, right, m) =>
      match compare a b with
      | .eq => walkOrder i as right m
      | o => (o, m)
    | (none, _, m) => (.gt, m)

/-- Compares two of some sequences, which may be one and the same, each by a traversal of its
own. -/
def equalMetered (s : ι → Sequence) (i j : ι) (m : Meters ι) : Bool × Meters ι :=
  if (s i).reported = (s j).reported then walkEqual i (s i).items ⟨j, (s j).items⟩ m else (false, m)

def orderMetered (s : ι → Sequence) (i j : ι) (m : Meters ι) : Ordering × Meters ι :=
  walkOrder i (s i).items ⟨j, (s j).items⟩ m

/-- The loop answers what the scan does, and moves the meters by the counts of the scan. -/
theorem walkEqual_eq (i j : ι) (as bs : List CodePoint) (m : Meters ι) :
    walkEqual i as ⟨j, bs⟩ m =
      ((scanEqual as bs).answer,
        m.after i j (scanEqual as bs).leftReads (scanEqual as bs).rightReads) := by
  induction as generalizing bs m with
  | nil => simp [walkEqual, scanEqual]
  | cons a as ih =>
    cases bs with
    | nil => simp [walkEqual, scanEqual, Traversal.next, m.read_left i j]
    | cons b bs =>
      by_cases hab : a = b
      · simp [walkEqual, scanEqual, Traversal.next, hab, ih, Meters.read_pair_after]
      · simp [walkEqual, scanEqual, Traversal.next, hab, Meters.read_pair]

theorem walkOrder_eq (i j : ι) (as bs : List CodePoint) (m : Meters ι) :
    walkOrder i as ⟨j, bs⟩ m =
      ((scanOrder as bs).answer,
        m.after i j (scanOrder as bs).leftReads (scanOrder as bs).rightReads) := by
  induction as generalizing bs m with
  | nil =>
    cases bs with
    | nil => simp [walkOrder, scanOrder, Traversal.next]
    | cons b bs => simp [walkOrder, scanOrder, Traversal.next, m.read_right i j]
  | cons a as ih =>
    cases bs with
    | nil => simp [walkOrder, scanOrder, Traversal.next, m.read_left i j]
    | cons b bs =>
      cases hc : compare a b with
      | eq => simp [walkOrder, scanOrder, Traversal.next, hc, ih, Meters.read_pair_after]
      | lt => simp [walkOrder, scanOrder, Traversal.next, hc, Meters.read_pair]
      | gt => simp [walkOrder, scanOrder, Traversal.next, hc, Meters.read_pair]

section

variable (s : ι → Sequence) (i j : ι) (m : Meters ι)

theorem equalMetered_eq :
    equalMetered s i j m =
      (((s i).equal (s j)).answer,
        m.after i j ((s i).equal (s j)).leftReads ((s i).equal (s j)).rightReads) := by
  unfold equalMetered equal
  split
  · exact walkEqual_eq i j _ _ m
  · rw [Meters.after_zero]

theorem orderMetered_eq :
    orderMetered s i j m =
      (((s i).order (s j)).answer,
        m.after i j ((s i).order (s j)).leftReads ((s i).order (s j)).rightReads) :=
  walkOrder_eq i j _ _ m

end

/-- What the two comparisons answer and what they read, for sequences that may report any lengths.
The reads are those of the loops: each of them moves the meter of its sequence by one. -/
theorem reads_of_comparison (s : ι → Sequence) (i j : ι) (m : Meters ι) :
    let a := s i
    let b := s j
    let k := (commonPrefix a.items b.items).length
    (∀ p, p <+: commonPrefix a.items b.items ↔ p <+: a.items ∧ p <+: b.items) ∧
    ((a.equal b).answer ↔ a.reported = b.reported ∧ a.items <+: b.items) ∧
    (a.reported ≠ b.reported → (a.equal b).leftReads = 0 ∧ (a.equal b).rightReads = 0) ∧
    (a.reported = b.reported →
      (a.equal b).leftReads = min a.items.length (k + 1) ∧
      (a.equal b).rightReads =
        if k = a.items.length then a.items.length else min b.items.length (k + 1)) ∧
    ((a.order b).answer = .lt ↔ a.items < b.items) ∧
    ((a.order b).answer = .eq ↔ a.items = b.items) ∧
    ((a.order b).answer = .gt ↔ b.items < a.items) ∧
    (a.order b).leftReads = min a.items.length (k + 1) ∧
    (a.order b).rightReads = min b.items.length (k + 1) ∧
    (∀ reads ∈ [(a.equal b).leftReads, (a.equal b).rightReads, (a.order b).leftReads,
      (a.order b).rightReads], reads ≤ k + 1) ∧
    equalMetered s i j m =
      ((a.equal b).answer, m.after i j (a.equal b).leftReads (a.equal b).rightReads) ∧
    orderMetered s i j m =
      ((a.order b).answer, m.after i j (a.order b).leftReads (a.order b).rightReads) ∧
    (equalMetered s i i m).2 i = m i + (a.equal a).totalReads ∧
    (orderMetered s i i m).2 i = m i + (a.order a).totalReads ∧
    (a.equal a).totalReads = 2 * a.items.length ∧
    (a.order a).totalReads = 2 * a.items.length := by
  intro a b k
  obtain ⟨hdiffer, hagree⟩ := reads_equal a b
  obtain ⟨hleft, hright⟩ := reads_scanOrder a.items b.items
  refine ⟨fun p => prefix_commonPrefix_iff, equal_answer_iff a b, hdiffer, hagree,
    order_answer_lt_iff a b, order_answer_eq_iff a b, order_answer_gt_iff a b, hleft, hright, ?_,
    equalMetered_eq s i j m, orderMetered_eq s i j m, ?_, ?_, totalReads_self a⟩
  · have hequal : (a.equal b).leftReads ≤ k + 1 ∧ (a.equal b).rightReads ≤ k + 1 := by
      by_cases h : a.reported = b.reported
      · obtain ⟨hl, hr⟩ := hagree h
        rw [hl, hr]
        split <;> omega
      · obtain ⟨hl, hr⟩ := hdiffer h
        omega
    have horder : (a.order b).leftReads ≤ k + 1 ∧ (a.order b).rightReads ≤ k + 1 := by
      rw [order, hleft, hright]
      exact ⟨Nat.min_le_right _ _, Nat.min_le_right _ _⟩
    simpa using ⟨hequal.1, hequal.2, horder.1, horder.2⟩
  · rw [equalMetered_eq]
    exact m.after_self i _ _
  · rw [orderMetered_eq]
    exact m.after_self i _ _

/-- Reports that are false make equality depend on the side: the shorter traversal on the left is
equal to the longer one, and on the right it ends the walk, with one item read past its end. -/
theorem reads_of_false_report :
    let s := fun long : Bool => cond long ⟨[1, 2, 0xFFFFFFFF, 4], 5⟩ ⟨[1, 2], 5⟩
    (s false).reported = (s true).reported ∧
      (equalMetered s false true fun _ => 0).1 = true ∧
      (equalMetered s true false fun _ => 0).1 = false ∧
      ((s true).equal (s false)).leftReads = 3 ∧ ((s true).equal (s false)).rightReads = 2 := by
  intro s
  obtain ⟨_, hequal, _, _, _, _, _, _, _, _, hmetered, _⟩ :=
    reads_of_comparison s false true fun _ => 0
  obtain ⟨_, hequal', _, hreads, _, _, _, _, _, _, hmetered', _⟩ :=
    reads_of_comparison s true false fun _ => 0
  obtain ⟨hleft, hright⟩ := hreads rfl
  refine ⟨rfl, ?_, ?_, hleft, hright⟩
  · rw [hmetered]
    exact hequal.2 ⟨rfl, by decide⟩
  · rw [hmetered', Bool.eq_false_iff, ne_eq, hequal']
    rintro ⟨_, hprefix⟩
    exact absurd hprefix.length_le (by decide)

end Sequence
end CodePointText
