/-!
# Occurrences of a pattern in a list

Search, greedy counting and replacement for any type of items: it serves bytes as well as code
points. Occurrences are taken from the left and do not overlap.
-/

namespace CodePointText
namespace Occurrence

variable {α : Type} [DecidableEq α]

def first? (pattern : List α) : List α → Option Nat
  | [] => if pattern.isEmpty then some 0 else none
  | x :: xs =>
    if pattern.isPrefixOf (x :: xs) then some 0 else (first? pattern xs).map (· + 1)

/-- What stands before the first occurrence of the pattern, and what follows it. -/
def cut? (pattern text : List α) : Option (List α × List α) :=
  (first? pattern text).map fun i => (text.take i, text.drop (i + pattern.length))

/-- Splits at the leftmost occurrences of the pattern, at most `limit` times. -/
def split (pattern : List α) : Nat → List α → List (List α)
  | 0, text => [text]
  | limit + 1, text =>
    match cut? pattern text with
    | none => [text]
    | some (before, after) => before :: split pattern limit after

def replace (pattern substitute : List α) (limit : Nat) (text : List α) : List α :=
  substitute.intercalate (split pattern limit text)

/-- The number of occurrences found from left to right, up to `limit`. -/
def countUpTo (pattern : List α) : Nat → List α → Nat
  | 0, _ => 0
  | limit + 1, text =>
    match cut? pattern text with
    | none => 0
    | some (_, after) => countUpTo pattern limit after + 1

/-- The number of occurrences of a pattern that is not empty: no text has more of them than items. -/
def count (pattern text : List α) : Nat := countUpTo pattern text.length text

/-- Puts the insertion before each of the first items, and at the end if the limit allows it. -/
def insertBetween {α : Type} (insertion : List α) : Nat → List α → List α
  | 0, text => text
  | _ + 1, [] => insertion
  | limit + 1, x :: xs => insertion ++ x :: insertBetween insertion limit xs

@[simp] theorem first?_nil (text : List α) : first? [] text = some 0 := by
  cases text <;> rfl

/-- A position is the first occurrence when the pattern begins there and nowhere before. -/
theorem first?_eq_some {pattern text : List α} {i : Nat} :
    first? pattern text = some i ↔
      i ≤ text.length ∧ pattern <+: text.drop i ∧ ∀ j < i, ¬ pattern <+: text.drop j := by
  induction text generalizing i with
  | nil =>
    cases pattern with
    | nil =>
      simp only [first?_nil, Option.some.injEq, List.length_nil, List.drop_nil]
      constructor
      · rintro rfl; simp
      · intro h; omega
    | cons p ps => simp [first?]
  | cons x xs ih =>
    unfold first?
    split
    · next h =>
      have h := List.isPrefixOf_iff_prefix.1 h
      rw [Option.some.injEq]
      constructor
      · rintro rfl
        exact ⟨by simp, h, fun j hj => by omega⟩
      · rintro ⟨_, _, hj⟩
        cases i with
        | zero => rfl
        | succ i => exact absurd h (hj 0 (by omega))
    · next h =>
      have h : ¬ pattern <+: x :: xs := fun hp => h (List.isPrefixOf_iff_prefix.2 hp)
      cases i with
      | zero => simp [h]
      | succ i =>
        rw [Option.map_eq_some_iff]
        simp only [Nat.add_right_cancel_iff, exists_eq_right, ih, List.length_cons,
          List.drop_succ_cons, Nat.add_le_add_iff_right]
        constructor
        · rintro ⟨hi, hp, hj⟩
          refine ⟨hi, hp, fun j hlt => ?_⟩
          cases j with
          | zero => exact h
          | succ j => exact hj j (by omega)
        · rintro ⟨hi, hp, hj⟩
          exact ⟨hi, hp, fun j hlt => hj (j + 1) (by omega)⟩

theorem cut?_eq_some_append {pattern text before after : List α}
    (h : cut? pattern text = some (before, after)) : text = before ++ pattern ++ after := by
  simp only [cut?, Option.map_eq_some_iff, Prod.mk.injEq] at h
  obtain ⟨i, hi, rfl, rfl⟩ := h
  obtain ⟨_, ⟨rest, hr⟩, _⟩ := first?_eq_some.1 hi
  rw [List.append_assoc, ← List.drop_drop, ← hr, List.drop_left, hr, List.take_append_drop]

@[simp] theorem replace_zero (pattern substitute text : List α) :
    replace pattern substitute 0 text = text := by
  simp [replace, split]

theorem length_insertBetween {α : Type} (insertion : List α) (limit : Nat) (text : List α) :
    (insertBetween insertion limit text).length =
      text.length + min limit (text.length + 1) * insertion.length := by
  induction text generalizing limit with
  | nil => cases limit <;> simp [insertBetween]
  | cons x xs ih =>
    cases limit with
    | zero => simp [insertBetween]
    | succ n =>
      simp only [insertBetween, List.length_append, List.length_cons, ih,
        Nat.add_min_add_right, Nat.add_mul, Nat.one_mul]
      omega

end Occurrence
end CodePointText
