import CodePointText.Occurrence
import Mathlib.Order.Bounds.Basic

/-!
# Positions of a pattern

A pattern stands at a position of a text if the text goes on with the pattern there. Search reports
the least such position, and the text is cut there.
-/

namespace CodePointText
namespace Occurrence

variable {α β : Type}

/-- The pattern stands in the text, behind so many items. -/
def StandsAt (pattern text : List α) (i : Nat) : Prop :=
  ∃ before after, text = before ++ pattern ++ after ∧ before.length = i

section

variable {pattern text : List α} {i : Nat}

theorem standsAt_iff : StandsAt pattern text i ↔ i ≤ text.length ∧ pattern <+: text.drop i := by
  constructor
  · rintro ⟨before, after, rfl, rfl⟩
    rw [List.append_assoc, List.drop_left]
    exact ⟨by simp, List.prefix_append pattern after⟩
  · rintro ⟨hi, after, h⟩
    refine ⟨text.take i, after, ?_, by simp [hi]⟩
    rw [List.append_assoc, h, List.take_append_drop]

theorem StandsAt.add_length_le (h : StandsAt pattern text i) : i + pattern.length ≤ text.length := by
  obtain ⟨before, after, rfl, rfl⟩ := h
  simp

theorem standsAt_zero : StandsAt pattern text 0 ↔ pattern <+: text := by
  simp [standsAt_iff]

theorem standsAt_drop {n : Nat} (h : n ≤ text.length) :
    StandsAt pattern (text.drop n) i ↔ StandsAt pattern text (n + i) := by
  rw [standsAt_iff, standsAt_iff, List.drop_drop, List.length_drop]
  exact and_congr_left fun _ => by omega

theorem standsAt_append_left (before : List α) :
    StandsAt pattern (before ++ text) (before.length + i) ↔ StandsAt pattern text i := by
  rw [← standsAt_drop (by simp), List.drop_left]

theorem standsAt_take {n : Nat} :
    StandsAt pattern (text.take n) i ↔ StandsAt pattern text i ∧ i + pattern.length ≤ n := by
  constructor
  · intro h
    have hle := h.add_length_le
    rw [List.length_take] at hle
    obtain ⟨before, after, ht, hi⟩ := h
    refine ⟨⟨before, after ++ text.drop n, ?_, hi⟩, by omega⟩
    rw [← List.append_assoc, ← ht, List.take_append_drop]
  · rintro ⟨⟨before, after, rfl, rfl⟩, hn⟩
    refine ⟨before, after.take (n - (before ++ pattern).length), ?_, rfl⟩
    rw [List.take_append, List.take_of_length_le (by simpa using hn)]

theorem StandsAt.flatMap (word : α → List β) (h : StandsAt pattern text i) :
    StandsAt (pattern.flatMap word) (text.flatMap word) ((text.take i).flatMap word).length := by
  obtain ⟨before, after, rfl, rfl⟩ := h
  refine ⟨before.flatMap word, after.flatMap word, by simp, ?_⟩
  rw [List.append_assoc, List.take_left]

theorem standsAt_map {f : α → β} (hf : Function.Injective f) :
    StandsAt (pattern.map f) (text.map f) i ↔ StandsAt pattern text i := by
  rw [standsAt_iff, standsAt_iff, List.length_map, ← List.map_drop,
    List.prefix_map_iff_of_injective hf]

theorem exists_standsAt :
    (∃ i, StandsAt pattern text i) ↔ ∃ before after, text = before ++ pattern ++ after :=
  ⟨fun ⟨_, before, after, h, _⟩ => ⟨before, after, h⟩,
    fun ⟨before, after, h⟩ => ⟨before.length, before, after, h, rfl⟩⟩

end

section

variable [DecidableEq α] {pattern text : List α} {i : Nat}

/-- Search reports the least position. -/
theorem first?_eq_some_iff :
    first? pattern text = some i ↔ IsLeast {j | StandsAt pattern text j} i := by
  rw [first?_eq_some]
  constructor
  · rintro ⟨hi, hp, hj⟩
    refine ⟨standsAt_iff.2 ⟨hi, hp⟩, fun j h => ?_⟩
    by_contra hlt
    exact hj j (by omega) (standsAt_iff.1 h).2
  · rintro ⟨h, hleast⟩
    obtain ⟨hi, hp⟩ := standsAt_iff.1 h
    refine ⟨hi, hp, fun j hlt hpj => ?_⟩
    have hle : i ≤ j := hleast (standsAt_iff.2 ⟨by omega, hpj⟩)
    omega

theorem first?_eq_none_iff : first? pattern text = none ↔ ∀ i, ¬ StandsAt pattern text i := by
  constructor
  · intro hnone i h
    induction text generalizing i with
    | nil =>
      have hlength := h.add_length_le
      rw [List.length_nil] at hlength
      have hp : pattern = [] := List.length_eq_zero_iff.1 (by omega)
      rw [hp, first?_nil] at hnone
      cases hnone
    | cons x xs ih =>
      rw [first?] at hnone
      split at hnone
      · cases hnone
      · next hp =>
        cases i with
        | zero => exact hp (List.isPrefixOf_iff_prefix.2 (standsAt_zero.1 h))
        | succ i =>
          refine ih (Option.map_eq_none_iff.1 hnone) i ?_
          exact (standsAt_append_left [x]).1 (Nat.add_comm i 1 ▸ h)
  · intro h
    cases hi : first? pattern text with
    | none => rfl
    | some i => exact absurd (first?_eq_some_iff.1 hi).1 (h i)

theorem isSome_first?_iff : (first? pattern text).isSome ↔ ∃ i, StandsAt pattern text i := by
  rw [Option.isSome_iff_ne_none, ne_eq, first?_eq_none_iff, not_forall_not]

theorem cut?_eq_some_iff {before after : List α} :
    cut? pattern text = some (before, after) ↔
      text = before ++ pattern ++ after ∧ IsLeast {j | StandsAt pattern text j} before.length := by
  constructor
  · intro h
    refine ⟨cut?_eq_some_append h, ?_⟩
    simp only [cut?, Option.map_eq_some_iff, Prod.mk.injEq] at h
    obtain ⟨i, hi, rfl, -⟩ := h
    have hle := (first?_eq_some.1 hi).1
    rw [List.length_take, Nat.min_eq_left hle]
    exact first?_eq_some_iff.1 hi
  · rintro ⟨ht, hleast⟩
    rw [cut?, first?_eq_some_iff.2 hleast, Option.map_some, ← List.drop_drop]
    rw [ht, List.append_assoc, List.take_left, List.drop_left, List.drop_left]

theorem cut?_eq_none_iff : cut? pattern text = none ↔ ∀ i, ¬ StandsAt pattern text i := by
  rw [cut?, Option.map_eq_none_iff, first?_eq_none_iff]

theorem first?_eq_none_of_nil (h : pattern ≠ []) : first? pattern [] = none := by
  cases pattern with
  | nil => exact absurd rfl h
  | cons p ps => rfl

theorem count_pos_iff (hp : pattern ≠ []) :
    0 < count pattern text ↔ (first? pattern text).isSome := by
  cases text with
  | nil =>
    rw [first?_eq_none_of_nil hp]
    simp [count, countUpTo]
  | cons x xs =>
    rw [count, List.length_cons, countUpTo, cut?]
    cases first? pattern (x :: xs) <;> simp

end

end Occurrence
end CodePointText
