import CodePointText.Proofs.Occurrence.Rounds
import Mathlib.Data.Finset.Card

/-!
# Counting is optimal

Occurrences that do not overlap stand at positions that are a pattern apart. The rounds of a search
choose such positions, and no choice has more: whatever else is chosen, at most one position of it
lies before the point where the next round goes on.
-/

namespace CodePointText
namespace Occurrence

variable {α : Type}

/-- Positions from a given one on at which the pattern stands, such that no two of the occurrences
overlap. -/
structure Packed (pattern text : List α) (start : Nat) (positions : Finset Nat) : Prop where
  start_le : ∀ p ∈ positions, start ≤ p
  standsAt : ∀ p ∈ positions, StandsAt pattern text p
  apart : ∀ p ∈ positions, ∀ q ∈ positions, p < q → p + pattern.length ≤ q

namespace Packed

variable {pattern text : List α} {start : Nat} {positions : Finset Nat}

theorem empty (pattern text : List α) (start : Nat) : Packed pattern text start ∅ where
  start_le p hp := absurd hp (Finset.notMem_empty p)
  standsAt p hp := absurd hp (Finset.notMem_empty p)
  apart p hp := absurd hp (Finset.notMem_empty p)

theorem insert {i : Nat} (h : Packed pattern text (i + pattern.length) positions)
    (hi : StandsAt pattern text i) (hstart : start ≤ i) :
    Packed pattern text start (insert i positions) where
  start_le p hp := by
    rcases Finset.mem_insert.1 hp with rfl | hp
    · exact hstart
    · have := h.start_le p hp
      omega
  standsAt p hp := by
    rcases Finset.mem_insert.1 hp with rfl | hp
    · exact hi
    · exact h.standsAt p hp
  apart p hp q hq hlt := by
    rcases Finset.mem_insert.1 hp with rfl | hp'
    · rcases Finset.mem_insert.1 hq with rfl | hq'
      · exact absurd hlt (Nat.lt_irrefl _)
      · exact h.start_le q hq'
    · rcases Finset.mem_insert.1 hq with rfl | hq'
      · have := h.start_le p hp'
        omega
      · exact h.apart p hp' q hq' hlt

theorem filter_le (h : Packed pattern text start positions) (next : Nat) :
    Packed pattern text next (positions.filter (next ≤ ·)) where
  start_le _ hp := (Finset.mem_filter.1 hp).2
  standsAt p hp := h.standsAt p (Finset.mem_filter.1 hp).1
  apart p hp q hq := h.apart p (Finset.mem_filter.1 hp).1 q (Finset.mem_filter.1 hq).1

/-- If all positions come from a given one on, at most one of them is less than a pattern further. -/
theorem card_filter_lt_le_one (h : Packed pattern text start positions) {i : Nat}
    (hi : ∀ p ∈ positions, i ≤ p) :
    (positions.filter (¬ i + pattern.length ≤ ·)).card ≤ 1 := by
  rw [Finset.card_le_one]
  intro p hp q hq
  rw [Finset.mem_filter] at hp hq
  have hip := hi p hp.1
  have hiq := hi q hq.1
  rcases Nat.lt_trichotomy p q with hlt | heq | hlt
  · have := h.apart p hp.1 q hq.1 hlt
    omega
  · exact heq
  · have := h.apart q hq.1 p hp.1 hlt
    omega

end Packed

variable [DecidableEq α] {pattern text rest rest' : List α} {passed : List (List α)}

theorem standsAt_of_cut? {before after : List α} {start : Nat} (hstart : start ≤ text.length)
    (hcut : cut? pattern (text.drop start) = some (before, after)) :
    StandsAt pattern text (start + before.length) ∧
      after = text.drop (start + before.length + pattern.length) := by
  obtain ⟨htext, hfirst, _⟩ := cut?_eq_some_iff.1 hcut
  refine ⟨(standsAt_drop hstart).1 hfirst, ?_⟩
  rw [Nat.add_assoc, ← List.drop_drop, htext, ← List.length_append, List.drop_left]

namespace Rounds

/-- The rounds that go on from a point of a text choose positions from there on. -/
theorem exists_packed (h : Rounds pattern rest passed rest') (hp : pattern ≠ []) {start : Nat}
    (hrest : rest = text.drop start) (hstart : start ≤ text.length) :
    ∃ positions, Packed pattern text start positions ∧ positions.card = passed.length := by
  induction h generalizing start with
  | stop _ => exact ⟨∅, .empty pattern text start, rfl⟩
  | @round rest before after _ _ hcut _ ih =>
    subst hrest
    obtain ⟨hi, hafter⟩ := standsAt_of_cut? hstart hcut
    obtain ⟨positions, hpacked, hcard⟩ := ih hafter hi.add_length_le
    refine ⟨_, hpacked.insert hi (Nat.le_add_right start before.length), ?_⟩
    have hnew : start + before.length ∉ positions := by
      intro hmem
      have := hpacked.start_le _ hmem
      have := List.length_pos_iff.2 hp
      omega
    rw [Finset.card_insert_of_notMem hnew, hcard, List.length_cons]

/-- No choice of positions has more of them than there are rounds. -/
theorem card_le (h : Rounds pattern rest passed rest') (hnone : cut? pattern rest' = none)
    {start : Nat} (hrest : rest = text.drop start) (hstart : start ≤ text.length)
    {positions : Finset Nat} (hpacked : Packed pattern text start positions) :
    positions.card ≤ passed.length := by
  induction h generalizing start positions with
  | stop _ =>
    subst hrest
    have hempty : positions = ∅ := by
      refine Finset.eq_empty_of_forall_notMem fun p hmem => ?_
      obtain ⟨i, rfl⟩ := Nat.exists_eq_add_of_le (hpacked.start_le p hmem)
      exact cut?_eq_none_iff.1 hnone i ((standsAt_drop hstart).2 (hpacked.standsAt _ hmem))
    rw [hempty]
    exact Nat.zero_le _
  | @round rest before after _ _ hcut _ ih =>
    subst hrest
    obtain ⟨hi, hafter⟩ := standsAt_of_cut? hstart hcut
    obtain ⟨_, _, hleast⟩ := cut?_eq_some_iff.1 hcut
    have hfrom : ∀ p ∈ positions, start + before.length ≤ p := by
      intro p hmem
      obtain ⟨j, rfl⟩ := Nat.exists_eq_add_of_le (hpacked.start_le p hmem)
      exact Nat.add_le_add_left (hleast ((standsAt_drop hstart).2 (hpacked.standsAt _ hmem))) start
    have hone := hpacked.card_filter_lt_le_one hfrom
    have hrest := ih hnone hafter hi.add_length_le (hpacked.filter_le _)
    have hcard := Finset.card_filter_add_card_filter_not (s := positions)
      (start + before.length + pattern.length ≤ ·)
    rw [List.length_cons]
    omega

end Rounds

end Occurrence
end CodePointText
