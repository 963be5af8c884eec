import CodePointText.Proofs.Occurrence.Packing
import CodePointText.Proofs.Text.Find

/-!
# Occurrences counted

A text holds no more occurrences of a pattern between two bounds, none overlapping another, than are
counted there.
-/

namespace CodePointText
namespace Text

open Occurrence

/-- Positions between the bounds at which the pattern stands, any two of them the length of the
pattern apart. -/
structure MatchesApart (t pattern : Text) (start stop : Option Int64) (positions : Finset Nat) :
    Prop where
  matchAt : ∀ p ∈ positions, t.MatchAt pattern start stop p
  apart : ∀ p ∈ positions, ∀ q ∈ positions, p < q → p + pattern.length ≤ q

theorem MatchesApart.empty (t pattern : Text) (start stop : Option Int64) :
    t.MatchesApart pattern start stop ∅ where
  matchAt p hp := absurd hp (Finset.notMem_empty p)
  apart p hp := absurd hp (Finset.notMem_empty p)

theorem MatchesApart.eq_empty {t pattern : Text} {start stop : Option Int64}
    {positions : Finset Nat} (h : t.MatchesApart pattern start stop positions)
    (hlt : searchStop t.length stop < searchStart t.length start) : positions = ∅ := by
  refine Finset.eq_empty_of_forall_notMem fun p hp => ?_
  have := (h.matchAt p hp).start_le_stop
  omega

/-- Cut at the stop, the text shows the same positions from the start on. -/
theorem matchesApart_iff_packed {t pattern : Text} (hp : pattern.WellFormed)
    {start stop : Option Int64} {lo hi : Nat} (hlo : searchStart t.length start = lo)
    (hhi : searchStop t.length stop = hi) {positions : Finset Nat} :
    t.MatchesApart pattern start stop positions ↔
      Packed pattern.codePoints (t.codePoints.take hi) lo positions := by
  have hlength := length_eq hp
  constructor
  · intro h
    refine ⟨fun p hmem => ?_, fun p hmem => ?_, fun p hmem q hmem' hlt => ?_⟩
    · have := (h.matchAt p hmem).start_le
      omega
    · have := (h.matchAt p hmem).le_stop
      exact standsAt_take.2 ⟨(h.matchAt p hmem).standsAt, by omega⟩
    · have := h.apart p hmem q hmem' hlt
      omega
  · intro h
    refine ⟨fun p hmem => ?_, fun p hmem q hmem' hlt => ?_⟩
    · have hstart := h.start_le p hmem
      obtain ⟨hstands, hle⟩ := standsAt_take.1 (h.standsAt p hmem)
      exact ⟨by omega, by omega, hstands⟩
    · have := h.apart p hmem q hmem' hlt
      omega

section

variable {t pattern : Text} (ht : t.WellFormed)
include ht

theorem count_of_ne_nil (hne : pattern.codePoints ≠ []) (start stop : Option Int64) :
    t.count pattern start stop =
      Occurrence.count pattern.codePoints (t.searched start stop) := by
  by_cases hle : searchStart t.length start ≤ searchStop t.length stop
  · obtain ⟨lo, hi, hlo, hhi, _, _, hrange⟩ := searchRange_of_le hle
    rw [length_eq ht] at hrange
    rw [count_of_range hrange, if_neg hne, searched, hlo, hhi]
    rfl
  · rw [count_of_lt ht (by omega), searched_of_lt (by omega)]
    rfl

/-- The empty pattern is counted before every character of the range and at its end. -/
theorem count_of_nil (hnil : pattern.codePoints = []) (start stop : Option Int64) :
    (t.count pattern start stop : Int) =
      if searchStart t.length start ≤ searchStop t.length stop then
        searchStop t.length stop - searchStart t.length start + 1
      else 0 := by
  split
  · next hle =>
    obtain ⟨lo, hi, hlo, hhi, _, _, hrange⟩ := searchRange_of_le hle
    rw [length_eq ht] at hrange
    rw [count_of_range hrange, if_pos hnil, hlo, hhi]
    omega
  · next hle => rw [count_of_lt ht (by omega), Int.natCast_zero]

/-- What is counted is the size of a choice of positions, and no choice has a greater one. -/
theorem isGreatest_count (hp : pattern.WellFormed) (hne : pattern.codePoints ≠ [])
    (start stop : Option Int64) :
    IsGreatest {n | ∃ positions, t.MatchesApart pattern start stop positions ∧ positions.card = n}
      (t.count pattern start stop) := by
  by_cases hle : searchStart t.length start ≤ searchStop t.length stop
  · obtain ⟨lo, hi, hlo, hhi, hlohi, hlen, hrange⟩ := searchRange_of_le hle
    rw [length_eq ht] at hlen hrange
    have hstart : lo ≤ (t.codePoints.take hi).length := by
      rw [List.length_take]
      omega
    obtain ⟨passed, rest, hrounds, hnone, hcount⟩ :=
      exists_rounds_count hne (window t.codePoints lo hi)
    rw [count_of_range hrange, if_neg hne, ← hcount]
    simp only [matchesApart_iff_packed hp hlo hhi]
    refine ⟨hrounds.exists_packed hne rfl hstart, ?_⟩
    rintro n ⟨positions, hpacked, rfl⟩
    exact hrounds.card_le hnone rfl hstart hpacked
  · have hlt : searchStop t.length stop < searchStart t.length start := by omega
    rw [count_of_lt ht hlt]
    refine ⟨⟨∅, .empty t pattern start stop, rfl⟩, ?_⟩
    rintro n ⟨positions, hapart, rfl⟩
    rw [hapart.eq_empty hlt]
    exact Nat.le_refl 0

end

/-- Counting is optimal. For a pattern that is not empty, the count is the greatest number of
positions between the bounds at which the pattern stands without overlaps; there are none if the
start lies beyond the stop. A search that goes on behind each occurrence makes as many rounds until
nothing is found, and no run of it makes more. The empty pattern has a place before every character
of the range and one at its end. -/
theorem count_greatest {t pattern : Text} (ht : t.WellFormed) (hp : pattern.WellFormed)
    (start stop : Option Int64) :
    (pattern.codePoints ≠ [] →
      IsGreatest {n | ∃ positions, t.MatchesApart pattern start stop positions ∧
        positions.card = n} (t.count pattern start stop) ∧
      (∃ passed rest, Rounds pattern.codePoints (t.searched start stop) passed rest ∧
        cut? pattern.codePoints rest = none ∧ passed.length = t.count pattern start stop) ∧
      (∀ passed rest, Rounds pattern.codePoints (t.searched start stop) passed rest →
        passed.length ≤ t.count pattern start stop)) ∧
    (pattern.codePoints = [] → (t.count pattern start stop : Int) =
      if searchStart t.length start ≤ searchStop t.length stop then
        searchStop t.length stop - searchStart t.length start + 1
      else 0) := by
  refine ⟨fun hne => ⟨isGreatest_count ht hp hne start stop, ?_⟩,
    fun hnil => count_of_nil ht hnil start stop⟩
  rw [count_of_ne_nil ht hne]
  exact ⟨exists_rounds_count hne _, fun passed rest hrounds => hrounds.length_le_count hne⟩

/-- A pattern that overlaps itself: behind the first character it stands at two positions, of which
only one can be chosen. -/
theorem count_of_overlapping_pattern :
    (wide [0x61, 0x62, 0x61, 0x62, 0x61, 0x62, 0x61]).WellFormed ∧ (ofString "aba").WellFormed ∧
      (ofString "aba").codePoints ≠ [] ∧
      IsGreatest {n | ∃ positions, (wide [0x61, 0x62, 0x61, 0x62, 0x61, 0x62, 0x61]).MatchesApart
        (ofString "aba") (some (-6)) none positions ∧ positions.card = n} 1 := by
  have ht : (wide [0x61, 0x62, 0x61, 0x62, 0x61, 0x62, 0x61]).WellFormed := by decide
  have hp : (ofString "aba").WellFormed := wellFormed_ofString "aba"
  have hne : (ofString "aba").codePoints ≠ [] := by decide
  have hcount : (wide [0x61, 0x62, 0x61, 0x62, 0x61, 0x62, 0x61]).count (ofString "aba")
      (some (-6)) none = 1 := by decide
  obtain ⟨hgreatest, _⟩ := (count_greatest ht hp (some (-6)) none).1 hne
  rw [hcount] at hgreatest
  exact ⟨ht, hp, hne, hgreatest⟩

end Text
end CodePointText
