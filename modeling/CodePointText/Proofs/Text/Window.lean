import CodePointText.Proofs.Text.Count
import CodePointText.Proofs.Text.Slice

/-!
# Bounds of searches and of slices

In steps of one, a slice of a text is what stands between two points of it. Searches take the same
bounds, but read them for themselves: a start beyond the end is left where it is. To search between
bounds is to search the slice, and the two part for the empty pattern alone, between bounds that
cross.
-/

namespace CodePointText

theorem Slice.positions_of_givenStep_eq_one {s : Slice} {len : Nat} {selection : Selection}
    (h : s.resolve len = .ok selection) (hstep : s.givenStep = 1) :
    selection.positions =
      List.range' (s.startPoint len).toNat ((s.stopPoint len).toNat - (s.startPoint len).toNat) := by
  obtain ⟨hstart, hstop⟩ := points_forwards (s := s) (by omega) len
  have hcount : (countBetween id (s.startPoint len) (s.stopPoint len) 1).toNat =
      (s.stopPoint len).toNat - (s.startPoint len).toNat := by
    rw [countBetween_one]
    split <;> omega
  rw [eq_of_resolve h, (stepInUse_eq_one_iff s).2 hstep, Selection.positions, hcount,
    List.range'_eq_map_range]
  refine List.map_congr_left fun k _ => ?_
  simp only [Selection.position]
  omega

namespace Text

open Occurrence

theorem codePoints_of_slice_of_givenStep_eq_one {t u : Text} (ht : t.WellFormed) {range : Slice}
    (hstep : range.givenStep = 1) (hu : t.slice range = .ok u) :
    u.codePoints = window t.codePoints (range.startPoint t.length).toNat
      (range.stopPoint t.length).toNat := by
  obtain ⟨selection, h, _⟩ := bind_eq_ok.1 hu
  rw [codePoints_of_slice h ht hu, Slice.positions_of_givenStep_eq_one h hstep, itemsAt_range',
    window_eq]

section

variable (len : Nat) (start stop : Option Int64)

/-- A slice begins where a search does, but not beyond the end. -/
theorem startPoint_eq_min :
    (Slice.mk start stop none).startPoint len = min (searchStart len start) len := by
  have hpos : 0 < (Slice.mk start stop none).givenStep := Int.one_pos
  rw [Slice.startPoint, if_pos hpos]
  cases start with
  | none =>
    simp only [searchStart, Option.map_none, Option.getD_none]
    omega
  | some bound =>
    simp only [searchStart, Slice.pointsTo, Option.map_some, Option.getD_some]
    split <;> omega

theorem stopPoint_eq_searchStop :
    (Slice.mk start stop none).stopPoint len = searchStop len stop := by
  have hpos : 0 < (Slice.mk start stop none).givenStep := Int.one_pos
  rw [Slice.stopPoint, if_pos hpos]
  cases stop with
  | none => rfl
  | some bound =>
    simp only [searchStop, searchStart, Slice.pointsTo, Option.map_some, Option.getD_some]
    split <;> omega

end

section

variable {t : Text} (ht : t.WellFormed) {start stop : Option Int64}
include ht

theorem codePoints_slice_eq_searched {u : Text} (hu : t.slice ⟨start, stop, none⟩ = .ok u) :
    u.codePoints = t.searched start stop := by
  have hlength := length_eq ht
  have hstop := searchStop_mem t.length stop
  rw [codePoints_of_slice_of_givenStep_eq_one ht rfl hu, startPoint_eq_min, stopPoint_eq_searchStop,
    searched]
  by_cases hle : searchStart t.length start ≤ t.length
  · rw [Int.min_eq_left hle]
  · -- Beyond the end nothing is left, wherever the start is.
    have hnil (lo : Nat) (hlo : t.length ≤ lo) :
        window t.codePoints lo (searchStop t.length stop).toNat = [] := by
      rw [window_eq, List.drop_eq_nil_of_le (by omega), List.take_nil]
    rw [hnil _ (by omega), hnil _ (by omega)]

/-- What is found is found in what the search covers, and counted from the start of it. The empty
pattern is found there also if the bounds cross, unlike in the search. -/
theorem find?_eq_map_first? (pattern : Text)
    (h : pattern.codePoints ≠ [] ∨ searchStart t.length start ≤ searchStop t.length stop) :
    t.find? pattern start stop =
      (first? pattern.codePoints (t.searched start stop)).map
        ((searchStart t.length start).toNat + ·) := by
  by_cases hle : searchStart t.length start ≤ searchStop t.length stop
  · obtain ⟨lo, hi, hlo, hhi, _, _, hrange⟩ := searchRange_of_le hle
    rw [length_eq ht] at hrange
    rw [find?_of_range hrange, searched, hlo, hhi]
    rfl
  · have hne := h.resolve_right hle
    rw [find?_of_lt ht (by omega), searched_of_lt (by omega), first?_eq_none_of_nil hne]
    rfl

theorem count_eq_count_none_none {u pattern : Text} (hu : u.codePoints = t.searched start stop)
    (h : pattern.codePoints ≠ [] ∨ searchStart t.length start ≤ searchStop t.length stop) :
    t.count pattern start stop = u.count pattern none none := by
  rw [count_none_none, hu]
  by_cases hne : pattern.codePoints = []
  · have hle := h.resolve_left (not_not_intro hne)
    obtain ⟨lo, hi, hlo, hhi, hlohi, hlen, hrange⟩ := searchRange_of_le hle
    rw [length_eq ht] at hlen hrange
    rw [count_of_range hrange, if_pos hne, if_pos hne, searched, hlo, hhi, Int.toNat_natCast,
      Int.toNat_natCast, length_window hlen]
  · rw [count_of_ne_nil ht hne, if_neg hne]

end

theorem find_of_find?_eq_map {t u pattern : Text} {start stop : Option Int64} {lo : Nat}
    (h : t.find? pattern start stop = (u.find? pattern none none).map (lo + ·)) :
    t.find pattern start stop =
      if u.find pattern none none = -1 then -1 else lo + u.find pattern none none := by
  unfold find
  rw [h]
  cases u.find? pattern none none with
  | none => rfl
  | some i =>
    have hi : ¬ (i : Int) = -1 := by omega
    simp only [Option.map_some, if_neg hi]
    omega

/-- Searches and slices have the same bounds. A search between bounds answers what the slice with
these bounds answers, which is never refused: as many occurrences, and the position there, counted
from where the slice is resolved to start. The empty pattern is no exception unless the start lies
beyond the stop; then the search answers that there is none, while the slice, which is empty, holds
the empty pattern once. -/
theorem search_within_slice {t : Text} (ht : t.WellFormed) (pattern : Text)
    (start stop : Option Int64) :
    ∃ u selection, t.slice ⟨start, stop, none⟩ = .ok u ∧
      Slice.resolve ⟨start, stop, none⟩ t.length = .ok selection ∧
      (∀ len : UInt64, len.toNat = t.length → t.length < 0x8000000000000000 →
        Slice.resolveWord ⟨start, stop, none⟩ len = .ok selection) ∧
      (pattern.codePoints ≠ [] ∨ searchStart t.length start ≤ searchStop t.length stop →
        t.count pattern start stop = u.count pattern none none ∧
        t.find pattern start stop =
          if u.find pattern none none = -1 then -1
          else selection.start + u.find pattern none none) ∧
      (pattern.codePoints = [] → searchStop t.length stop < searchStart t.length start →
        t.find pattern start stop = -1 ∧ t.count pattern start stop = 0 ∧
        u = .empty ∧ u.find pattern none none = 0 ∧ u.count pattern none none = 1) := by
  have h := Slice.resolve_eq (s := ⟨start, stop, none⟩) (by simp) t.length
  obtain ⟨u, hu⟩ := exists_slice h
  have hcs := codePoints_slice_eq_searched ht hu
  have hfind := find?_none_none u pattern
  refine ⟨u, _, hu, h, fun len hlen hlt => ?_, fun hcond => ⟨?_, ?_⟩, fun hnil hlt => ?_⟩
  · rw [Slice.resolveWord_eq _ (hlen ▸ hlt), hlen, h]
  · exact count_eq_count_none_none ht hcs hcond
  · have hmap := find?_eq_map_first? ht pattern hcond
    rw [← hcs, ← hfind] at hmap
    rw [find_of_find?_eq_map hmap]
    by_cases hle : searchStart t.length start ≤ searchStop t.length stop
    · have hstop := searchStop_mem t.length stop
      dsimp only
      rw [startPoint_eq_min, Int.min_eq_left (by omega),
        Int.toNat_of_nonneg (searchStart_nonneg t.length start)]
    · have hnone : u.find pattern none none = -1 := by
        rw [find_eq_neg_one, hfind, hcs, searched_of_lt (by omega),
          first?_eq_none_of_nil (hcond.resolve_right hle)]
      rw [if_pos hnone, if_pos hnone]
  · rw [searched_of_lt hlt] at hcs
    have hempty : u = .empty := by
      refine Except.ok.inj (hu.symm.trans (slice_eq_empty h ?_))
      rw [← List.length_eq_zero_iff, ← List.length_map (f := t.get?), map_get?_positions h ht hu,
        hcs]
      rfl
    refine ⟨find_eq_neg_one.2 (find?_of_lt ht hlt pattern), count_of_lt ht hlt pattern, hempty, ?_, ?_⟩
    · rw [← Int.natCast_zero, find_eq_natCast, hfind, hnil, first?_nil]
    · rw [count_none_none, if_pos hnil, hcs]
      rfl

/-- An accented letter is found behind a plain one, in a slice that begins with this. From beyond the
end nothing is found, not even the empty pattern, which the empty slice from there has. -/
theorem search_of_slice_behind_letter :
    (ofString "été").WellFormed ∧ (ofString "é").codePoints ≠ [] ∧
      (ofString "été").slice ⟨some (-2), none, none⟩ = .ok (wide [0x74, 0xE9]) ∧
      (wide [0x74, 0xE9]).find (ofString "é") none none = 1 ∧
      (ofString "été").find (ofString "é") (some (-2)) none = 1 + 1 ∧
      (ofString "été").slice ⟨some 4, none, none⟩ = .ok .empty ∧
      Text.empty.find .empty none none = 0 ∧
      (ofString "été").find .empty (some 4) none = -1 := by
  have ht := wellFormed_ofString "été"
  have hne : (ofString "é").codePoints ≠ [] := by decide
  obtain ⟨u, selection, hu, hresolve, _, hsame, _⟩ :=
    search_within_slice ht (ofString "é") (some (-2)) none
  obtain ⟨_, _, hu', _, _, _, hcross⟩ := search_within_slice ht .empty (some 4) none
  obtain ⟨hnone, _, rfl, hfirst, _⟩ := hcross rfl (by decide)
  have hslice : (ofString "été").slice ⟨some (-2), none, none⟩ = .ok (wide [0x74, 0xE9]) := by rfl
  have hfind : (wide [0x74, 0xE9]).find (ofString "é") none none = 1 := by decide
  obtain rfl : u = wide [0x74, 0xE9] := Except.ok.inj (hu.symm.trans hslice)
  obtain rfl : selection = ⟨1, 3, 1, 2⟩ := Except.ok.inj (hresolve.symm.trans (by rfl))
  refine ⟨ht, hne, hslice, hfind, ?_, hu', hfirst, hnone⟩
  rw [(hsame (.inl hne)).2, hfind]
  rfl

end Text
end CodePointText
