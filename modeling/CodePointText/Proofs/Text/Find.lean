import CodePointText.Proofs.Slice
import CodePointText.Proofs.Text.Build
import CodePointText.Proofs.Text.Search

/-!
# Texts searched

A pattern occurs in a text if and only if its code points do, and all searches tell so: the one on
bytes, the one for the least position and the one that counts. Between bounds, the position found is
the least one at which the pattern stands within the bounds.
-/

namespace CodePointText

/-- How many bytes encode the characters before a position. -/
def Utf8.boundary (s : String) (i : Nat) : Nat := (encode (s.toList.take i)).length

namespace Text

open Occurrence

/-- Where a search begins: at the first position if there is no bound. A negative bound counts from
the end, and not beyond the first position. -/
def searchStart (len : Nat) : Option Int64 → Int
  | none => 0
  | some bound => if bound.toInt < 0 then max 0 (bound.toInt + len) else bound.toInt

/-- Where a search stops: at the end if there is no bound. Unlike the start, a bound beyond the end is
moved to it. -/
def searchStop (len : Nat) : Option Int64 → Int
  | none => len
  | some bound => min len (searchStart len (some bound))

/-- The pattern stands at the position, and lies between the bounds as a whole. -/
structure MatchAt (t pattern : Text) (start stop : Option Int64) (i : Nat) : Prop where
  start_le : searchStart t.length start ≤ i
  le_stop : (i + pattern.length : Nat) ≤ searchStop t.length stop
  standsAt : StandsAt pattern.codePoints t.codePoints i

theorem searchStart_nonneg (len : Nat) (start : Option Int64) : 0 ≤ searchStart len start := by
  cases start with
  | none => exact Int.le_refl 0
  | some bound =>
    simp only [searchStart]
    split <;> omega

theorem searchStop_mem (len : Nat) (stop : Option Int64) :
    0 ≤ searchStop len stop ∧ searchStop len stop ≤ len := by
  cases stop with
  | none => simp [searchStop]
  | some bound =>
    have := searchStart_nonneg len (some bound)
    simp only [searchStop]
    omega

theorem searchStart_some (len : Nat) (bound : Int64) :
    searchStart len (some bound) = adjustBound len bound := by
  rw [searchStart, adjustBound, Int.max_comm]

theorem searchRange_eq (len : Nat) (start stop : Option Int64) :
    searchRange len start stop =
      if searchStart len start ≤ searchStop len stop then
        some ((searchStart len start).toNat, (searchStop len stop).toNat)
      else none := by
  have hstart : (start.map (adjustBound len)).getD 0 = searchStart len start := by
    cases start with
    | none => rfl
    | some bound => exact (searchStart_some len bound).symm
  have hstop : min ((stop.map (adjustBound len)).getD len) (len : Int) = searchStop len stop := by
    cases stop with
    | none => simp [searchStop]
    | some bound =>
      rw [searchStop, searchStart_some, Int.min_comm]
      rfl
  simp only [searchRange, hstart, hstop]

theorem searchRange_of_le {len : Nat} {start stop : Option Int64}
    (h : searchStart len start ≤ searchStop len stop) :
    ∃ lo hi : Nat, searchStart len start = lo ∧ searchStop len stop = hi ∧ lo ≤ hi ∧ hi ≤ len ∧
      searchRange len start stop = some (lo, hi) := by
  have hstart := searchStart_nonneg len start
  have hstop := searchStop_mem len stop
  refine ⟨(searchStart len start).toNat, (searchStop len stop).toNat, by omega, by omega, by omega,
    by omega, ?_⟩
  rw [searchRange_eq, if_pos h]

theorem searchRange_of_lt {len : Nat} {start stop : Option Int64}
    (h : searchStop len stop < searchStart len start) : searchRange len start stop = none := by
  rw [searchRange_eq, if_neg (by omega)]

theorem isWord_searchRange {len : Nat} (hl : len < 0x8000000000000000) (start stop : Option Int64) :
    (∀ bound : Int64, bound.toInt < 0 → Size.IsWord (bound.toInt + len)) ∧
      Size.IsWord (searchStart len start) ∧ Size.IsWord (searchStop len stop) := by
  have hstop := searchStop_mem len stop
  unfold Size.IsWord
  refine ⟨fun bound hneg => ?_, ?_, by omega, by omega⟩
  · have := bound.le_toInt
    omega
  · cases start with
    | none => simp [searchStart]
    | some bound =>
      have := bound.toInt_lt
      simp only [searchStart]
      split <;> omega

theorem MatchAt.start_le_stop {t pattern : Text} {start stop : Option Int64} {i : Nat}
    (h : t.MatchAt pattern start stop i) :
    searchStart t.length start ≤ searchStop t.length stop := by
  have := h.start_le
  have := h.le_stop
  omega

theorem window_eq {α : Type} (items : List α) (lo hi : Nat) :
    window items lo hi = (items.drop lo).take (hi - lo) := List.drop_take

theorem standsAt_window {α : Type} {pattern items : List α} {lo hi i : Nat} (h : lo ≤ hi)
    (h' : hi ≤ items.length) :
    StandsAt pattern (window items lo hi) i ↔
      StandsAt pattern items (lo + i) ∧ lo + i + pattern.length ≤ hi := by
  rw [window, standsAt_drop (by simp; omega), standsAt_take]

theorem standsAt_window_iff {t pattern : Text} (ht : t.WellFormed) (hp : pattern.WellFormed)
    {start stop : Option Int64} {lo hi : Nat} (hlo : searchStart t.length start = lo)
    (hhi : searchStop t.length stop = hi) (h : lo ≤ hi) (i : Nat) :
    StandsAt pattern.codePoints (window t.codePoints lo hi) i ↔
      t.MatchAt pattern start stop (lo + i) := by
  have hmem := searchStop_mem t.length stop
  have hlength := length_eq ht
  rw [standsAt_window h (by omega), ← length_eq hp]
  constructor
  · rintro ⟨hstands, hle⟩
    exact ⟨by omega, by omega, hstands⟩
  · rintro ⟨_, hle, hstands⟩
    exact ⟨hstands, by omega⟩

/-- The code points that a search covers: none if the start lies beyond the stop. -/
def searched (t : Text) (start stop : Option Int64) : List CodePoint :=
  window t.codePoints (searchStart t.length start).toNat (searchStop t.length stop).toNat

theorem searched_of_lt {t : Text} {start stop : Option Int64}
    (h : searchStop t.length stop < searchStart t.length start) : t.searched start stop = [] := by
  have hstop := searchStop_mem t.length stop
  rw [searched, window_eq, Nat.sub_eq_zero_of_le (by omega), List.take_zero]

theorem MatchAt.exists_eq_add {t pattern : Text} {start stop : Option Int64} {lo i : Nat}
    (h : t.MatchAt pattern start stop i) (hlo : searchStart t.length start = lo) :
    ∃ j, i = lo + j := by
  have hle := h.start_le
  exact Nat.exists_eq_add_of_le (by omega)

/-- The window is searched, and what is found there is counted from the start of the text. -/
theorem find?_of_range {t : Text} {start stop : Option Int64} {lo hi : Nat}
    (h : searchRange t.codePoints.length start stop = some (lo, hi)) (pattern : Text) :
    t.find? pattern start stop =
      (first? pattern.codePoints (window t.codePoints lo hi)).map (lo + ·) := by
  rw [find?, h]
  cases hw : first? pattern.codePoints (window t.codePoints lo hi) <;> simp [hw]

theorem find?_of_lt {t : Text} (ht : t.WellFormed) {start stop : Option Int64}
    (h : searchStop t.length stop < searchStart t.length start) (pattern : Text) :
    t.find? pattern start stop = none := by
  rw [find?, ← length_eq ht, searchRange_of_lt h]
  rfl

section

variable {t pattern : Text} (ht : t.WellFormed) (hp : pattern.WellFormed)
  {start stop : Option Int64}
include ht hp

/-- The search finds the least match. -/
theorem find?_eq_some_iff {i : Nat} :
    t.find? pattern start stop = some i ↔ IsLeast {j | t.MatchAt pattern start stop j} i := by
  by_cases hle : searchStart t.length start ≤ searchStop t.length stop
  · obtain ⟨lo, hi, hlo, hhi, hlohi, _, hrange⟩ := searchRange_of_le hle
    have hwindow := standsAt_window_iff ht hp hlo hhi hlohi
    rw [length_eq ht] at hrange
    rw [find?_of_range hrange, Option.map_eq_some_iff]
    constructor
    · rintro ⟨j, hj, rfl⟩
      obtain ⟨hstands, hleast⟩ := first?_eq_some_iff.1 hj
      refine ⟨(hwindow j).1 hstands, fun k hk => ?_⟩
      obtain ⟨m, rfl⟩ := hk.exists_eq_add hlo
      exact Nat.add_le_add_left (hleast ((hwindow m).2 hk)) lo
    · rintro ⟨hmatch, hleast⟩
      obtain ⟨j, rfl⟩ := hmatch.exists_eq_add hlo
      refine ⟨j, first?_eq_some_iff.2 ⟨(hwindow j).2 hmatch, fun k hk => ?_⟩, rfl⟩
      exact Nat.le_of_add_le_add_left (hleast ((hwindow k).1 hk))
  · rw [find?_of_lt ht (by omega)]
    exact ⟨nofun, fun h => absurd h.1.start_le_stop hle⟩

theorem find?_eq_none_iff :
    t.find? pattern start stop = none ↔ ∀ i, ¬ t.MatchAt pattern start stop i := by
  by_cases hle : searchStart t.length start ≤ searchStop t.length stop
  · obtain ⟨lo, hi, hlo, hhi, hlohi, _, hrange⟩ := searchRange_of_le hle
    have hwindow := standsAt_window_iff ht hp hlo hhi hlohi
    rw [length_eq ht] at hrange
    rw [find?_of_range hrange, Option.map_eq_none_iff, first?_eq_none_iff]
    constructor
    · intro hnone i hmatch
      obtain ⟨j, rfl⟩ := hmatch.exists_eq_add hlo
      exact hnone j ((hwindow j).2 hmatch)
    · intro hnone j hj
      exact hnone (lo + j) ((hwindow j).1 hj)
  · rw [find?_of_lt ht (by omega)]
    exact ⟨fun _ i h => hle h.start_le_stop, fun _ => rfl⟩

end

theorem find_eq_natCast {t pattern : Text} {start stop : Option Int64} {i : Nat} :
    t.find pattern start stop = i ↔ t.find? pattern start stop = some i := by
  unfold find
  split
  · next j hj => rw [hj, Option.some.injEq, Int.natCast_inj]
  · next hnone =>
    rw [hnone]
    exact ⟨fun h => by omega, nofun⟩

theorem find_nonneg_iff {t pattern : Text} {start stop : Option Int64} :
    0 ≤ t.find pattern start stop ↔ (t.find? pattern start stop).isSome := by
  unfold find
  split
  · next j hj => simp [hj]
  · next hnone => simp [hnone]

theorem find?_none_none (t pattern : Text) :
    t.find? pattern none none = first? pattern.codePoints t.codePoints := by
  rw [find?_of_range (searchRange_none _), window_all]
  simp

theorem count_of_range {t : Text} {start stop : Option Int64} {lo hi : Nat}
    (h : searchRange t.codePoints.length start stop = some (lo, hi)) (pattern : Text) :
    t.count pattern start stop =
      if pattern.codePoints = [] then hi - lo + 1
      else Occurrence.count pattern.codePoints (window t.codePoints lo hi) := by
  rw [count, h]
  simp only [List.isEmpty_iff]

theorem count_of_lt {t : Text} (ht : t.WellFormed) {start stop : Option Int64}
    (h : searchStop t.length stop < searchStart t.length start) (pattern : Text) :
    t.count pattern start stop = 0 := by
  rw [count, ← length_eq ht, searchRange_of_lt h]

theorem count_none_none (t pattern : Text) :
    t.count pattern none none =
      if pattern.codePoints = [] then t.codePoints.length + 1
      else Occurrence.count pattern.codePoints t.codePoints := by
  rw [count_of_range (searchRange_none _), window_all, Nat.sub_zero]

theorem count_none_none_pos_iff (t pattern : Text) :
    0 < t.count pattern none none ↔ (first? pattern.codePoints t.codePoints).isSome := by
  rw [count_none_none]
  by_cases hp : pattern.codePoints = []
  · rw [if_pos hp, hp, first?_nil]
    exact ⟨fun _ => rfl, fun _ => Nat.succ_pos _⟩
  · rw [if_neg hp, count_pos_iff hp]

theorem standsAt_bytes_iff {s p : String} (hp : p ≠ "") {b : Nat} :
    StandsAt (Utf8.bytes p) (Utf8.bytes s) b ↔
      ∃ i, StandsAt p.toList s.toList i ∧ Utf8.boundary s i = b := by
  rw [Utf8.bytes_eq_flatMap, Utf8.bytes_eq_flatMap]
  exact synchronizing_encodeChar.standsAt_flatMap (by rwa [ne_eq, String.toList_eq_nil_iff])

/-- The first match of the bytes is where the first match of the characters begins, also for the
empty pattern, whose bytes stand within characters as well. -/
theorem first?_bytes (s p : String) :
    first? (Utf8.bytes p) (Utf8.bytes s) = (first? p.toList s.toList).map (Utf8.boundary s) := by
  rw [Utf8.bytes_eq_flatMap, Utf8.bytes_eq_flatMap]
  by_cases hp : p.toList = []
  · rw [hp, List.flatMap_nil, first?_nil, first?_nil]
    rfl
  · exact first?_flatMap synchronizing_encodeChar hp s.toList

/-- Whether a pattern occurs in a text is told alike by all searches: it does if the code points of
the text are those of the pattern with others before and behind it, if it has a position, and if it
is counted at least once. Between compact texts the bytes are searched. A match of bytes is a match
of code points that begins at a character, and every match of code points is one of bytes; the first
matches correspond, whatever the pattern. -/
theorem search_agrees (t pattern : Text) :
    (t.contains pattern ↔ ∃ before after, t.codePoints = before ++ pattern.codePoints ++ after) ∧
    (t.contains pattern ↔ 0 ≤ t.find pattern none none) ∧
    (t.contains pattern ↔ 1 ≤ t.count pattern none none) ∧
    (∀ s p, t.string? = some s → pattern.string? = some p →
      (t.contains pattern ↔ ∃ b, StandsAt (Utf8.bytes p) (Utf8.bytes s) b) ∧
      (∀ b, p ≠ "" → StandsAt (Utf8.bytes p) (Utf8.bytes s) b →
        ∃ i, StandsAt pattern.codePoints t.codePoints i ∧ Utf8.boundary s i = b) ∧
      (∀ i, StandsAt pattern.codePoints t.codePoints i →
        StandsAt (Utf8.bytes p) (Utf8.bytes s) (Utf8.boundary s i)) ∧
      (∀ b, IsLeast {c | StandsAt (Utf8.bytes p) (Utf8.bytes s) c} b ↔
        ∃ i, IsLeast {j | StandsAt pattern.codePoints t.codePoints j} i ∧
          Utf8.boundary s i = b)) := by
  rw [contains_eq]
  refine ⟨isSome_first?_iff.trans exists_standsAt, ?_, (count_none_none_pos_iff t pattern).symm, ?_⟩
  · rw [find_nonneg_iff, find?_none_none]
  · intro s p hs hp
    have hstands (i : Nat) : StandsAt pattern.codePoints t.codePoints i ↔
        StandsAt p.toList s.toList i := by
      rw [codePoints_of_string? hs, codePoints_of_string? hp,
        standsAt_map CodePoint.ofChar_injective]
    have hany : (∃ b, StandsAt (Utf8.bytes p) (Utf8.bytes s) b) ↔
        ∃ i, StandsAt p.toList s.toList i := by
      rw [← isSome_first?_iff, first?_bytes, Option.isSome_map, isSome_first?_iff]
    refine ⟨?_, fun b hne => ?_, fun i hi => ?_, fun b => ?_⟩
    · rw [isSome_first?_iff, hany]
      exact exists_congr hstands
    · simp only [hstands]
      exact (standsAt_bytes_iff hne).1
    · rw [Utf8.bytes_eq_flatMap, Utf8.bytes_eq_flatMap]
      exact ((hstands i).1 hi).flatMap String.utf8EncodeChar
    · simp only [hstands, ← first?_eq_some_iff]
      rw [first?_bytes, Option.map_eq_some_iff]

/-- The bytes of an accented letter are found behind another one of its kind and a plain one, where
such a letter begins. -/
theorem search_of_accented_letter :
    StandsAt (Utf8.bytes "é") (Utf8.bytes "été") 3 ∧
      ∃ i, StandsAt (ofString "é").codePoints (ofString "été").codePoints i ∧
        Utf8.boundary "été" i = 3 := by
  have hstands : StandsAt (Utf8.bytes "é") (Utf8.bytes "été") 3 :=
    ⟨[0xC3, 0xA9, 0x74], [], by decide, rfl⟩
  obtain ⟨_, _, _, hbytes⟩ := search_agrees (ofString "été") (ofString "é")
  obtain ⟨_, hboundary, _⟩ := hbytes "été" "é" rfl rfl
  exact ⟨hstands, hboundary 3 (by decide) hstands⟩

/-- A search between bounds finds the least match: the least position from the start on at which the
pattern stands and ends before the stop. Without a match the answer is -1, and so it is whenever the
start lies beyond the stop, also for the empty pattern. Neither the bounds nor the answer leave the
words. -/
theorem find_least {t pattern : Text} (ht : t.WellFormed) (hp : pattern.WellFormed)
    (start stop : Option Int64) :
    (∀ i : Nat, t.find pattern start stop = i ↔
      IsLeast {j | t.MatchAt pattern start stop j} i) ∧
    (t.find pattern start stop = -1 ↔ ∀ i, ¬ t.MatchAt pattern start stop i) ∧
    (searchStop t.length stop < searchStart t.length start → t.find pattern start stop = -1) ∧
    (t.length < 0x8000000000000000 →
      (∀ bound : Int64, bound.toInt < 0 → Size.IsWord (bound.toInt + t.length)) ∧
      Size.IsWord (searchStart t.length start) ∧ Size.IsWord (searchStop t.length stop) ∧
      Size.IsWord (t.find pattern start stop)) := by
  refine ⟨fun i => ?_, ?_, fun hlt => ?_, fun hl => ?_⟩
  · rw [find_eq_natCast, find?_eq_some_iff ht hp]
  · rw [find_eq_neg_one, find?_eq_none_iff ht hp]
  · rw [find_eq_neg_one, find?_of_lt ht hlt]
  · obtain ⟨hbound, hstart, hstop⟩ := isWord_searchRange hl start stop
    refine ⟨hbound, hstart, hstop, ?_⟩
    cases hfind : t.find? pattern start stop with
    | none =>
      rw [find_eq_neg_one.2 hfind]
      exact ⟨by decide, by decide⟩
    | some i =>
      have hle := ((find?_eq_some_iff ht hp).1 hfind).1.le_stop
      have hmem := searchStop_mem t.length stop
      rw [find_eq_natCast.2 hfind]
      unfold Size.IsWord
      omega

/-- From the last but one position on, up to the largest bound: the first of the letters is passed
over. -/
theorem find_of_letter_between_surrogates :
    (wide [0xD83D, 0x61, 0xD83D, 0x61]).WellFormed ∧ (ofString "a").WellFormed ∧
      IsLeast {j | (wide [0xD83D, 0x61, 0xD83D, 0x61]).MatchAt (ofString "a") (some (-2))
        (some Int64.maxValue) j} 3 := by
  have ht : (wide [0xD83D, 0x61, 0xD83D, 0x61]).WellFormed := by decide
  have hp : (ofString "a").WellFormed := wellFormed_ofString "a"
  obtain ⟨hfind, _⟩ := find_least ht hp (some (-2)) (some Int64.maxValue)
  exact ⟨ht, hp, (hfind 3).1 (by decide)⟩

end Text
end CodePointText
