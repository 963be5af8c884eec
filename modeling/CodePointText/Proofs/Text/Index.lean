import CodePointText.Proofs.Result
import CodePointText.Text.Index

/-!
# Contents of items and slices

Whatever the storage, an index and a slice select among the code points of a well-formed text, and
what they select is well-formed.
-/

namespace CodePointText

theorem Utf8.map_bytes_of_isAscii {s : String} (h : isAscii s) :
    (bytes s).map UInt8.toUInt32 = s.toList.map CodePoint.ofChar := by
  rw [bytes_of_isAscii h, List.map_map]
  rw [isAscii_eq, List.all_eq_true] at h
  refine List.map_congr_left fun c hc => ?_
  have ha : c.val.toNat < 0x80 := CodePoint.isAscii_iff.1 (h c hc)
  simp only [Function.comp_apply, CodePoint.ofChar]
  apply UInt32.toNat_inj.1
  rw [UInt8.toNat_toUInt32, UInt32.toNat_toUInt8]
  omega

namespace Text

theorem isAscii_of_wellFormed {s : String} {n : Nat} (h : (compact s n true).WellFormed) :
    Utf8.isAscii s := by
  rw [Utf8.isAscii_eq, ← h.2]

theorem get?_eq {t : Text} (h : t.WellFormed) (i : Nat) : t.get? i = t.codePoints[i]? := by
  cases t with
  | compact s n ascii =>
    cases ascii with
    | true =>
      rw [get?, ← List.getElem?_map, Utf8.map_bytes_of_isAscii (isAscii_of_wellFormed h)]
      rfl
    | false =>
      rw [get?, ← List.getElem?_map]
      rfl
  | wide cs => rfl

theorem item_eq {t : Text} (h : t.WellFormed) (index : Int64) :
    t.item index = (positionOf t.codePoints.length index).bind fun i =>
      match t.codePoints[i]? with
      | some c => ofCodePoint c
      | none => .error .indexOutOfRange := by
  simp only [item, length_eq h, get?_eq h]
  rfl

theorem ofCodePoint_of_inRange {c : CodePoint} (h : c.inRange) : ∃ t, ofCodePoint c = .ok t := by
  unfold ofCodePoint
  split
  · exact ⟨_, rfl⟩
  · rw [if_pos h]
    exact ⟨_, rfl⟩

/-- What stands in a text is in range, so an index can only miss it. -/
theorem item_error {t : Text} (ht : t.WellFormed) {index : Int64} {e : TextError}
    (h : t.item index = .error e) : e = .indexOutOfRange := by
  rcases bind_eq_error.1 h with hp | ⟨i, _, hi⟩
  · exact (positionOf_eq_error.1 hp).1
  · split at hi
    · next c hc =>
      rw [get?_eq ht] at hc
      obtain ⟨u, hu⟩ := ofCodePoint_of_inRange (inRange_of_mem ht (List.mem_of_getElem? hc))
      rw [hu] at hi
      cases hi
    · exact (Except.error.inj hi).symm

theorem wellFormed_item {t u : Text} {index : Int64} (h : t.item index = .ok u) : u.WellFormed := by
  unfold item at h
  obtain ⟨i, _, hi⟩ := bind_eq_ok.1 h
  split at hi
  · exact wellFormed_ofCodePoint hi
  · cases hi

theorem itemsAt_map {α β : Type} (f : α → β) (items : List α) (positions : List Nat) :
    itemsAt (items.map f) positions = (itemsAt items positions).map f := by
  simp [itemsAt, List.map_filterMap, List.getElem?_map]

theorem mem_of_mem_itemsAt {α : Type} {items : List α} {positions : List Nat} {x : α}
    (h : x ∈ itemsAt items positions) : x ∈ items := by
  obtain ⟨p, _, hp⟩ := List.mem_filterMap.1 h
  exact List.mem_of_getElem? hp

theorem itemsAt_range' {α : Type} (items : List α) (lo n : Nat) :
    itemsAt items (List.range' lo n) = (items.drop lo).take n := by
  induction n generalizing lo with
  | zero => rw [List.take_zero]; rfl
  | succ n ih =>
    have hnext := ih (lo + 1)
    rw [itemsAt] at hnext
    rw [itemsAt, List.range'_succ, List.filterMap_cons, hnext]
    by_cases hlo : lo < items.length
    · rw [List.getElem?_eq_getElem hlo, List.drop_eq_getElem_cons hlo, List.take_succ_cons]
    · simp [List.drop_eq_nil_of_le, Nat.le_succ_of_le, Nat.le_of_not_lt hlo]

theorem itemsAt_range {α : Type} (items : List α) :
    itemsAt items (List.range items.length) = items := by
  rw [List.range_eq_range', itemsAt_range', List.drop_zero, List.take_length]

end Text

namespace Slice

theorem resolve_forwards {s : Slice} {len : Nat} {selection : Selection}
    (h : s.resolve len = .ok selection) (hstep : 0 ≤ selection.step) :
    (0 ≤ selection.start ∧ selection.start ≤ len) ∧
      (0 ≤ selection.stop ∧ selection.stop ≤ len) ∧
      selection.count = countBetween id selection.start selection.stop selection.step := by
  unfold resolve resolveBy at h
  split at h
  · cases h
  · obtain rfl := Except.ok.inj h
    have hn : ¬ stepInUse s.step < 0 := Int.not_lt.2 hstep
    simp only [limits, if_neg hn]
    exact ⟨boundInUse_mem 0 len (by omega) len (by omega) (by omega) (by omega) (by omega) s.start,
      boundInUse_mem 0 len (by omega) len (by omega) (by omega) (by omega) (by omega) s.stop,
      trivial⟩

theorem countBetween_one (start stop : Int) :
    countBetween id start stop 1 = if start < stop then stop - start else 0 := by
  simp only [countBetween, stepsAcross, id_eq, Int.tdiv_one]
  split
  · omega
  · split <;> omega

theorem positions_of_count_eq {s : Slice} {len : Nat} {selection : Selection}
    (h : s.resolve len = .ok selection) (hstep : selection.step = 1)
    (hcount : selection.count = len) :
    selection.positions = List.range len := by
  obtain ⟨hstart, hstop, hc⟩ := resolve_forwards h (by omega)
  have h0 : selection.start = 0 := by
    rw [hstep, countBetween_one] at hc
    split at hc <;> omega
  have hposition : ∀ k ∈ List.range len, selection.position k = k := by
    intro k _
    simp [Selection.position, h0, hstep]
  rw [Selection.positions, hcount, Int.toNat_natCast]
  conv => rhs; rw [← List.map_id (List.range len)]
  exact List.map_congr_left hposition

end Slice

namespace Text

/-- A slice holds the code points at the positions that it selects. -/
theorem codePoints_slice {t : Text} (h : t.WellFormed) (range : Slice) :
    (t.slice range).map codePoints =
      (range.resolve t.codePoints.length).map fun selection =>
        itemsAt t.codePoints selection.positions := by
  rw [slice, length_eq h]
  cases hr : range.resolve t.codePoints.length with
  | error e => rfl
  | ok selection =>
    change Except.map codePoints (if selection.count = 0 then _ else _) = .ok _
    split
    · next h0 =>
      have hp : selection.positions = [] := by
        rw [Selection.positions, h0]
        rfl
      exact congrArg (fun positions => Except.ok (itemsAt t.codePoints positions)) hp.symm
    · next h0 =>
      split
      · next hall =>
        have hp := Slice.positions_of_count_eq hr hall.1 hall.2
        refine congrArg Except.ok ?_
        show t.codePoints = itemsAt t.codePoints selection.positions
        rw [hp, itemsAt_range]
      · split
        · next s n _ =>
          have hb := Utf8.map_bytes_of_isAscii (isAscii_of_wellFormed h)
          refine congrArg Except.ok ?_
          show _ = itemsAt (compact s n true).codePoints selection.positions
          rw [codePoints_ofChars, List.map_map, codePoints_compact, ← hb, itemsAt_map]
          rfl
        · rfl

theorem slice_error {t : Text} {range : Slice} {e : TextError} (h : t.slice range = .error e) :
    e = .zeroStep := by
  rcases bind_eq_error.1 h with hr | ⟨selection, _, hs⟩
  · exact (Slice.resolve_eq_error.1 hr).1
  · split at hs
    · cases hs
    · split at hs
      · cases hs
      · split at hs <;> cases hs

theorem wellFormed_slice {t u : Text} (ht : t.WellFormed) {range : Slice}
    (h : t.slice range = .ok u) : u.WellFormed := by
  unfold slice at h
  obtain ⟨selection, _, h⟩ := bind_eq_ok.1 h
  change (if selection.count = 0 then _ else _) = Except.ok u at h
  split at h
  · obtain rfl := Except.ok.inj h
    exact wellFormed_ofString ""
  · split at h
    · obtain rfl := Except.ok.inj h
      exact ht
    · split at h
      · obtain rfl := Except.ok.inj h
        exact wellFormed_ofString _
      · obtain rfl := Except.ok.inj h
        exact fun c hc => inRange_of_mem ht (mem_of_mem_itemsAt hc)

end Text
end CodePointText
