import CodePointText.Proofs.Slice
import CodePointText.Proofs.Text.Index
import CodePointText.Proofs.Text.Storage

/-!
# Texts sliced

A slice of a text holds the code points at the positions that it is resolved to. Each of them is
found, by whichever path the storage takes to it, and the path also settles how the slice is stored.
-/

namespace CodePointText

namespace Text

theorem map_getElem?_eq {α : Type} {items : List α} {positions : List Nat}
    (h : ∀ p ∈ positions, p < items.length) :
    positions.map (items[·]?) = (itemsAt items positions).map some := by
  induction positions with
  | nil => rfl
  | cons p ps ih =>
    rw [List.forall_mem_cons] at h
    have hp : items[p]? = some items[p] := List.getElem?_eq_getElem h.1
    have hps := ih h.2
    rw [itemsAt] at hps
    rw [List.map_cons, hps, itemsAt, List.filterMap_cons, hp]
    rfl

/-- A slice that is resolved is taken by one of four paths. -/
theorem slice_of_resolve (t : Text) {range : Slice} {selection : Selection} :
    range.resolve t.length = .ok selection →
    t.slice range =
      if selection.count = 0 then .ok .empty
      else if selection.step = 1 ∧ selection.count = t.length then .ok t
      else
        match t with
        | .compact s _ true =>
          .ok (ofChars ((itemsAt (Utf8.bytes s) selection.positions).map Char.ofUInt8))
        | _ => .ok (.wide (itemsAt t.codePoints selection.positions)) := by
  intro h
  rw [slice, h]
  rfl

section Resolved

variable {t : Text} {range : Slice} {selection : Selection}
  (h : range.resolve t.length = .ok selection)
include h

theorem exists_slice : ∃ u, t.slice range = .ok u := by
  rw [slice_of_resolve t h]
  split_ifs
  · exact ⟨_, rfl⟩
  · exact ⟨_, rfl⟩
  · split <;> exact ⟨_, rfl⟩

theorem slice_eq_empty (h0 : selection.positions = []) : t.slice range = .ok .empty := by
  have hcount : selection.count = 0 := by
    rw [Slice.count_eq_length h, h0]
    rfl
  rw [slice_of_resolve t h, if_pos hcount]

/-- All positions in order are counted, and this is what a slice looks at. -/
theorem slice_eq_self (h0 : selection.positions ≠ []) (hstep : range.givenStep = 1)
    (hall : selection.positions = List.range t.length) : t.slice range = .ok t := by
  have hcount := Slice.count_eq_length h
  have hlength := congrArg List.length hall
  have hpos := List.length_pos_iff.2 h0
  rw [List.length_range] at hlength
  have huse : selection.step = 1 := by
    rw [Slice.eq_of_resolve h]
    exact (Slice.stepInUse_eq_one_iff range).2 hstep
  rw [slice_of_resolve t h, if_neg (by omega), if_pos ⟨huse, by omega⟩]

/-- A slice that is neither empty nor the whole text in order is compact if it is read off bytes. -/
theorem isCompact_slice (h0 : selection.positions ≠ [])
    (hpart : ¬ (range.givenStep = 1 ∧ selection.positions = List.range t.length)) {u : Text}
    (hu : t.slice range = .ok u) : u.isCompact ↔ t.isCompact ∧ t.isAscii := by
  have hcount := Slice.count_eq_length h
  have hpos := List.length_pos_iff.2 h0
  have hwhole : ¬ (selection.step = 1 ∧ selection.count = t.length) := by
    rintro ⟨hstep, hlength⟩
    refine hpart ⟨?_, Slice.positions_of_count_eq h hstep hlength⟩
    rw [Slice.eq_of_resolve h] at hstep
    exact (Slice.stepInUse_eq_one_iff range).1 hstep
  rw [slice_of_resolve t h, if_neg (by omega), if_neg hwhole] at hu
  cases t with
  | compact s n ascii =>
    cases ascii with
    | true =>
      obtain rfl := Except.ok.inj hu
      exact ⟨fun _ => ⟨rfl, rfl⟩, fun _ => rfl⟩
    | false =>
      obtain rfl := Except.ok.inj hu
      exact ⟨nofun, fun hascii => absurd hascii.2 nofun⟩
  | wide cs =>
    obtain rfl := Except.ok.inj hu
    exact ⟨nofun, fun hcompact => absurd hcompact.1 nofun⟩

section WellFormed

variable (ht : t.WellFormed)
include ht

theorem lt_length_of_mem_positions {p : Nat} (hp : p ∈ selection.positions) :
    p < t.codePoints.length := by
  rw [← length_eq ht]
  exact Slice.lt_of_mem_positions h hp

theorem codePoints_of_slice {u : Text} (hu : t.slice range = .ok u) :
    u.codePoints = itemsAt t.codePoints selection.positions := by
  have hcs := codePoints_slice ht range
  rw [hu, ← length_eq ht, h] at hcs
  exact Except.ok.inj hcs

theorem map_get?_positions {u : Text} (hu : t.slice range = .ok u) :
    selection.positions.map t.get? = u.codePoints.map some := by
  have hget : t.get? = (t.codePoints[·]?) := funext fun i => get?_eq ht i
  rw [hget, map_getElem?_eq fun p => lt_length_of_mem_positions h ht, codePoints_of_slice h ht hu]

theorem length_of_slice {u : Text} (hu : t.slice range = .ok u) : selection.count = u.length := by
  have hlength := congrArg List.length (map_get?_positions h ht hu)
  rw [List.length_map, List.length_map] at hlength
  rw [Slice.count_eq_length h, hlength, length_eq (wellFormed_slice ht hu)]

end WellFormed

end Resolved

theorem exists_slice_of_step_ne_zero (t : Text) {range : Slice} (h : range.step ≠ some 0) :
    ∃ u, t.slice range = .ok u :=
  exists_slice (Slice.resolve_eq h t.length)

theorem isCompact_slice_of_isAscii {t u : Text} {range : Slice} (hc : t.isCompact) (ha : t.isAscii)
    (hu : t.slice range = .ok u) : u.isCompact := by
  obtain ⟨selection, h, _⟩ := bind_eq_ok.1 hu
  by_cases h0 : selection.positions = []
  · rw [slice_eq_empty h h0] at hu
    obtain rfl := Except.ok.inj hu
    exact isCompact_empty
  by_cases hwhole : range.givenStep = 1 ∧ selection.positions = List.range t.length
  · rw [slice_eq_self h h0 hwhole.1 hwhole.2] at hu
    obtain rfl := Except.ok.inj hu
    exact hc
  · exact (isCompact_slice h h0 hwhole hu).2 ⟨hc, ha⟩

/-- A slice is exactly what is selected. It fails for the step zero alone. Otherwise every position
of the selection is in the text, the slice holds the code points that stand there in this order, and
it is as long as the selection. Nothing selected is the empty compact text, the whole text in steps
of one is the text itself, and all else is compact if it is taken from compact ASCII text. -/
theorem slice_exact {t : Text} (ht : t.WellFormed) (range : Slice) :
    (∀ e, t.slice range = .error e ↔ e = .zeroStep ∧ range.step = some 0) ∧
    (range.step ≠ some 0 → ∃ u selection, t.slice range = .ok u ∧
      range.resolve t.length = .ok selection ∧
      (∀ len : UInt64, len.toNat = t.length → t.length < 0x8000000000000000 →
        range.resolveWord len = .ok selection) ∧
      (∀ p ∈ selection.positions, p < t.length) ∧
      selection.positions.map t.get? = u.codePoints.map some ∧
      selection.positions.map (t.codePoints[·]?) = u.codePoints.map some ∧
      selection.count = u.length ∧
      (selection.positions = [] → u = .empty) ∧
      (selection.positions ≠ [] → range.givenStep = 1 →
        selection.positions = List.range t.length → u = t) ∧
      (selection.positions ≠ [] →
        ¬ (range.givenStep = 1 ∧ selection.positions = List.range t.length) →
          (u.isCompact ↔ t.isCompact ∧ t.isAscii))) := by
  refine ⟨fun e => ?_, fun h0 => ?_⟩
  · constructor
    · intro he
      rcases bind_eq_error.1 he with hr | ⟨selection, hr, _⟩
      · exact Slice.resolve_eq_error.1 hr
      · obtain ⟨u, hu⟩ := exists_slice hr
        rw [hu] at he
        cases he
    · rintro ⟨rfl, hstep⟩
      exact bind_eq_error.2 (.inl (Slice.resolve_eq_error.2 ⟨rfl, hstep⟩))
  · have h := Slice.resolve_eq h0 t.length
    obtain ⟨u, hu⟩ := exists_slice h
    have hget := map_get?_positions h ht hu
    refine ⟨u, _, hu, h, fun len hlen hlt => ?_, fun p => Slice.lt_of_mem_positions h, hget, ?_,
      length_of_slice h ht hu, fun hnone => ?_, fun hsome hstep hall => ?_,
      fun hsome hpart => isCompact_slice h hsome hpart hu⟩
    · rw [Slice.resolveWord_eq range (hlen ▸ hlt), hlen, h]
    · have hcs : t.get? = (t.codePoints[·]?) := funext fun i => get?_eq ht i
      rw [← hcs, hget]
    · exact Except.ok.inj (hu.symm.trans (slice_eq_empty h hnone))
    · exact Except.ok.inj (hu.symm.trans (slice_eq_self h hsome hstep hall))

/-- Every second character of an accented word, from the last on: not all of them are bytes, so the
slice is wide. -/
theorem slice_of_accented_word :
    (ofString "naïve").WellFormed ∧ ∃ u, (ofString "naïve").slice ⟨none, none, some (-2)⟩ = .ok u ∧
      u.codePoints = [0x65, 0xEF, 0x6E] ∧ ¬ u.isCompact := by
  have ht := wellFormed_ofString "naïve"
  obtain ⟨_, hslice⟩ := slice_exact ht ⟨none, none, some (-2)⟩
  obtain ⟨u, selection, hu, hresolve, _, _, _, hcs, _, _, _, hpart⟩ := hslice (by decide)
  have hselection : selection = ⟨4, -1, -2, 3⟩ :=
    Except.ok.inj (hresolve.symm.trans (by rfl))
  subst hselection
  refine ⟨ht, u, hu, ?_, ?_⟩
  · have hsome : u.codePoints.map some = [0x65, 0xEF, 0x6E].map some := hcs.symm
    exact (List.map_inj_right fun _ _ => Option.some.inj).1 hsome
  · rw [hpart (by decide) (by decide)]
    decide +kernel

end Text
end CodePointText
