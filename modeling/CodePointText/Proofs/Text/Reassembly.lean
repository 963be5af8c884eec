import CodePointText.Proofs.Comparison
import CodePointText.Proofs.Slice.Partition
import CodePointText.Proofs.Text.Window

/-!
# Texts put together from slices

Cut at any bound, a text is its two slices, and reversed twice it is itself. The parts may be held in
other storages than the text.
-/

namespace CodePointText

theorem Slice.positions_of_reversal {len : Nat} {selection : Selection}
    (h : resolve ⟨none, none, some (-1)⟩ len = .ok selection) :
    selection.positions = (List.range len).reverse := by
  have heq : selection = ⟨len - 1, -1, -1, countBetween id (len - 1) (-1) (-1)⟩ := eq_of_resolve h
  have hcount : countBetween id ((len : Int) - 1) (-1) (-1) = len := by
    simp only [countBetween, stepsAcross, id_eq, Int.neg_neg, Int.tdiv_one]
    split <;> split <;> omega
  rw [heq, hcount, Selection.positions, Int.toNat_natCast]
  refine List.ext_getElem (by simp) fun k hk hk' => ?_
  simp only [List.getElem_map, List.getElem_range, List.getElem_reverse, List.length_range,
    Selection.position]
  omega

namespace Text

section

variable {t u v : Text} (ht : t.WellFormed)
include ht

/-- The slices before and from a bound on meet at one position. -/
theorem codePoints_of_cut {i : Int64} (hu : t.slice ⟨none, some i, none⟩ = .ok u)
    (hv : t.slice ⟨some i, none, none⟩ = .ok v) : u.codePoints ++ v.codePoints = t.codePoints := by
  have hlength := length_eq ht
  generalize hpoint : (Slice.pointsTo 0 t.length t.length i).toNat = point
  have hleft : u.codePoints = window t.codePoints 0 point :=
    hpoint ▸ codePoints_of_slice_of_givenStep_eq_one ht rfl hu
  have hright : v.codePoints = window t.codePoints point t.length :=
    hpoint ▸ codePoints_of_slice_of_givenStep_eq_one ht rfl hv
  rw [hleft, hright, hlength, window, window, List.drop_zero, List.take_length,
    List.take_append_drop]

theorem codePoints_of_reversal (hu : t.slice ⟨none, none, some (-1)⟩ = .ok u) :
    u.codePoints = t.codePoints.reverse := by
  obtain ⟨selection, h, _⟩ := bind_eq_ok.1 hu
  rw [codePoints_of_slice h ht hu, Slice.positions_of_reversal h, itemsAt, List.filterMap_reverse,
    length_eq ht]
  exact congrArg List.reverse (itemsAt_range t.codePoints)

end

/-- Slices reassemble a text. The slice before a bound and the slice from the bound on are the text,
wherever the bound points; the reversal of the reversal is the text; and for every step, the slices
in this step from each of the first positions on, as many as the step is wide, share out the
positions of the text, as do the slices back from each of the last positions. -/
theorem slices_reassemble {t : Text} (ht : t.WellFormed) :
    (∀ i : Int64, ∃ u v, t.slice ⟨none, some i, none⟩ = .ok u ∧
      t.slice ⟨some i, none, none⟩ = .ok v ∧ (u.concat v).equal t) ∧
    (∃ u v, t.slice ⟨none, none, some (-1)⟩ = .ok u ∧ u.slice ⟨none, none, some (-1)⟩ = .ok v ∧
      v.equal t) ∧
    (∀ k : Int64, 1 ≤ k.toInt →
      Slice.Partition t.length
        ((List.range k.toInt.toNat).map fun j => ⟨some (.ofNat j), none, some k⟩) ∧
      Slice.Partition t.length
        ((List.range k.toInt.toNat).map fun j : Nat =>
          ⟨some (.ofInt (-1 - j)), none, some (-k)⟩)) := by
  refine ⟨fun i => ?_, ?_, fun k hk => ⟨Slice.partition_forwards hk _,
    Slice.partition_backwards hk _⟩⟩
  · obtain ⟨u, hu⟩ : ∃ u, t.slice ⟨none, some i, none⟩ = .ok u :=
      exists_slice_of_step_ne_zero t (by simp)
    obtain ⟨v, hv⟩ : ∃ v, t.slice ⟨some i, none, none⟩ = .ok v :=
      exists_slice_of_step_ne_zero t (by simp)
    have hwu := wellFormed_slice ht hu
    have hwv := wellFormed_slice ht hv
    refine ⟨u, v, hu, hv, ?_⟩
    rw [equal_iff (wellFormed_concat hwu hwv) ht, codePoints_concat hwu hwv]
    exact codePoints_of_cut ht hu hv
  · have hstep : (some (-1) : Option Int64) ≠ some 0 := by decide
    obtain ⟨u, hu⟩ : ∃ u, t.slice ⟨none, none, some (-1)⟩ = .ok u :=
      exists_slice_of_step_ne_zero t hstep
    obtain ⟨v, hv⟩ : ∃ v, u.slice ⟨none, none, some (-1)⟩ = .ok v :=
      exists_slice_of_step_ne_zero u hstep
    have hwu := wellFormed_slice ht hu
    refine ⟨u, v, hu, hv, ?_⟩
    rw [equal_iff (wellFormed_slice hwu hv) ht, codePoints_of_reversal hwu hv,
      codePoints_of_reversal ht hu, List.reverse_reverse]

/-- Three code points of which two are surrogates, cut before the last one but one, and shared out in
steps of four: one of the slices is empty. -/
theorem slices_of_split_pair :
    (wide [0xD83D, 0x61, 0xDE00]).WellFormed ∧
      (∃ u v, (wide [0xD83D, 0x61, 0xDE00]).slice ⟨none, some (-2), none⟩ = .ok u ∧
        (wide [0xD83D, 0x61, 0xDE00]).slice ⟨some (-2), none, none⟩ = .ok v ∧
        (u.concat v).equal (wide [0xD83D, 0x61, 0xDE00])) ∧
      Slice.Partition 3 [⟨some 0, none, some 4⟩, ⟨some 1, none, some 4⟩, ⟨some 2, none, some 4⟩,
        ⟨some 3, none, some 4⟩] ∧
      Slice.Partition 3 [⟨some (-1), none, some (-4)⟩, ⟨some (-2), none, some (-4)⟩,
        ⟨some (-3), none, some (-4)⟩, ⟨some (-4), none, some (-4)⟩] := by
  have ht : (wide [0xD83D, 0x61, 0xDE00]).WellFormed := by decide
  obtain ⟨hcut, _, hshare⟩ := slices_reassemble ht
  exact ⟨ht, hcut (-2), hshare 4 (by decide)⟩

end Text
end CodePointText
