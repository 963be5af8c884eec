import CodePointText.Proofs.Iteration.Interleaving
import CodePointText.Proofs.Text.Concat
import CodePointText.Proofs.Text.Window

/-!
# Items of texts

An index reads what iteration comes to, by whichever path the storage takes to it. It points into a
text from either end, the item there is the slice of one code point, and the items one after the
other are the text.
-/

namespace CodePointText
namespace Text

/-- An index points into a sequence if it is one of its positions, counted from the start or, below
zero, from the end. -/
def Within (len : Nat) (index : Int64) : Prop := -(len : Int) ≤ index.toInt ∧ index.toInt < len

instance (len : Nat) (index : Int64) : Decidable (Within len index) :=
  inferInstanceAs (Decidable (_ ∧ _))

def pointOf (len : Nat) (index : Int64) : Int :=
  if index.toInt < 0 then index.toInt + len else index.toInt

/-- The stop of a slice that ends behind an index: there is none behind the last position, since zero
would be the first one. -/
def stopBehind (index : Int64) : Option Int64 := if index.toInt = -1 then none else some (index + 1)

theorem pointOf_mem {len : Nat} {index : Int64} (h : Within len index) :
    0 ≤ pointOf len index ∧ pointOf len index < len := by
  unfold Within at h
  unfold pointOf
  split <;> omega

theorem positionOf_of_within {len : Nat} {index : Int64} (h : Within len index) :
    positionOf len index = .ok (pointOf len index).toNat := by
  have hmem := pointOf_mem h
  have heq : pointOf len index = if index.toInt < 0 then index.toInt + len else index.toInt := rfl
  rw [positionOf_eq_ok]
  split at heq <;> omega

theorem positionOf_of_not_within {len : Nat} {index : Int64} (h : ¬ Within len index) :
    positionOf len index = .error .indexOutOfRange := by
  unfold Within at h
  exact positionOf_eq_error.2 ⟨rfl, by omega⟩

/-- The slice that ends behind an index begins where the index points and stops one position later. -/
theorem points_stopBehind {len : Nat} (hl : len < 0x8000000000000000) {index : Int64}
    (h : Within len index) :
    (Slice.mk (some index) (stopBehind index) none).startPoint len = pointOf len index ∧
      (Slice.mk (some index) (stopBehind index) none).stopPoint len = pointOf len index + 1 := by
  have hmem := pointOf_mem h
  have hpos : 0 < (Slice.mk (some index) (stopBehind index) none).givenStep := Int.one_pos
  rw [Slice.startPoint, Slice.stopPoint, if_pos hpos, if_pos hpos]
  unfold Within at h
  unfold pointOf at hmem ⊢
  constructor
  · simp only [Option.map_some, Option.getD_some, Slice.pointsTo]
    omega
  · unfold stopBehind
    by_cases hlast : index.toInt = -1
    · rw [if_pos hlast, hlast]
      change (len : Int) = _
      omega
    · have hnext : (index + 1).toInt = index.toInt + 1 := by
        rw [Int64.toInt_add]
        exact Int.bmod_eq_of_le (by simp; omega) (by simp; omega)
      rw [if_neg hlast]
      simp only [Option.map_some, Option.getD_some, Slice.pointsTo, hnext]
      split <;> split <;> omega

section

variable {t : Text} (ht : t.WellFormed)
include ht

theorem exists_item {index : Int64} (h : Within t.length index) :
    ∃ c u, t.codePoints[(pointOf t.length index).toNat]? = some c ∧ ofCodePoint c = .ok u ∧
      t.item index = .ok u := by
  have hmem := pointOf_mem h
  have hlength := length_eq ht
  obtain ⟨c, hc⟩ : ∃ c, t.codePoints[(pointOf t.length index).toNat]? = some c :=
    ⟨_, List.getElem?_eq_getElem (by omega)⟩
  obtain ⟨u, hu⟩ := ofCodePoint_of_inRange (inRange_of_mem ht (List.mem_of_getElem? hc))
  refine ⟨c, u, hc, hu, ?_⟩
  simp only [item_eq ht, ← hlength, positionOf_of_within h, Except.bind, hc, hu]

/-- An item is missing for one cause: the index points nowhere. -/
theorem item_eq_error_iff {index : Int64} {e : TextError} :
    t.item index = .error e ↔ e = .indexOutOfRange ∧ ¬ Within t.length index := by
  constructor
  · intro h
    refine ⟨item_error ht h, fun hw => ?_⟩
    obtain ⟨_, u, _, _, hu⟩ := exists_item ht hw
    rw [hu] at h
    cases h
  · rintro ⟨rfl, h⟩
    rw [item, positionOf_of_not_within h]
    rfl

theorem codePoints_slice_stopBehind (hl : t.length < 0x8000000000000000) {index : Int64}
    (h : Within t.length index) {c : CodePoint}
    (hc : t.codePoints[(pointOf t.length index).toNat]? = some c) {v : Text}
    (hv : t.slice ⟨some index, stopBehind index, none⟩ = .ok v) : v.codePoints = [c] := by
  have hmem := pointOf_mem h
  obtain ⟨hstart, hstop⟩ := points_stopBehind hl h
  obtain ⟨hlt, hget⟩ := List.getElem?_eq_some_iff.1 hc
  have hnext : (pointOf t.length index + 1).toNat = (pointOf t.length index).toNat + 1 := by omega
  rw [codePoints_of_slice_of_givenStep_eq_one ht rfl hv, hstart, hstop, hnext, window_eq,
    Nat.add_sub_cancel_left, List.drop_eq_getElem_cons hlt, hget]
  rfl

theorem exists_items (hl : t.length < 0x8000000000000000) {positions : List Nat}
    (h : ∀ i ∈ positions, i < t.length) :
    ∃ items, positions.mapM (fun i => t.item (.ofNat i)) = .ok items ∧
      (∀ u ∈ items, u.WellFormed) ∧
      items.flatMap codePoints = itemsAt t.codePoints positions := by
  induction positions with
  | nil => exact ⟨[], rfl, nofun, rfl⟩
  | cons i positions ih =>
    rw [List.forall_mem_cons] at h
    obtain ⟨items, hitems, hwf, hcs⟩ := ih h.2
    have htoInt : (Int64.ofNat i).toInt = i := Int64.toInt_ofNat_of_lt (by omega)
    have hpoint : pointOf t.length (.ofNat i) = i := by
      rw [pointOf, htoInt, if_neg (by omega)]
    have hwithin : Within t.length (.ofNat i) := by
      unfold Within
      omega
    obtain ⟨c, u, hc, hu, hitem⟩ := exists_item ht hwithin
    rw [hpoint, Int.toNat_natCast] at hc
    refine ⟨u :: items, ?_, List.forall_mem_cons.2 ⟨wellFormed_ofCodePoint hu, hwf⟩, ?_⟩
    · rw [List.mapM_cons, hitem, hitems]
      rfl
    · rw [itemsAt] at hcs
      rw [List.flatMap_cons, codePoints_ofCodePoint hu, hcs, itemsAt, List.filterMap_cons, hc]
      rfl

end

theorem isWord_pointOf {len : Nat} (hl : len < 0x8000000000000000) (index : Int64) :
    Size.IsWord len ∧ Size.IsWord (pointOf len index) ∧
      (Within len index → Size.IsWord (index.toInt + 1)) := by
  have hle := index.le_toInt
  have hlt := index.toInt_lt
  unfold Size.IsWord Within pointOf
  refine ⟨by omega, ?_, fun _ => by omega⟩
  split <;> omega

/-- Indexing agrees with iteration. Every position holds what a cursor over the text comes to there,
and beyond the end there is nothing. An index from either end is out of range if it points nowhere,
and this is the only failure; otherwise the item is the one code point that the index points to,
compact if this is a character and wide if it is a surrogate, and equal to the slice that ends behind
the index. The items one after the other are the text. No result on the way leaves the words. -/
theorem indexing_exact {t : Text} (ht : t.WellFormed) :
    (∀ n, Cursor.replies t (List.replicate n .front) =
      (List.range n).map fun i => .codePoint (t.get? i)) ∧
    (∀ i, t.get? i = none ↔ t.length ≤ i) ∧
    (∀ index e, t.item index = .error e ↔ e = .indexOutOfRange ∧ ¬ Within t.length index) ∧
    (∀ index, Within t.length index → ∃ c u,
      t.get? (pointOf t.length index).toNat = some c ∧ t.item index = .ok u ∧ u.codePoints = [c] ∧
      (u.isCompact ↔ ¬ c.isSurrogate) ∧
      (t.length < 0x8000000000000000 →
        ∃ v, t.slice ⟨some index, stopBehind index, none⟩ = .ok v ∧ u.equal v)) ∧
    (t.length < 0x8000000000000000 →
      ∃ items, (List.range t.length).mapM (fun i => t.item (.ofNat i)) = .ok items ∧
        (items.foldl concat .empty).equal t) ∧
    (t.length < 0x8000000000000000 → ∀ index : Int64,
      Size.IsWord t.length ∧ Size.IsWord (pointOf t.length index) ∧
        (Within t.length index → Size.IsWord (index.toInt + 1))) := by
  have hlength := length_eq ht
  refine ⟨fun n => ?_, fun i => ?_, fun index e => item_eq_error_iff ht, fun index h => ?_,
    fun hl => ?_, isWord_pointOf⟩
  · simp only [get?_eq ht]
    exact Cursor.run_replicate_front (Cursor.yields_ofText t) n
  · rw [get?_eq ht, List.getElem?_eq_none_iff, hlength]
  · obtain ⟨c, u, hc, hu, hitem⟩ := exists_item ht h
    refine ⟨c, u, (get?_eq ht _).trans hc, hitem, codePoints_ofCodePoint hu, ?_, fun hl => ?_⟩
    · rw [isCompact_ofCodePoint hu]
      exact CodePoint.isSome_toChar?_iff (inRange_of_mem ht (List.mem_of_getElem? hc))
    · obtain ⟨v, hv⟩ : ∃ v, t.slice ⟨some index, stopBehind index, none⟩ = .ok v :=
        exists_slice_of_step_ne_zero t (by simp)
      refine ⟨v, hv, ?_⟩
      rw [equal_iff (wellFormed_ofCodePoint hu) (wellFormed_slice ht hv),
        codePoints_ofCodePoint hu, codePoints_slice_stopBehind ht hl h hc hv]
  · obtain ⟨items, hitems, hwf, hcs⟩ := exists_items ht hl fun i => List.mem_range.1
    obtain ⟨hjoined, hall⟩ := codePoints_foldl_concat (a := .empty) hwf (wellFormed_ofString "")
    refine ⟨items, hitems, ?_⟩
    rw [equal_iff hjoined ht]
    calc (items.foldl concat .empty).codePoints
        = items.flatMap codePoints := hall
      _ = itemsAt t.codePoints (List.range t.codePoints.length) := by rw [hcs, hlength]
      _ = t.codePoints := itemsAt_range t.codePoints

/-- A surrogate and a letter, counted from the end: the slice of the letter has no stop. The least
index points nowhere. -/
theorem indexing_from_the_end :
    (wide [0xD83D, 0x61]).WellFormed ∧
      (∃ u v, (wide [0xD83D, 0x61]).item (-2) = .ok u ∧ u.codePoints = [0xD83D] ∧ ¬ u.isCompact ∧
        (wide [0xD83D, 0x61]).slice ⟨some (-2), some (-1), none⟩ = .ok v ∧ u.equal v) ∧
      (∃ u v, (wide [0xD83D, 0x61]).item (-1) = .ok u ∧ u.codePoints = [0x61] ∧ u.isCompact ∧
        (wide [0xD83D, 0x61]).slice ⟨some (-1), none, none⟩ = .ok v ∧ u.equal v) ∧
      (wide [0xD83D, 0x61]).item Int64.minValue = .error .indexOutOfRange := by
  have ht : (wide [0xD83D, 0x61]).WellFormed := by decide
  obtain ⟨_, _, hmissing, hitem, _⟩ := indexing_exact ht
  refine ⟨ht, ?_, ?_, (hmissing _ _).2 ⟨rfl, by decide⟩⟩
  · obtain ⟨c, u, hc, hu, hcs, hstorage, hslice⟩ := hitem (-2) (by decide)
    obtain rfl : (0xD83D : CodePoint) = c := Option.some.inj hc
    obtain ⟨v, hv, heq⟩ := hslice (by decide)
    exact ⟨u, v, hu, hcs, fun h => hstorage.1 h (by decide), hv, heq⟩
  · obtain ⟨c, u, hc, hu, hcs, hstorage, hslice⟩ := hitem (-1) (by decide)
    obtain rfl : (0x61 : CodePoint) = c := Option.some.inj hc
    obtain ⟨v, hv, heq⟩ := hslice (by decide)
    exact ⟨u, v, hu, hcs, hstorage.2 (by decide), hv, heq⟩

end Text
end CodePointText
