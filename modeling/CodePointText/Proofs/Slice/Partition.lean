import CodePointText.Proofs.Result
import CodePointText.Proofs.Slice
import Mathlib.Data.List.Nodup

/-!
# Slices that share out a sequence

In steps of `k`, from each of the first `k` positions on, slices take the positions with one
remainder each, and so they do backwards from each of the last `k`. A start beyond the end or before
the first position takes nothing, so it does not matter whether there are as many positions as steps.
-/

namespace CodePointText
namespace Slice

/-- The slices are resolved, and among them they select each position of the sequence once. -/
def Partition (len : Nat) (slices : List Slice) : Prop :=
  ∃ lists, slices.mapM (fun s => (s.resolve len).map Selection.positions) = .ok lists ∧
    lists.flatten.Perm (List.range len)

/-- The slice is resolved, and selects the positions with a property, each of them once. -/
def SelectsOnce (s : Slice) (len : Nat) (P : Nat → Prop) : Prop :=
  ∃ positions, (s.resolve len).map Selection.positions = .ok positions ∧ positions.Nodup ∧
    ∀ p, p ∈ positions ↔ P p

section Resolved

variable {s : Slice} {len : Nat} {selection : Selection} (h : s.resolve len = .ok selection)
include h

theorem mem_positions_iff {p : Nat} :
    p ∈ selection.positions ↔ Before selection.step p selection.stop ∧
      ∃ k : Nat, (p : Int) = selection.start + k * selection.step := by
  rw [Selection.positions, List.mem_map]
  constructor
  · rintro ⟨k, hk, rfl⟩
    have hlt : (k : Int) < selection.count := by
      rw [List.mem_range] at hk
      omega
    have heq : (selection.position k : Int) = selection.start + k * selection.step :=
      Int.toNat_of_nonneg (place_of_lt_count h hlt).1
    rw [heq]
    exact ⟨(lt_count h k).1 hlt, k, rfl⟩
  · rintro ⟨hbefore, k, hp⟩
    rw [hp] at hbefore
    have hlt := (lt_count h k).2 hbefore
    refine ⟨k, List.mem_range.2 (by omega), ?_⟩
    rw [Selection.position, ← hp, Int.toNat_natCast]

theorem nodup_positions : selection.positions.Nodup := by
  refine List.Nodup.map_on (fun i hi j hj hij => ?_) List.nodup_range
  have hne : selection.step ≠ 0 := by
    rw [eq_of_resolve h]
    exact stepInUse_ne_zero (step_ne_zero_of_resolve h)
  rw [List.mem_range] at hi hj
  have hplace := place_of_lt_count h (k := i) (by omega)
  have hplace' := place_of_lt_count h (k := j) (by omega)
  unfold Selection.position at hij
  have hmul : (i : Int) * selection.step = j * selection.step := by omega
  exact Int.natCast_inj.1 (Int.eq_of_mul_eq_mul_right hne hmul)

end Resolved

theorem some_ne_zero {k : Int64} (h : k.toInt ≠ 0) : some k ≠ some 0 := fun heq => by
  rw [Option.some.inj heq] at h
  exact h rfl

theorem SelectsOnce.congr {s : Slice} {len : Nat} {P Q : Nat → Prop} (h : s.SelectsOnce len P)
    (hPQ : ∀ p, P p ↔ Q p) : s.SelectsOnce len Q := by
  obtain ⟨positions, hresolve, hnodup, hmem⟩ := h
  exact ⟨positions, hresolve, hnodup, fun p => (hmem p).trans (hPQ p)⟩

theorem selectsOnce_of_step_ne_zero {s : Slice} (h : s.step ≠ some 0) (len : Nat) :
    s.SelectsOnce len fun p => Before (stepInUse s.step) p (s.stopPoint len) ∧
      ∃ i : Nat, (p : Int) = s.startPoint len + i * stepInUse s.step := by
  have hresolve := resolve_eq h len
  exact ⟨_, congrArg (Except.map Selection.positions) hresolve, nodup_positions hresolve,
    fun p => mem_positions_iff hresolve⟩

section

variable {b k : Int64} (len : Nat)

theorem selectsOnce_forwards (hk : 0 < k.toInt) :
    SelectsOnce ⟨some b, none, some k⟩ len fun p => (p : Int) < len ∧
      ∃ i : Nat, (p : Int) = pointsTo 0 len len b + i * k.toInt := by
  have hstep : stepInUse (some k) = k.toInt := by
    simp only [stepInUse, leastStep]
    omega
  have hpos : 0 < (Slice.mk (some b) none (some k)).givenStep := hk
  have h := selectsOnce_of_step_ne_zero (s := ⟨some b, none, some k⟩) (some_ne_zero (by omega)) len
  rw [startPoint, stopPoint, if_pos hpos, if_pos hpos, hstep] at h
  simp only [Before, if_pos hk] at h
  exact h

/-- Backwards from a bound on, all places are selected. The least step is not in use. -/
theorem selectsOnce_backwards (hk : k.toInt < 0) (hleast : leastStep ≤ k.toInt) :
    SelectsOnce ⟨some b, none, some k⟩ len fun p => -1 < (p : Int) ∧
      ∃ i : Nat, (p : Int) = pointsTo (-1) (len - 1) len b + i * k.toInt := by
  have hstep : stepInUse (some k) = k.toInt := Int.max_eq_left hleast
  have hneg : ¬ 0 < k.toInt := Int.not_lt.2 (Int.le_of_lt hk)
  have hneg' : ¬ 0 < (Slice.mk (some b) none (some k)).givenStep := hneg
  have h := selectsOnce_of_step_ne_zero (s := ⟨some b, none, some k⟩) (some_ne_zero (by omega)) len
  rw [startPoint, stopPoint, if_neg hneg', if_neg hneg', hstep] at h
  simp only [Before, if_neg hneg] at h
  exact h

end

/-- Slices that each select the positions which fall to them share out the sequence, if every position
falls to one of them. -/
theorem partition_of_share {len k : Nat} {slice : Nat → Slice} (share : Nat → Nat)
    (hshare : ∀ p < len, share p < k)
    (h : ∀ j < k, (slice j).SelectsOnce len fun p => p < len ∧ share p = j) :
    Partition len ((List.range k).map slice) := by
  choose! positions hresolve hnodup hmem using h
  have hlists : ((List.range k).map slice).mapM
      (fun s => (s.resolve len).map Selection.positions) = .ok ((List.range k).map positions) := by
    rw [mapM_eq_ok, List.forall₂_map_left_iff, List.forall₂_map_right_iff, List.forall₂_same]
    exact fun j hj => hresolve j (List.mem_range.1 hj)
  have honce : ((List.range k).map positions).flatten.Nodup := by
    rw [List.nodup_flatten, List.forall_mem_map, List.pairwise_map]
    refine ⟨fun j hj => hnodup j (List.mem_range.1 hj), ?_⟩
    -- A position in two of the lists falls to both slices.
    refine List.nodup_range.imp_of_mem fun hi hj hne p hp hp' => hne ?_
    rw [List.mem_range] at hi hj
    exact ((hmem _ hi p).1 hp).2.symm.trans ((hmem _ hj p).1 hp').2
  refine ⟨_, hlists, (List.perm_ext_iff_of_nodup honce List.nodup_range).2 fun p => ?_⟩
  rw [List.mem_flatten, List.mem_range]
  constructor
  · rintro ⟨_, hl, hp⟩
    obtain ⟨j, hj, rfl⟩ := List.mem_map.1 hl
    exact ((hmem j (List.mem_range.1 hj) p).1 hp).1
  · intro hp
    have hj := hshare p hp
    exact ⟨_, List.mem_map_of_mem (List.mem_range.2 hj), (hmem _ hj p).2 ⟨hp, rfl⟩⟩

theorem exists_eq_add_mul_iff {j k q : Nat} (h : j < k) : (∃ i, q = j + i * k) ↔ q % k = j := by
  constructor
  · rintro ⟨i, rfl⟩
    rw [Nat.add_mul_mod_self_right, Nat.mod_eq_of_lt h]
  · intro hq
    exact ⟨q / k, by rw [← hq, Nat.mul_comm, Nat.mod_add_div]⟩

section

variable {j k : Nat} (h : j < k) {len p : Nat}
include h

theorem forwards_iff :
    ((p : Int) < len ∧ ∃ i : Nat, (p : Int) = max 0 (min (len : Int) j) + i * k) ↔
      p < len ∧ p % k = j := by
  rw [← exists_eq_add_mul_iff h]
  constructor
  · rintro ⟨hp, i, hi⟩
    have hmul : 0 ≤ (i : Int) * k := Int.mul_nonneg (by omega) (by omega)
    exact ⟨by omega, i, by omega⟩
  · rintro ⟨hp, i, rfl⟩
    exact ⟨by omega, i, by omega⟩

/-- Backwards from the `j`-th position before the last, the positions are told by their distance to
the last one. -/
theorem backwards_iff :
    (-1 < (p : Int) ∧ ∃ i : Nat, (p : Int) =
      max (-1) (min ((len : Int) - 1) (-1 - (j : Int) + len)) + i * -(k : Int)) ↔
      p < len ∧ (len - 1 - p) % k = j := by
  rw [← exists_eq_add_mul_iff h]
  constructor
  · rintro ⟨_, i, hi⟩
    have hmul : 0 ≤ (i : Int) * k := Int.mul_nonneg (by omega) (by omega)
    rw [Int.mul_neg] at hi
    exact ⟨by omega, i, by omega⟩
  · rintro ⟨hp, i, hi⟩
    refine ⟨by omega, i, ?_⟩
    rw [Int.mul_neg]
    omega

end

section

variable {k : Int64} (hk : 1 ≤ k.toInt) (len : Nat)
include hk

theorem partition_forwards :
    Partition len ((List.range k.toInt.toNat).map fun j => ⟨some (.ofNat j), none, some k⟩) := by
  refine partition_of_share (· % k.toInt.toNat) (fun p _ => Nat.mod_lt p (by omega)) fun j hj => ?_
  have hlt := k.toInt_lt
  have hcast : k.toInt = (k.toInt.toNat : Int) := by omega
  have hbound : (Int64.ofNat j).toInt = j := Int64.toInt_ofNat_of_lt (by omega)
  have hstart : pointsTo 0 len len (.ofNat j) = max 0 (min (len : Int) j) := by
    rw [pointsTo, hbound, if_neg (by omega)]
  have h := selectsOnce_forwards (b := .ofNat j) (k := k) len (by omega)
  rw [hstart, hcast] at h
  exact h.congr fun p => forwards_iff hj

theorem partition_backwards :
    Partition len ((List.range k.toInt.toNat).map fun j : Nat =>
      ⟨some (.ofInt (-1 - j)), none, some (-k)⟩) := by
  refine partition_of_share (fun p => (len - 1 - p) % k.toInt.toNat)
    (fun p _ => Nat.mod_lt _ (by omega)) fun j hj => ?_
  have hlt := k.toInt_lt
  have hstep : (-k).toInt = -(k.toInt.toNat : Int) := by
    rw [Int64.toInt_neg, Int.bmod_eq_of_le (by omega) (by omega)]
    omega
  have hbound : (Int64.ofInt (-1 - j)).toInt = -1 - j :=
    Int64.toInt_ofInt_of_le (by omega) (by omega)
  have hstart : pointsTo (-1) (len - 1) len (.ofInt (-1 - j)) =
      max (-1) (min ((len : Int) - 1) (-1 - (j : Int) + len)) := by
    rw [pointsTo, hbound, if_pos (by omega)]
  have h := selectsOnce_backwards (b := .ofInt (-1 - j)) (k := -k) len (by omega)
    (by rw [leastStep]; omega)
  rw [hstart, hstep] at h
  exact h.congr fun p => backwards_iff hj

end

end Slice
end CodePointText
