import CodePointText.Slice

/-!
# Slices select progressions

A slice asks for the integers that lie a step apart, from its start on and strictly before its stop.
Resolved, it has exactly these positions, in this order. On the way there no operation leaves the
words: the least step is replaced by the next one, and within any length the two reach equally far.
-/

namespace CodePointText

def Size.IsWord (i : Int) : Prop := -0x8000000000000000 ≤ i ∧ i < 0x8000000000000000

namespace Slice

def givenStep (s : Slice) : Int := (s.step.map Int64.toInt).getD 1

/-- Where a bound points. A negative one counts from the end, and what lies beyond a limit is at
the limit. -/
def pointsTo (lower upper : Int) (len : Nat) (bound : Int64) : Int :=
  max lower (min upper (if bound.toInt < 0 then bound.toInt + len else bound.toInt))

/-- Where the positions begin: at the near end if there is no start. -/
def startPoint (s : Slice) (len : Nat) : Int :=
  if 0 < s.givenStep then (s.start.map (pointsTo 0 len len)).getD 0
  else (s.start.map (pointsTo (-1) (len - 1) len)).getD (len - 1)

/-- Where the positions stop: behind the far end if there is no stop. -/
def stopPoint (s : Slice) (len : Nat) : Int :=
  if 0 < s.givenStep then (s.stop.map (pointsTo 0 len len)).getD len
  else (s.stop.map (pointsTo (-1) (len - 1) len)).getD (-1)

/-- Strictly before, in the direction of the step. -/
def Before (step i stop : Int) : Prop := if 0 < step then i < stop else stop < i

/-- The slice asks for these positions: the progression from its start, as far as it lies before
its stop. -/
structure Selects (s : Slice) (len : Nat) (positions : List Nat) : Prop where
  progression : positions.map (fun p : Nat => (p : Int)) =
    (List.range positions.length).map fun k : Nat => s.startPoint len + k * s.givenStep
  extent (k : Nat) : k < positions.length ↔
    Before s.givenStep (s.startPoint len + k * s.givenStep) (s.stopPoint len)

/-- Every result on the way to a selection, and from there to its positions, is a word. -/
structure WithinWords (len : Nat) (selection : Selection) : Prop where
  lastPosition : Size.IsWord (len - 1)
  fromEnd (bound : Int64) (h : bound.toInt < 0) : Size.IsWord (bound.toInt + len)
  negatedStep : Size.IsWord (-selection.step)
  forwards : Size.IsWord (selection.stop - selection.start) ∧
    Size.IsWord (selection.stop - selection.start - 1)
  backwards : Size.IsWord (selection.start - selection.stop) ∧
    Size.IsWord (selection.start - selection.stop - 1)
  count : Size.IsWord selection.count
  place (k : Nat) (h : k < selection.count) :
    Size.IsWord (k * selection.step) ∧ Size.IsWord (selection.start + k * selection.step)

/-- The step in use is the one that is asked for, but for the least one. -/
theorem stepInUse_eq (s : Slice) :
    stepInUse s.step = s.givenStep ∨
      s.givenStep = -0x8000000000000000 ∧ stepInUse s.step = -0x7FFFFFFFFFFFFFFF := by
  rw [givenStep]
  cases s.step with
  | none => exact .inl rfl
  | some step =>
    have := step.le_toInt
    simp only [stepInUse, leastStep, Option.map_some, Option.getD_some]
    omega

theorem stepInUse_eq_one_iff (s : Slice) : stepInUse s.step = 1 ↔ s.givenStep = 1 := by
  have heq := stepInUse_eq s
  omega

theorem givenStep_ne_zero {s : Slice} (h : s.step ≠ some 0) : s.givenStep ≠ 0 := by
  have hne := stepInUse_ne_zero h
  have heq := stepInUse_eq s
  omega

theorem boundInUse_eq {lower upper : Int} (h : lower ≤ upper) {len : Nat} (hl : lower ≤ 0)
    (hu : len - 1 ≤ upper) (fallback : Int) (bound : Option Int64) :
    boundInUse id (lower, upper) len fallback bound =
      (bound.map (pointsTo lower upper len)).getD fallback := by
  cases bound with
  | none => rfl
  | some b =>
    simp only [boundInUse, clamp, pointsTo, id_eq, Option.map_some, Option.getD_some]
    split <;> omega

/-- A slice whose step is not zero is resolved to the two points, the step in use and the number of
positions between the points. -/
theorem resolve_eq {s : Slice} (h : s.step ≠ some 0) (len : Nat) :
    s.resolve len = .ok ⟨s.startPoint len, s.stopPoint len, stepInUse s.step,
      countBetween id (s.startPoint len) (s.stopPoint len) (stepInUse s.step)⟩ := by
  have hne := givenStep_ne_zero h
  have heq := stepInUse_eq s
  unfold resolve resolveBy
  rw [if_neg h, startPoint, stopPoint]
  by_cases hpos : 0 < s.givenStep
  · have hn : ¬ stepInUse s.step < 0 := by omega
    simp only [limits, if_neg hn, if_pos hpos]
    rw [boundInUse_eq (by omega) (by omega) (by omega),
      boundInUse_eq (by omega) (by omega) (by omega)]
  · have hn : stepInUse s.step < 0 := by omega
    simp only [limits, if_pos hn, if_neg hpos, id_eq]
    rw [boundInUse_eq (by omega) (by omega) (by omega),
      boundInUse_eq (by omega) (by omega) (by omega)]

theorem getD_pointsTo_mem {lower upper : Int} (h : lower ≤ upper) (len : Nat) {fallback : Int}
    (hl : lower ≤ fallback) (hu : fallback ≤ upper) (bound : Option Int64) :
    lower ≤ (bound.map (pointsTo lower upper len)).getD fallback ∧
      (bound.map (pointsTo lower upper len)).getD fallback ≤ upper := by
  cases bound with
  | none => exact ⟨hl, hu⟩
  | some b =>
    simp only [Option.map_some, Option.getD_some, pointsTo]
    omega

/-- Forwards, both points lie from the first position to the end of the sequence. -/
theorem points_forwards {s : Slice} (h : 0 < s.givenStep) (len : Nat) :
    (0 ≤ s.startPoint len ∧ s.startPoint len ≤ len) ∧
      (0 ≤ s.stopPoint len ∧ s.stopPoint len ≤ len) := by
  rw [startPoint, stopPoint, if_pos h, if_pos h]
  exact ⟨getD_pointsTo_mem (by omega) len (by omega) (by omega) s.start,
    getD_pointsTo_mem (by omega) len (by omega) (by omega) s.stop⟩

/-- Backwards, both points lie from the last position to just before the first. -/
theorem points_backwards {s : Slice} (h : ¬ 0 < s.givenStep) (len : Nat) :
    (-1 ≤ s.startPoint len ∧ s.startPoint len ≤ len - 1) ∧
      (-1 ≤ s.stopPoint len ∧ s.stopPoint len ≤ len - 1) := by
  rw [startPoint, stopPoint, if_neg h, if_neg h]
  exact ⟨getD_pointsTo_mem (by omega) len (by omega) (by omega) s.start,
    getD_pointsTo_mem (by omega) len (by omega) (by omega) s.stop⟩

/-- The steps that fit into a distance are those that do not cross it. -/
theorem lt_stepsAcross {distance size : Int} (hd : 0 < distance) (hs : 0 < size) (k : Int) :
    k < stepsAcross id distance size ↔ k * size < distance := by
  have hdiv : (distance - 1).tdiv size = (distance - 1) / size :=
    Int.tdiv_eq_ediv_of_nonneg (by omega)
  have hle : k ≤ (distance - 1) / size ↔ k * size ≤ distance - 1 := Int.le_ediv_iff_mul_le hs
  simp only [stepsAcross, id_eq, hdiv]
  omega

theorem lt_countBetween {start stop step : Int} (h : step ≠ 0) (k : Nat) :
    (k : Int) < countBetween id start stop step ↔ Before step (start + k * step) stop := by
  unfold countBetween Before
  by_cases hpos : 0 < step
  · have hk : 0 ≤ (k : Int) * step := Int.mul_nonneg (by omega) (by omega)
    rw [if_neg (by omega), if_pos hpos]
    split
    · have hlt : (k : Int) < stepsAcross id (stop - start) step ↔ k * step < stop - start :=
        lt_stepsAcross (by omega) hpos k
      simp only [id_eq]
      omega
    · omega
  · have hk : 0 ≤ (k : Int) * -step := Int.mul_nonneg (by omega) (by omega)
    have hneg : (k : Int) * -step = -(k * step) := Int.mul_neg _ _
    rw [if_pos (by omega), if_neg hpos]
    split
    · have hlt : (k : Int) < stepsAcross id (start - stop) (-step) ↔ k * -step < start - stop :=
        lt_stepsAcross (by omega) (by omega) k
      simp only [id_eq]
      omega
    · omega

theorem countBetween_mem (start stop : Int) {step : Int} (h : step ≠ 0) :
    0 ≤ countBetween id start stop step ∧
      countBetween id start stop step ≤ max (stop - start) (start - stop) := by
  unfold countBetween
  split
  · split
    · have hmem : 0 < stepsAcross id (start - stop) (-step) ∧
          stepsAcross id (start - stop) (-step) ≤ start - stop :=
        stepsAcross_mem (by omega) (by omega)
      simp only [id_eq]
      omega
    · omega
  · split
    · have hmem : 0 < stepsAcross id (stop - start) step ∧
          stepsAcross id (stop - start) step ≤ stop - start :=
        stepsAcross_mem (by omega) (by omega)
      simp only [id_eq]
      omega
    · omega

/-- A place before the stop lies in the sequence, whatever the size of the step. -/
theorem place_mem {s : Slice} {step : Int} (hs : 0 < step ↔ 0 < s.givenStep) {len k : Nat}
    (h : Before step (s.startPoint len + k * step) (s.stopPoint len)) :
    0 ≤ s.startPoint len + k * step ∧ s.startPoint len + k * step < len := by
  unfold Before at h
  by_cases hpos : 0 < step
  · have hk : 0 ≤ (k : Int) * step := Int.mul_nonneg (by omega) (by omega)
    have hmem := points_forwards (hs.1 hpos) len
    rw [if_pos hpos] at h
    omega
  · have hk : 0 ≤ (k : Int) * -step := Int.mul_nonneg (by omega) (by omega)
    have hneg : (k : Int) * -step = -(k * step) := Int.mul_neg _ _
    have hmem := points_backwards (fun hgiven => hpos (hs.2 hgiven)) len
    rw [if_neg hpos] at h
    omega

theorem stepInUse_pos_iff {s : Slice} (h : s.step ≠ some 0) :
    0 < stepInUse s.step ↔ 0 < s.givenStep := by
  have hne := givenStep_ne_zero h
  have heq := stepInUse_eq s
  omega

/-- Within a sequence the least step leads nowhere, and neither does the one that replaces it. -/
theorem before_stepInUse (s : Slice) {len : Nat} (hl : len < 0x8000000000000000) (k : Nat) :
    Before (stepInUse s.step) (s.startPoint len + k * stepInUse s.step) (s.stopPoint len) ↔
      Before s.givenStep (s.startPoint len + k * s.givenStep) (s.stopPoint len) := by
  rcases stepInUse_eq s with heq | ⟨hgiven, huse⟩
  · rw [heq]
  · have hmem := points_backwards (s := s) (by omega) len
    rw [hgiven, huse, Before, Before, if_neg (by decide), if_neg (by decide)]
    omega

theorem mul_stepInUse {s : Slice} {len : Nat} (hl : len < 0x8000000000000000) {k : Nat}
    (h : Before s.givenStep (s.startPoint len + k * s.givenStep) (s.stopPoint len)) :
    (k : Int) * stepInUse s.step = k * s.givenStep := by
  rcases stepInUse_eq s with heq | ⟨hgiven, huse⟩
  · rw [heq]
  · have hmem := points_backwards (s := s) (by omega) len
    rw [hgiven, Before, if_neg (by decide)] at h
    rw [hgiven, huse]
    omega

section Resolved

variable {s : Slice} {len : Nat} {selection : Selection} (h : s.resolve len = .ok selection)
include h

theorem step_ne_zero_of_resolve : s.step ≠ some 0 := by
  intro h0
  rw [resolve_eq_error.2 ⟨rfl, h0⟩] at h
  cases h

theorem eq_of_resolve :
    selection = ⟨s.startPoint len, s.stopPoint len, stepInUse s.step,
      countBetween id (s.startPoint len) (s.stopPoint len) (stepInUse s.step)⟩ := by
  have heq := resolve_eq (step_ne_zero_of_resolve h) len
  rw [h] at heq
  exact Except.ok.inj heq

theorem lt_count (k : Nat) : (k : Int) < selection.count ↔
    Before selection.step (selection.start + k * selection.step) selection.stop := by
  have hne := stepInUse_ne_zero (step_ne_zero_of_resolve h)
  rw [eq_of_resolve h]
  exact lt_countBetween hne k

/-- Every position of a selection lies in the sequence, however long this is. -/
theorem place_of_lt_count {k : Nat} (hk : (k : Int) < selection.count) :
    0 ≤ selection.start + k * selection.step ∧ selection.start + k * selection.step < len := by
  have hbefore := (lt_count h k).1 hk
  have hsign := stepInUse_pos_iff (step_ne_zero_of_resolve h)
  rw [eq_of_resolve h] at hbefore ⊢
  exact place_mem hsign hbefore

theorem lt_of_mem_positions {p : Nat} (hp : p ∈ selection.positions) : p < len := by
  obtain ⟨k, hk, rfl⟩ := List.mem_map.1 hp
  have hplace := place_of_lt_count h (k := k) (by rw [List.mem_range] at hk; omega)
  unfold Selection.position
  omega

theorem count_eq_length : selection.count = selection.positions.length := by
  have hmem := countBetween_mem (s.startPoint len) (s.stopPoint len)
    (stepInUse_ne_zero (step_ne_zero_of_resolve h))
  have hcount := congrArg Selection.count (eq_of_resolve h)
  simp only at hcount
  rw [Selection.length_positions]
  omega

theorem selects_positions (hl : len < 0x8000000000000000) : s.Selects len selection.positions := by
  have hextent (k : Nat) : k < selection.positions.length ↔
      Before s.givenStep (s.startPoint len + k * s.givenStep) (s.stopPoint len) := by
    have hcount := lt_count h k
    rw [count_eq_length h, Int.ofNat_lt] at hcount
    rw [hcount, eq_of_resolve h]
    exact before_stepInUse s hl k
  refine ⟨?_, hextent⟩
  rw [Selection.positions, List.map_map, List.length_map, List.length_range]
  refine List.map_congr_left fun k hk => ?_
  have hlt : k < selection.positions.length := by
    rw [Selection.length_positions]
    exact List.mem_range.1 hk
  have hplace := place_of_lt_count h (k := k) (by rw [count_eq_length h]; omega)
  have hmul := mul_stepInUse hl ((hextent k).1 hlt)
  simp only [Function.comp_apply, Selection.position]
  rw [eq_of_resolve h] at hplace ⊢
  simp only at hplace ⊢
  omega

theorem withinWords_of_resolve (hl : len < 0x8000000000000000) : WithinWords len selection := by
  have hstep := stepInUse_mem s.step
  have hcount := countBetween_mem (s.startPoint len) (s.stopPoint len)
    (stepInUse_ne_zero (step_ne_zero_of_resolve h))
  have hplace {k : Nat} (hk : (k : Int) < selection.count) := place_of_lt_count h hk
  -- Both points lie on one side of the ends, so they are no further apart than the ends are.
  have hpoints : -1 ≤ s.startPoint len ∧ s.startPoint len ≤ len ∧ -1 ≤ s.stopPoint len ∧
      s.stopPoint len ≤ len ∧ s.stopPoint len - s.startPoint len ≤ len ∧
      s.startPoint len - s.stopPoint len ≤ len := by
    by_cases hpos : 0 < s.givenStep
    · have hmem := points_forwards hpos len
      omega
    · have hmem := points_backwards hpos len
      omega
  rw [eq_of_resolve h] at hplace ⊢
  simp only at hplace
  constructor
  all_goals simp only [Size.IsWord]
  · omega
  · intro bound hneg
    have := bound.le_toInt
    omega
  · omega
  · omega
  · omega
  · omega
  · intro k hk
    have := hplace hk
    omega

end Resolved

section Selects

variable {s : Slice} {len : Nat} {positions : List Nat} (h : s.Selects len positions)
include h

theorem Selects.getElem_eq {k : Nat} (hk : k < positions.length) :
    (positions[k] : Int) = s.startPoint len + k * s.givenStep := by
  have hget := congrArg (·[k]?) h.progression
  simpa [hk] using hget

theorem Selects.ascending (hpos : 0 < s.givenStep) : positions.Pairwise (· < ·) := by
  rw [List.pairwise_iff_getElem]
  intro i j hi hj hij
  have hstep : (i : Int) * s.givenStep < j * s.givenStep :=
    Int.mul_lt_mul_of_pos_right (by omega) hpos
  have hget := h.getElem_eq hi
  have hget' := h.getElem_eq hj
  omega

theorem Selects.descending (hneg : s.givenStep < 0) : positions.Pairwise (· > ·) := by
  rw [List.pairwise_iff_getElem]
  intro i j hi hj hij
  have hstep : (j : Int) * s.givenStep < i * s.givenStep :=
    Int.mul_lt_mul_of_neg_right (by omega) hneg
  have hget := h.getElem_eq hi
  have hget' := h.getElem_eq hj
  omega

end Selects

/-- Resolution is exact. It fails for the step zero alone; for any other step it gives, in words as
in exact integers, the positions that the slice asks for. All of them lie in the sequence, and they
ascend or descend with the step. -/
theorem resolution_exact (s : Slice) {len : UInt64} (hl : len.toNat ≤ 0x7FFFFFFFFFFFFFFF) :
    (∀ e, s.resolveWord len = .error e ↔ e = .zeroStep ∧ s.step = some 0) ∧
    (s.step ≠ some 0 → ∃ selection, s.resolveWord len = .ok selection ∧
      (∀ keep : Int → Int, (∀ i, Size.IsWord i → keep i = i) →
        s.resolveBy keep len.toNat = .ok selection) ∧
      WithinWords len.toNat selection ∧
      selection.start = s.startPoint len.toNat ∧ selection.stop = s.stopPoint len.toNat ∧
      s.Selects len.toNat selection.positions ∧
      selection.countWord = selection.positions.length ∧
      (∀ n, selection.firstWords n = selection.positions.take n) ∧
      (∀ p ∈ selection.positions, p < len.toNat) ∧
      (0 < s.givenStep → selection.positions.Pairwise (· < ·)) ∧
      (s.givenStep < 0 → selection.positions.Pairwise (· > ·))) := by
  have hlt : len.toNat < 0x8000000000000000 := by omega
  rw [resolveWord_eq s hlt]
  refine ⟨fun e => resolve_eq_error, fun h0 => ?_⟩
  have h := resolve_eq h0 len.toNat
  have hselects := selects_positions h hlt
  have hlength := count_eq_length h
  have hcount := (withinWords_of_resolve h hlt).count
  refine ⟨_, h, fun keep hk => ?_, withinWords_of_resolve h hlt, rfl, rfl, hselects, ?_,
    fun n => Selection.firstWords_eq_take (fun k hk => ?_) n, fun p => lt_of_mem_positions h,
    hselects.ascending, hselects.descending⟩
  · rw [resolveBy_eq (fun i hi hi' => hk i ⟨hi, hi'⟩) s hlt, h]
  · unfold Size.IsWord at hcount
    rw [Selection.countWord, Size.unsigned_of_mem (by omega) (by omega), hlength, Int.toNat_natCast]
  · have hplace := place_of_lt_count h (k := k) (by omega)
    omega

/-- The least step, from the last but one of as many positions as there can be: the position before
it is out of reach, and the step can be negated. -/
theorem resolution_of_least_step :
    ∃ selection, (Slice.mk (some (-2)) none (some Int64.minValue)).resolveWord
        0x7FFFFFFFFFFFFFFF = .ok selection ∧
      selection.positions = [0x7FFFFFFFFFFFFFFD] ∧ Size.IsWord (-selection.step) := by
  have hl : (0x7FFFFFFFFFFFFFFF : UInt64).toNat ≤ 0x7FFFFFFFFFFFFFFF := by decide
  obtain ⟨_, hresolves⟩ := resolution_exact ⟨some (-2), none, some Int64.minValue⟩ hl
  obtain ⟨selection, h, _, hwords, _⟩ := hresolves (by decide)
  refine ⟨selection, h, ?_, hwords.negatedStep⟩
  have hselection : selection = ⟨0x7FFFFFFFFFFFFFFD, -1, -0x7FFFFFFFFFFFFFFF, 1⟩ :=
    Except.ok.inj (h.symm.trans (by rfl))
  rw [hselection]
  decide

end Slice
end CodePointText
