import CodePointText.Error
import CodePointText.Size

/-!
# Slices

A slice is an optional start, stop and step. Resolved against a length it becomes an arithmetic
progression of positions. The computation is given once for any arithmetic: with exact integers it
serves the lengths of texts, and in 64-bit words any length that can be written. Below 2^63 nothing
overflows, so both agree.
-/

namespace CodePointText

structure Slice where
  start : Option Int64
  stop : Option Int64
  step : Option Int64
  deriving DecidableEq, Repr

/-- A slice resolved against a length: `count` positions from `start` on, `step` apart. -/
structure Selection where
  start : Int
  stop : Int
  step : Int
  count : Int
  deriving DecidableEq, Repr

namespace Slice

/-- The least step in use: its negation is a word as well. -/
def leastStep : Int := -0x7FFFFFFFFFFFFFFF

section

-- What is kept of the result of an operation on integers.
variable (keep : Int → Int)

def limits (step len : Int) : Int × Int :=
  if step < 0 then (-1, keep (len - 1)) else (0, len)

/-- A negative bound counts from the end; a bound beyond a limit is moved to it. -/
def clamp (limits : Int × Int) (len bound : Int) : Int :=
  if bound < 0 then max (keep (bound + len)) limits.1 else min bound limits.2

def boundInUse (limits : Int × Int) (len fallback : Int) : Option Int64 → Int
  | none => fallback
  | some bound => clamp keep limits len bound.toInt

/-- How many steps of the given size, at least one, it takes to cross a distance. -/
def stepsAcross (distance size : Int) : Int := keep ((keep (distance - 1)).tdiv size + 1)

def countBetween (start stop step : Int) : Int :=
  if step < 0 then
    if stop < start then stepsAcross keep (keep (start - stop)) (keep (-step)) else 0
  else
    if start < stop then stepsAcross keep (keep (stop - start)) step else 0

def stepInUse : Option Int64 → Int
  | none => 1
  | some step => max step.toInt leastStep

/-- Resolves a slice against a length. Absent bounds are the ends, in the direction of the step. -/
def resolveBy (s : Slice) (len : Int) : Except TextError Selection :=
  if s.step = some 0 then .error .zeroStep
  else
    let step := stepInUse s.step
    let ends := limits keep step len
    let start := boundInUse keep ends len (if step < 0 then ends.2 else ends.1) s.start
    let stop := boundInUse keep ends len (if step < 0 then ends.1 else ends.2) s.stop
    .ok ⟨start, stop, step, countBetween keep start stop step⟩

end

def resolve (s : Slice) (len : Nat) : Except TextError Selection := s.resolveBy id len

/-- Resolves a slice in 64-bit words. A length is read with a sign, so half of the lengths count as
negative. -/
def resolveWord (s : Slice) (len : UInt64) : Except TextError Selection :=
  s.resolveBy Size.signed (Size.signed len.toNat)

theorem stepInUse_mem (step : Option Int64) :
    -0x8000000000000000 < stepInUse step ∧ stepInUse step < 0x8000000000000000 := by
  cases step with
  | none => decide
  | some step =>
    have := step.toInt_lt
    simp only [stepInUse, leastStep]
    omega

theorem stepInUse_ne_zero {step : Option Int64} (h : step ≠ some 0) : stepInUse step ≠ 0 := by
  cases step with
  | none => decide
  | some step =>
    have : step.toInt ≠ 0 := fun e => h (congrArg some (Int64.toInt_inj.1 e))
    simp only [stepInUse, leastStep]
    omega

theorem resolve_eq_error {s : Slice} {len : Nat} {e : TextError} :
    s.resolve len = .error e ↔ e = .zeroStep ∧ s.step = some 0 := by
  unfold resolve resolveBy
  split
  · next h => simp [h, eq_comm]
  · next h => simp [h]

theorem clamp_mem {lower upper : Int} (h : lower ≤ upper) (len bound : Int)
    (hu : len - 1 ≤ upper) (hl : lower ≤ 0) :
    lower ≤ clamp id (lower, upper) len bound ∧ clamp id (lower, upper) len bound ≤ upper := by
  unfold clamp
  split <;> simp only [id_eq] <;> omega

theorem boundInUse_mem (lower upper : Int) (h : lower ≤ upper) (len : Int)
    (hu : len - 1 ≤ upper) (hl : lower ≤ 0) {fallback : Int} (hf : lower ≤ fallback)
    (hf' : fallback ≤ upper) (bound : Option Int64) :
    lower ≤ boundInUse id (lower, upper) len fallback bound ∧
      boundInUse id (lower, upper) len fallback bound ≤ upper := by
  cases bound with
  | none => exact ⟨hf, hf'⟩
  | some bound => exact clamp_mem h len bound.toInt hu hl

/-- A distance takes as many steps as fit into it. -/
theorem stepsAcross_mem {distance size : Int} (hd : 0 < distance) (hs : 0 < size) :
    0 < stepsAcross id distance size ∧ stepsAcross id distance size ≤ distance := by
  have h : 0 ≤ distance - 1 := by omega
  have hle := Int.tdiv_le_self size h
  have hge := Int.tdiv_nonneg h (Int.le_of_lt hs)
  simp only [stepsAcross, id_eq]
  omega

/-- Between positions of one sequence, an arithmetic that keeps words counts exactly. -/
theorem countBetween_eq {keep : Int → Int}
    (hk : ∀ i, -0x8000000000000000 ≤ i → i < 0x8000000000000000 → keep i = i)
    {start stop step : Int} (hs : -0x8000000000000000 < step) (h0 : step ≠ 0)
    (hd : start - stop < 0x8000000000000000) (hd' : stop - start < 0x8000000000000000) :
    countBetween keep start stop step = countBetween id start stop step := by
  have across {distance size : Int} (hd : 0 < distance) (hd' : distance < 0x8000000000000000)
      (hs : 0 < size) : stepsAcross keep distance size = stepsAcross id distance size := by
    have h := stepsAcross_mem hd hs
    simp only [stepsAcross, id_eq] at h ⊢
    rw [hk (distance - 1) (by omega) (by omega), hk _ (by omega) (by omega)]
  unfold countBetween
  split
  · split
    · rw [hk (start - stop) (by omega) (by omega), hk (-step) (by omega) (by omega)]
      exact across (by omega) hd (by omega)
    · rfl
  · split
    · rw [hk (stop - start) (by omega) (by omega)]
      exact across (by omega) hd' (by omega)
    · rfl

/-- Below 2^63 every arithmetic that keeps words resolves a slice exactly. -/
theorem resolveBy_eq {keep : Int → Int}
    (hk : ∀ i, -0x8000000000000000 ≤ i → i < 0x8000000000000000 → keep i = i)
    (s : Slice) {len : Nat} (hl : len < 0x8000000000000000) :
    s.resolveBy keep len = s.resolve len := by
  by_cases h0 : s.step = some 0
  · simp [resolve, resolveBy, h0]
  have hs := stepInUse_mem s.step
  have hne := stepInUse_ne_zero h0
  have hlim : limits keep (stepInUse s.step) len = limits id (stepInUse s.step) len := by
    unfold limits
    rw [hk (len - 1) (by omega) (by omega), id_eq]
  have hbound (l : Int × Int) (fallback : Int) (b : Option Int64) :
      boundInUse keep l len fallback b = boundInUse id l len fallback b := by
    cases b with
    | none => rfl
    | some b =>
      have := b.le_toInt
      have := b.toInt_lt
      simp only [boundInUse, clamp, id_eq]
      split
      · rw [hk (b.toInt + len) (by omega) (by omega)]
      · rfl
  simp only [resolve, resolveBy, if_neg h0, hlim, hbound, Except.ok.injEq, Selection.mk.injEq,
    true_and]
  by_cases hneg : stepInUse s.step < 0
  · have mem (fallback : Int) (hf : -1 ≤ fallback) (hf' : fallback ≤ len - 1) :=
      boundInUse_mem (-1) (len - 1) (by omega) len (by omega) (by omega) hf hf'
    simp only [limits, if_pos hneg, id_eq]
    have ha := mem (len - 1) (by omega) (by omega) s.start
    have hb := mem (-1) (by omega) (by omega) s.stop
    exact countBetween_eq hk hs.1 hne (by omega) (by omega)
  · have mem (fallback : Int) (hf : 0 ≤ fallback) (hf' : fallback ≤ len) :=
      boundInUse_mem 0 len (by omega) len (by omega) (by omega) hf hf'
    simp only [limits, if_neg hneg]
    have ha := mem 0 (by omega) (by omega) s.start
    have hb := mem len (by omega) (by omega) s.stop
    exact countBetween_eq hk hs.1 hne (by omega) (by omega)

theorem resolveWord_eq (s : Slice) {len : UInt64} (h : len.toNat < 0x8000000000000000) :
    s.resolveWord len = s.resolve len.toNat := by
  rw [resolveWord, Size.signed_of_mem (by omega) (by omega)]
  exact resolveBy_eq (fun _ => Size.signed_of_mem) s h

end Slice

namespace Selection

def position (s : Selection) (k : Nat) : Nat := (s.start + k * s.step).toNat

def positions (s : Selection) : List Nat := (List.range s.count.toNat).map s.position

def countWord (s : Selection) : Nat := Size.unsigned s.count

def positionWord (s : Selection) (k : Nat) : Nat := Size.unsigned (s.start + k * s.step)

def firstWords (s : Selection) (n : Nat) : List Nat :=
  (List.range (min n s.count.toNat)).map s.positionWord

@[simp] theorem length_positions (s : Selection) : s.positions.length = s.count.toNat := by
  simp [positions]

theorem positionWord_eq {s : Selection} {k : Nat} (h : 0 ≤ s.start + k * s.step)
    (h' : s.start + k * s.step < 0x10000000000000000) : s.positionWord k = s.position k :=
  Size.unsigned_of_mem h h'

theorem firstWords_eq_take {s : Selection}
    (h : ∀ k < s.count.toNat,
      0 ≤ s.start + k * s.step ∧ s.start + k * s.step < 0x10000000000000000) (n : Nat) :
    s.firstWords n = s.positions.take n := by
  rw [firstWords, positions, ← List.map_take, List.take_range]
  refine List.map_congr_left fun k hk => ?_
  have hk := h k (by rw [List.mem_range] at hk; omega)
  exact positionWord_eq hk.1 hk.2

end Selection
end CodePointText
