import CodePointText.Occurrence
import CodePointText.Text.Basic

/-!
# Searching a text

A compact text is searched for a compact pattern by bytes; in all other cases the code points are
searched. The searches within bounds work on code points whatever the storage.
-/

namespace CodePointText
namespace Text

def contains (t pattern : Text) : Bool :=
  match t, pattern with
  | .compact s _ _, .compact p _ _ => (Occurrence.first? (Utf8.bytes p) (Utf8.bytes s)).isSome
  | _, _ => (Occurrence.first? pattern.codePoints t.codePoints).isSome

/-- A negative bound counts from the end, and not beyond the start. -/
def adjustBound (len : Nat) (bound : Int64) : Int :=
  if bound.toInt < 0 then max (bound.toInt + len) 0 else bound.toInt

/-- The range that a search covers: none if its start lies beyond its stop. -/
def searchRange (len : Nat) (start stop : Option Int64) : Option (Nat × Nat) :=
  let hi := min ((stop.map (adjustBound len)).getD len) len
  let lo := (start.map (adjustBound len)).getD 0
  if lo ≤ hi then some (lo.toNat, hi.toNat) else none

def window {α : Type} (items : List α) (lo hi : Nat) : List α := (items.take hi).drop lo

def find? (t pattern : Text) (start stop : Option Int64) : Option Nat := do
  let (lo, hi) ← searchRange t.codePoints.length start stop
  let i ← Occurrence.first? pattern.codePoints (window t.codePoints lo hi)
  return lo + i

/-- The position found, or -1. -/
def find (t pattern : Text) (start stop : Option Int64) : Int :=
  match t.find? pattern start stop with
  | some i => i
  | none => -1

/-- How often the pattern occurs within the range, without overlaps. The empty pattern occurs before
every character and at the end. -/
def count (t pattern : Text) (start stop : Option Int64) : Nat :=
  match searchRange t.codePoints.length start stop with
  | none => 0
  | some (lo, hi) =>
    if pattern.codePoints.isEmpty then hi - lo + 1
    else Occurrence.count pattern.codePoints (window t.codePoints lo hi)

@[simp] theorem searchRange_none (len : Nat) : searchRange len none none = some (0, len) := by
  simp [searchRange]

@[simp] theorem window_all {α : Type} (items : List α) : window items 0 items.length = items := by
  simp [window]

theorem length_window {α : Type} {items : List α} {lo hi : Nat} (h : hi ≤ items.length) :
    (window items lo hi).length = hi - lo := by
  simp [window, Nat.min_eq_left h]

theorem find_eq_neg_one {t pattern : Text} {start stop : Option Int64} :
    t.find pattern start stop = -1 ↔ t.find? pattern start stop = none := by
  unfold find
  split <;> simp_all

end Text
end CodePointText
