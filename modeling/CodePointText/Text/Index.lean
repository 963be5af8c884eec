import CodePointText.Slice
import CodePointText.Text.Basic

/-!
# Indexing and slicing

ASCII compact text is indexed by its bytes, other compact text by walking its characters, and wide
text by its words. Negative indices count from the end.
-/

namespace CodePointText
namespace Text

def get? (t : Text) (i : Nat) : Option CodePoint :=
  match t with
  | .compact s _ true => (Utf8.bytes s)[i]?.map UInt8.toUInt32
  | .compact s _ false => s.toList[i]?.map CodePoint.ofChar
  | .wide cs => cs[i]?

def positionOf (len : Nat) (index : Int64) : Except TextError Nat :=
  let i := if index.toInt < 0 then index.toInt + len else index.toInt
  if 0 ≤ i ∧ i < len then .ok i.toNat else .error .indexOutOfRange

def item (t : Text) (index : Int64) : Except TextError Text := do
  let i ← positionOf t.length index
  match t.get? i with
  | some c => ofCodePoint c
  | none => .error .indexOutOfRange

def itemsAt {α : Type} (items : List α) (positions : List Nat) : List α :=
  positions.filterMap (items[·]?)

/-- The code points that a slice selects. Nothing selected is the empty compact text, and everything
selected in order is the text itself; otherwise only ASCII compact text stays compact. -/
def slice (t : Text) (range : Slice) : Except TextError Text := do
  let selection ← range.resolve t.length
  if selection.count = 0 then
    return .empty
  if selection.step = 1 ∧ selection.count = t.length then
    return t
  match t with
  | .compact s _ true =>
    return ofChars ((itemsAt (Utf8.bytes s) selection.positions).map Char.ofUInt8)
  | _ => return .wide (itemsAt t.codePoints selection.positions)

theorem positionOf_eq_ok {len i : Nat} {index : Int64} :
    positionOf len index = .ok i ↔
      i < len ∧ (index.toInt = i ∨ index.toInt + len = i ∧ index.toInt < 0) := by
  dsimp only [positionOf]
  generalize index.toInt = x
  by_cases h : x < 0
  · rw [if_pos h]
    split <;> simp only [Except.ok.injEq, reduceCtorEq, false_iff] <;> omega
  · rw [if_neg h]
    split <;> simp only [Except.ok.injEq, reduceCtorEq, false_iff] <;> omega

theorem positionOf_eq_error {len : Nat} {index : Int64} {e : TextError} :
    positionOf len index = .error e ↔
      e = .indexOutOfRange ∧ (index.toInt < -len ∨ len ≤ index.toInt) := by
  dsimp only [positionOf]
  generalize index.toInt = x
  by_cases h : x < 0
  · rw [if_pos h]
    split <;> simp [eq_comm] <;> omega
  · rw [if_neg h]
    split <;> simp [eq_comm] <;> omega

end Text
end CodePointText
