import CodePointText.Size
import CodePointText.Text.Basic

/-!
# Padding

A text is padded to a width in characters. The room for the result is asked of an allocator before
it is built, in bytes for compact results and in words for wide ones; a reservation that is not
granted is an error. Zeros are put in among words, whatever the storage of the result.
-/

namespace CodePointText
namespace Text

/-- The code point that a fill stands for; a space if there is none. -/
def fillCodePoint : Option Text → Except TextError CodePoint
  | none => .ok 0x20
  | some fill =>
    if fill.length = 1 then .ok (fill.codePoints.head?.getD 0x20)
    else .error .fillNotOneCharacter

/-- The bytes of a string with so many further copies of a character: none if that is no size. -/
def paddedSize (s : String) (copies : Nat) (c : Char) : Option Nat :=
  (Size.mul? copies c.utf8Size).bind (Size.add? · s.utf8ByteSize)

/-- The text padded on the right to the given width. A text that is as wide already is kept. -/
def padRight (t : Text) (memory : Allocator) (width : Int64) (fill : Option Text) :
    Except TextError Text := do
  let c ← fillCodePoint fill
  let width := width.toInt.toNat
  let n := t.length
  if width ≤ n then
    return t
  match t.string?, c.toChar? with
  | some s, some x =>
    if (paddedSize s (width - n) x).any memory.bytes then
      return ofChars (s.toList ++ List.replicate (width - n) x)
    else
      throw .paddingTooLong
  | _, _ =>
    if memory.words width then
      return .wide (t.codePoints ++ List.replicate (width - n) c)
    else
      throw .paddingTooLong

def isSign (c : CodePoint) : Bool := c == 0x2B || c == 0x2D

/-- So many zeros put before the code points, but after a leading sign. -/
def zerosAfterSign (zeros : Nat) : List CodePoint → List CodePoint
  | [] => List.replicate zeros 0x30
  | c :: cs =>
    if isSign c then c :: (List.replicate zeros 0x30 ++ cs)
    else List.replicate zeros 0x30 ++ c :: cs

/-- The text padded with zeros on the left to the given width, a leading sign kept in front. -/
def zeroPad (t : Text) (memory : Allocator) (width : Int64) : Except TextError Text := do
  let width := width.toInt.toNat
  let n := t.length
  if width ≤ n then
    return t
  if memory.words width then
    let padded := zerosAfterSign (width - n) t.codePoints
    return if t.isCompact then ofChars (padded.filterMap CodePoint.toChar?) else .wide padded
  else
    throw .paddingTooLong

@[simp] theorem length_zerosAfterSign (zeros : Nat) (cs : List CodePoint) :
    (zerosAfterSign zeros cs).length = zeros + cs.length := by
  cases cs with
  | nil => simp [zerosAfterSign]
  | cons c cs =>
    simp only [zerosAfterSign]
    split
    · simp only [List.length_cons, List.length_append, List.length_replicate]
      omega
    · rw [List.length_append, List.length_replicate, List.length_cons]

end Text
end CodePointText
