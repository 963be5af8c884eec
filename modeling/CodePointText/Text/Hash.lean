import CodePointText.Text.Basic

/-!
# Hashing

The hash of a text is computed from its code points alone, in 64-bit words. It is never -1, which
is reserved to signal failure. For hash tables a text is written as its length followed by its code
points, so that texts written one after the other stay apart.
-/

namespace CodePointText
namespace Text

def mix (x : UInt64) (c : CodePoint) : UInt64 := x * 1000003 ^^^ c.toUInt64

/-- Folds the reserved value into its neighbour. -/
def avoidReserved (h : Int64) : Int64 := if h = -1 then -2 else h

/-- The first code point enters twice: as the seed and, like all others, by mixing. -/
def hashValue (t : Text) : Int64 :=
  match t.codePoints with
  | [] => 0
  | c :: cs =>
    avoidReserved (((c :: cs).foldl mix (c.toUInt64 <<< 7)) ^^^ UInt64.ofNat t.length).toInt64

inductive HashWrite
  | size (n : Nat)
  | word (c : CodePoint)
  deriving DecidableEq, Repr

def hashWrites (t : Text) : List HashWrite := .size t.length :: t.codePoints.map .word

theorem avoidReserved_ne (h : Int64) : avoidReserved h ≠ -1 := by
  unfold avoidReserved
  split
  · decide
  · assumption

theorem hashValue_ne_neg_one (t : Text) : t.hashValue ≠ -1 := by
  unfold hashValue
  split
  · decide
  · exact avoidReserved_ne _

end Text
end CodePointText
