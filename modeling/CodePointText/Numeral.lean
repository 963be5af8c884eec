/-!
# Numerals

Decimal and hexadecimal numerals, written and read. A numeral that is read has at least one digit
and only ASCII digits; leading zeros are allowed, and the value has to fit the word it is read into.
-/

namespace CodePointText
namespace Numeral

def digitsOfInt (i : Int) : List Char :=
  if i < 0 then '-' :: Nat.toDigits 10 i.natAbs else Nat.toDigits 10 i.natAbs

def decimal (i : Int) : String := String.ofList (digitsOfInt i)

/-- The lower-case hexadecimal numeral with at least `width` digits. -/
def hexDigits (width n : Nat) : List Char :=
  let digits := Nat.toDigits 16 n
  List.replicate (width - digits.length) '0' ++ digits

/-- The value of a digit below the base; both cases of letters count. -/
def digitValue? (base : Nat) (c : Char) : Option Nat :=
  let n := c.toNat
  let v :=
    if 0x30 ≤ n ∧ n ≤ 0x39 then n - 0x30
    else if 0x41 ≤ n ∧ n ≤ 0x46 then n - 0x41 + 10
    else if 0x61 ≤ n ∧ n ≤ 0x66 then n - 0x61 + 10
    else base
  if v < base then some v else none

/-- Reads further digits behind those that gave `n`. -/
def readDigits? (base n : Nat) : List Char → Option Nat
  | [] => some n
  | c :: cs => do readDigits? base (base * n + (← digitValue? base c)) cs

def readNat? (base : Nat) (cs : List Char) : Option Nat :=
  if cs.isEmpty then none else readDigits? base 0 cs

def readInt? : List Char → Option Int
  | '-' :: cs => (readNat? 10 cs).map fun n => -(n : Int)
  | '+' :: cs => (readNat? 10 cs).map Int.ofNat
  | cs => (readNat? 10 cs).map Int.ofNat

def readInt64? (cs : List Char) : Option Int64 := do
  let i ← readInt? cs
  if -0x8000000000000000 ≤ i ∧ i < 0x8000000000000000 then some (Int64.ofInt i) else none

/-- Reads an unsigned 32-bit word; a plus sign is allowed. -/
def readUInt32? (base : Nat) (cs : List Char) : Option UInt32 := do
  let digits := match cs with
    | '+' :: rest => rest
    | _ => cs
  let n ← readNat? base digits
  if n < 0x100000000 then some (UInt32.ofNat n) else none

theorem readDigits?_append (base n : Nat) (cs ds : List Char) :
    readDigits? base n (cs ++ ds) = (readDigits? base n cs).bind (readDigits? base · ds) := by
  induction cs generalizing n with
  | nil => rfl
  | cons c cs ih =>
    simp only [List.cons_append, readDigits?, ih]
    cases digitValue? base c <;> rfl

@[simp] theorem readNat?_nil (base : Nat) : readNat? base [] = none := rfl

end Numeral
end CodePointText
