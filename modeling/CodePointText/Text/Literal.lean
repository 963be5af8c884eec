import CodePointText.Numeral
import CodePointText.Text.Basic

/-!
# Literals

The literal of a text is quoted and free of control characters: these and lone surrogates are
escaped, as are the quote and the backslash. Reading a literal undoes the writing. Escapes of
surrogates stay apart when they are read, so a pair of them is not one character.
-/

namespace CodePointText
namespace Literal

def singleQuote : Char := '\x27'

def doubleQuote : Char := '\x22'

/-- Single quotes, unless they occur in the text and double ones do not. -/
def quoteFor (cs : List CodePoint) : Char :=
  if cs.contains (CodePoint.ofChar singleQuote) ∧ ¬ cs.contains (CodePoint.ofChar doubleQuote) then
    doubleQuote
  else singleQuote

/-- The control characters: C0, DEL and C1. -/
def isControl (c : Char) : Bool := c.toNat < 0x20 || (0x7F ≤ c.toNat && c.toNat < 0xA0)

def escape (quote : Char) (c : CodePoint) : List Char :=
  match c.toChar? with
  | none => '\\' :: 'u' :: Numeral.hexDigits 4 c.toNat
  | some x =>
    if x = quote ∨ x = '\\' then ['\\', x]
    else if x = '\t' then ['\\', 't']
    else if x = '\n' then ['\\', 'n']
    else if x = '\r' then ['\\', 'r']
    else if isControl x then '\\' :: 'x' :: Numeral.hexDigits 2 c.toNat
    else [x]

def encode (cs : List CodePoint) : List Char :=
  let quote := quoteFor cs
  quote :: cs.flatMap (escape quote) ++ [quote]

def hexValue? (c : Char) : Option Nat :=
  if c.isDigit || ('a' ≤ c && c ≤ 'f') then Numeral.digitValue? 16 c else none

def hexCodePoint? (digits : List Char) : Option CodePoint := do
  let n ← digits.foldlM (fun n c => (hexValue? c).map (16 * n + ·)) 0
  return UInt32.ofNat n

/-- Reads up to the closing quote, which ends the literal. -/
def decodeBody (quote : Char) : List Char → Option (List CodePoint)
  | [] => none
  | '\\' :: 't' :: rest => (decodeBody quote rest).map (0x09 :: ·)
  | '\\' :: 'n' :: rest => (decodeBody quote rest).map (0x0A :: ·)
  | '\\' :: 'r' :: rest => (decodeBody quote rest).map (0x0D :: ·)
  | '\\' :: 'x' :: a :: b :: rest => do
    let c ← hexCodePoint? [a, b]
    (decodeBody quote rest).map (c :: ·)
  | '\\' :: 'u' :: a :: b :: c :: d :: rest => do
    let c ← hexCodePoint? [a, b, c, d]
    (decodeBody quote rest).map (c :: ·)
  | '\\' :: c :: rest =>
    if c = singleQuote ∨ c = doubleQuote ∨ c = '\\' then
      (decodeBody quote rest).map (CodePoint.ofChar c :: ·)
    else none
  | c :: rest =>
    if c = quote then if rest.isEmpty then some [] else none
    else if c = '\\' then none
    else (decodeBody quote rest).map (CodePoint.ofChar c :: ·)

def decode : List Char → Option (List CodePoint)
  | [] => none
  | quote :: rest =>
    if quote = singleQuote ∨ quote = doubleQuote then decodeBody quote rest else none

theorem quoteFor_eq (cs : List CodePoint) :
    quoteFor cs = singleQuote ∨ quoteFor cs = doubleQuote := by
  unfold quoteFor
  split <;> simp

end Literal

namespace Text

def literal (t : Text) : String := String.ofList (Literal.encode t.codePoints)

end Text
end CodePointText
