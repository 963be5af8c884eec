import CodePointText.Blank
import CodePointText.Value

/-!
# Operands

How values are written in words: `none`, or a tag with a colon and the content behind it. The tags
are `s` for compact text, `w` for wide text, `cp` for the code points of wide text, `i` for an
integer, `b` for a boolean and `slice` for the bounds of a slice. A word without one of these tags
is compact text itself.
-/

namespace CodePointText

inductive OperandError
  | notInteger (content : String)
  | notBoolean (content : String)
  /-- One part of a list of code points is none. -/
  | notCodePoint (part : String)
  | notSlice (content : String)
  /-- A text is called for, and the operand is of another type. -/
  | notText (typeName : String)
  /-- The operand is written well and denotes no text. -/
  | text (cause : TextError)
  deriving DecidableEq, Repr

namespace OperandError

def code : OperandError → String
  | notInteger _ => "InvalidInt"
  | notBoolean _ => "InvalidBool"
  | notCodePoint _ => "InvalidCodePoint"
  | notSlice _ => "InvalidSlice"
  | notText _ => "NotAStr"
  | text _ => "Text"

def message : OperandError → String
  | notInteger content => "invalid integer operand: " ++ content
  | notBoolean content => "invalid boolean operand: " ++ content
  | notCodePoint part => "invalid code point: " ++ part
  | notSlice content => "invalid slice operand: " ++ content
  | notText typeName => "expected a str operand, got " ++ typeName
  | text cause => cause.message

end OperandError

namespace Operand

/-- A code point in decimal digits, or in hexadecimal ones behind `0x`. -/
def readCodePoint? : List Char → Option CodePoint
  | '0' :: 'x' :: digits => Numeral.readUInt32? 16 digits
  | digits => Numeral.readUInt32? 10 digits

/-- Code points between commas, with blanks around them. No characters at all are no code point. -/
def readCodePoints (cs : List Char) : Except OperandError (List CodePoint) :=
  if cs.isEmpty then .ok []
  else (cs.splitOn ',').mapM fun part =>
    match readCodePoint? (trim part) with
    | some c => .ok c
    | none => .error (.notCodePoint (String.ofList (trim part)))

def readBound? (cs : List Char) : Option (Option Int64) :=
  if cs.isEmpty then some none else (Numeral.readInt64? cs).map some

def readSlice? (cs : List Char) : Option Slice := do
  match ← (cs.splitOn ':').mapM readBound? with
  | [start] => some ⟨start, none, none⟩
  | [start, stop] => some ⟨start, stop, none⟩
  | [start, stop, step] => some ⟨start, stop, step⟩
  | _ => none

def wideText (cs : List CodePoint) : Except OperandError Value :=
  match Text.ofCodePoints cs with
  | .ok t => .ok (.text t)
  | .error e => .error (.text e)

/-- Reads the content behind a tag: none if the tag is unknown. -/
def readTagged? (tag content : List Char) : Option (Except OperandError Value) :=
  match tag with
  | ['s'] => some (.ok (.text (Text.ofChars content)))
  | ['w'] => some (wideText (content.map CodePoint.ofChar))
  | ['c', 'p'] => some (readCodePoints content >>= wideText)
  | ['i'] => some <|
    match Numeral.readInt64? content with
    | some i => .ok (.int i)
    | none => .error (.notInteger (String.ofList content))
  | ['b'] => some <|
    if content = "true".toList then .ok (.bool true)
    else if content = "false".toList then .ok (.bool false)
    else .error (.notBoolean (String.ofList content))
  | ['s', 'l', 'i', 'c', 'e'] => some <|
    match readSlice? content with
    | some s => .ok (.slice s)
    | none => .error (.notSlice (String.ofList content))
  | _ => none

def cutAtColon? (cs : List Char) : Option (List Char × List Char) :=
  match cs.dropWhile (· ≠ ':') with
  | [] => none
  | _ :: content => some (cs.takeWhile (· ≠ ':'), content)

def read (word : String) : Except OperandError Value :=
  if word = "none" then .ok .absent
  else
    let tagged := do
      let (tag, content) ← cutAtColon? word.toList
      readTagged? tag content
    tagged.getD (.ok (.text (Text.ofString word)))

def readText (word : String) : Except OperandError Text := do
  match ← read word with
  | .text t => .ok t
  | v => .error (.notText v.typeName)

theorem cutAtColon?_append {tag : List Char} (h : ':' ∉ tag) (content : List Char) :
    cutAtColon? (tag ++ ':' :: content) = some (tag, content) := by
  have hp : ∀ c ∈ tag, decide (c ≠ ':') = true := fun c hc =>
    decide_eq_true fun e => h (e ▸ hc)
  simp only [cutAtColon?]
  rw [List.dropWhile_append_of_pos hp, List.takeWhile_append_of_pos hp]
  simp

theorem cutAtColon?_of_not_mem {cs : List Char} (h : ':' ∉ cs) : cutAtColon? cs = none := by
  have hp : ∀ c ∈ cs, decide (c ≠ ':') = true := fun c hc =>
    decide_eq_true fun e => h (e ▸ hc)
  have hd : (cs ++ []).dropWhile (· ≠ ':') = [] := List.dropWhile_append_of_pos hp
  rw [List.append_nil] at hd
  simp only [cutAtColon?, hd]

end Operand
end CodePointText
