import CodePointText.Debug
import CodePointText.Slice
import CodePointText.Text.Display
import CodePointText.Text.Literal
import CodePointText.Text.Order

/-!
# Values

The operands and results of methods: no value, booleans, 64-bit integers, texts and slices. Values
are equal when they are of one type and have the same content; the storage of a text does not
matter.
-/

namespace CodePointText

inductive Value
  | absent
  | bool (b : Bool)
  | int (i : Int64)
  | text (t : Text)
  | slice (s : Slice)
  deriving DecidableEq, Repr

namespace Value

def typeName : Value → String
  | absent => "NoneType"
  | bool _ => "bool"
  | int _ => "int"
  | text _ => "str"
  | slice _ => "slice"

def text? : Value → Option Text
  | text t => some t
  | _ => none

/-- The value as an index. A boolean is the integer 0 or 1. -/
def index? : Value → Option Int64
  | int i => some i
  | bool b => some (if b then 1 else 0)
  | _ => none

def equal : Value → Value → Bool
  | absent, absent => true
  | bool a, bool b => a == b
  | int a, int b => a == b
  | text a, text b => a.equal b
  | slice a, slice b => a == b
  | _, _ => false

def boundLiteral : Option Int64 → String
  | none => "None"
  | some b => Numeral.decimal b.toInt

def literal : Value → String
  | absent => "None"
  | bool true => "True"
  | bool false => "False"
  | int i => Numeral.decimal i.toInt
  | text t => t.literal
  | slice s =>
    "slice(" ++ boundLiteral s.start ++ ", " ++ boundLiteral s.stop ++ ", " ++ boundLiteral s.step
      ++ ")"

/-- The value displayed: a text shows its characters, all else its literal. -/
def display : Value → String
  | text t => t.display
  | v => v.literal

def boundSerial : Option Int64 → Serial
  | none => .null
  | some b => .int b.toInt

/-- The serialised form: a tag with the content, and the tag alone where there is no content. -/
def serial : Value → Serial
  | absent => .string "None"
  | bool b => .object [("Bool", .bool b)]
  | int i => .object [("Int", .int i.toInt)]
  | text t => .object [("Str", t.serial)]
  | slice s =>
    .object [("Slice", .object
      [("start", boundSerial s.start), ("stop", boundSerial s.stop), ("step", boundSerial s.step)])]

def boundDebug : Option Int64 → Debug
  | none => .atom "None"
  | some b => .tuple "Some" [.atom (Numeral.decimal b.toInt)]

def debug : Value → Debug
  | absent => .atom "None"
  | bool b => .tuple "Bool" [.atom (if b then "true" else "false")]
  | int i => .tuple "Int" [.atom (Numeral.decimal i.toInt)]
  | text t => .tuple "Str" [.atom t.literal]
  | slice s =>
    .tuple "Slice" [.record "Slice"
      [("start", boundDebug s.start), ("stop", boundDebug s.stop), ("step", boundDebug s.step)]]

theorem equal_of_typeName_ne {v w : Value} (h : v.typeName ≠ w.typeName) : v.equal w = false := by
  cases v <;> cases w <;> first | rfl | exact absurd rfl h

theorem index?_eq_none {v : Value} :
    v.index? = none ↔ v.typeName ≠ "int" ∧ v.typeName ≠ "bool" := by
  cases v <;> simp [index?, typeName]

end Value
end CodePointText
