import CodePointText.Error
import CodePointText.Text.Order

/-!
# Special methods

The table of the methods that a text answers to: names, numbers of arguments and labels, in the
order of the table. The six comparisons are one family.
-/

namespace CodePointText

inductive Comparison
  | eq | ne | lt | le | gt | ge
  deriving DecidableEq, Repr

namespace Comparison

def symbol : Comparison → String
  | eq => "=="
  | ne => "!="
  | lt => "<"
  | le => "<="
  | gt => ">"
  | ge => ">="

def holds : Comparison → Text → Text → Bool
  | eq, a, b => a.equal b
  | ne, a, b => !a.equal b
  | lt, a, b => (a.order b).isLT
  | le, a, b => (a.order b).isLE
  | gt, a, b => (a.order b).isGT
  | ge, a, b => (a.order b).isGE

end Comparison

inductive Method
  | length
  | hash
  | display
  | literal
  | compare (c : Comparison)
  | concat
  /-- A text times a count. -/
  | times
  /-- A count times a text. -/
  | timesReflected
  | item
  | contains
  deriving DecidableEq, Repr

namespace Method

def all : List Method :=
  [length, hash, display, literal, compare .eq, compare .ne, compare .lt, compare .le, compare .gt,
    compare .ge, concat, times, timesReflected, item, contains]

def name : Method → String
  | length => "__len__"
  | hash => "__hash__"
  | display => "__str__"
  | literal => "__repr__"
  | compare .eq => "__eq__"
  | compare .ne => "__ne__"
  | compare .lt => "__lt__"
  | compare .le => "__le__"
  | compare .gt => "__gt__"
  | compare .ge => "__ge__"
  | concat => "__add__"
  | times => "__mul__"
  | timesReflected => "__rmul__"
  | item => "__getitem__"
  | contains => "__contains__"

def label : Method → String
  | length => "Len"
  | hash => "Hash"
  | display => "Str"
  | literal => "Repr"
  | compare .eq => "Eq"
  | compare .ne => "Ne"
  | compare .lt => "Lt"
  | compare .le => "Le"
  | compare .gt => "Gt"
  | compare .ge => "Ge"
  | concat => "Add"
  | times => "Mul"
  | timesReflected => "RMul"
  | item => "GetItem"
  | contains => "Contains"

/-- In lower case and between underscores, the label is the name. -/
theorem name_eq_label (m : Method) : m.name = "__" ++ m.label.toLower ++ "__" := by
  cases m with
  | compare c => cases c <;> decide +kernel
  | _ => decide +kernel

/-- The number of arguments besides the text itself. -/
def arity : Method → Nat
  | length | hash | display | literal => 0
  | compare _ | concat | times | timesReflected | item | contains => 1

def lookup (name : String) : Except TextError Method :=
  match all.find? fun m => m.name == name with
  | some m => .ok m
  | none => .error .unknownMethod

theorem find?_name (m : Method) : (all.find? fun n => n.name == m.name) = some m := by
  cases m with
  | compare c => cases c <;> decide +kernel
  | _ => decide +kernel

@[simp] theorem lookup_name (m : Method) : lookup m.name = .ok m := by
  simp [lookup, find?_name]

end Method
end CodePointText
