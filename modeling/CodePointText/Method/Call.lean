import CodePointText.Method
import CodePointText.Text.Build
import CodePointText.Text.Hash
import CodePointText.Text.Index
import CodePointText.Text.Search
import CodePointText.Value

/-!
# Calling a method

A call checks the number of arguments, raises events, and answers a value, that it is not
implemented for the type of its operand, or an error. Only a call that passes the check reaches its
operand, so the operand is there. Events are recorded with a level, a message and named fields.
-/

namespace CodePointText

inductive Reply
  | value (v : Value)
  | notImplemented
  deriving DecidableEq, Repr

inductive Event
  | calling (method : Method) (length : Nat)
  | comparing (c : Comparison)
  | unsupported (method : Method) (operandType : String)
  deriving DecidableEq, Repr

namespace Event

def level : Event → String
  | calling .. => "TRACE"
  | comparing _ => "TRACE"
  | unsupported .. => "DEBUG"

def message : Event → String
  | calling .. => "calling special method"
  | comparing _ => "comparing strings"
  | unsupported .. => "operand type not supported"

inductive Field
  | text (s : String)
  | number (n : Nat)
  deriving DecidableEq, Repr

def fields : Event → List (String × Field)
  | calling m length => [("method", .text m.name), ("len", .number length)]
  | comparing c => [("op", .text c.symbol)]
  | unsupported m operandType => [("method", .text m.name), ("operand", .text operandType)]

/-- What is seen of an event. -/
structure Record where
  level : String
  message : String
  fields : List (String × Field)
  deriving DecidableEq, Repr

def record (e : Event) : Record := ⟨e.level, e.message, e.fields⟩

end Event

namespace Reply

def literal : Reply → String
  | value v => v.literal
  | notImplemented => "NotImplemented"

def debug : Except TextError Reply → Debug
  | .ok (.value v) => .tuple "Ok" [.tuple "Value" [v.debug]]
  | .ok .notImplemented => .tuple "Ok" [.atom "NotImplemented"]
  | .error e => .tuple "Err" [.atom e.code]

end Reply

/-- The events of a call, in order, and its result. -/
structure Outcome where
  events : List Event
  result : Except TextError Reply

namespace Method

def compareOperand (c : Comparison) (t : Text) : Value → Reply
  | .text u => .value (.bool (c.holds t u))
  | _ => .notImplemented

def concatOperand (t : Text) : Value → Reply
  | .text u => .value (.text (t.concat u))
  | _ => .notImplemented

/-- Counts that are not positive give the empty text. -/
def timesOperand (t : Text) (v : Value) : Except TextError Reply :=
  match v.index? with
  | none => .ok .notImplemented
  | some n =>
    if n ≤ 0 then .ok (.value (.text .empty))
    else do return .value (.text (← t.replicate n.toInt.toNat))

def itemOperand (t : Text) (v : Value) : Except TextError Text :=
  match v with
  | .slice s => t.slice s
  | _ =>
    match v.index? with
    | some i => t.item i
    | none => .error .indexNotInteger

def containsOperand (t : Text) : Value → Except TextError Bool
  | .text u => .ok (t.contains u)
  | _ => .error .memberNotText

def answer (m : Method) (t : Text) (args : List Value) (h : args.length = m.arity) :
    Except TextError Reply :=
  match m, h with
  | .length, _ => .ok (.value (.int (Int64.ofNat t.length)))
  | .hash, _ => .ok (.value (.int t.hashValue))
  | .display, _ => .ok (.value (.text t))
  | .literal, _ => .ok (.value (.text (Text.ofString t.literal)))
  | .compare c, h => .ok (compareOperand c t (args.get ⟨0, h ▸ Nat.one_pos⟩))
  | .concat, h => .ok (concatOperand t (args.get ⟨0, h ▸ Nat.one_pos⟩))
  | .times, h => timesOperand t (args.get ⟨0, h ▸ Nat.one_pos⟩)
  | .timesReflected, h => timesOperand t (args.get ⟨0, h ▸ Nat.one_pos⟩)
  | .item, h => do return .value (.text (← itemOperand t (args.get ⟨0, h ▸ Nat.one_pos⟩)))
  | .contains, h => do return .value (.bool (← containsOperand t (args.get ⟨0, h ▸ Nat.one_pos⟩)))

def comparingEvents (m : Method) (args : List Value) : List Event :=
  match m, args with
  | .compare c, .text _ :: _ => [.comparing c]
  | _, _ => []

def unsupportedEvents (m : Method) (args : List Value) (result : Except TextError Reply) :
    List Event :=
  match result, args with
  | .ok .notImplemented, v :: _ => [.unsupported m v.typeName]
  | _, _ => []

/-- Calls a method of a text. A wrong number of arguments raises no event. -/
def call (m : Method) (t : Text) (args : List Value) : Outcome :=
  if h : args.length = m.arity then
    let result := m.answer t args h
    ⟨.calling m t.length :: (m.comparingEvents args ++ m.unsupportedEvents args result), result⟩
  else ⟨[], .error .argumentCount⟩

theorem call_of_length_ne {m : Method} {args : List Value} (h : args.length ≠ m.arity) (t : Text) :
    m.call t args = ⟨[], .error .argumentCount⟩ := dif_neg h

end Method
end CodePointText
