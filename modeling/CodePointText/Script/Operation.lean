import CodePointText.Cursor
import CodePointText.Operand
import CodePointText.Sequence

/-!
# Operations

What a step of a script does, over whatever stands for its texts. Before a step runs, what stands
for its texts is built into texts, in the order in which the fields are listed here; the first
failure to build is the failure of the step.
-/

namespace CodePointText
namespace Script

inductive Recipe
  /-- Compact text. -/
  | string (s : String)
  /-- Text that indexes in constant time. -/
  | indexed (s : String)
  /-- Wide text. -/
  | codePoints (cs : List CodePoint)
  | codePoint (c : CodePoint)
  deriving DecidableEq, Repr

inductive Source
  | made (r : Recipe)
  /-- The text that an earlier step left. -/
  | step (i : Nat)
  deriving DecidableEq, Repr

/-- A value whose text, if it is one, has yet to be built. -/
inductive Argument (σ : Type)
  | value (v : Value)
  | text (s : σ)

/-- A sequence to be compared, and whether its reads are counted. -/
inductive SequenceArgument (σ : Type)
  | items (s : Sequence) (counted : Bool)
  | text (s : σ)

inductive Operation (σ : Type)
  | sequenceEqual (a : SequenceArgument σ) (b : Option (SequenceArgument σ))
  | sequenceOrder (a : SequenceArgument σ) (b : Option (SequenceArgument σ))
  | sequenceView (a : SequenceArgument σ)
  | make (t : σ)
  | observe (t : σ)
  | literal (t : σ)
  | display (t : σ)
  | hash (t : σ)
  | isAscii (t : σ)
  | iterate (t : σ) (steps : List Cursor.Step)
  | get (t : σ) (i : Nat)
  | item (t : σ) (index : Int64)
  | slice (t : σ) (range : Slice)
  | concat (t other : σ)
  | replicate (t : σ) (n : Nat)
  | relate (t other : σ)
  | equalString (t : σ) (s : String)
  | group (items : List σ)
  | sort (items : List σ)
  | contains (t pattern : σ)
  | find (t pattern : σ) (start stop : Option Int64)
  | count (t pattern : σ) (start stop : Option Int64)
  | replace (t pattern substitute : σ) (limit : Option Nat)
  | padRight (fill : Option σ) (t : σ) (width : Int64)
  | zeroPad (t : σ) (width : Int64)
  | view (v : Argument σ)
  | valueEqual (a b : Argument σ)
  | call (method : String) (t : σ) (args : List (Argument σ))
  | operand (word : String)
  | textOperand (word : String)

inductive Failure
  | text (e : TextError)
  | operand (e : OperandError)
  /-- The step referred to left no text. -/
  | noText
  deriving DecidableEq, Repr

namespace Recipe

def build : Recipe → Except TextError Text
  | string s => .ok (Text.ofString s)
  | indexed s => .ok (Text.ofStringIndexed s)
  | codePoints cs => Text.ofCodePoints cs
  | codePoint c => Text.ofCodePoint c

end Recipe

abbrev Store := List (Option Text)

namespace Source

def build (store : Store) : Source → Except Failure Text
  | made r => r.build.mapError .text
  | step i =>
    match store[i]? with
    | some (some t) => .ok t
    | _ => .error .noText

end Source

namespace Argument

def build {σ τ ε : Type} (f : σ → Except ε τ) : Argument σ → Except ε (Argument τ)
  | value v => .ok (value v)
  | text s => do return text (← f s)

def toValue : Argument Text → Value
  | value v => v
  | text t => .text t

end Argument

namespace SequenceArgument

def build {σ τ ε : Type} (f : σ → Except ε τ) : SequenceArgument σ → Except ε (SequenceArgument τ)
  | items s counted => .ok (items s counted)
  | text s => do return text (← f s)

def toSequence : SequenceArgument Text → Sequence
  | items s _ => s
  | text t => t.toSequence

def shown {σ : Type} (a : SequenceArgument σ) (reads : Nat) : Option Nat :=
  match a with
  | items _ true => some reads
  | _ => none

end SequenceArgument

def buildOption {α β ε : Type} (f : α → Except ε β) : Option α → Except ε (Option β)
  | none => .ok none
  | some a => do return some (← f a)

namespace Operation

def build {σ τ ε : Type} (f : σ → Except ε τ) : Operation σ → Except ε (Operation τ)
  | sequenceEqual a b => do return sequenceEqual (← a.build f) (← buildOption (·.build f) b)
  | sequenceOrder a b => do return sequenceOrder (← a.build f) (← buildOption (·.build f) b)
  | sequenceView a => do return sequenceView (← a.build f)
  | make t => do return make (← f t)
  | observe t => do return observe (← f t)
  | literal t => do return literal (← f t)
  | display t => do return display (← f t)
  | hash t => do return hash (← f t)
  | isAscii t => do return isAscii (← f t)
  | iterate t steps => do return iterate (← f t) steps
  | get t i => do return get (← f t) i
  | item t index => do return item (← f t) index
  | slice t range => do return slice (← f t) range
  | concat t other => do return concat (← f t) (← f other)
  | replicate t n => do return replicate (← f t) n
  | relate t other => do return relate (← f t) (← f other)
  | equalString t s => do return equalString (← f t) s
  | group items => do return group (← items.mapM f)
  | sort items => do return sort (← items.mapM f)
  | contains t pattern => do return contains (← f t) (← f pattern)
  | find t pattern start stop => do return find (← f t) (← f pattern) start stop
  | count t pattern start stop => do return count (← f t) (← f pattern) start stop
  | replace t pattern substitute limit => do
    return replace (← f t) (← f pattern) (← f substitute) limit
  | padRight fill t width => do return padRight (← buildOption f fill) (← f t) width
  | zeroPad t width => do return zeroPad (← f t) width
  | view v => do return view (← v.build f)
  | valueEqual a b => do return valueEqual (← a.build f) (← b.build f)
  | call method t args => do return call method (← f t) (← args.mapM (·.build f))
  | operand word => .ok (operand word)
  | textOperand word => .ok (textOperand word)

end Operation
end Script
end CodePointText
