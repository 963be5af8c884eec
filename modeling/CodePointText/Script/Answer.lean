import CodePointText.Method.Call
import CodePointText.Script.Operation
import CodePointText.Text.Pad
import CodePointText.Text.Replace

/-!
# Answers

What a step of a script answers, and the text that it leaves for later steps: the text it answers,
if it answers one. What a text shows of itself is kept apart from the storage that holds it.
-/

namespace CodePointText
namespace Script

structure Observation where
  length : Nat
  isEmpty : Bool
  isAscii : Bool
  codePoints : List CodePoint
  hash : Int64
  literal : String
  display : String
  serial : Serial

def Observation.of (t : Text) : Observation where
  length := t.length
  isEmpty := t.isEmpty
  isAscii := t.isAscii
  codePoints := t.codePoints
  hash := t.hashValue
  literal := t.literal
  display := t.display
  serial := t.serial

structure Relation where
  holds : Comparison → Bool
  order : Ordering
  sequenceEqual : Bool
  sequenceOrder : Ordering
  /-- The hash values agree; texts that differ may share one. -/
  sameHash : Bool

def Relation.of (a b : Text) : Relation where
  holds c := c.holds a b
  order := a.order b
  sequenceEqual := (a.toSequence.equal b.toSequence).answer
  sequenceOrder := (a.toSequence.order b.toSequence).answer
  sameHash := a.hashValue == b.hashValue

inductive Answer
  | text (t : Text)
  /-- A value that was read. -/
  | value (v : Value)
  /-- What a call came to. -/
  | outcome (o : Outcome)
  | string (s : String)
  | truth (b : Bool)
  | number (n : Int)
  | hash (h : Int64)
  | codePoint (c : Option CodePoint)
  | positions (ps : List Nat)
  | texts (ts : List Text)
  | replies (rs : List Cursor.Reply) (rest : List CodePoint)
  /-- With the reads on both sides, where they are counted. -/
  | equality (b : Bool) (leftReads rightReads : Option Nat)
  | order (o : Ordering) (leftReads rightReads : Option Nat)
  | sequence (s : Sequence)
  /-- With the character string of compact text. -/
  | observation (o : Observation) (string : Option String)
  | relation (r : Relation)
  /-- A value to be shown in all its forms. -/
  | view (v : Value)
  | failure (f : Failure)

namespace Answer

def ofResult : Except TextError Text → Answer
  | .ok t => text t
  | .error e => failure (.text e)

/-- The text that a step leaves for later ones. -/
def left? : Answer → Option Text
  | text t => some t
  | value (.text t) => some t
  | outcome ⟨_, .ok (.value (.text t))⟩ => some t
  | _ => none

end Answer

/-- The scan of two sequences, or of one with itself, with the reads to be shown for each side. A
sequence that is compared with itself shows its reads in both places together. -/
def scan {α : Type} (f : Sequence → Sequence → Scan α) (a : SequenceArgument Text)
    (b : Option (SequenceArgument Text)) : α × Option Nat × Option Nat :=
  match b with
  | some b =>
    let s := f a.toSequence b.toSequence
    (s.answer, a.shown s.leftReads, b.shown s.rightReads)
  | none =>
    let s := f a.toSequence a.toSequence
    (s.answer, a.shown s.totalReads, a.shown s.totalReads)

namespace Operation

def answer (memory : Allocator) : Operation Text → Answer
  | sequenceEqual a b =>
    let (r, left, right) := scan Sequence.equal a b
    .equality r left right
  | sequenceOrder a b =>
    let (r, left, right) := scan Sequence.order a b
    .order r left right
  | sequenceView a => .sequence a.toSequence
  | make t => .text t
  | observe t => .observation (.of t) t.string?
  | literal t => .string t.literal
  | display t => .string t.display
  | hash t => .hash t.hashValue
  | isAscii t => .truth t.isAscii
  | iterate t steps =>
    let (replies, c) := (Cursor.ofText t).run steps
    .replies replies c.drain
  | get t i => .codePoint (t.get? i)
  | item t index => .ofResult (t.item index)
  | slice t range => .ofResult (t.slice range)
  | concat t other => .text (t.concat other)
  | replicate t n => .ofResult (t.replicate n)
  | relate t other => .relation (.of t other)
  | equalString t s => .truth (t.equalString s)
  | group items => .positions (items.map (Text.firstEqual items))
  | sort items => .texts (Text.sort items)
  | contains t pattern => .truth (t.contains pattern)
  | find t pattern start stop => .number (t.find pattern start stop)
  | count t pattern start stop => .number (t.count pattern start stop)
  | replace t pattern substitute limit => .text (t.replace pattern substitute limit)
  | padRight fill t width => .ofResult (t.padRight memory width fill)
  | zeroPad t width => .ofResult (t.zeroPad memory width)
  | view v => .view v.toValue
  | valueEqual a b => .truth (a.toValue.equal b.toValue)
  | call method t args =>
    match Method.lookup method with
    | .ok m => .outcome (m.call t (args.map (·.toValue)))
    | .error e => .outcome ⟨[], .error e⟩
  | operand word =>
    match Operand.read word with
    | .ok v => .value v
    | .error e => .failure (.operand e)
  | textOperand word =>
    match Operand.readText word with
    | .ok t => .value (.text t)
    | .error e => .failure (.operand e)

end Operation
end Script
end CodePointText
