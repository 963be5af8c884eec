import CodePointText.Method.Call
import CodePointText.Operand

/-!
# Commands

What the command line does once its words have been told apart: compare two texts, hash one, or call
a method. Operands are read from left to right and before anything else happens; the first failure
is the outcome.
-/

namespace CodePointText

inductive Command
  | equal (a b : String)
  | compare (a b : String)
  | hash (a : String)
  | call (method self : String) (args : List String)
  deriving DecidableEq, Repr

inductive Report
  /-- Exit status 0, with this on standard output. -/
  | success (output : String)
  /-- Exit status 1, with this on standard error and nothing on standard output. -/
  | failure (errors : String)
  /-- Exit status 2: the words are no command. -/
  | misuse
  deriving DecidableEq, Repr

namespace Report

def exitStatus : Report → Nat
  | success _ => 0
  | failure _ => 1
  | misuse => 2

end Report

namespace Command

inductive Failure
  | operand (e : OperandError)
  | method (e : TextError)
  deriving DecidableEq, Repr

namespace Failure

/-- What a failure prints. An operand that denotes no text names the cause below its message. -/
def report : Failure → String
  | operand (.text cause) =>
    "Error: " ++ cause.message ++ "\n\nCaused by:\n    " ++ cause.code ++ "\n"
  | operand e => "Error: " ++ e.message ++ "\n"
  | method e => e.report ++ "\n"

end Failure

def orderText : Ordering → String
  | .lt => "-1"
  | .eq => "0"
  | .gt => "1"

def truthText (b : Bool) : String := if b then "True" else "False"

def readText (word : String) : Except Failure Text := (Operand.readText word).mapError .operand

def readValue (word : String) : Except Failure Value := (Operand.read word).mapError .operand

/-- The line that a command prints. The comparisons walk both texts as sequences. -/
def output : Command → Except Failure String
  | equal a b => do
    let a ← readText a
    let b ← readText b
    return truthText (a.toSequence.equal b.toSequence).answer
  | compare a b => do
    let a ← readText a
    let b ← readText b
    return orderText (a.toSequence.order b.toSequence).answer
  | hash a => do
    let a ← readText a
    return Numeral.decimal a.hashValue.toInt
  | call method self args => do
    let self ← readText self
    let args ← args.mapM readValue
    let method ← (Method.lookup method).mapError .method
    let reply ← (method.call self args).result.mapError .method
    return reply.literal

def run (c : Command) : Report :=
  match c.output with
  | .ok line => .success (line ++ "\n")
  | .error e => .failure e.report

end Command
end CodePointText
