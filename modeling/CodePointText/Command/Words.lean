import CodePointText.Command

/-!
# The words of the command line

Telling options and operands apart. The option `--log-level` takes a value and may stand before the
name of the command and once more behind it. A word that starts with a hyphen is no operand, unless
it stands behind `--` or among the arguments of a method; behind the first of these every word is an
argument.

This is the outer layer: what a command does is settled once its words are told apart. Asking for
help or for the version is no command here and ends like any other misuse, with status 2 and the
usage on standard error; the texts that would answer it, and the status 0 that goes with them, are
not covered.
-/

namespace CodePointText
namespace Command

inductive Word
  /-- The word that ends the options. -/
  | terminator
  /-- The option, with the value attached to it if there is one. -/
  | logLevel (attached : Bool)
  /-- A word that asks for help. It is no operand and no value, wherever it is looked at. -/
  | help
  /-- Any other word that starts with a hyphen, except the hyphen alone. -/
  | hyphened
  | plain
  deriving DecidableEq, Repr

def optionName : List Char := ['-', '-', 'l', 'o', 'g', '-', 'l', 'e', 'v', 'e', 'l']

def helpName : List Char := ['-', '-', 'h', 'e', 'l', 'p']

/-- A value is attached to the name of an option by an equals sign. -/
def attachedTo (name cs : List Char) : Bool := (name ++ ['=']).isPrefixOf cs

/-- Help is asked for by `--help`, with or without a value attached to it, and by a hyphen before
letters `h` only; with any other character among these the word is merely hyphened. -/
def asksForHelp (cs : List Char) : Bool :=
  cs == helpName || attachedTo helpName cs ||
    match cs with
    | '-' :: c :: letters => (c :: letters).all (· == 'h')
    | _ => false

def Word.ofChars (cs : List Char) : Word :=
  if cs = ['-', '-'] then .terminator
  else if cs = optionName then .logLevel false
  else if attachedTo optionName cs then .logLevel true
  else if asksForHelp cs then .help
  else
    match cs with
    | '-' :: _ :: _ => .hyphened
    | _ => .plain

def Word.of (word : String) : Word := Word.ofChars word.toList

/-- The words behind the value of the option: none if the next word cannot be one. Where hyphened
operands are expected, a hyphened value is taken as well. -/
def skipValue? (hyphens : Bool) : List String → Option (List String)
  | [] => none
  | value :: words =>
    match Word.of value with
    | .plain => some words
    | .hyphened => if hyphens then some words else none
    | _ => none

def skipOption? (hyphens attached : Bool) (words : List String) : Option (List String) :=
  if attached then some words else skipValue? hyphens words

/-- The operands behind the name of a command. With `arguments`, those from the third on may be any
words. The option is allowed as long as it has not been `seen`. -/
def operandsUpTo (arguments : Bool) :
    Nat → (seen : Bool) → (operands words : List String) → Option (List String)
  | 0, _, operands, _ => some operands
  | _, _, operands, [] => some operands
  | limit + 1, seen, operands, word :: words =>
    if arguments ∧ 2 < operands.length then some (operands ++ word :: words)
    else
      let hyphens := arguments && operands.length == 2
      match Word.of word with
      | .terminator => some (operands ++ words)
      | .plain => operandsUpTo arguments limit seen (operands ++ [word]) words
      | .hyphened =>
        if hyphens then operandsUpTo arguments limit seen (operands ++ [word]) words else none
      | .help => none
      | .logLevel attached =>
        if seen then none
        else do operandsUpTo arguments limit true operands (← skipOption? hyphens attached words)

def operands? (arguments : Bool) (words : List String) : Option (List String) :=
  operandsUpTo arguments words.length false [] words

def ofNamed? (name : String) (words : List String) : Option Command :=
  match name with
  | "eq" => do
    match ← operands? false words with
    | [a, b] => some (.equal a b)
    | _ => none
  | "compare" => do
    match ← operands? false words with
    | [a, b] => some (.compare a b)
    | _ => none
  | "hash" => do
    match ← operands? false words with
    | [a] => some (.hash a)
    | _ => none
  | "call" => do
    match ← operands? true words with
    | method :: self :: args => some (.call method self args)
    | _ => none
  | _ => none

def ofWords? (words : List String) : Option Command := do
  let (name, words) ← match words with
    | [] => none
    | word :: words =>
      match Word.of word with
      | .logLevel attached =>
        match ← skipOption? false attached words with
        | name :: words => some (name, words)
        | [] => none
      | _ => some (word, words)
  ofNamed? name words

def runWords (words : List String) : Report :=
  match ofWords? words with
  | some c => c.run
  | none => .misuse

end Command
end CodePointText
