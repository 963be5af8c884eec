/-!
# Debug forms

The structure of a value for inspection, and its two texts: on one line, and as a block in which
every level of nesting stands on lines of its own, indented and ended by a comma.
-/

namespace CodePointText

inductive Debug
  /-- A word that is written as it is. -/
  | atom (text : String)
  /-- A name with fields in parentheses. -/
  | tuple (name : String) (fields : List Debug)
  /-- A name with named fields in braces. -/
  | record (name : String) (fields : List (String × Debug))

namespace Debug

mutual

def line : Debug → String
  | atom text => text
  | tuple name fields => name ++ "(" ++ lineFields fields ++ ")"
  | record name fields => name ++ " \x7b " ++ lineNamed fields ++ " \x7d"

def lineFields : List Debug → String
  | [] => ""
  | [x] => x.line
  | x :: xs => x.line ++ ", " ++ lineFields xs

def lineNamed : List (String × Debug) → String
  | [] => ""
  | [(name, x)] => name ++ ": " ++ x.line
  | (name, x) :: xs => name ++ ": " ++ x.line ++ ", " ++ lineNamed xs

end

def indent (depth : Nat) : String := String.ofList (List.replicate (4 * depth) ' ')

mutual

/-- The text as a block whose first line stands at the given depth. -/
def blockAt (depth : Nat) : Debug → String
  | atom text => text
  | tuple name fields => name ++ "(\n" ++ blockFields (depth + 1) fields ++ indent depth ++ ")"
  | record name fields =>
    name ++ " \x7b\n" ++ blockNamed (depth + 1) fields ++ indent depth ++ "\x7d"

def blockFields (depth : Nat) : List Debug → String
  | [] => ""
  | x :: xs => indent depth ++ x.blockAt depth ++ ",\n" ++ blockFields depth xs

def blockNamed (depth : Nat) : List (String × Debug) → String
  | [] => ""
  | (name, x) :: xs =>
    indent depth ++ name ++ ": " ++ x.blockAt depth ++ ",\n" ++ blockNamed depth xs

end

def block (d : Debug) : String := d.blockAt 0

end Debug
end CodePointText
