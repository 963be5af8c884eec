import CodePointText.Numeral

/-!
# Serialised forms

The data that values are serialised to, and its JSON text without spaces. Only what JSON requires is
escaped: the quote, the backslash and the characters below U+0020.
-/

namespace CodePointText

inductive Serial
  | null
  | bool (b : Bool)
  | int (i : Int)
  | string (s : String)
  | list (items : List Serial)
  | object (members : List (String × Serial))

namespace Serial

def escape (c : Char) : List Char :=
  if c = '\x22' then ['\\', '\x22']
  else if c = '\\' then ['\\', '\\']
  else if c = '\x08' then ['\\', 'b']
  else if c = '\x0c' then ['\\', 'f']
  else if c = '\n' then ['\\', 'n']
  else if c = '\r' then ['\\', 'r']
  else if c = '\t' then ['\\', 't']
  else if c.toNat < 0x20 then '\\' :: 'u' :: Numeral.hexDigits 4 c.toNat
  else [c]

def quoted (s : String) : String :=
  String.ofList ('\x22' :: s.toList.flatMap escape ++ ['\x22'])

mutual

def render : Serial → String
  | null => "null"
  | bool true => "true"
  | bool false => "false"
  | int i => Numeral.decimal i
  | string s => quoted s
  | list items => "[" ++ renderItems items ++ "]"
  | object members => "\x7b" ++ renderMembers members ++ "\x7d"

def renderItems : List Serial → String
  | [] => ""
  | [x] => x.render
  | x :: xs => x.render ++ "," ++ renderItems xs

def renderMembers : List (String × Serial) → String
  | [] => ""
  | [(name, x)] => quoted name ++ ":" ++ x.render
  | (name, x) :: xs => quoted name ++ ":" ++ x.render ++ "," ++ renderMembers xs

end

end Serial
end CodePointText
