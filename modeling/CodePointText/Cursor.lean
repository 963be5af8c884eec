import CodePointText.Text.Basic

/-!
# Cursors

A cursor yields the code points of a text one at a time from either end. Over compact text it holds
the bytes that are still to come and decodes them, so how many characters remain is known only
between bounds.
-/

namespace CodePointText

inductive Cursor
  /-- Bytes still to be decoded. -/
  | bytes (rest : List UInt8)
  /-- Code points still to come. -/
  | words (rest : List CodePoint)
  deriving DecidableEq, Repr

namespace Cursor

def ofText : Text → Cursor
  | .compact s _ _ => .bytes (Utf8.bytes s)
  | .wide cs => .words cs

def next : Cursor → Option CodePoint × Cursor
  | .bytes rest =>
    match Utf8.popFront? rest with
    | some (c, rest) => (some (CodePoint.ofChar c), .bytes rest)
    | none => (none, .bytes rest)
  | .words [] => (none, .words [])
  | .words (c :: cs) => (some c, .words cs)

def nextBack : Cursor → Option CodePoint × Cursor
  | .bytes rest =>
    match Utf8.popBack? rest with
    | some (c, rest) => (some (CodePoint.ofChar c), .bytes rest)
    | none => (none, .bytes rest)
  | .words cs => (cs.getLast?, .words cs.dropLast)

/-- The least and the greatest number of code points that may be left. -/
def sizeHint : Cursor → Nat × Nat
  | .bytes rest => ((rest.length + 3) / 4, rest.length)
  | .words cs => (cs.length, cs.length)

inductive Step
  | front | back | size
  deriving DecidableEq, Repr

inductive Reply
  | codePoint (c : Option CodePoint)
  | bounds (lower upper : Nat)
  deriving DecidableEq, Repr

def step (c : Cursor) : Step → Reply × Cursor
  | .front => (.codePoint c.next.1, c.next.2)
  | .back => (.codePoint c.nextBack.1, c.nextBack.2)
  | .size => (.bounds c.sizeHint.1 c.sizeHint.2, c)

def run (c : Cursor) : List Step → List Reply × Cursor
  | [] => ([], c)
  | s :: steps =>
    let (reply, c) := c.step s
    let (replies, c) := run c steps
    (reply :: replies, c)

/-- What is left when the cursor is read to its end from the front, after at most `limit` reads. -/
def drainUpTo : Nat → Cursor → List CodePoint
  | 0, _ => []
  | limit + 1, c =>
    match c.next with
    | (some x, c) => x :: drainUpTo limit c
    | (none, _) => []

/-- All code points that are still to come: no more than the size hint allows. -/
def drain (c : Cursor) : List CodePoint := drainUpTo c.sizeHint.2 c

end Cursor
end CodePointText
