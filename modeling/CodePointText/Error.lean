/-!
# Causes of failure

Every failure of a text operation is one of ten causes. A cause has a code, a kind that groups it
with others, a message, and a note that explains it.
-/

namespace CodePointText

inductive ErrorKind
  | index | type | value | overflow | lookup
  deriving DecidableEq, Repr

namespace ErrorKind

def name : ErrorKind → String
  | index => "IndexError"
  | type => "TypeError"
  | value => "ValueError"
  | overflow => "OverflowError"
  | lookup => "AttributeError"

end ErrorKind

inductive TextError
  /-- An integer index points outside the text. -/
  | indexOutOfRange
  /-- A text is indexed by something that is neither an integer nor a slice. -/
  | indexNotInteger
  /-- Something that is no text is looked for inside a text. -/
  | memberNotText
  /-- A slice has the step zero. -/
  | zeroStep
  /-- A repetition does not fit in memory. -/
  | repetitionTooLong
  /-- A padded width does not fit in memory. -/
  | paddingTooLong
  /-- A fill is not exactly one character long. -/
  | fillNotOneCharacter
  /-- A word is above the Unicode range. -/
  | codePointOutOfRange
  /-- A method is called with a number of arguments that it does not take. -/
  | argumentCount
  /-- There is no method of the name asked for. -/
  | unknownMethod
  deriving DecidableEq, Repr

namespace TextError

def all : List TextError :=
  [indexOutOfRange, indexNotInteger, memberNotText, zeroStep, repetitionTooLong, paddingTooLong,
    fillNotOneCharacter, codePointOutOfRange, argumentCount, unknownMethod]

def code : TextError → String
  | indexOutOfRange => "IndexOutOfRange"
  | indexNotInteger => "IndicesMustBeIntegers"
  | memberNotText => "ContainsRequiresStr"
  | zeroStep => "ZeroSliceStep"
  | repetitionTooLong => "RepeatOverflow"
  | paddingTooLong => "PadOverflow"
  | fillNotOneCharacter => "BadFillChar"
  | codePointOutOfRange => "CodePointOutOfRange"
  | argumentCount => "WrongArity"
  | unknownMethod => "UnknownSpecialMethod"

def kind : TextError → ErrorKind
  | indexOutOfRange => .index
  | indexNotInteger => .type
  | memberNotText => .type
  | zeroStep => .value
  | repetitionTooLong => .overflow
  | paddingTooLong => .overflow
  | fillNotOneCharacter => .type
  | codePointOutOfRange => .value
  | argumentCount => .type
  | unknownMethod => .lookup

def message : TextError → String
  | indexOutOfRange => "string index out of range"
  | indexNotInteger => "string indices must be integers or slices"
  | memberNotText => "'in <string>' requires string as left operand"
  | zeroStep => "slice step cannot be zero"
  | repetitionTooLong => "repeated string is too long"
  | paddingTooLong => "padded string is too long"
  | fillNotOneCharacter => "the fill character must be exactly one character long"
  | codePointOutOfRange => "code point not in range(0x110000)"
  | argumentCount => "wrong number of arguments"
  | unknownMethod => "no such special method"

/-- The explanation of the cause; it ends its last line. -/
def note : TextError → String
  | indexOutOfRange => "An integer index must lie in `-len..len`.\n"
  | indexNotInteger => "Only integers and slice objects can be used to index a string.\n"
  | memberNotText => "Only a string can be looked for inside a string.\n"
  | zeroStep => "A slice may step forwards or backwards, but it must step.\n"
  | repetitionTooLong => "The length of the repeated string does not fit in memory.\n"
  | paddingTooLong => "The requested width does not fit in memory.\n"
  | fillNotOneCharacter =>
    "Padding methods accept a string of length one as fill character.\n"
  | codePointOutOfRange => "Text can only hold code points up to U+10FFFF.\n"
  | argumentCount =>
    "A special method was called with a number of arguments it does not\ntake.\n"
  | unknownMethod => "The string type does not define a special method of that name.\n"

def ofCode? (code : String) : Option TextError := all.find? fun e => e.code == code

@[simp] theorem ofCode?_code (e : TextError) : ofCode? e.code = some e := by
  cases e <;> decide +kernel

/-- The report of a failure: code, kind and message on one line, and the note below. -/
def report (e : TextError) : String :=
  "error[" ++ e.code ++ "]: " ++ e.kind.name ++ ": " ++ e.message ++ "\n" ++ e.note

end TextError
end CodePointText
