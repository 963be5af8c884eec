import CodePointText.Command.Words

/-!
# The program

Runs the command line that it is given and ends with the exit status of the report.
-/

namespace CodePointText

def usage : String :=
  "usage: [--log-level LEVEL] eq A B | compare A B | hash A | call METHOD SELF [ARGS]...\n"

def printReport (r : Report) : IO UInt32 := do
  match r with
  | .success output => IO.print output
  | .failure errors => IO.eprint errors
  | .misuse => IO.eprint usage
  return r.exitStatus.toUInt32

end CodePointText

def main (args : List String) : IO UInt32 :=
  CodePointText.printReport (CodePointText.Command.runWords args)
