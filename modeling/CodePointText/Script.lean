import CodePointText.Script.Answer

/-!
# Scripts

A script is a list of operations that are performed one after the other. Each may use the texts that
earlier steps have left.
-/

namespace CodePointText

abbrev Script := List (Script.Operation Script.Source)

namespace Script

def answerIn (memory : Allocator) (store : Store) (op : Operation Source) : Answer :=
  match op.build (Source.build store) with
  | .ok op => op.answer memory
  | .error f => .failure f

def perform (store : Store) (op : Operation Source) (memory : Allocator := .process) :
    Answer × Store :=
  let a := answerIn memory store op
  (a, store ++ [a.left?])

/-- Performs steps one after the other. An allocator may grant now what it refuses later, so each
step meets one of its own. -/
def performAll (memory : Nat → Allocator) (store : Store) : Script → List Answer × Store
  | [] => ([], store)
  | op :: ops =>
    let (a, store) := perform store op (memory store.length)
    let (as, store) := performAll memory store ops
    (a :: as, store)

@[simp] theorem length_performAll (memory : Nat → Allocator) (store : Store) (script : Script) :
    (performAll memory store script).1.length = script.length := by
  induction script generalizing store with
  | nil => rfl
  | cons op ops ih => simp [performAll, ih]

end Script
end CodePointText
