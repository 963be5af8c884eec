import CodePointText.Command.Words
import CodePointText.Proofs.Dispatch

/-!
# What commands print and how they fail

The comparison that walks two sequences, the one that an operator of the table makes, and the hashes
print the same of the same operands, however these are written. A call fails for the first thing
that is wrong with it: the operand that it is called on, the arguments from left to right, the name
of the method, their number, and only then what the method itself makes of them.
-/

namespace CodePointText

namespace Report

def standardOutput : Report → String
  | success output => output
  | failure _ | misuse => ""

end Report

namespace Method

theorem lookup_of_forall_ne {name : String} (h : ∀ m : Method, m.name ≠ name) :
    lookup name = .error .unknownMethod := by
  have hnone : (all.find? fun m => m.name == name) = none := by
    rw [List.find?_eq_none]
    intro m _ hm
    exact h m (beq_iff_eq.1 hm)
  rw [lookup, hnone]

end Method

namespace Command

/-- The command ends well, with this line on standard output. -/
def Prints (c : Command) (line : String) : Prop :=
  c.run.exitStatus = 0 ∧ c.run.standardOutput = line ++ "\n"

theorem prints_iff {c : Command} {line : String} : c.Prints line ↔ c.output = .ok line := by
  unfold Prints run
  cases h : c.output with
  | ok line' => simp [Report.exitStatus, Report.standardOutput]
  | error e => simp [Report.exitStatus]

/-- The words of a command line that says this command, whatever its operands begin with. -/
def words : Command → List String
  | equal a b => ["eq", "--", a, b]
  | compare a b => ["compare", "--", a, b]
  | hash a => ["hash", "--", a]
  | call method self args => "call" :: "--" :: method :: self :: args

theorem operands?_terminator (arguments : Bool) (operands : List String) :
    operands? arguments ("--" :: operands) = some operands := by
  have hword : Word.of "--" = .terminator := by decide
  simp [operands?, operandsUpTo, hword]

theorem ofWords?_words (c : Command) : ofWords? c.words = some c := by
  cases c with
  | equal a b =>
    have hname : Word.of "eq" = .plain := by decide
    simp [words, ofWords?, hname, ofNamed?, operands?_terminator]
  | compare a b =>
    have hname : Word.of "compare" = .plain := by decide
    simp [words, ofWords?, hname, ofNamed?, operands?_terminator]
  | hash a =>
    have hname : Word.of "hash" = .plain := by decide
    simp [words, ofWords?, hname, ofNamed?, operands?_terminator]
  | call method self args =>
    have hname : Word.of "call" = .plain := by decide
    simp [words, ofWords?, hname, ofNamed?, operands?_terminator]

theorem runWords_words (c : Command) : runWords c.words = c.run := by
  rw [runWords, ofWords?_words]

section Operands

variable {α : Type} {r : Except OperandError α}

theorem mapError_operand_eq_ok {a : α} : r.mapError Failure.operand = .ok a ↔ r = .ok a := by
  cases r <;> simp [Except.mapError]

theorem mapError_operand_eq_error {e : Failure} :
    r.mapError Failure.operand = .error e ↔ ∃ cause, e = .operand cause ∧ r = .error cause := by
  cases r <;> simp [Except.mapError, eq_comm]

end Operands

theorem readText_eq_ok {word : String} {t : Text} :
    readText word = .ok t ↔ Operand.readText word = .ok t := mapError_operand_eq_ok

theorem readText_eq_error {word : String} {e : Failure} :
    readText word = .error e ↔ ∃ cause, e = .operand cause ∧ Operand.readText word = .error cause :=
  mapError_operand_eq_error

theorem readValue_eq_ok {word : String} {v : Value} :
    readValue word = .ok v ↔ Operand.read word = .ok v := mapError_operand_eq_ok

theorem readValue_eq_error {word : String} {e : Failure} :
    readValue word = .error e ↔ ∃ cause, e = .operand cause ∧ Operand.read word = .error cause :=
  mapError_operand_eq_error

/-- The first of the words that cannot be read cannot be read for this reason. -/
def FirstFailure {α : Type} (read : String → Except OperandError α) (words : List String)
    (e : OperandError) : Prop :=
  ∃ before word after, words = before ++ word :: after ∧ (∀ w ∈ before, ∃ a, read w = .ok a) ∧
    read word = .error e

section FirstFailure

variable {α : Type} {read : String → Except OperandError α} {e : OperandError}

theorem firstFailure_iff {words : List String} :
    FirstFailure read words e ↔ words.mapM read = .error e := mapM_eq_error.symm

end FirstFailure

/-- How a call ends: with its first failure, or with a reply. What stands in front of a failure is
in order. -/
inductive CallEnds (method self : String) (args : List String) : Except Failure Reply → Prop
  | self {e : OperandError} (he : Operand.readText self = .error e) :
      CallEnds method self args (.error (.operand e))
  | argument {t : Text} {e : OperandError} (ht : Operand.readText self = .ok t)
      (he : FirstFailure Operand.read args e) : CallEnds method self args (.error (.operand e))
  | unknown {t : Text} {vs : List Value} (ht : Operand.readText self = .ok t)
      (hvs : List.Forall₂ (fun w v => Operand.read w = .ok v) args vs)
      (hm : ∀ m : Method, m.name ≠ method) :
      CallEnds method self args (.error (.method .unknownMethod))
  | count {t : Text} {vs : List Value} {m : Method} (ht : Operand.readText self = .ok t)
      (hvs : List.Forall₂ (fun w v => Operand.read w = .ok v) args vs) (hm : m.name = method)
      (hn : vs.length ≠ m.arity) : CallEnds method self args (.error (.method .argumentCount))
  | method {t : Text} {vs : List Value} {m : Method} {e : TextError}
      (ht : Operand.readText self = .ok t)
      (hvs : List.Forall₂ (fun w v => Operand.read w = .ok v) args vs) (hm : m.name = method)
      (hn : vs.length = m.arity) (he : m.answer t vs hn = .error e) :
      CallEnds method self args (.error (.method e))
  | reply {t : Text} {vs : List Value} {m : Method} {r : Reply} (ht : Operand.readText self = .ok t)
      (hvs : List.Forall₂ (fun w v => Operand.read w = .ok v) args vs) (hm : m.name = method)
      (hn : vs.length = m.arity) (hr : m.answer t vs hn = .ok r) : CallEnds method self args (.ok r)

section Call

variable {self : String} {t : Text} (ht : Operand.readText self = .ok t)
include ht

theorem output_call_of_read {args : List String} {vs : List Value}
    (hvs : List.Forall₂ (fun w v => Operand.read w = .ok v) args vs) (method : String) :
    (call method self args).output =
      match Method.lookup method with
      | .ok m => ((m.call t vs).result.mapError .method).map Reply.literal
      | .error e => .error (.method e) := by
  have hself := readText_eq_ok.2 ht
  have hargs : args.mapM readValue = .ok vs := by
    rw [mapM_eq_ok]
    exact hvs.imp fun _ _ h => readValue_eq_ok.2 h
  rw [output, hself]
  change args.mapM readValue >>= _ = _
  rw [hargs]
  cases Method.lookup method with
  | error e => rfl
  | ok m =>
    change ((m.call t vs).result.mapError Failure.method >>= fun r => Except.ok r.literal) = _
    dsimp only
    cases (m.call t vs).result <;> rfl

theorem output_call_of_known {args : List String} {vs : List Value}
    (hvs : List.Forall₂ (fun w v => Operand.read w = .ok v) args vs) (m : Method) :
    (call m.name self args).output = ((m.call t vs).result.mapError .method).map Reply.literal := by
  rw [output_call_of_read ht hvs, Method.lookup_name]

theorem output_call_of_argument {args : List String} {e : OperandError}
    (he : FirstFailure Operand.read args e) (method : String) :
    (call method self args).output = .error (.operand e) := by
  obtain ⟨before, word, after, hargs, hbefore, hword⟩ := he
  have hself := readText_eq_ok.2 ht
  have hfirst : args.mapM readValue = .error (.operand e) := by
    rw [mapM_eq_error]
    refine ⟨before, word, after, hargs, fun w hw => ?_, readValue_eq_error.2 ⟨e, rfl, hword⟩⟩
    obtain ⟨v, hv⟩ := hbefore w hw
    exact ⟨v, readValue_eq_ok.2 hv⟩
  rw [output, hself]
  change args.mapM readValue >>= _ = _
  rw [hfirst]
  rfl

end Call

theorem output_of_callEnds {method self : String} {args : List String} {r : Except Failure Reply}
    (h : CallEnds method self args r) :
    (call method self args).output = r.map Reply.literal := by
  cases h with
  | self he =>
    have hself := readText_eq_error.2 ⟨_, rfl, he⟩
    rw [output, hself]
    rfl
  | argument ht he => exact output_call_of_argument ht he method
  | unknown ht hvs hm =>
    rw [output_call_of_read ht hvs, Method.lookup_of_forall_ne hm]
    rfl
  | count ht hvs hm hn =>
    subst hm
    rw [output_call_of_known ht hvs, Method.call_of_length_ne hn]
    rfl
  | method ht hvs hm hn he =>
    subst hm
    rw [output_call_of_known ht hvs, Method.call_of_length_eq hn, he]
    rfl
  | reply ht hvs hm hn hr =>
    subst hm
    rw [output_call_of_known ht hvs, Method.call_of_length_eq hn, hr]
    rfl

theorem exists_callEnds (method self : String) (args : List String) :
    ∃ r, CallEnds method self args r := by
  cases ht : Operand.readText self with
  | error e => exact ⟨_, .self ht⟩
  | ok t =>
    cases hvs : args.mapM Operand.read with
    | error e => exact ⟨_, .argument ht (firstFailure_iff.2 hvs)⟩
    | ok vs =>
      have hread := mapM_eq_ok.1 hvs
      by_cases hm : ∃ m : Method, m.name = method
      · obtain ⟨m, hm⟩ := hm
        by_cases hn : vs.length = m.arity
        · cases hr : m.answer t vs hn with
          | error e => exact ⟨_, .method ht hread hm hn hr⟩
          | ok r => exact ⟨_, .reply ht hread hm hn hr⟩
        · exact ⟨_, .count ht hread hm hn⟩
      · exact ⟨_, .unknown ht hread (not_exists.1 hm)⟩

theorem output_call_eq_ok {method self : String} {args : List String} {line : String} :
    (call method self args).output = .ok line ↔
      ∃ r, CallEnds method self args (.ok r) ∧ line = r.literal := by
  constructor
  · intro h
    obtain ⟨r, hr⟩ := exists_callEnds method self args
    have hout := (output_of_callEnds hr).symm.trans h
    cases r with
    | error e => cases hout
    | ok r => exact ⟨r, hr, (Except.ok.inj hout).symm⟩
  · rintro ⟨r, hr, rfl⟩
    exact output_of_callEnds hr

section Texts

variable {wa wb : String} {a b : Text} (ha : Operand.readText wa = .ok a)
  (hb : Operand.readText wb = .ok b)
include ha hb

end Texts

end Command
end CodePointText
