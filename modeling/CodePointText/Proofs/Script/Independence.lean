import CodePointText.Proofs.Iteration
import CodePointText.Proofs.Operand
import CodePointText.Proofs.Script.Build

/-!
# Storages do not show

Two runs of a script start from stores that hold the same texts in storages of any kind. As long as
neither run meets a text that does not fit in memory, they answer the same step by step. What tells
storages apart by design is not asked for: the bounds that a cursor gives for the number of code
points it has left, and the string that compact text is made of.
-/

namespace CodePointText
namespace Script

namespace Answer

def cause? : Answer → Option TextError
  | failure (.text e) => some e
  | outcome ⟨_, .error e⟩ => some e
  | _ => none

/-- The step failed because a repetition or a padding does not fit in memory. -/
def Overflows (a : Answer) : Prop := ∃ e ∈ a.cause?, e.Overflow

instance : DecidablePred Overflows := fun a =>
  inferInstanceAs (Decidable (∃ e ∈ a.cause?, e.Overflow))

/-- The same answer, up to the storages of the texts in it. -/
inductive Agree : Answer → Answer → Prop
  | text {t u : Text} (h : t.Same u) : Agree (.text t) (.text u)
  | value {v w : Value} (h : v.Same w) : Agree (.value v) (.value w)
  | outcome {o p : Outcome} (he : o.events = p.events)
      (hr : Related Reply.Same o.result p.result) : Agree (.outcome o) (.outcome p)
  | string (s : String) : Agree (.string s) (.string s)
  | truth (b : Bool) : Agree (.truth b) (.truth b)
  | number (n : Int) : Agree (.number n) (.number n)
  | hash (h : Int64) : Agree (.hash h) (.hash h)
  | codePoint (c : Option CodePoint) : Agree (.codePoint c) (.codePoint c)
  | positions (ps : List Nat) : Agree (.positions ps) (.positions ps)
  | texts {ts us : List Text} (h : List.Forall₂ Text.Same ts us) : Agree (.texts ts) (.texts us)
  | replies (rs : List Cursor.Reply) (rest : List CodePoint) :
      Agree (.replies rs rest) (.replies rs rest)
  | equality (b : Bool) (leftReads rightReads : Option Nat) :
      Agree (.equality b leftReads rightReads) (.equality b leftReads rightReads)
  | order (o : Ordering) (leftReads rightReads : Option Nat) :
      Agree (.order o leftReads rightReads) (.order o leftReads rightReads)
  | sequence (s : Sequence) : Agree (.sequence s) (.sequence s)
  /-- Whether there is a string is what the storage decides. -/
  | observation (o : Observation) (string string' : Option String) :
      Agree (.observation o string) (.observation o string')
  | relation (r : Relation) : Agree (.relation r) (.relation r)
  /-- A value is shown in all its forms. -/
  | view {v w : Value} (h : v.Same w) (hl : v.literal = w.literal) (hd : v.display = w.display)
      (hs : v.serial = w.serial) (hb : v.debug = w.debug) : Agree (.view v) (.view w)
  | failure (f : Failure) : Agree (.failure f) (.failure f)

inductive Comparable (a b : Answer) : Prop
  | left (h : a.Overflows)
  | right (h : b.Overflows)
  | agree (h : a.Agree b)

theorem overflows_outcome {o : Outcome} {e : TextError} (h : o.result = .error e)
    (he : e.Overflow) : (outcome o).Overflows := by
  obtain ⟨events, result⟩ := o
  subst h
  exact ⟨e, rfl, he⟩

theorem agree_ofResult {x y : Except TextError Text} (h : Related Text.Same x y) :
    (ofResult x).Agree (ofResult y) := by
  cases x with
  | error e =>
    cases y with
    | error f =>
      obtain rfl : e = f := h
      exact .failure (.text e)
    | ok u => cases h
  | ok t =>
    cases y with
    | error f => cases h
    | ok u => exact .text h

theorem comparable_ofResult {x y : Except TextError Text}
    (h : CodePointText.Comparable Text.Same x y) : (ofResult x).Comparable (ofResult y) := by
  cases h with
  | left h he =>
    subst h
    exact .left ⟨_, rfl, he⟩
  | right h he =>
    subst h
    exact .right ⟨_, rfl, he⟩
  | related h => exact .agree (agree_ofResult h)

theorem Agree.left? {a b : Answer} (h : a.Agree b) : Option.Rel Text.Same a.left? b.left? := by
  cases h with
  | text h => exact .some h
  | value h =>
    cases h with
    | text h => exact .some h
    | _ => exact .none
  | @outcome o p _ hr =>
    obtain ⟨_, x⟩ := o
    obtain ⟨_, y⟩ := p
    cases x with
    | error e =>
      cases y with
      | error f => exact .none
      | ok s => cases hr
    | ok r =>
      cases y with
      | error f => cases hr
      | ok s =>
        cases (show r.Same s from hr) with
        | notImplemented => exact .none
        | value h =>
          cases h with
          | text h => exact .some h
          | _ => exact .none
  | _ => exact .none

end Answer

/-! ## One step -/

theorem observation_eq {t u : Text} (h : t.Same u) : Observation.of t = Observation.of u := by
  simp only [Observation.of, h.length_eq, h.isEmpty_eq, h.isAscii_eq, h.codePoints_eq,
    h.hashValue_eq, h.literal_eq, h.display_eq, h.serial_eq]

theorem relation_eq {t u t' u' : Text} (h : t.Same u) (h' : t'.Same u') :
    Relation.of t t' = Relation.of u u' := by
  simp only [Relation.of, h.holds_eq h', h.order_eq h', h.toSequence_eq, h'.toSequence_eq,
    h.hashValue_eq, h'.hashValue_eq]

theorem scan_eq {α : Type} (f : Sequence → Sequence → Scan α) {a a' : SequenceArgument Text}
    (ha : a.Agree a') {b b' : Option (SequenceArgument Text)}
    (hb : Option.Rel SequenceArgument.Agree b b') : scan f a b = scan f a' b' := by
  cases hb with
  | none => simp only [scan, ha.1, ha.2]
  | some hb => simp only [scan, ha.1, ha.2, hb.1, hb.2]

theorem forall₂_toValue {args args' : List (Argument Text)}
    (h : List.Forall₂ Argument.Agree args args') :
    List.Forall₂ Value.Same (args.map (·.toValue)) (args'.map (·.toValue)) := by
  rw [List.forall₂_map_left_iff, List.forall₂_map_right_iff]
  exact h

theorem positions_eq {ts us : List Text} (h : List.Forall₂ Text.Same ts us) :
    ts.map (Text.firstEqual ts) = us.map (Text.firstEqual us) := by
  rw [← List.forall₂_eq_eq_eq, List.forall₂_map_left_iff, List.forall₂_map_right_iff]
  exact h.imp fun t u htu => Text.Same.firstEqual_eq h htu

/-- One operation on texts that differ in storage at most has answers that agree, unless one of
them is that a text does not fit. -/
theorem Operation.Agree.comparable_answer {op op' : Operation Text} (h : op.Agree op')
    (memory memory' : Allocator) : (op.answer memory).Comparable (op'.answer memory') := by
  cases h with
  | sequenceEqual ha hb =>
    rw [answer, answer, scan_eq _ ha hb]
    exact .agree (.equality _ _ _)
  | sequenceOrder ha hb =>
    rw [answer, answer, scan_eq _ ha hb]
    exact .agree (.order _ _ _)
  | sequenceView ha =>
    rw [answer, answer, ha.1]
    exact .agree (.sequence _)
  | make h => exact .agree (.text h)
  | observe h =>
    rw [answer, answer, observation_eq h]
    exact .agree (.observation _ _ _)
  | literal h =>
    rw [answer, answer, h.literal_eq]
    exact .agree (.string _)
  | display h =>
    rw [answer, answer, h.display_eq]
    exact .agree (.string _)
  | hash h =>
    rw [answer, answer, h.hashValue_eq]
    exact .agree (.hash _)
  | isAscii h =>
    rw [answer, answer, h.isAscii_eq]
    exact .agree (.truth _)
  | @iterate t u h steps hs =>
    have ht := Cursor.yields_ofText t
    have hu := h.codePoints_eq ▸ Cursor.yields_ofText u
    obtain ⟨hreplies, hrest⟩ := Cursor.yields_run ht hu hs
    show (Answer.replies _ _).Comparable (Answer.replies _ _)
    rw [hreplies, hrest]
    exact .agree (.replies _ _)
  | get h i =>
    rw [answer, answer, h.get?_eq]
    exact .agree (.codePoint _)
  | item h index => exact .agree (Answer.agree_ofResult (h.related_item index))
  | slice h range => exact .agree (Answer.agree_ofResult (h.related_slice range))
  | concat h h' => exact .agree (.text (h.concat h'))
  | replicate h n => exact Answer.comparable_ofResult (h.comparable_replicate n)
  | relate h h' =>
    rw [answer, answer, relation_eq h h']
    exact .agree (.relation _)
  | equalString h s =>
    rw [answer, answer, h.equalString_eq]
    exact .agree (.truth _)
  | group h =>
    rw [answer, answer, positions_eq h]
    exact .agree (.positions _)
  | sort h => exact .agree (.texts (Text.Same.forall₂_sort h))
  | contains h hp =>
    rw [answer, answer, h.contains_eq hp]
    exact .agree (.truth _)
  | find h hp start stop =>
    rw [answer, answer, h.find_eq hp]
    exact .agree (.number _)
  | count h hp start stop =>
    rw [answer, answer, h.count_eq hp]
    exact .agree (.number _)
  | replace h hp hr limit => exact .agree (.text (h.replace hp hr limit))
  | padRight hf h width => exact Answer.comparable_ofResult (h.comparable_padRight hf _ _ width)
  | zeroPad h width => exact Answer.comparable_ofResult (h.comparable_zeroPad _ _ width)
  | view h => exact .agree (.view h h.literal_eq h.display_eq h.serial_eq h.debug_eq)
  | valueEqual ha hb =>
    rw [answer, answer, ha.equal_eq hb]
    exact .agree (.truth _)
  | call h ha method =>
    have hargs := forall₂_toValue ha
    rw [answer, answer]
    cases Method.lookup method with
    | error e => exact .agree (.outcome (o := ⟨[], .error e⟩) (p := ⟨[], .error e⟩) rfl rfl)
    | ok m =>
      cases Method.comparable_call h hargs m with
      | left hr he => exact .left (Answer.overflows_outcome hr he)
      | right hr he => exact .right (Answer.overflows_outcome hr he)
      | related hr => exact .agree (.outcome (Method.events_call_eq h hargs m hr) hr)
  | operand word =>
    rw [answer, answer]
    cases hw : Operand.read word with
    | error e => exact .agree (.failure _)
    | ok v =>
      have hv : v.WellFormed := Operand.wellFormed_read hw
      exact .agree (.value (Value.Same.refl hv))
  | textOperand word =>
    rw [answer, answer]
    cases hw : Operand.readText word with
    | error e => exact .agree (.failure _)
    | ok t =>
      have ht : t.WellFormed := Operand.wellFormed_read (Operand.readText_eq_ok.1 hw)
      exact .agree (.value (.text (Text.Same.refl ht)))

theorem comparable_answerIn {store store' : Store} (hs : Store.Agree store store')
    {op : Operation Source} (hop : op.Admissible) (memory memory' : Allocator) :
    (answerIn memory store op).Comparable (answerIn memory' store' op) := by
  have hb := Operation.related_build (Source.related_build hs) hop
  rw [answerIn, answerIn]
  cases hx : op.build (Source.build store) with
  | error e =>
    cases hy : op.build (Source.build store') with
    | error f =>
      rw [hx, hy] at hb
      obtain rfl : e = f := hb
      exact .agree (.failure e)
    | ok b => rw [hx, hy] at hb; cases hb
  | ok a =>
    cases hy : op.build (Source.build store') with
    | error f => rw [hx, hy] at hb; cases hb
    | ok b =>
      rw [hx, hy] at hb
      exact Operation.Agree.comparable_answer hb memory memory'

/-! ## Whole runs -/

/-- A step that does not overflow in either store has answers that agree, and the stores agree
behind it. -/
theorem agree_perform {store store' : Store} (hs : Store.Agree store store')
    {memory memory' : Allocator} {op : Operation Source} (hop : op.Admissible)
    (h : ¬ (perform store op memory).1.Overflows)
    (h' : ¬ (perform store' op memory').1.Overflows) :
    (perform store op memory).1.Agree (perform store' op memory').1 ∧
      Store.Agree (perform store op memory).2 (perform store' op memory').2 := by
  cases comparable_answerIn hs hop memory memory' with
  | left ho => exact absurd ho h
  | right ho => exact absurd ho h'
  | agree ha =>
    have hlast : Store.Agree [(answerIn memory store op).left?]
        [(answerIn memory' store' op).left?] :=
      List.Forall₂.cons ha.left? List.Forall₂.nil
    exact ⟨ha, List.rel_append hs hlast⟩

/-- The same over a run: what one step preserves carries to the next. -/
theorem agree_performAll {memory memory' : Nat → Allocator} {store store' : Store}
    (hs : Store.Agree store store') {script : Script} (hscript : ∀ op ∈ script, op.Admissible)
    (h : ∀ a ∈ (performAll memory store script).1, ¬ a.Overflows)
    (h' : ∀ a ∈ (performAll memory' store' script).1, ¬ a.Overflows) :
    List.Forall₂ Answer.Agree (performAll memory store script).1
        (performAll memory' store' script).1 ∧
      Store.Agree (performAll memory store script).2 (performAll memory' store' script).2 := by
  induction script generalizing store store' with
  | nil => exact ⟨List.Forall₂.nil, hs⟩
  | cons op ops ih =>
    rw [List.forall_mem_cons] at hscript
    obtain ⟨hop, hops⟩ := List.forall_mem_cons.1 h
    obtain ⟨hop', hops'⟩ := List.forall_mem_cons.1 h'
    obtain ⟨ha, hstore⟩ := agree_perform hs hscript.1 hop hop'
    obtain ⟨has, hstores⟩ := ih hstore hscript.2 hops hops'
    exact ⟨List.Forall₂.cons ha has, hstores⟩

theorem performAll_take (memory : Nat → Allocator) (store : Store) (script : Script) (n : Nat) :
    (performAll memory store (script.take n)).1 = (performAll memory store script).1.take n := by
  induction script generalizing store n with
  | nil => rw [List.take_nil]; exact List.take_nil.symm
  | cons op ops ih =>
    cases n with
    | zero => rfl
    | succ n => exact congrArg _ (ih (perform store op (memory store.length)).2 n)

/-- As long as no answer in either run is that a text does not fit in memory, the runs of a script
answer the same, whichever storages hold the texts that they start from and whatever allocators they
meet. -/
theorem answers_independent_of_storage {store store' : Store} (hs : Store.Agree store store')
    (memory memory' : Nat → Allocator) {script : Script} (hscript : ∀ op ∈ script, op.Admissible)
    (n : Nat) (h : ∀ a ∈ (performAll memory store script).1.take n, ¬ a.Overflows)
    (h' : ∀ a ∈ (performAll memory' store' script).1.take n, ¬ a.Overflows) :
    List.Forall₂ Answer.Agree ((performAll memory store script).1.take n)
      ((performAll memory' store' script).1.take n) := by
  have hfirst : ∀ op ∈ script.take n, op.Admissible := fun op hop =>
    hscript op (List.mem_of_mem_take hop)
  rw [← performAll_take] at h h' ⊢
  rw [← performAll_take]
  exact (agree_performAll hs hfirst h h').1

/-- A text is repeated, taken in a call together with the text that this left, padded and searched;
it is held as characters in the one run and as code points in the other. -/
theorem answers_from_characters_and_code_points :
    let script : Script :=
      [.replicate (.step 0) 2, .call "__add__" (.step 1) [.text (.step 0)],
        .padRight none (.step 2) 5, .find (.step 3) (.step 0) (some 1) none]
    List.Forall₂ Answer.Agree (performAll (fun _ => .process) [some (.ofString "é")] script).1
      (performAll (fun _ => .ofRoom 0x1000) [some (.wide [0xE9])] script).1 := by
  intro script
  have hs : Store.Agree [some (.ofString "é")] [some (.wide [0xE9])] :=
    .cons (.some ⟨Text.wellFormed_ofString "é", by decide, rfl⟩) .nil
  have hscript : ∀ op ∈ script, op.Admissible := by
    simp [script, Operation.Admissible, Argument.WellFormed]
  exact answers_independent_of_storage hs (fun _ => .process) (fun _ => .ofRoom 0x1000) hscript 4
    (by decide +kernel) (by decide +kernel)

end Script
end CodePointText
