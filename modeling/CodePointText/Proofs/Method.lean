import CodePointText.Method.Call
import CodePointText.Proofs.Text.Same

/-!
# Calls of methods

Called on texts and operands that differ in storage at most, a method raises the same events and
answers the same, unless what it would answer does not fit in memory in one of the storages. So a
call on well-formed operands answers something well-formed.
-/

namespace CodePointText

def Value.WellFormed : Value → Prop
  | text t => t.WellFormed
  | _ => True

def Reply.WellFormed : Reply → Prop
  | value v => v.WellFormed
  | notImplemented => True

/-- Values of one type and content; texts may be held in different storages. -/
inductive Value.Same : Value → Value → Prop
  | absent : Same .absent .absent
  | bool (b : Bool) : Same (.bool b) (.bool b)
  | int (i : Int64) : Same (.int i) (.int i)
  | text {t u : Text} (h : t.Same u) : Same (.text t) (.text u)
  | slice (s : Slice) : Same (.slice s) (.slice s)

inductive Reply.Same : Reply → Reply → Prop
  | value {v w : Value} (h : v.Same w) : Same (.value v) (.value w)
  | notImplemented : Same .notImplemented .notImplemented

namespace Value.Same

theorem refl {v : Value} (h : v.WellFormed) : v.Same v := by
  cases v with
  | text t => exact text (Text.Same.refl h)
  | absent => exact absent
  | bool b => exact bool b
  | int i => exact int i
  | slice s => exact slice s

section

variable {v w : Value} (h : v.Same w)
include h

theorem left : v.WellFormed := by
  cases h with
  | text h => exact h.left
  | _ => trivial

theorem typeName_eq : v.typeName = w.typeName := by
  cases h <;> rfl

theorem index?_eq : v.index? = w.index? := by
  cases h <;> rfl

theorem literal_eq : v.literal = w.literal := by
  cases h with
  | text h => exact h.literal_eq
  | _ => rfl

theorem display_eq : v.display = w.display := by
  cases h with
  | text h => exact h.display_eq
  | _ => rfl

theorem serial_eq : v.serial = w.serial := by
  cases h with
  | text h => rw [Value.serial, Value.serial, h.serial_eq]
  | _ => rfl

theorem debug_eq : v.debug = w.debug := by
  cases h with
  | text h => rw [Value.debug, Value.debug, h.literal_eq]
  | _ => rfl

end

theorem equal_eq {v w v' w' : Value} (h : v.Same w) (h' : v'.Same w') :
    v.equal v' = w.equal w' := by
  cases h with
  | text h =>
    cases h' with
    | text h' => exact h.equal_eq h'
    | _ => rfl
  | _ => cases h' <;> rfl

end Value.Same

theorem Reply.Same.left {r s : Reply} (h : r.Same s) : r.WellFormed := by
  cases h with
  | value h => exact h.left
  | notImplemented => trivial

namespace Method

section

variable {t u : Text} (h : t.Same u) {v w : Value} (hv : v.Same w)
include h hv

theorem same_compareOperand (c : Comparison) :
    (compareOperand c t v).Same (compareOperand c u w) := by
  cases hv with
  | text h' =>
    rw [compareOperand, compareOperand, h.holds_eq h']
    exact .value (.bool _)
  | _ => exact .notImplemented

theorem same_concatOperand : (concatOperand t v).Same (concatOperand u w) := by
  cases hv with
  | text h' => exact .value (.text (h.concat h'))
  | _ => exact .notImplemented

theorem comparable_timesOperand :
    Comparable Reply.Same (timesOperand t v) (timesOperand u w) := by
  rw [timesOperand, timesOperand, hv.index?_eq]
  cases w.index? with
  | none => exact .related Reply.Same.notImplemented
  | some n =>
    have hempty : Text.empty.Same Text.empty := Text.Same.refl (Text.wellFormed_ofString "")
    have hcopies := h.comparable_replicate n.toInt.toNat
    dsimp only
    split
    · exact .related (Reply.Same.value (.text hempty))
    · exact hcopies.map fun a b hab => Reply.Same.value (.text hab)

theorem related_itemOperand : Related Text.Same (itemOperand t v) (itemOperand u w) := by
  cases hv with
  | slice s => exact h.related_slice s
  | bool b => exact h.related_item _
  | int i => exact h.related_item i
  | absent => exact rfl
  | text h' => exact rfl

theorem related_containsOperand : Related Eq (containsOperand t v) (containsOperand u w) := by
  cases hv with
  | text h' => exact h.contains_eq h'
  | _ => exact rfl

end

theorem exists_operands {args args' : List Value} (ha : List.Forall₂ Value.Same args args')
    (hl : args.length = 1) : ∃ v w, args = [v] ∧ args' = [w] ∧ v.Same w := by
  obtain ⟨v, rfl⟩ := List.length_eq_one_iff.1 hl
  obtain ⟨w, rfl⟩ := List.length_eq_one_iff.1 (ha.length_eq ▸ hl)
  exact ⟨v, w, rfl, rfl, (List.forall₂_cons.1 ha).1⟩

theorem comparable_answer {t u : Text} (h : t.Same u) {args args' : List Value}
    (ha : List.Forall₂ Value.Same args args') (m : Method) (hl : args.length = m.arity)
    (hl' : args'.length = m.arity) :
    Comparable Reply.Same (m.answer t args hl) (m.answer u args' hl') := by
  cases m with
  | length =>
    have hv : Value.Same (.int (Int64.ofNat t.length)) (.int (Int64.ofNat u.length)) :=
      h.length_eq ▸ .int _
    exact .related (Reply.Same.value hv)
  | hash =>
    have hv : Value.Same (.int t.hashValue) (.int u.hashValue) := h.hashValue_eq ▸ .int _
    exact .related (Reply.Same.value hv)
  | display => exact .related (Reply.Same.value (.text h))
  | literal =>
    have hs : (Text.ofString t.literal).Same (Text.ofString u.literal) :=
      h.literal_eq ▸ Text.Same.refl (Text.wellFormed_ofString _)
    exact .related (Reply.Same.value (.text hs))
  | compare c =>
    obtain ⟨v, w, rfl, rfl, hv⟩ := exists_operands ha hl
    exact .related (same_compareOperand h hv c)
  | concat =>
    obtain ⟨v, w, rfl, rfl, hv⟩ := exists_operands ha hl
    exact .related (same_concatOperand h hv)
  | times =>
    obtain ⟨v, w, rfl, rfl, hv⟩ := exists_operands ha hl
    exact comparable_timesOperand h hv
  | timesReflected =>
    obtain ⟨v, w, rfl, rfl, hv⟩ := exists_operands ha hl
    exact comparable_timesOperand h hv
  | item =>
    obtain ⟨v, w, rfl, rfl, hv⟩ := exists_operands ha hl
    have hi := related_itemOperand h hv
    exact .related (hi.bind fun a b hab => Reply.Same.value (.text hab))
  | contains =>
    obtain ⟨v, w, rfl, rfl, hv⟩ := exists_operands ha hl
    have hc := related_containsOperand h hv
    exact .related (hc.bind fun a b hab => hab ▸ Reply.Same.value (.bool a))

section

variable {args args' : List Value} (ha : List.Forall₂ Value.Same args args')
include ha

theorem comparingEvents_eq (m : Method) : m.comparingEvents args = m.comparingEvents args' := by
  cases ha with
  | nil => rfl
  | cons hv _ =>
    cases m with
    | compare c => cases hv <;> rfl
    | _ => rfl

theorem unsupportedEvents_eq (m : Method) {x y : Except TextError Reply}
    (hxy : Related Reply.Same x y) : m.unsupportedEvents args x = m.unsupportedEvents args' y := by
  cases x with
  | error e =>
    cases y with
    | error f => rfl
    | ok s => cases hxy
  | ok r =>
    cases y with
    | error f => cases hxy
    | ok s =>
      cases (show r.Same s from hxy) with
      | value h => rfl
      | notImplemented =>
        cases ha with
        | nil => rfl
        | cons hv _ => rw [unsupportedEvents, unsupportedEvents, hv.typeName_eq]

end

section

variable {t u : Text} (h : t.Same u) {args args' : List Value}
  (ha : List.Forall₂ Value.Same args args') (m : Method)
include h ha

/-- The results of two calls correspond unless one does not fit. -/
theorem comparable_call :
    Comparable Reply.Same (m.call t args).result (m.call u args').result := by
  by_cases hl : args.length = m.arity
  · have hl' : args'.length = m.arity := ha.length_eq ▸ hl
    rw [call, call, dif_pos hl, dif_pos hl']
    exact comparable_answer h ha m hl hl'
  · have hl' : ¬ args'.length = m.arity := ha.length_eq ▸ hl
    rw [call_of_length_ne hl, call_of_length_ne hl']
    exact .related rfl

/-- Calls with results that correspond raise the same events. -/
theorem events_call_eq (hr : Related Reply.Same (m.call t args).result (m.call u args').result) :
    (m.call t args).events = (m.call u args').events := by
  by_cases hl : args.length = m.arity
  · have hl' : args'.length = m.arity := ha.length_eq ▸ hl
    rw [call, call, dif_pos hl, dif_pos hl'] at hr ⊢
    dsimp only
    rw [h.length_eq, comparingEvents_eq ha, unsupportedEvents_eq ha m hr]
  · have hl' : ¬ args'.length = m.arity := ha.length_eq ▸ hl
    rw [call_of_length_ne hl, call_of_length_ne hl']

end

/-- A call on well-formed operands that succeeds answers something well-formed: it corresponds to
itself. -/
theorem wellFormed_call {m : Method} {t : Text} (ht : t.WellFormed) {args : List Value}
    (hargs : ∀ v ∈ args, v.WellFormed) {r : Reply} (h : (m.call t args).result = .ok r) :
    r.WellFormed := by
  have hself : List.Forall₂ Value.Same args args :=
    List.forall₂_same.2 fun v hv => Value.Same.refl (hargs v hv)
  have hcall := comparable_call (Text.Same.refl ht) hself m
  rw [h] at hcall
  cases hcall with
  | left he => cases he
  | right he => cases he
  | related hr => exact Reply.Same.left hr

end Method
end CodePointText
