import CodePointText.Proofs.Reachability

/-!
# Dispatch over the table of methods

The number of arguments is checked once, and what follows relies on it: an operand is read by its
position only where the check has made sure that it is there. Every call that passes the check is
reported, with its comparison if it makes one and with the type of an operand that it has no answer
for, and it fails for the causes of its own method alone.
-/

namespace CodePointText

namespace Method

/-- The answers of the table with the comparisons that they report, where an operand is read by its
position: none if it is not there. How many arguments there are is not known here. -/
def answerAt? (m : Method) (t : Text) (args : List Value) :
    Option (List Event × Except TextError Reply) :=
  match m with
  | .length => some ([], .ok (.value (.int (Int64.ofNat t.length))))
  | .hash => some ([], .ok (.value (.int t.hashValue)))
  | .display => some ([], .ok (.value (.text t)))
  | .literal => some ([], .ok (.value (.text (Text.ofString t.literal))))
  | .compare c => do
    match ← args[0]? with
    | .text u => return ([.comparing c], .ok (.value (.bool (c.holds t u))))
    | _ => return ([], .ok .notImplemented)
  | .concat => do return ([], .ok (concatOperand t (← args[0]?)))
  | .times | .timesReflected => do return ([], timesOperand t (← args[0]?))
  | .item => do return ([], (itemOperand t (← args[0]?)).map fun u => .value (.text u))
  | .contains => do return ([], (containsOperand t (← args[0]?)).map fun b => .value (.bool b))

/-- A call of which every step reads its operand by position, the report of an operand without an
answer among them: none if one of them finds nothing there. -/
def callAt? (m : Method) (t : Text) (args : List Value) : Option Outcome :=
  if args.length ≠ m.arity then some ⟨[], .error .argumentCount⟩
  else do
    let (compared, result) ← m.answerAt? t args
    match result with
    | .ok .notImplemented =>
      let v ← args[0]?
      return ⟨.calling m t.length :: (compared ++ [.unsupported m v.typeName]), result⟩
    | _ => return ⟨.calling m t.length :: compared, result⟩

/-- No operand is read that is not there. -/
theorem callAt?_eq (m : Method) (t : Text) (args : List Value) :
    m.callAt? t args = some (m.call t args) := by
  by_cases h : args.length = m.arity
  · cases m with
    | compare c =>
      obtain ⟨v, rfl⟩ := List.length_eq_one_iff.1 h
      cases v <;> rfl
    | concat =>
      obtain ⟨v, rfl⟩ := List.length_eq_one_iff.1 h
      cases v <;> rfl
    | times | timesReflected =>
      obtain ⟨v, rfl⟩ := List.length_eq_one_iff.1 h
      rcases hr : timesOperand t v with e | (w | _) <;>
        simp [callAt?, answerAt?, call, answer, unsupportedEvents, comparingEvents, arity, hr]
    | item =>
      obtain ⟨v, rfl⟩ := List.length_eq_one_iff.1 h
      rcases hr : itemOperand t v with e | u <;>
        simp [callAt?, answerAt?, call, answer, unsupportedEvents, comparingEvents, arity, hr,
          Except.map]
    | contains =>
      obtain ⟨v, rfl⟩ := List.length_eq_one_iff.1 h
      cases v <;> rfl
    | _ =>
      obtain rfl := List.length_eq_zero_iff.1 h
      rfl
  · rw [callAt?, if_pos h, call_of_length_ne h]

section

variable {t : Text} {v : Value}

theorem compareOperand_eq_notImplemented {c : Comparison} :
    compareOperand c t v = .notImplemented ↔ v.typeName ≠ "str" := by
  cases v <;> simp [compareOperand, Value.typeName]

theorem concatOperand_eq_notImplemented :
    concatOperand t v = .notImplemented ↔ v.typeName ≠ "str" := by
  cases v <;> simp [concatOperand, Value.typeName]

theorem timesOperand_eq_notImplemented :
    timesOperand t v = .ok .notImplemented ↔ v.typeName ≠ "int" ∧ v.typeName ≠ "bool" := by
  rw [← Value.index?_eq_none, timesOperand]
  cases hi : v.index? with
  | none => simp
  | some n =>
    simp only [reduceCtorEq, iff_false]
    intro h
    split at h
    · cases h
    · obtain ⟨u, _, hu⟩ := bind_eq_ok.1 h
      cases hu

theorem timesOperand_error {e : TextError} (h : timesOperand t v = .error e) :
    e = .repetitionTooLong := by
  unfold timesOperand at h
  split at h
  · cases h
  · split at h
    · cases h
    · rcases bind_eq_error.1 h with hr | ⟨u, _, hu⟩
      · exact Text.replicate_error hr
      · cases hu

theorem itemOperand_error (ht : t.WellFormed) {e : TextError} (h : itemOperand t v = .error e) :
    e = .indexOutOfRange ∨ e = .zeroStep ∨ e = .indexNotInteger := by
  unfold itemOperand at h
  split at h
  · exact .inr (.inl (Text.slice_error h))
  · split at h
    · exact .inl (Text.item_error ht h)
    · exact .inr (.inr (Except.error.inj h).symm)

theorem itemOperand_eq_indexNotInteger (ht : t.WellFormed) :
    itemOperand t v = .error .indexNotInteger ↔
      v.typeName ≠ "int" ∧ v.typeName ≠ "bool" ∧ v.typeName ≠ "slice" := by
  have hitem (i : Int64) : t.item i ≠ .error .indexNotInteger := fun h =>
    TextError.noConfusion (Text.item_error ht h)
  have hslice (s : Slice) : t.slice s ≠ .error .indexNotInteger := fun h =>
    TextError.noConfusion (Text.slice_error h)
  cases v <;> simp [itemOperand, Value.index?, Value.typeName, hitem, hslice]

theorem containsOperand_eq_error {e : TextError} :
    containsOperand t v = .error e ↔ e = .memberNotText ∧ v.typeName ≠ "str" := by
  cases v <;> simp [containsOperand, Value.typeName, eq_comm]

end

def Declines (m : Method) (v : Value) : Prop :=
  ((∃ c, m = .compare c) ∨ m = .concat) ∧ v.typeName ≠ "str" ∨
    (m = .times ∨ m = .timesReflected) ∧ v.typeName ≠ "int" ∧ v.typeName ≠ "bool"

/-- The causes for which a call fails that has the right number of arguments. -/
def MayFail (m : Method) (e : TextError) : Prop :=
  (m = .times ∨ m = .timesReflected) ∧ e = .repetitionTooLong ∨
    m = .item ∧ (e = .indexOutOfRange ∨ e = .zeroStep ∨ e = .indexNotInteger) ∨
    m = .contains ∧ e = .memberNotText

/-- The comparisons by their names, with the operators that they report. -/
def operators : List (String × String) :=
  [("__eq__", "=="), ("__ne__", "!="), ("__lt__", "<"), ("__le__", "<="), ("__gt__", ">"),
    ("__ge__", ">=")]

theorem mem_operators (c : Comparison) : ((compare c).name, c.symbol) ∈ operators := by
  cases c <;> decide +kernel

/-- The table takes an operand wherever one can be declined. -/
theorem arity_of_declines {m : Method} {v : Value} (h : m.Declines v) : m.arity = 1 := by
  rcases h with ⟨⟨c, rfl⟩ | rfl, _⟩ | ⟨rfl | rfl, _⟩ <;> rfl

section

variable {m : Method} {t : Text} {args : List Value} (h : args.length = m.arity)

theorem call_of_length_eq :
    m.call t args = ⟨.calling m t.length ::
      (m.comparingEvents args ++ m.unsupportedEvents args (m.answer t args h)),
      m.answer t args h⟩ := dif_pos h

theorem answer_eq_notImplemented :
    m.answer t args h = .ok .notImplemented ↔ ∃ v, args = [v] ∧ m.Declines v := by
  cases m with
  | compare c =>
    obtain ⟨v, rfl⟩ := List.length_eq_one_iff.1 h
    simp [answer, Declines, compareOperand_eq_notImplemented]
  | concat =>
    obtain ⟨v, rfl⟩ := List.length_eq_one_iff.1 h
    simp [answer, Declines, concatOperand_eq_notImplemented]
  | times | timesReflected =>
    obtain ⟨v, rfl⟩ := List.length_eq_one_iff.1 h
    simp [answer, Declines, timesOperand_eq_notImplemented]
  | item | contains =>
    obtain ⟨v, rfl⟩ := List.length_eq_one_iff.1 h
    simp only [answer, Declines, reduceCtorEq, exists_false, or_self, false_and, and_false,
      iff_false]
    intro hr
    obtain ⟨u, _, hu⟩ := bind_eq_ok.1 hr
    cases hu
  | _ => simp [answer, Declines]

/-- Only an operand makes a call fail, and only in the methods that read it as a count, as an index
or as a text to look for. -/
theorem answer_eq_error {e : TextError} :
    m.answer t args h = .error e ↔ ∃ v, args = [v] ∧
      ((m = .times ∨ m = .timesReflected) ∧ timesOperand t v = .error e ∨
        m = .item ∧ itemOperand t v = .error e ∨
        m = .contains ∧ containsOperand t v = .error e) := by
  cases m with
  | times | timesReflected =>
    obtain ⟨v, rfl⟩ := List.length_eq_one_iff.1 h
    simp [answer]
  | item =>
    obtain ⟨v, rfl⟩ := List.length_eq_one_iff.1 h
    change (itemOperand t v >>= fun u => Except.ok (Reply.value (.text u))) = _ ↔ _
    rw [bind_eq_error]
    simp
  | contains =>
    obtain ⟨v, rfl⟩ := List.length_eq_one_iff.1 h
    change (containsOperand t v >>= fun b => Except.ok (Reply.value (.bool b))) = _ ↔ _
    rw [bind_eq_error]
    simp
  | _ => simp [answer]

theorem mayFail_of_answer (ht : t.WellFormed) {e : TextError} (he : m.answer t args h = .error e) :
    m.MayFail e := by
  obtain ⟨v, _, ⟨hm, he⟩ | ⟨hm, he⟩ | ⟨hm, he⟩⟩ := (answer_eq_error h).1 he
  · exact .inl ⟨hm, timesOperand_error he⟩
  · exact .inr (.inl ⟨hm, itemOperand_error ht he⟩)
  · exact .inr (.inr ⟨hm, (containsOperand_eq_error.1 he).1⟩)

theorem answer_eq_indexNotInteger (ht : t.WellFormed) :
    m.answer t args h = .error .indexNotInteger ↔ ∃ v, args = [v] ∧
      m = .item ∧ v.typeName ≠ "int" ∧ v.typeName ≠ "bool" ∧ v.typeName ≠ "slice" := by
  have htimes (v : Value) : timesOperand t v ≠ .error .indexNotInteger := fun he =>
    TextError.noConfusion (timesOperand_error he)
  simp only [answer_eq_error h, htimes, itemOperand_eq_indexNotInteger ht, containsOperand_eq_error,
    reduceCtorEq, false_and, and_false, or_false, false_or]

theorem answer_eq_memberNotText (ht : t.WellFormed) :
    m.answer t args h = .error .memberNotText ↔
      ∃ v, args = [v] ∧ m = .contains ∧ v.typeName ≠ "str" := by
  have htimes (v : Value) : timesOperand t v ≠ .error .memberNotText := fun he =>
    TextError.noConfusion (timesOperand_error he)
  have hitem (v : Value) : itemOperand t v ≠ .error .memberNotText := fun he => by
    rcases itemOperand_error ht he with he | he | he <;> cases he
  simp only [answer_eq_error h, htimes, hitem, containsOperand_eq_error, and_false, false_or,
    true_and]

theorem record_call :
    (m.call t args).events.map Event.record =
      ⟨"TRACE", "calling special method", [("method", .text m.name), ("len", .number t.length)]⟩ ::
        ((m.comparingEvents args).map Event.record ++
          (m.unsupportedEvents args (m.answer t args h)).map Event.record) := by
  rw [call_of_length_eq h, List.map_cons, List.map_append]
  rfl

include h in
/-- A comparison is recorded once, with the operator of the method, if its operand is a text. -/
theorem record_comparingEvents :
    ((m.comparingEvents args).map Event.record = [] ∨
        ∃ symbol, (m.name, symbol) ∈ operators ∧ (m.comparingEvents args).map Event.record =
          [⟨"TRACE", "comparing strings", [("op", .text symbol)]⟩]) ∧
      ((m.comparingEvents args).map Event.record ≠ [] ↔
        (∃ c, m = .compare c) ∧ ∃ u, args = [.text u]) := by
  cases m with
  | compare c =>
    obtain ⟨v, rfl⟩ := List.length_eq_one_iff.1 h
    cases v with
    | text u => exact ⟨.inr ⟨c.symbol, mem_operators c, rfl⟩, by simp [comparingEvents]⟩
    | _ => simp [comparingEvents]
  | _ => simp [comparingEvents]

theorem record_unsupportedEvents {r : Except TextError Reply} (hr : r = m.answer t args h) :
    ((m.unsupportedEvents args r).map Event.record = [] ∨
        ∃ v, args = [v] ∧ (m.unsupportedEvents args r).map Event.record =
          [⟨"DEBUG", "operand type not supported",
            [("method", .text m.name), ("operand", .text v.typeName)]⟩]) ∧
      ((m.unsupportedEvents args r).map Event.record ≠ [] ↔ r = .ok .notImplemented) := by
  by_cases hn : r = .ok .notImplemented
  · obtain ⟨v, rfl, _⟩ := (answer_eq_notImplemented h).1 (hr.symm.trans hn)
    subst hn
    exact ⟨.inr ⟨v, rfl, rfl⟩, by simp [unsupportedEvents]⟩
  · have hnil : m.unsupportedEvents args r = [] := by
      unfold unsupportedEvents
      split
      · exact absurd rfl hn
      · rfl
    simp [hnil, hn]

end

/-- Dispatch is safe and complete. It reads no operand that is not there; it refuses a wrong number
of arguments before anything is recorded; otherwise it records the call with the length of the text,
a comparison of texts with the operator of the method, and an operand without an answer with its
type, in this order and once each; which operands have no answer, and for which causes a call fails,
is settled by the method and the type of its operand. -/
theorem dispatch_complete {t : Text} (ht : t.Reachable) (m : Method) (args : List Value) :
    m.callAt? t args = some (m.call t args) ∧
    ((m.call t args).result = .error .argumentCount ↔ args.length ≠ m.arity) ∧
    ((m.call t args).events = [] ↔ args.length ≠ m.arity) ∧
    (args.length = m.arity → ∃ compared declined,
      (m.call t args).events.map Event.record =
        ⟨"TRACE", "calling special method",
          [("method", .text m.name), ("len", .number t.length)]⟩ :: (compared ++ declined) ∧
      (compared = [] ∨ ∃ symbol, (m.name, symbol) ∈ operators ∧
        compared = [⟨"TRACE", "comparing strings", [("op", .text symbol)]⟩]) ∧
      (compared ≠ [] ↔ (∃ c, m = .compare c) ∧ ∃ u, args = [.text u]) ∧
      (declined = [] ∨ ∃ v, args = [v] ∧
        declined = [⟨"DEBUG", "operand type not supported",
          [("method", .text m.name), ("operand", .text v.typeName)]⟩]) ∧
      (declined ≠ [] ↔ (m.call t args).result = .ok .notImplemented)) ∧
    ((m.call t args).result = .ok .notImplemented ↔ ∃ v, args = [v] ∧ m.Declines v) ∧
    (∀ e, (m.call t args).result = .error e → e = .argumentCount ∨ m.MayFail e) ∧
    ((m.call t args).result = .error .indexNotInteger ↔ ∃ v, args = [v] ∧
      m = .item ∧ v.typeName ≠ "int" ∧ v.typeName ≠ "bool" ∧ v.typeName ≠ "slice") ∧
    ((m.call t args).result = .error .memberNotText ↔
      ∃ v, args = [v] ∧ m = .contains ∧ v.typeName ≠ "str") := by
  have hwf := ht.wellFormed
  refine ⟨callAt?_eq m t args, ?_⟩
  by_cases h : args.length = m.arity
  · have hcompared := record_comparingEvents h
    have hdeclined := record_unsupportedEvents (t := t) h rfl
    have hcount : m.answer t args h ≠ .error .argumentCount := fun he => by
      rcases mayFail_of_answer h hwf he with ⟨_, he⟩ | ⟨_, he | he | he⟩ | ⟨_, he⟩ <;> cases he
    have hrecords := record_call (t := t) h
    rw [call_of_length_eq h] at hrecords ⊢
    refine ⟨by simp [hcount, h], by simp [h], fun _ => ⟨_, _, hrecords, hcompared.1, hcompared.2,
      hdeclined.1, hdeclined.2⟩, answer_eq_notImplemented h, fun e he => .inr ?_,
      answer_eq_indexNotInteger h hwf, answer_eq_memberNotText h hwf⟩
    exact mayFail_of_answer h hwf he
  · have hone (v : Value) (ha : args = [v]) : m.arity ≠ 1 := fun hm => h (by rw [ha, hm]; rfl)
    rw [call_of_length_ne h]
    refine ⟨by simp [h], by simp [h], fun h' => absurd h' h, ?_, fun e he => .inl ?_, ?_, ?_⟩
    · simp only [reduceCtorEq, false_iff]
      rintro ⟨v, ha, hd⟩
      exact hone v ha (arity_of_declines hd)
    · exact (Except.error.inj he).symm
    · simp only [Except.error.injEq, reduceCtorEq, false_iff]
      rintro ⟨v, ha, rfl, _⟩
      exact hone v ha rfl
    · simp only [Except.error.injEq, reduceCtorEq, false_iff]
      rintro ⟨v, ha, rfl, _⟩
      exact hone v ha rfl

/-- A surrogate is compared with a letter, has no order with a number and is not indexed by a text,
and without an argument there is nothing to record. -/
theorem dispatch_of_surrogate :
    (Text.wide [0xD800]).Reachable ∧
      (call (.compare .le) (.wide [0xD800]) [.text (.ofString "é")]).events.map Event.record =
        [⟨"TRACE", "calling special method", [("method", .text "__le__"), ("len", .number 1)]⟩,
          ⟨"TRACE", "comparing strings", [("op", .text "<=")]⟩] ∧
      (call (.compare .le) (.wide [0xD800]) [.int 3]).events.map Event.record =
        [⟨"TRACE", "calling special method", [("method", .text "__le__"), ("len", .number 1)]⟩,
          ⟨"DEBUG", "operand type not supported",
            [("method", .text "__le__"), ("operand", .text "int")]⟩] ∧
      (call (.compare .le) (.wide [0xD800]) [.int 3]).result = .ok .notImplemented ∧
      (call .item (.wide [0xD800]) [.text .empty]).result = .error .indexNotInteger ∧
      (call .item (.wide [0xD800]) []).events = [] := by
  have hr : (Text.wide [0xD800]).Reachable := Text.reachable_iff_wellFormed.2 (by decide)
  have hsymbol {symbol : String} (h : ((compare .le).name, symbol) ∈ operators) :
      symbol = "<=" := by
    simpa [operators, name] using h
  obtain ⟨_, _, _, hletter, hletter', _⟩ :=
    dispatch_complete hr (.compare .le) [.text (.ofString "é")]
  obtain ⟨compared, declined, hevents, hcompared, hreported, _, hdeclined⟩ := hletter rfl
  obtain ⟨_, _, _, hnumber, hnumber', _⟩ := dispatch_complete hr (.compare .le) [.int 3]
  obtain ⟨compared', declined', hevents', _, hreported', hunsupported, hdeclined'⟩ := hnumber rfl
  obtain ⟨_, _, _, _, _, _, hindex, _⟩ := dispatch_complete hr .item [.text .empty]
  obtain ⟨_, _, hnone, _⟩ := dispatch_complete hr .item []
  have hrefused : (call (.compare .le) (.wide [0xD800]) [.int 3]).result = .ok .notImplemented :=
    hnumber'.2 ⟨_, rfl, .inl ⟨.inl ⟨_, rfl⟩, by decide⟩⟩
  refine ⟨hr, ?_, ?_, hrefused, hindex.2 ⟨_, rfl, rfl, by decide, by decide, by decide⟩,
    hnone.2 (by decide)⟩
  · obtain ⟨symbol, hs, rfl⟩ := hcompared.resolve_left (hreported.2 ⟨⟨_, rfl⟩, _, rfl⟩)
    obtain rfl := hsymbol hs
    have hanswered : declined = [] := by
      by_contra hne
      obtain ⟨v, hv, hd⟩ := hletter'.1 (hdeclined.1 hne)
      obtain rfl := (List.cons.inj hv).1
      simp [Declines, Value.typeName] at hd
    rw [hevents, hanswered]
    rfl
  · have hsilent : compared' = [] := by
      by_contra hne
      obtain ⟨_, u, hu⟩ := hreported'.1 hne
      cases hu
    obtain ⟨v, hv, rfl⟩ := hunsupported.resolve_left (hdeclined'.2 hrefused)
    obtain rfl := (List.cons.inj hv).1
    rw [hevents', hsilent]
    rfl

end Method
end CodePointText
