import CodePointText.Proofs.Command
import CodePointText.Proofs.Literal
import CodePointText.Proofs.Serial.Json

/-!
# What is printed tells the reply

The first character of a literal tells the type of its value. Within a type, numerals and texts are
read back, and the commas of a slice stand between its bounds. So values with one literal are equal,
and the line that a call prints tells what it was replied.
-/

namespace CodePointText

namespace Value

def typeNameOfFirst (c : Char) : String :=
  if Serial.isNumeric c then "int"
  else if c = 'N' then "NoneType"
  else if c = 'T' ∨ c = 'F' then "bool"
  else if c = 's' then "slice"
  else "str"

theorem typeName_of_first (v : Value) :
    v.literal.toList.head?.map typeNameOfFirst = some v.typeName := by
  cases v with
  | absent => decide
  | bool b => cases b <;> decide
  | int i =>
    obtain ⟨c, cs, hdigits, hnumeric⟩ := Serial.exists_digitsOfInt_eq_cons i.toInt
    have hc : typeNameOfFirst c = "int" := if_pos hnumeric
    rw [literal, Numeral.decimal, String.toList_ofList, hdigits]
    exact congrArg some hc
  | text t =>
    have hq := Literal.quoteFor_eq t.codePoints
    rw [literal, Text.toList_literal]
    change some (typeNameOfFirst (Literal.quoteFor t.codePoints)) = some "str"
    rcases hq with hq | hq <;> rw [hq] <;> decide
  | slice s =>
    simp only [literal, String.toList_append, List.append_assoc]
    rfl

theorem typeName_eq_of_literal_eq {v w : Value} (h : v.literal = w.literal) :
    v.typeName = w.typeName := by
  have hv := typeName_of_first v
  rw [h, typeName_of_first w] at hv
  exact (Option.some.inj hv).symm

theorem literal_ne_notImplemented (v : Value) : v.literal ≠ "NotImplemented" := by
  intro h
  have hv := typeName_of_first v
  rw [h] at hv
  have htype : v.typeName = "NoneType" := (Option.some.inj hv).symm
  cases v with
  | absent => exact absurd h (by decide)
  | _ => simp [typeName] at htype

theorem not_mem_boundLiteral (b : Option Int64) : ',' ∉ (boundLiteral b).toList := by
  cases b with
  | none => decide
  | some i =>
    rw [boundLiteral, Numeral.decimal, String.toList_ofList]
    intro hmem
    exact absurd (Serial.isNumeric_of_mem_digitsOfInt hmem) (by decide)

theorem decimal_inj {i j : Int64} :
    Numeral.decimal i.toInt = Numeral.decimal j.toInt ↔ i = j := by
  rw [Numeral.decimal, Numeral.decimal, String.ofList_inj, Serial.digitsOfInt_inj, Int64.toInt_inj]

theorem boundLiteral_inj {b b' : Option Int64} : boundLiteral b = boundLiteral b' ↔ b = b' := by
  have hnone (i : Int64) : Numeral.decimal i.toInt ≠ "None" := by
    intro h
    have htype : (int i).typeName = absent.typeName := typeName_eq_of_literal_eq h
    simp [typeName] at htype
  cases b with
  | none =>
    cases b' with
    | none => simp
    | some j => simpa [boundLiteral] using (hnone j).symm
  | some i =>
    cases b' with
    | none => simpa [boundLiteral] using hnone i
    | some j =>
      rw [Option.some.injEq]
      exact decimal_inj

theorem splitOn_literal_slice (s : Slice) :
    (literal (.slice s)).toList.splitOn ',' =
      ["slice(".toList ++ (boundLiteral s.start).toList, ' ' :: (boundLiteral s.stop).toList,
        ' ' :: ((boundLiteral s.step).toList ++ [')'])] := by
  have hlist : (literal (.slice s)).toList =
      ("slice(".toList ++ (boundLiteral s.start).toList) ++
        ',' :: ((' ' :: (boundLiteral s.stop).toList) ++
          ',' :: (' ' :: ((boundLiteral s.step).toList ++ [')']))) := by
    simp [literal]
  have hstart : ',' ∉ "slice(".toList ++ (boundLiteral s.start).toList := by
    simpa using not_mem_boundLiteral s.start
  have hstop : ',' ∉ ' ' :: (boundLiteral s.stop).toList := by
    simpa using not_mem_boundLiteral s.stop
  have hstep : ',' ∉ ' ' :: ((boundLiteral s.step).toList ++ [')']) := by
    simpa using not_mem_boundLiteral s.step
  rw [hlist, List.splitOn_append_cons_self_of_not_mem hstart,
    List.splitOn_append_cons_self_of_not_mem hstop, List.splitOn_eq_singleton hstep]

theorem literal_slice_inj {s s' : Slice} : literal (.slice s) = literal (.slice s') ↔ s = s' := by
  refine ⟨fun h => ?_, fun h => h ▸ rfl⟩
  have hsplit := splitOn_literal_slice s
  rw [h, splitOn_literal_slice s'] at hsplit
  simp only [List.cons.injEq, List.append_cancel_left_eq, List.append_cancel_right_eq, true_and,
    and_true, String.toList_inj, boundLiteral_inj] at hsplit
  obtain ⟨start, stop, step⟩ := s
  obtain ⟨start', stop', step'⟩ := s'
  obtain ⟨rfl, rfl, rfl⟩ := hsplit
  rfl

theorem literal_eq_iff {v w : Value} (hv : v.WellFormed) (hw : w.WellFormed) :
    v.literal = w.literal ↔ v.equal w := by
  by_cases htype : v.typeName = w.typeName
  · cases v with
    | absent =>
      cases w with
      | absent => simp [equal]
      | _ => simp [typeName] at htype
    | bool b =>
      cases w with
      | bool b' => cases b <;> cases b' <;> decide
      | _ => simp [typeName] at htype
    | int i =>
      cases w with
      | int j => exact decimal_inj.trans beq_iff_eq.symm
      | _ => simp [typeName] at htype
    | text t =>
      cases w with
      | text u => exact Text.literal_eq_iff hv hw
      | _ => simp [typeName] at htype
    | slice s =>
      cases w with
      | slice s' => exact literal_slice_inj.trans beq_iff_eq.symm
      | _ => simp [typeName] at htype
  · -- Literals of different types differ in their first characters already.
    rw [equal_of_typeName_ne htype]
    exact iff_of_false (fun h => htype (typeName_eq_of_literal_eq h)) Bool.false_ne_true

end Value

inductive Reply.Equal : Reply → Reply → Prop
  | value {v w : Value} (h : v.equal w) : Equal (.value v) (.value w)
  | notImplemented : Equal .notImplemented .notImplemented

namespace Reply

theorem literal_eq_iff {r r' : Reply} (hr : r.WellFormed) (hr' : r'.WellFormed) :
    r.literal = r'.literal ↔ r.Equal r' := by
  constructor
  · intro h
    cases r with
    | value v =>
      cases r' with
      | value w => exact .value ((Value.literal_eq_iff hr hr').1 h)
      | notImplemented => exact absurd h v.literal_ne_notImplemented
    | notImplemented =>
      cases r' with
      | value w => exact absurd h.symm w.literal_ne_notImplemented
      | notImplemented => exact .notImplemented
  · intro h
    cases h with
    | value h => exact (Value.literal_eq_iff hr hr').2 h
    | notImplemented => rfl

end Reply

namespace Command

theorem wellFormed_of_callEnds {method self : String} {args : List String} {r : Reply}
    (h : CallEnds method self args (.ok r)) : r.WellFormed := by
  cases h with
  | @reply t vs m _ ht hvs _ hn hr =>
    have htext : t.WellFormed := Operand.wellFormed_read (Operand.readText_eq_ok.1 ht)
    have hvalues : ∀ v ∈ vs, v.WellFormed :=
      forall_mem_of_forall₂ hvs fun _ _ _ hv => Operand.wellFormed_read hv
    have hcall : (m.call t vs).result = .ok r := by rw [Method.call_of_length_eq hn, hr]
    exact Method.wellFormed_call htext hvalues hcall

theorem prints_of_callEnds {method self line : String} {args : List String} {r : Reply}
    (h : CallEnds method self args (.ok r)) :
    (call method self args).Prints line ↔ r.literal = line := by
  rw [prints_iff, output_of_callEnds h, Except.map, Except.ok.injEq]

/-- What is printed tells what was replied. Values have one literal if and only if they are equal,
and no value has the literal of a reply without an answer. So a line is only printed by a call that
ends in a reply, and of all such calls it is printed by those with an equal reply. -/
theorem printed_reply_tells {v w : Value} (hv : v.WellFormed) (hw : w.WellFormed) :
    (v.literal = w.literal ↔ v.equal w) ∧
    v.literal ≠ "NotImplemented" ∧
    ∀ {method self line : String} {args : List String}, (call method self args).Prints line →
      (∃ r, CallEnds method self args (.ok r)) ∧
      ∀ {method' self' : String} {args' : List String} {r r' : Reply},
        CallEnds method self args (.ok r) → CallEnds method' self' args' (.ok r') →
          ((call method' self' args').Prints line ↔ r.Equal r') := by
  refine ⟨Value.literal_eq_iff hv hw, v.literal_ne_notImplemented, fun hline => ⟨?_, ?_⟩⟩
  · obtain ⟨r, hr, _⟩ := output_call_eq_ok.1 (prints_iff.1 hline)
    exact ⟨r, hr⟩
  · intro _ _ _ r r' hr hr'
    have hliteral := (prints_of_callEnds hr).1 hline
    rw [prints_of_callEnds hr', ← hliteral, eq_comm]
    exact Reply.literal_eq_iff (wellFormed_of_callEnds hr) (wellFormed_of_callEnds hr')

/-- A slice is told from the text of its literal. A text is printed alike from either storage, and
if it has the words for no answer it is still told from no answer. -/
theorem printed_reply_of_lookalikes :
    (Value.slice ⟨none, none, some (-1)⟩).literal = "slice(None, None, -1)" ∧
    (Value.slice ⟨none, none, some (-1)⟩).literal ≠
      (Value.text (.ofString "slice(None, None, -1)")).literal ∧
    (call "__add__" "Not" ["Implemented"]).Prints "'NotImplemented'" ∧
    (call "__str__" "w:NotImplemented" []).Prints "'NotImplemented'" ∧
    ¬ (call "__lt__" "a" ["i:1"]).Prints "'NotImplemented'" := by
  have hslice : (Value.slice ⟨none, none, some (-1)⟩).WellFormed := trivial
  have htext : (Value.text (.ofString "slice(None, None, -1)")).WellFormed :=
    Text.wellFormed_ofString _
  obtain ⟨hliteral, _, hline⟩ := printed_reply_tells hslice htext
  have hprints : (call "__add__" "Not" ["Implemented"]).Prints "'NotImplemented'" :=
    prints_iff.2 (by decide +kernel)
  have hcompact : CallEnds "__add__" "Not" ["Implemented"]
      (.ok (.value (.text ((Text.ofString "Not").concat (.ofString "Implemented"))))) :=
    .reply (m := .concat) rfl (.cons rfl .nil) rfl rfl rfl
  have hwide : CallEnds "__str__" "w:NotImplemented" []
      (.ok (.value (.text (.wide ("NotImplemented".toList.map CodePoint.ofChar))))) :=
    .reply (m := .display) (by rfl) .nil rfl rfl rfl
  have hnone : CallEnds "__lt__" "a" ["i:1"] (.ok .notImplemented) :=
    .reply (m := .compare .lt) (by rfl) (.cons rfl .nil) rfl rfl rfl
  obtain ⟨_, hreplies⟩ := hline hprints
  refine ⟨by decide +kernel, ?_, hprints, ?_, ?_⟩
  · rw [ne_eq, hliteral]
    decide
  · rw [hreplies hcompact hwide]
    exact .value (by decide +kernel)
  · rw [hreplies hcompact hnone]
    exact nofun

end Command
end CodePointText
