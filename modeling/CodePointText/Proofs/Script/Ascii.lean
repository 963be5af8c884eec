import CodePointText.Proofs.Dispatch
import CodePointText.Proofs.Script.Build
import CodePointText.Proofs.Text.Ascii

/-!
# Runs on ASCII text

A run that is given compact ASCII texts only leaves no other texts, whatever its operations are. A
fill may be given in either storage, since no more than its code point is used.
-/

namespace CodePointText

def Value.AsciiCompact : Value → Prop
  | text t => t.AsciiCompact
  | _ => True

namespace Method

section

variable {t : Text} (ht : t.AsciiCompact) {v w : Value}
include ht

theorem asciiCompact_concatOperand (hv : v.AsciiCompact) (h : concatOperand t v = .value w) :
    w.AsciiCompact := by
  cases v with
  | text u =>
    obtain rfl := Reply.value.inj h
    exact ht.concat hv
  | _ => cases h

theorem asciiCompact_timesOperand (h : timesOperand t v = .ok (.value w)) : w.AsciiCompact := by
  unfold timesOperand at h
  split at h
  · cases h
  · split at h
    · obtain rfl := Reply.value.inj (Except.ok.inj h)
      exact Text.AsciiCompact.empty
    · obtain ⟨u, hu, h⟩ := bind_eq_ok.1 h
      obtain rfl := Reply.value.inj (Except.ok.inj h)
      exact ht.replicate hu

theorem asciiCompact_itemOperand {u : Text} (h : itemOperand t v = .ok u) : u.AsciiCompact := by
  unfold itemOperand at h
  split at h
  · exact ht.slice h
  · split at h
    · exact ht.item h
    · cases h

theorem asciiCompact_call {m : Method} {args : List Value} (ha : ∀ v ∈ args, v.AsciiCompact)
    (h : (m.call t args).result = .ok (.value w)) : w.AsciiCompact := by
  by_cases hl : args.length = m.arity
  · rw [call_of_length_eq hl] at h
    cases m with
    | length | hash =>
      obtain rfl := Reply.value.inj (Except.ok.inj h)
      trivial
    | display =>
      obtain rfl := Reply.value.inj (Except.ok.inj h)
      exact ht
    | literal =>
      obtain rfl := Reply.value.inj (Except.ok.inj h)
      exact ht.literal
    | compare c =>
      obtain ⟨v, rfl⟩ := List.length_eq_one_iff.1 hl
      cases v with
      | text u =>
        obtain rfl := Reply.value.inj (Except.ok.inj h)
        trivial
      | _ => cases h
    | concat =>
      obtain ⟨v, rfl⟩ := List.length_eq_one_iff.1 hl
      exact asciiCompact_concatOperand ht (ha v List.mem_cons_self) (Except.ok.inj h)
    | times | timesReflected =>
      obtain ⟨v, rfl⟩ := List.length_eq_one_iff.1 hl
      exact asciiCompact_timesOperand ht h
    | item =>
      obtain ⟨v, rfl⟩ := List.length_eq_one_iff.1 hl
      obtain ⟨u, hu, h⟩ := bind_eq_ok.1 h
      obtain rfl := Reply.value.inj (Except.ok.inj h)
      exact asciiCompact_itemOperand ht hu
    | contains =>
      obtain ⟨b, _, h⟩ := bind_eq_ok.1 h
      obtain rfl := Reply.value.inj (Except.ok.inj h)
      trivial
  · rw [call_of_length_ne hl] at h
    cases h

end

end Method

namespace Script

/-- The text that is made is `P`. Nothing is asked of the texts that earlier steps left. -/
def Source.Makes (P : Text → Prop) : Source → Prop
  | made r => ∀ t, r.build = .ok t → P t
  | step _ => True

def Argument.Given {σ : Type} (P : σ → Prop) : Argument σ → Prop
  | value v => v.AsciiCompact
  | text s => P s

/-- What stands for a text is `P` and what stands for a fill is `F`; text in values and words is
compact ASCII text. An operation that leaves no text may be given anything. -/
def Operation.Given {σ : Type} (P F : σ → Prop) : Operation σ → Prop
  | make t | item t _ | slice t _ | replicate t _ | zeroPad t _ => P t
  | concat t other => P t ∧ P other
  | replace t pattern substitute _ => P t ∧ P pattern ∧ P substitute
  | padRight fill t _ => (∀ f ∈ fill, F f) ∧ P t
  | call _ t args => P t ∧ ∀ a ∈ args, a.Given P
  | operand word => ∀ v, Operand.read word = .ok v → v.AsciiCompact
  | textOperand word => ∀ t, Operand.readText word = .ok t → t.AsciiCompact
  | _ => True

/-- The operation is given compact ASCII texts, and fills of ASCII in either storage. -/
def Operation.GivenAscii : Operation Source → Prop :=
  Operation.Given (Source.Makes Text.AsciiCompact) (Source.Makes (·.isAscii))

def Store.AsciiCompact (store : Store) : Prop := ∀ t, some t ∈ store → t.AsciiCompact

theorem left?_ofResult {x : Except TextError Text} {u : Text}
    (h : (Answer.ofResult x).left? = some u) : x = .ok u := by
  cases x with
  | error e => cases h
  | ok t =>
    obtain rfl := Option.some.inj h
    rfl

theorem left?_outcome {o : Outcome} {u : Text} (h : (Answer.outcome o).left? = some u) :
    o.result = .ok (.value (.text u)) := by
  obtain ⟨events, result⟩ := o
  rcases result with e | (v | _)
  · cases h
  · cases v with
    | text t =>
      obtain rfl := Option.some.inj h
      rfl
    | _ => cases h
  · cases h

/-! ## What is built -/

section

variable {σ τ ε : Type} {f : σ → Except ε τ} {P : σ → Prop} {P' : τ → Prop}
  (hP : ∀ s t, P s → f s = .ok t → P' t)
include hP

theorem Argument.given_build {a : Argument σ} (h : a.Given P) {b : Argument τ}
    (hb : a.build f = .ok b) : b.Given P' := by
  cases a with
  | value v =>
    obtain rfl := Except.ok.inj hb
    exact h
  | text s =>
    obtain ⟨t, ht, hb⟩ := bind_eq_ok.1 hb
    obtain rfl := Except.ok.inj hb
    exact hP s t h ht

theorem forall_mem_buildOption {o : Option σ} (h : ∀ s ∈ o, P s) {built : Option τ}
    (hb : buildOption f o = .ok built) : ∀ t ∈ built, P' t := by
  cases o with
  | none =>
    obtain rfl := Except.ok.inj hb
    exact nofun
  | some s =>
    obtain ⟨t, ht, hb⟩ := bind_eq_ok.1 hb
    obtain rfl := Except.ok.inj hb
    rintro _ ⟨rfl⟩
    exact hP s t (h s rfl) ht

/-- What is known of the sources is known, when they are built, of the texts. -/
theorem Operation.given_build {F : σ → Prop} {F' : τ → Prop}
    (hF : ∀ s t, F s → f s = .ok t → F' t) {op : Operation σ} (h : op.Given P F)
    {built : Operation τ} (hb : op.build f = .ok built) : built.Given P' F' := by
  cases op with
  | make | item | slice | replicate | zeroPad =>
    obtain ⟨t, ht, hb⟩ := bind_eq_ok.1 hb
    obtain rfl := Except.ok.inj hb
    exact hP _ t h ht
  | concat t other =>
    obtain ⟨_, ht, hb⟩ := bind_eq_ok.1 hb
    obtain ⟨_, hother, hb⟩ := bind_eq_ok.1 hb
    obtain rfl := Except.ok.inj hb
    exact ⟨hP t _ h.1 ht, hP other _ h.2 hother⟩
  | replace t pattern substitute limit =>
    obtain ⟨_, ht, hb⟩ := bind_eq_ok.1 hb
    obtain ⟨_, hpattern, hb⟩ := bind_eq_ok.1 hb
    obtain ⟨_, hsubstitute, hb⟩ := bind_eq_ok.1 hb
    obtain rfl := Except.ok.inj hb
    exact ⟨hP t _ h.1 ht, hP pattern _ h.2.1 hpattern, hP substitute _ h.2.2 hsubstitute⟩
  | padRight fill t width =>
    obtain ⟨_, hfill, hb⟩ := bind_eq_ok.1 hb
    obtain ⟨_, ht, hb⟩ := bind_eq_ok.1 hb
    obtain rfl := Except.ok.inj hb
    exact ⟨forall_mem_buildOption hF h.1 hfill, hP t _ h.2 ht⟩
  | call method t args =>
    obtain ⟨_, ht, hb⟩ := bind_eq_ok.1 hb
    obtain ⟨_, hargs, hb⟩ := bind_eq_ok.1 hb
    obtain rfl := Except.ok.inj hb
    refine ⟨hP t _ h.1 ht, forall_mem_of_forall₂ (mapM_eq_ok.1 hargs) fun a ha _ hb => ?_⟩
    exact Argument.given_build hP (h.2 a ha) hb
  | operand | textOperand =>
    obtain rfl := Except.ok.inj hb
    exact h
  -- The others leave no text, and nothing is known of them before or after.
  | sequenceEqual | sequenceOrder | relate | contains | find | count | valueEqual =>
    obtain ⟨_, _, hb⟩ := bind_eq_ok.1 hb
    obtain ⟨_, _, hb⟩ := bind_eq_ok.1 hb
    obtain rfl := Except.ok.inj hb
    trivial
  | sequenceView | observe | literal | display | hash | isAscii | iterate | get | equalString
    | group | sort | view =>
    obtain ⟨_, _, hb⟩ := bind_eq_ok.1 hb
    obtain rfl := Except.ok.inj hb
    trivial

end

section

variable {store : Store} (hs : store.AsciiCompact)
include hs

theorem Source.makes_build {P : Text → Prop} (hP : ∀ t, t.AsciiCompact → P t) {s : Source}
    (h : s.Makes P) {t : Text} (ht : s.build store = .ok t) : P t := by
  cases s with
  | made r =>
    rw [build] at ht
    cases hr : r.build with
    | error e =>
      rw [hr] at ht
      cases ht
    | ok u =>
      rw [hr] at ht
      obtain rfl := Except.ok.inj ht
      exact h u hr
  | step i =>
    rw [build] at ht
    split at ht
    · next u hu =>
      obtain rfl := Except.ok.inj ht
      exact hP u (hs u (List.mem_of_getElem? hu))
    · cases ht

theorem Source.wellFormed_build {s : Source} {t : Text} (ht : s.build store = .ok t) :
    t.WellFormed := by
  refine s.makes_build hs (fun t h => h.wellFormed) ?_ ht
  cases s with
  | made r => exact fun t => Recipe.wellFormed_build
  | step i => trivial

theorem Operation.givenAscii_build {op : Operation Source} (h : op.GivenAscii)
    {built : Operation Text} (hb : op.build (Source.build store) = .ok built) :
    built.Given Text.AsciiCompact fun f => f.WellFormed ∧ f.isAscii := by
  have htext (s : Source) (t : Text) (hm : s.Makes Text.AsciiCompact)
      (ht : s.build store = .ok t) : t.AsciiCompact := s.makes_build hs (fun _ => id) hm ht
  have hfill (s : Source) (f : Text) (hm : s.Makes (·.isAscii)) (hf : s.build store = .ok f) :
      f.WellFormed ∧ f.isAscii :=
    ⟨s.wellFormed_build hs hf, s.makes_build hs (fun _ ht => ht.isAscii) hm hf⟩
  exact Operation.given_build htext hfill h hb

end

/-! ## What is left -/

/-- A text that is left by an operation on compact ASCII texts is compact ASCII text. -/
theorem Operation.asciiCompact_left? {op : Operation Text}
    (hop : op.Given Text.AsciiCompact fun f => f.WellFormed ∧ f.isAscii) {memory : Allocator}
    {u : Text} (h : (op.answer memory).left? = some u) : u.AsciiCompact := by
  cases op with
  | make t =>
    obtain rfl := Option.some.inj h
    exact hop
  | item t index => exact Text.AsciiCompact.item hop (left?_ofResult h)
  | slice t range => exact Text.AsciiCompact.slice hop (left?_ofResult h)
  | replicate t n => exact Text.AsciiCompact.replicate hop (left?_ofResult h)
  | zeroPad t width => exact Text.AsciiCompact.zeroPad hop (left?_ofResult h)
  | concat t other =>
    obtain rfl := Option.some.inj h
    exact hop.1.concat hop.2
  | replace t pattern substitute limit =>
    obtain rfl := Option.some.inj h
    exact hop.1.replace hop.2.1.isCompact hop.2.2 limit
  | padRight fill t width => exact hop.2.padRight hop.1 (left?_ofResult h)
  | call method t args =>
    have hargs : ∀ v ∈ args.map (·.toValue), v.AsciiCompact := by
      rw [List.forall_mem_map]
      intro a ha
      have hgiven := hop.2 a ha
      cases a with
      | value v => exact hgiven
      | text u => exact hgiven
    rw [answer] at h
    split at h
    · exact Method.asciiCompact_call hop.1 hargs (left?_outcome h)
    · cases h
  | operand word =>
    rw [answer] at h
    split at h
    · next v hv =>
      cases v with
      | text t =>
        obtain rfl := Option.some.inj h
        exact hop _ hv
      | _ => cases h
    · cases h
  | textOperand word =>
    rw [answer] at h
    split at h
    · next t ht =>
      obtain rfl := Option.some.inj h
      exact hop t ht
    · cases h
  | _ => cases h

section

variable {store : Store} (hs : store.AsciiCompact)
include hs

theorem asciiCompact_answerIn {op : Operation Source} (hop : op.GivenAscii) {memory : Allocator}
    {u : Text} (h : (answerIn memory store op).left? = some u) : u.AsciiCompact := by
  rw [answerIn] at h
  split at h
  · next built hb => exact Operation.asciiCompact_left? (Operation.givenAscii_build hs hop hb) h
  · cases h

theorem asciiCompact_perform {op : Operation Source} (hop : op.GivenAscii) (memory : Allocator) :
    Store.AsciiCompact (perform store op memory).2 := by
  intro t ht
  rcases List.mem_append.1 ht with ht | ht
  · exact hs t ht
  · exact asciiCompact_answerIn hs hop (List.mem_singleton.1 ht).symm

end

/-- A run keeps what each of its steps keeps. -/
theorem asciiCompact_performAll (memory : Nat → Allocator) {store : Store}
    (hs : store.AsciiCompact) {script : Script} (hscript : ∀ op ∈ script, op.GivenAscii) :
    Store.AsciiCompact (performAll memory store script).2 ∧
      ∀ a ∈ (performAll memory store script).1, ∀ u, a.left? = some u → u.AsciiCompact := by
  induction script generalizing store with
  | nil => exact ⟨hs, nofun⟩
  | cons op ops ih =>
    rw [List.forall_mem_cons] at hscript
    obtain ⟨hstore, has⟩ := ih (asciiCompact_perform hs hscript.1 _) hscript.2
    exact ⟨hstore, List.forall_mem_cons.2 ⟨fun u => asciiCompact_answerIn hs hscript.1, has⟩⟩

/-- Compact ASCII text is closed under all operations. In a run that starts from such texts and is
given no others, but for ASCII fills in either storage, every text that a step leaves is an ASCII
string in compact storage, counted by its bytes and marked as ASCII, and is indexed by its bytes. -/
theorem texts_stay_ascii (memory : Nat → Allocator) {store : Store} (hs : store.AsciiCompact)
    {script : Script} (hscript : ∀ op ∈ script, op.GivenAscii) :
    ∀ a ∈ (performAll memory store script).1, ∀ u, a.left? = some u →
      u.isCompact ∧ u.isAscii ∧
      ∃ s, Utf8.isAscii s ∧ u = .compact s s.utf8ByteSize true ∧
        ∀ i, u.get? i = (Utf8.bytes s)[i]?.map UInt8.toUInt32 := by
  intro a ha u hu
  have h := (asciiCompact_performAll memory hs hscript).2 a ha u hu
  obtain ⟨s, hascii, heq⟩ := h.eq_compact
  refine ⟨h.isCompact, h.isAscii, s, hascii, heq, fun i => ?_⟩
  rw [heq, Text.get?]

/-- A text is padded with a fill in wide storage, written as a literal, taken in part backwards and
padded with zeros. -/
theorem texts_of_quoted_run :
    let store : Store := [some (.ofString "it's")]
    let script : Script :=
      [.padRight (some (.made (.codePoints [0x2A]))) (.step 0) 6, .call "__repr__" (.step 1) [],
        .slice (.step 2) ⟨none, some 0, some (-2)⟩, .zeroPad (.step 3) 6]
    store.AsciiCompact ∧ (∀ op ∈ script, op.GivenAscii) ∧
    (performAll (fun _ => .process) store script).1.map Answer.left? =
      [some (.ofString "it's**"), some (.ofString "\"it's**\""), some (.ofString "\"*'i"),
        some (.ofString "00\"*'i")] ∧
    ∀ a ∈ (performAll (fun _ => .process) store script).1, ∀ u, a.left? = some u →
      u.isCompact ∧ u.isAscii := by
  intro store script
  have hs : store.AsciiCompact := by
    intro t ht
    obtain rfl := Option.some.inj (List.mem_singleton.1 ht)
    exact .mk_ofString (by decide)
  have hfill : Source.Makes (·.isAscii) (.made (.codePoints [0x2A])) := by
    rintro _ ⟨rfl⟩
    decide
  have hscript : ∀ op ∈ script, op.GivenAscii := by
    simpa [script, Operation.GivenAscii, Operation.Given, Source.Makes] using hfill
  refine ⟨hs, hscript, by decide +kernel, fun a ha u hu => ?_⟩
  obtain ⟨hcompact, hascii, _⟩ := texts_stay_ascii (fun _ => .process) hs hscript a ha u hu
  exact ⟨hcompact, hascii⟩

end Script
end CodePointText
