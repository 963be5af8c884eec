import CodePointText.Error
import Mathlib.Data.List.Forall2

/-!
# Results that may fail

How a result that is bound to further steps succeeds, and two ways in which a pair of results may
correspond. `Related` results fail alike or succeed with related values; `Comparable` ones may also
differ in that one of them does not fit in memory.
-/

namespace CodePointText

variable {ε α β γ δ : Type}

theorem bind_eq_ok {x : Except ε α} {f : α → Except ε β} {b : β} :
    x >>= f = .ok b ↔ ∃ a, x = .ok a ∧ f a = .ok b := by
  cases x with
  | error e => exact ⟨fun h => (nomatch h), fun ⟨_, h, _⟩ => (nomatch h)⟩
  | ok a => exact ⟨fun h => ⟨a, rfl, h⟩, fun ⟨_, h, hf⟩ => Except.ok.inj h ▸ hf⟩

theorem bind_eq_error {x : Except ε α} {f : α → Except ε β} {e : ε} :
    x >>= f = .error e ↔ x = .error e ∨ ∃ a, x = .ok a ∧ f a = .error e := by
  cases x with
  | error e' =>
    refine ⟨fun h => .inl (congrArg Except.error (Except.error.inj h)), ?_⟩
    rintro (h | ⟨_, h, _⟩)
    · exact congrArg Except.error (Except.error.inj h)
    · cases h
  | ok a =>
    refine ⟨fun h => .inr ⟨a, rfl, h⟩, ?_⟩
    rintro (h | ⟨_, h, hf⟩)
    · cases h
    · exact Except.ok.inj h ▸ hf

theorem mapM_eq_ok {f : α → Except ε β} {items : List α} {values : List β} :
    items.mapM f = .ok values ↔ List.Forall₂ (fun a b => f a = .ok b) items values := by
  induction items generalizing values with
  | nil => cases values <;> simp [pure, Except.pure]
  | cons a items ih =>
    rw [List.mapM_cons, bind_eq_ok]
    constructor
    · rintro ⟨b, hb, h⟩
      obtain ⟨bs, hbs, h⟩ := bind_eq_ok.1 h
      obtain rfl := Except.ok.inj h
      exact .cons hb (ih.1 hbs)
    · intro h
      cases h with
      | cons hb hbs => exact ⟨_, hb, bind_eq_ok.2 ⟨_, ih.2 hbs, rfl⟩⟩

theorem forall_mem_of_forall₂ {r : α → β → Prop} {P : β → Prop} {items : List α} {values : List β}
    (h : List.Forall₂ r items values) (hP : ∀ a ∈ items, ∀ b, r a b → P b) :
    ∀ b ∈ values, P b := by
  induction h with
  | nil => exact nofun
  | cons hab _ ih =>
    rw [List.forall_mem_cons] at hP ⊢
    exact ⟨hP.1 _ hab, ih hP.2⟩

/-- A traversal fails with the error of the first item that fails. -/
theorem mapM_eq_error {f : α → Except ε β} {items : List α} {e : ε} :
    items.mapM f = .error e ↔ ∃ before a after, items = before ++ a :: after ∧
      (∀ x ∈ before, ∃ b, f x = .ok b) ∧ f a = .error e := by
  induction items with
  | nil => simp [pure, Except.pure]
  | cons a items ih =>
    rw [List.mapM_cons, bind_eq_error]
    constructor
    · rintro (ha | ⟨b, hb, h⟩)
      · exact ⟨[], a, items, rfl, by simp, ha⟩
      · rcases bind_eq_error.1 h with h | ⟨_, _, h⟩
        · obtain ⟨before, x, after, rfl, hbefore, hx⟩ := ih.1 h
          exact ⟨a :: before, x, after, rfl, List.forall_mem_cons.2 ⟨⟨b, hb⟩, hbefore⟩, hx⟩
        · cases h
    · rintro ⟨before, x, after, hitems, hbefore, hx⟩
      cases before with
      | nil =>
        obtain ⟨rfl, rfl⟩ := List.cons_eq_cons.1 hitems
        exact .inl hx
      | cons y before =>
        obtain ⟨rfl, rfl⟩ := List.cons_eq_cons.1 hitems
        rw [List.forall_mem_cons] at hbefore
        obtain ⟨b, hb⟩ := hbefore.1
        exact .inr ⟨b, hb, bind_eq_error.2 (.inl (ih.2 ⟨before, x, after, rfl, hbefore.2, hx⟩))⟩

theorem mapM_eq_some {f : α → Option β} {items : List α} {values : List β} :
    items.mapM f = some values ↔ List.Forall₂ (fun a b => f a = some b) items values := by
  induction items generalizing values with
  | nil => cases values <;> simp
  | cons a items ih =>
    simp only [List.mapM_cons, Option.bind_eq_bind, Option.bind_eq_some_iff]
    constructor
    · rintro ⟨b, hb, bs, hbs, h⟩
      obtain rfl := Option.some.inj h
      exact .cons hb (ih.1 hbs)
    · intro h
      cases h with
      | cons hb hbs => exact ⟨_, hb, _, ih.2 hbs, rfl⟩

/-- What does not fit in memory: a repetition or a padding. -/
def TextError.Overflow (e : TextError) : Prop := e = .repetitionTooLong ∨ e = .paddingTooLong

instance : DecidablePred TextError.Overflow := fun _ => inferInstanceAs (Decidable (_ ∨ _))

/-- Both succeed with related values, or both fail with the same error. -/
def Related (r : α → β → Prop) : Except ε α → Except ε β → Prop
  | .ok a, .ok b => r a b
  | .error e, .error f => e = f
  | _, _ => False

/-- One of the results does not fit in memory, or they are related. -/
inductive Comparable (r : α → β → Prop) (x : Except TextError α) (y : Except TextError β) : Prop
  | left {e : TextError} (h : x = .error e) (he : e.Overflow)
  | right {e : TextError} (h : y = .error e) (he : e.Overflow)
  | related (h : Related r x y)

theorem Related.bind {r : α → β → Prop} {s : γ → δ → Prop} {x : Except ε α} {y : Except ε β}
    {f : α → Except ε γ} {g : β → Except ε δ} (h : Related r x y)
    (hfg : ∀ a b, r a b → Related s (f a) (g b)) : Related s (x >>= f) (y >>= g) := by
  cases x with
  | error e =>
    cases y with
    | error e' => exact h
    | ok b => cases h
  | ok a =>
    cases y with
    | error e => cases h
    | ok b => exact hfg a b h

theorem Related.mapM {r : β → γ → Prop} {f : α → Except ε β} {g : α → Except ε γ} {items : List α}
    (h : ∀ a ∈ items, Related r (f a) (g a)) :
    Related (List.Forall₂ r) (items.mapM f) (items.mapM g) := by
  induction items with
  | nil => exact List.Forall₂.nil
  | cons a items ih =>
    rw [List.forall_mem_cons] at h
    rw [List.mapM_cons, List.mapM_cons]
    exact h.1.bind fun b c hbc => (ih h.2).bind fun bs cs hs => List.Forall₂.cons hbc hs

theorem Related.of_map_eq {r : α → β → Prop} {p : α → γ} {q : β → γ} {x : Except ε α}
    {y : Except ε β} (h : x.map p = y.map q)
    (hr : ∀ a b, x = .ok a → y = .ok b → p a = q b → r a b) : Related r x y := by
  cases x with
  | error e =>
    cases y with
    | error e' => exact Except.error.inj h
    | ok b => cases h
  | ok a =>
    cases y with
    | error e => cases h
    | ok b => exact hr a b rfl rfl (Except.ok.inj h)

theorem Comparable.map {r : α → β → Prop} {s : γ → δ → Prop} {x : Except TextError α}
    {y : Except TextError β} {f : α → γ} {g : β → δ} (h : Comparable r x y)
    (hfg : ∀ a b, r a b → s (f a) (g b)) :
    Comparable s (x >>= fun a => .ok (f a)) (y >>= fun b => .ok (g b)) := by
  cases h with
  | left h he =>
    subst h
    exact .left rfl he
  | right h he =>
    subst h
    exact .right rfl he
  | related h => exact .related (h.bind hfg)

end CodePointText
