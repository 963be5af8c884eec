import CodePointText.Proofs.Method
import CodePointText.Script

/-!
# Operations built from stores that agree

Stores agree when they hold the same texts, whatever the storages. Built from stores that agree, an
operation fails alike, or it becomes one operation on texts that differ in storage at most.
-/

namespace CodePointText
namespace Script

/-- Position by position, the stores have the same texts, or none. -/
def Store.Agree (store store' : Store) : Prop := List.Forall₂ (Option.Rel Text.Same) store store'

namespace Argument

def WellFormed {σ : Type} : Argument σ → Prop
  | value v => v.WellFormed
  | text _ => True

def Agree (a b : Argument Text) : Prop := a.toValue.Same b.toValue

end Argument

namespace SequenceArgument

def Agree (a b : SequenceArgument Text) : Prop :=
  a.toSequence = b.toSequence ∧ ∀ reads, a.shown reads = b.shown reads

end SequenceArgument

namespace Operation

/-- The operation asks no cursor for its bounds, and its values are well-formed. -/
def Admissible : Operation Source → Prop
  | iterate _ steps => .size ∉ steps
  | view v => v.WellFormed
  | valueEqual a b => a.WellFormed ∧ b.WellFormed
  | call _ _ args => ∀ a ∈ args, a.WellFormed
  | _ => True

inductive Agree : Operation Text → Operation Text → Prop
  | sequenceEqual {a a' : SequenceArgument Text} {b b' : Option (SequenceArgument Text)}
      (ha : a.Agree a') (hb : Option.Rel SequenceArgument.Agree b b') :
      Agree (.sequenceEqual a b) (.sequenceEqual a' b')
  | sequenceOrder {a a' : SequenceArgument Text} {b b' : Option (SequenceArgument Text)}
      (ha : a.Agree a') (hb : Option.Rel SequenceArgument.Agree b b') :
      Agree (.sequenceOrder a b) (.sequenceOrder a' b')
  | sequenceView {a a' : SequenceArgument Text} (ha : a.Agree a') :
      Agree (.sequenceView a) (.sequenceView a')
  | make {t u : Text} (h : t.Same u) : Agree (.make t) (.make u)
  | observe {t u : Text} (h : t.Same u) : Agree (.observe t) (.observe u)
  | literal {t u : Text} (h : t.Same u) : Agree (.literal t) (.literal u)
  | display {t u : Text} (h : t.Same u) : Agree (.display t) (.display u)
  | hash {t u : Text} (h : t.Same u) : Agree (.hash t) (.hash u)
  | isAscii {t u : Text} (h : t.Same u) : Agree (.isAscii t) (.isAscii u)
  | iterate {t u : Text} (h : t.Same u) {steps : List Cursor.Step} (hs : .size ∉ steps) :
      Agree (.iterate t steps) (.iterate u steps)
  | get {t u : Text} (h : t.Same u) (i : Nat) : Agree (.get t i) (.get u i)
  | item {t u : Text} (h : t.Same u) (index : Int64) : Agree (.item t index) (.item u index)
  | slice {t u : Text} (h : t.Same u) (range : Slice) : Agree (.slice t range) (.slice u range)
  | concat {t u t' u' : Text} (h : t.Same u) (h' : t'.Same u') :
      Agree (.concat t t') (.concat u u')
  | replicate {t u : Text} (h : t.Same u) (n : Nat) : Agree (.replicate t n) (.replicate u n)
  | relate {t u t' u' : Text} (h : t.Same u) (h' : t'.Same u') :
      Agree (.relate t t') (.relate u u')
  | equalString {t u : Text} (h : t.Same u) (s : String) :
      Agree (.equalString t s) (.equalString u s)
  | group {ts us : List Text} (h : List.Forall₂ Text.Same ts us) : Agree (.group ts) (.group us)
  | sort {ts us : List Text} (h : List.Forall₂ Text.Same ts us) : Agree (.sort ts) (.sort us)
  | contains {t u p q : Text} (h : t.Same u) (hp : p.Same q) : Agree (.contains t p) (.contains u q)
  | find {t u p q : Text} (h : t.Same u) (hp : p.Same q) (start stop : Option Int64) :
      Agree (.find t p start stop) (.find u q start stop)
  | count {t u p q : Text} (h : t.Same u) (hp : p.Same q) (start stop : Option Int64) :
      Agree (.count t p start stop) (.count u q start stop)
  | replace {t u p q r s : Text} (h : t.Same u) (hp : p.Same q) (hr : r.Same s)
      (limit : Option Nat) : Agree (.replace t p r limit) (.replace u q s limit)
  | padRight {t u : Text} {fill fill' : Option Text} (hf : Option.Rel Text.Same fill fill')
      (h : t.Same u) (width : Int64) : Agree (.padRight fill t width) (.padRight fill' u width)
  | zeroPad {t u : Text} (h : t.Same u) (width : Int64) :
      Agree (.zeroPad t width) (.zeroPad u width)
  | view {v w : Argument Text} (h : v.Agree w) : Agree (.view v) (.view w)
  | valueEqual {a a' b b' : Argument Text} (ha : a.Agree a') (hb : b.Agree b') :
      Agree (.valueEqual a b) (.valueEqual a' b')
  | call {t u : Text} (h : t.Same u) {args args' : List (Argument Text)}
      (ha : List.Forall₂ Argument.Agree args args') (method : String) :
      Agree (.call method t args) (.call method u args')
  | operand (word : String) : Agree (.operand word) (.operand word)
  | textOperand (word : String) : Agree (.textOperand word) (.textOperand word)

end Operation

theorem related_buildOption {α β γ ε : Type} {r : β → γ → Prop} {f : α → Except ε β}
    {g : α → Except ε γ} (h : ∀ a, Related r (f a) (g a)) (o : Option α) :
    Related (Option.Rel r) (buildOption f o) (buildOption g o) := by
  cases o with
  | none => exact Option.Rel.none
  | some a => exact (h a).bind fun b c hbc => Option.Rel.some hbc

theorem Recipe.wellFormed_build {r : Recipe} {t : Text} (h : r.build = .ok t) : t.WellFormed := by
  cases r with
  | string s =>
    obtain rfl := Except.ok.inj h
    exact Text.wellFormed_ofString s
  | indexed s =>
    obtain rfl := Except.ok.inj h
    exact Text.wellFormed_ofStringIndexed s
  | codePoints cs => exact Text.wellFormed_ofCodePoints h
  | codePoint c => exact Text.wellFormed_ofCodePoint h

theorem Store.Agree.getElem? {store store' : Store} (hs : Store.Agree store store') (i : Nat) :
    Option.Rel (Option.Rel Text.Same) store[i]? store'[i]? := by
  induction hs generalizing i with
  | nil => exact .none
  | cons h _ ih =>
    cases i with
    | zero => exact .some h
    | succ i => exact ih i

theorem Source.related_build {store store' : Store} (hs : Store.Agree store store') (s : Source) :
    Related Text.Same (s.build store) (s.build store') := by
  cases s with
  | made r =>
    cases hr : r.build with
    | error e => simp only [build, hr]; exact rfl
    | ok t => simp only [build, hr]; exact Text.Same.refl (Recipe.wellFormed_build hr)
  | step i =>
    have hi := hs.getElem? i
    rw [build, build]
    generalize store[i]? = x at hi ⊢
    generalize store'[i]? = y at hi ⊢
    cases hi with
    | none => exact rfl
    | some h =>
      cases h with
      | none => exact rfl
      | some h => exact h

section

variable {f g : Source → Except Failure Text} (h : ∀ s, Related Text.Same (f s) (g s))
include h

theorem Argument.related_build {a : Argument Source} (ha : a.WellFormed) :
    Related Argument.Agree (a.build f) (a.build g) := by
  cases a with
  | value v => exact Value.Same.refl ha
  | text s => exact (h s).bind fun t u htu => Value.Same.text htu

theorem SequenceArgument.related_build (a : SequenceArgument Source) :
    Related SequenceArgument.Agree (a.build f) (a.build g) := by
  cases a with
  | items s counted => exact ⟨rfl, fun reads => by cases counted <;> rfl⟩
  | text s => exact (h s).bind fun t u htu => ⟨htu.toSequence_eq, fun reads => rfl⟩

theorem Operation.related_build {op : Operation Source} (hop : op.Admissible) :
    Related Operation.Agree (op.build f) (op.build g) := by
  have hsequence := SequenceArgument.related_build h
  cases op with
  | sequenceEqual a b =>
    exact (hsequence a).bind fun _ _ ha => (related_buildOption hsequence b).bind fun _ _ hb =>
      Agree.sequenceEqual ha hb
  | sequenceOrder a b =>
    exact (hsequence a).bind fun _ _ ha => (related_buildOption hsequence b).bind fun _ _ hb =>
      Agree.sequenceOrder ha hb
  | sequenceView a => exact (hsequence a).bind fun _ _ ha => Agree.sequenceView ha
  | make t => exact (h t).bind fun _ _ ht => Agree.make ht
  | observe t => exact (h t).bind fun _ _ ht => Agree.observe ht
  | literal t => exact (h t).bind fun _ _ ht => Agree.literal ht
  | display t => exact (h t).bind fun _ _ ht => Agree.display ht
  | hash t => exact (h t).bind fun _ _ ht => Agree.hash ht
  | isAscii t => exact (h t).bind fun _ _ ht => Agree.isAscii ht
  | iterate t steps => exact (h t).bind fun _ _ ht => Agree.iterate ht hop
  | get t i => exact (h t).bind fun _ _ ht => Agree.get ht i
  | item t index => exact (h t).bind fun _ _ ht => Agree.item ht index
  | slice t range => exact (h t).bind fun _ _ ht => Agree.slice ht range
  | concat t other =>
    exact (h t).bind fun _ _ ht => (h other).bind fun _ _ ho => Agree.concat ht ho
  | replicate t n => exact (h t).bind fun _ _ ht => Agree.replicate ht n
  | relate t other =>
    exact (h t).bind fun _ _ ht => (h other).bind fun _ _ ho => Agree.relate ht ho
  | equalString t s => exact (h t).bind fun _ _ ht => Agree.equalString ht s
  | group items => exact (Related.mapM fun s _ => h s).bind fun _ _ hs => Agree.group hs
  | sort items => exact (Related.mapM fun s _ => h s).bind fun _ _ hs => Agree.sort hs
  | contains t pattern =>
    exact (h t).bind fun _ _ ht => (h pattern).bind fun _ _ hp => Agree.contains ht hp
  | find t pattern start stop =>
    exact (h t).bind fun _ _ ht => (h pattern).bind fun _ _ hp => Agree.find ht hp start stop
  | count t pattern start stop =>
    exact (h t).bind fun _ _ ht => (h pattern).bind fun _ _ hp => Agree.count ht hp start stop
  | replace t pattern substitute limit =>
    exact (h t).bind fun _ _ ht => (h pattern).bind fun _ _ hp => (h substitute).bind fun _ _ hs =>
      Agree.replace ht hp hs limit
  | padRight fill t width =>
    exact (related_buildOption h fill).bind fun _ _ hf => (h t).bind fun _ _ ht =>
      Agree.padRight hf ht width
  | zeroPad t width => exact (h t).bind fun _ _ ht => Agree.zeroPad ht width
  | view v => exact (Argument.related_build h hop).bind fun _ _ hv => Agree.view hv
  | valueEqual a b =>
    exact (Argument.related_build h hop.1).bind fun _ _ ha =>
      (Argument.related_build h hop.2).bind fun _ _ hb => Agree.valueEqual ha hb
  | call method t args =>
    exact (h t).bind fun _ _ ht =>
      (Related.mapM fun a ha => Argument.related_build h (hop a ha)).bind fun _ _ hs =>
        Agree.call ht hs method
  | operand word => exact Agree.operand word
  | textOperand word => exact Agree.textOperand word

end

end Script
end CodePointText
