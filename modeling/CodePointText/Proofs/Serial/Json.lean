import CodePointText.Proofs.Numeral
import CodePointText.Serial

/-!
# JSON text says one thing

The JSON text of a serialised form ends by itself: whatever is written behind it, if only that does
not go on with a numeral, is told from it. The first character says which sort of form it is, an
escape which character it stands for, and what separates or closes items where they end.
-/

namespace CodePointText
namespace Serial

def unescape? : List Char → Option (Char × List Char)
  | '\\' :: 'u' :: a :: b :: c :: d :: rest =>
    (Numeral.readNat? 16 [a, b, c, d]).map fun n => (Char.ofNat n, rest)
  | '\\' :: 'b' :: rest => some ('\x08', rest)
  | '\\' :: 'f' :: rest => some ('\x0c', rest)
  | '\\' :: 'n' :: rest => some ('\n', rest)
  | '\\' :: 'r' :: rest => some ('\r', rest)
  | '\\' :: 't' :: rest => some ('\t', rest)
  | '\\' :: c :: rest => some (c, rest)
  | c :: rest => some (c, rest)
  | [] => none

theorem unescape?_hexDigits {n : Nat} (h : n < 0x20) (rest : List Char) :
    unescape? ('\\' :: 'u' :: Numeral.hexDigits 4 n ++ rest) = some (Char.ofNat n, rest) := by
  have hread : ∀ n < 0x20, Numeral.readNat? 16 (Numeral.hexDigits 4 n) = some n := by decide +kernel
  have hlength : (Numeral.hexDigits 4 n).length = 4 :=
    Numeral.length_hexDigits (by decide) (Nat.lt_trans h (by decide))
  have hn := hread n h
  match hdigits : Numeral.hexDigits 4 n, hlength with
  | [a, b, c, d], _ =>
    rw [hdigits] at hn
    simp [unescape?, hn]

theorem unescape?_of_ne {c : Char} (h : c ≠ '\\') (rest : List Char) :
    unescape? (c :: rest) = some (c, rest) := by
  unfold unescape?
  split <;> simp_all

theorem unescape?_escape (c : Char) (rest : List Char) :
    unescape? (escape c ++ rest) = some (c, rest) := by
  unfold escape
  split_ifs with hquote hbackslash hb hf hn hr ht hcontrol
  · subst hquote
    rfl
  · subst hbackslash
    rfl
  · subst hb
    rfl
  · subst hf
    rfl
  · subst hn
    rfl
  · subst hr
    rfl
  · subst ht
    rfl
  · rw [List.cons_append, List.cons_append]
    have hhex := unescape?_hexDigits hcontrol rest
    rwa [Char.ofNat_toNat] at hhex
  · exact unescape?_of_ne hbackslash rest

theorem escape_append_inj {c d : Char} {r r' : List Char}
    (h : escape c ++ r = escape d ++ r') : c = d ∧ r = r' := by
  have hc := unescape?_escape c r
  rw [h, unescape?_escape d r'] at hc
  obtain ⟨hdc, hr⟩ := Prod.mk.inj (Option.some.inj hc)
  exact ⟨hdc.symm, hr.symm⟩

theorem quote_ne_escape (c : Char) (r r' : List Char) : '\x22' :: r ≠ escape c ++ r' := by
  intro h
  have hread := unescape?_escape c r'
  rw [← h, unescape?_of_ne (by decide)] at hread
  obtain ⟨rfl, rfl⟩ := Prod.mk.inj (Option.some.inj hread)
  exact absurd (congrArg List.length h) (by simp [escape])

theorem flatMap_escape_append_inj {cs ds r r' : List Char}
    (h : cs.flatMap escape ++ '\x22' :: r = ds.flatMap escape ++ '\x22' :: r') :
    cs = ds ∧ r = r' := by
  induction cs generalizing ds with
  | nil =>
    cases ds with
    | nil => exact ⟨rfl, (List.cons.inj h).2⟩
    | cons d ds =>
      rw [List.flatMap_cons, List.append_assoc] at h
      exact absurd h (quote_ne_escape d r _)
  | cons c cs ih =>
    cases ds with
    | nil =>
      rw [List.flatMap_cons, List.append_assoc] at h
      exact absurd h.symm (quote_ne_escape c r' _)
    | cons d ds =>
      rw [List.flatMap_cons, List.flatMap_cons, List.append_assoc, List.append_assoc] at h
      obtain ⟨rfl, hrest⟩ := escape_append_inj h
      obtain ⟨rfl, hr⟩ := ih hrest
      exact ⟨rfl, hr⟩

theorem toList_quoted_append (s : String) (r : List Char) :
    (quoted s).toList ++ r = '\x22' :: (s.toList.flatMap escape ++ '\x22' :: r) := by
  simp [quoted]

theorem quoted_append_inj {s t : String} {r r' : List Char}
    (h : (quoted s).toList ++ r = (quoted t).toList ++ r') : s = t ∧ r = r' := by
  rw [toList_quoted_append, toList_quoted_append] at h
  obtain ⟨hst, hr⟩ := flatMap_escape_append_inj (List.cons.inj h).2
  exact ⟨String.toList_inj.1 hst, hr⟩

def isNumeric (c : Char) : Bool := c == '-' || c.isDigit

/-- No numeral goes on here. -/
def Ends (r : List Char) : Prop := r.head?.all (! isNumeric ·)

theorem ends_cons {c : Char} (h : isNumeric c = false) (r : List Char) : Ends (c :: r) := by
  simp [Ends, h]

theorem isNumeric_of_mem_digitsOfInt {i : Int} {c : Char} (h : c ∈ Numeral.digitsOfInt i) :
    isNumeric c := by
  have hdigit : ∀ v < 10, isNumeric v.digitChar := by decide
  have hdigits : c ∈ Nat.toDigits 10 i.natAbs → isNumeric c := by
    intro hc
    obtain ⟨v, hv, rfl⟩ := Numeral.mem_toDigits (by decide) _ c hc
    exact hdigit v hv
  unfold Numeral.digitsOfInt at h
  split at h
  · rcases List.mem_cons.1 h with rfl | h
    · decide
    · exact hdigits h
  · exact hdigits h

theorem digitsOfInt_ne_nil (i : Int) : Numeral.digitsOfInt i ≠ [] := by
  unfold Numeral.digitsOfInt
  split
  · exact List.cons_ne_nil _ _
  · exact Nat.toDigits_ne_nil

theorem exists_digitsOfInt_eq_cons (i : Int) :
    ∃ c cs, Numeral.digitsOfInt i = c :: cs ∧ isNumeric c := by
  obtain ⟨c, cs, hdigits⟩ := List.exists_cons_of_ne_nil (digitsOfInt_ne_nil i)
  refine ⟨c, cs, hdigits, isNumeric_of_mem_digitsOfInt (i := i) ?_⟩
  rw [hdigits]
  exact List.mem_cons_self

theorem digitsOfInt_inj {i j : Int} : Numeral.digitsOfInt i = Numeral.digitsOfInt j ↔ i = j := by
  refine ⟨fun h => ?_, fun h => h ▸ rfl⟩
  have hi := Numeral.readInt?_eq_some.2 (Numeral.denotesInt_digitsOfInt i)
  rw [h, Numeral.readInt?_eq_some.2 (Numeral.denotesInt_digitsOfInt j)] at hi
  exact (Option.some.inj hi).symm

theorem takeWhile_digitsOfInt_append (i : Int) {r : List Char} (h : Ends r) :
    (Numeral.digitsOfInt i ++ r).takeWhile isNumeric = Numeral.digitsOfInt i := by
  have hrest : r.takeWhile isNumeric = [] := by
    cases r with
    | nil => rfl
    | cons c r =>
      have hc : isNumeric c = false := by simpa [Ends] using h
      simp [hc]
  rw [List.takeWhile_append_of_pos fun c hc => isNumeric_of_mem_digitsOfInt hc, hrest,
    List.append_nil]

theorem digitsOfInt_append_inj {i j : Int} {r r' : List Char} (hr : Ends r) (hr' : Ends r')
    (h : Numeral.digitsOfInt i ++ r = Numeral.digitsOfInt j ++ r') : i = j ∧ r = r' := by
  have htake := congrArg (List.takeWhile isNumeric) h
  rw [takeWhile_digitsOfInt_append i hr, takeWhile_digitsOfInt_append j hr'] at htake
  rw [htake] at h
  exact ⟨digitsOfInt_inj.1 htake, List.append_cancel_left h⟩

inductive Kind
  | null
  | bool
  | int
  | string
  | list
  | object
  deriving DecidableEq

def kind : Serial → Kind
  | null => .null
  | bool _ => .bool
  | int _ => .int
  | string _ => .string
  | list _ => .list
  | object _ => .object

def Kind.ofChar? (c : Char) : Option Kind :=
  if c = 'n' then some .null
  else if c = 't' ∨ c = 'f' then some .bool
  else if isNumeric c then some .int
  else if c = '\x22' then some .string
  else if c = '[' then some .list
  else if c = '\x7b' then some .object
  else none

theorem Kind.ofChar?_of_isNumeric {c : Char} (h : isNumeric c) : ofChar? c = some .int := by
  have hn : c ≠ 'n' := by rintro rfl; exact absurd h (by decide)
  have ht : c ≠ 't' := by rintro rfl; exact absurd h (by decide)
  have hf : c ≠ 'f' := by rintro rfl; exact absurd h (by decide)
  simp [ofChar?, hn, ht, hf, h]

/-- The first character of a form's text says which sort of form it is. -/
theorem kind_of_head (x : Serial) (r : List Char) :
    (x.render.toList ++ r).head?.bind Kind.ofChar? = some x.kind := by
  cases x with
  | null =>
    simp [render, kind]
    rfl
  | bool b =>
    cases b
    all_goals
      simp [render, kind]
      rfl
  | int i =>
    obtain ⟨c, cs, hdigits, hc⟩ := exists_digitsOfInt_eq_cons i
    simp [render, Numeral.decimal, hdigits, kind, Kind.ofChar?_of_isNumeric hc]
  | string s =>
    rw [render, toList_quoted_append]
    rfl
  | list items =>
    rw [render, String.toList_append, String.toList_append]
    rfl
  | object members =>
    rw [render, String.toList_append, String.toList_append]
    rfl

theorem kind_eq {x y : Serial} {r r' : List Char}
    (h : x.render.toList ++ r = y.render.toList ++ r') : x.kind = y.kind := by
  have hx := kind_of_head x r
  rw [h, kind_of_head y r'] at hx
  exact (Option.some.inj hx).symm

/-- The text of an entry, followed by what is no numeral, tells the entry and what follows. -/
def EndsByItself {α : Type} (f : α → List Char) (a : α) : Prop :=
  ∀ ⦃b : α⦄ ⦃r r' : List Char⦄, Ends r → Ends r' → f a ++ r = f b ++ r' → a = b ∧ r = r'

/-- What follows the first entry of a list whose entries `es` are yet to come. -/
def following (es : List (List Char)) (r : List Char) : List Char :=
  match es with
  | [] => r
  | e :: es => ',' :: ([','].intercalate (e :: es) ++ r)

theorem intercalate_cons_append (e : List Char) (es : List (List Char)) (r : List Char) :
    [','].intercalate (e :: es) ++ r = e ++ following es r := by
  cases es with
  | nil => simp [following]
  | cons e' es => simp [following, List.intercalate_cons_cons]

theorem ends_following {closer : Char} (h : isNumeric closer = false) (es : List (List Char))
    (r : List Char) : Ends (following es (closer :: r)) := by
  cases es with
  | nil => exact ends_cons h r
  | cons e es => exact ends_cons (by decide) _

/-- Entries that end by themselves do so between commas, up to a closing character that begins no
entry. -/
theorem intercalate_append_inj {α : Type} {f : α → List Char} {closer : Char}
    (hcloser : isNumeric closer = false) (hcomma : closer ≠ ',')
    (hstart : ∀ a r r', closer :: r ≠ f a ++ r') {xs ys : List α} {r r' : List Char}
    (hxs : ∀ a ∈ xs, EndsByItself f a)
    (h : [','].intercalate (xs.map f) ++ closer :: r = [','].intercalate (ys.map f) ++ closer :: r') :
    xs = ys ∧ r = r' := by
  induction xs generalizing ys with
  | nil =>
    cases ys with
    | nil => exact ⟨rfl, (List.cons.inj h).2⟩
    | cons y ys =>
      rw [List.map_cons, intercalate_cons_append] at h
      exact absurd h (hstart y r _)
  | cons x xs ih =>
    cases ys with
    | nil =>
      rw [List.map_cons, intercalate_cons_append] at h
      exact absurd h.symm (hstart x r' _)
    | cons y ys =>
      rw [List.map_cons, List.map_cons, intercalate_cons_append, intercalate_cons_append] at h
      obtain ⟨rfl, hrest⟩ :=
        hxs x List.mem_cons_self (ends_following hcloser _ r) (ends_following hcloser _ r') h
      -- Both lists close here or both go on: the closing character is no comma.
      cases xs with
      | nil =>
        cases ys with
        | nil => exact ⟨rfl, (List.cons.inj hrest).2⟩
        | cons y ys => exact absurd (List.cons.inj hrest).1 hcomma
      | cons x' xs =>
        cases ys with
        | nil => exact absurd (List.cons.inj hrest).1.symm hcomma
        | cons y ys =>
          obtain ⟨htail, hr⟩ :=
            @ih (y :: ys) (fun a ha => hxs a (List.mem_cons_of_mem _ ha)) (List.cons.inj hrest).2
          exact ⟨congrArg _ htail, hr⟩

def memberText (m : String × Serial) : List Char :=
  (quoted m.1).toList ++ ':' :: m.2.render.toList

theorem toList_renderItems (xs : List Serial) :
    (renderItems xs).toList = [','].intercalate (xs.map fun x => x.render.toList) := by
  induction xs with
  | nil => simp [renderItems]
  | cons x xs ih =>
    cases xs with
    | nil => simp [renderItems]
    | cons y ys => simp [renderItems, ih, List.intercalate_cons_cons]

theorem toList_renderMembers (ms : List (String × Serial)) :
    (renderMembers ms).toList = [','].intercalate (ms.map memberText) := by
  induction ms with
  | nil => simp [renderMembers]
  | cons m ms ih =>
    cases ms with
    | nil => simp [renderMembers, memberText]
    | cons m' ms => simp [renderMembers, memberText, ih, List.intercalate_cons_cons]

theorem bracket_ne_render (x : Serial) (r r' : List Char) : ']' :: r ≠ x.render.toList ++ r' := by
  intro h
  have hkind := kind_of_head x r'
  rw [← h] at hkind
  exact absurd hkind (by simp [Kind.ofChar?, isNumeric])

theorem brace_ne_memberText (m : String × Serial) (r r' : List Char) :
    '\x7d' :: r ≠ memberText m ++ r' := by
  rw [memberText, List.append_assoc, toList_quoted_append]
  exact fun h => absurd (List.cons.inj h).1 (by decide)

theorem memberText_endsByItself {m : String × Serial}
    (h : EndsByItself (fun x : Serial => x.render.toList) m.2) : EndsByItself memberText m := by
  intro m' r r' hr hr' heq
  rw [memberText, memberText, List.append_assoc, List.append_assoc] at heq
  obtain ⟨hname, hrest⟩ := quoted_append_inj heq
  obtain ⟨hform, hr⟩ := h hr hr' (List.cons.inj hrest).2
  exact ⟨Prod.ext hname hform, hr⟩

/-- Induction on a form, its items and the values of its members. -/
@[elab_as_elim, induction_eliminator]
theorem induction_on {P : Serial → Prop} (null : P null) (bool : ∀ b, P (bool b))
    (int : ∀ i, P (int i)) (string : ∀ s, P (string s))
    (list : ∀ items, (∀ x ∈ items, P x) → P (list items))
    (object : ∀ members, (∀ m ∈ members, P m.2) → P (object members)) : ∀ x, P x
  | .null => null
  | .bool b => bool b
  | .int i => int i
  | .string s => string s
  | .list items =>
    list items fun x _hx => induction_on null bool int string list object x
  | .object members =>
    object members fun m _hm => induction_on null bool int string list object m.2
termination_by x => sizeOf x
decreasing_by
  · have hlt := List.sizeOf_lt_of_mem _hx
    simp
    omega
  · have hlt := List.sizeOf_lt_of_mem _hm
    have hpair : sizeOf m.2 < sizeOf m := by
      cases m
      simp
    simp
    omega

/-- The text of a form ends by itself, by induction on the form. -/
theorem render_endsByItself (x : Serial) : EndsByItself (fun x : Serial => x.render.toList) x := by
  induction x with
  | null =>
    intro y r r' hr hr' h
    have hkind := kind_eq h
    cases y with
    | null => exact ⟨rfl, List.append_cancel_left h⟩
    | _ => cases hkind
  | bool b =>
    intro y r r' hr hr' h
    have hkind := kind_eq h
    cases y with
    | bool b' => cases b <;> cases b' <;> simp_all [render]
    | _ => cases hkind
  | int i =>
    intro y r r' hr hr' h
    have hkind := kind_eq h
    cases y with
    | int j =>
      simp only [render, Numeral.decimal, String.toList_ofList] at h
      obtain ⟨rfl, hrest⟩ := digitsOfInt_append_inj hr hr' h
      exact ⟨rfl, hrest⟩
    | _ => cases hkind
  | string s =>
    intro y r r' hr hr' h
    have hkind := kind_eq h
    cases y with
    | string s' =>
      simp only [render] at h
      obtain ⟨rfl, hrest⟩ := quoted_append_inj h
      exact ⟨rfl, hrest⟩
    | _ => cases hkind
  | list items ih =>
    intro y r r' hr hr' h
    have hkind := kind_eq h
    cases y with
    | list items' =>
      have hitems : (renderItems items).toList ++ ']' :: r =
          (renderItems items').toList ++ ']' :: r' := by
        simpa [render] using h
      rw [toList_renderItems, toList_renderItems] at hitems
      obtain ⟨rfl, hrest⟩ :=
        intercalate_append_inj (by decide) (by decide) bracket_ne_render ih hitems
      exact ⟨rfl, hrest⟩
    | _ => cases hkind
  | object members ih =>
    intro y r r' hr hr' h
    have hkind := kind_eq h
    cases y with
    | object members' =>
      have hmembers : (renderMembers members).toList ++ '\x7d' :: r =
          (renderMembers members').toList ++ '\x7d' :: r' := by
        simpa [render] using h
      rw [toList_renderMembers, toList_renderMembers] at hmembers
      have hparts : ∀ member ∈ members, EndsByItself memberText member :=
        fun member hmember => memberText_endsByItself (ih member hmember)
      obtain ⟨rfl, hrest⟩ :=
        intercalate_append_inj (by decide) (by decide) brace_ne_memberText hparts hmembers
      exact ⟨rfl, hrest⟩
    | _ => cases hkind

theorem render_inj {x y : Serial} : x.render = y.render ↔ x = y := by
  refine ⟨fun h => ?_, fun h => h ▸ rfl⟩
  have hend : Ends [] := rfl
  have happend : x.render.toList ++ [] = y.render.toList ++ [] := by rw [h]
  exact (render_endsByItself x hend hend happend).1

end Serial
end CodePointText
