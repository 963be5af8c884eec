import CodePointText.Proofs.Comparison
import CodePointText.Proofs.Numeral
import CodePointText.Text.Literal

/-!
# Literals read back

A literal is read back as the code points that it was written for, so it tells texts apart as they
are told apart by equality. It ends at the first quote that is not escaped, and all of its
characters are printable. The three facts follow from what can stand in a literal for one code
point.
-/

namespace CodePointText
namespace Literal

/-- The place of the first quote that is not escaped by a backslash in front of it. -/
def closing? (quote : Char) : List Char → Option Nat
  | [] => none
  | '\\' :: _ :: rest => (closing? quote rest).map (· + 2)
  | c :: rest => if c = quote then some 0 else (closing? quote rest).map (· + 1)

def IsQuote (c : Char) : Prop := c = singleQuote ∨ c = doubleQuote

/-- What can stand for a code point between two quotes. -/
inductive Stands (quote : Char) (c : CodePoint) : List Char → Prop
  | plain {x : Char} (hx : CodePoint.ofChar x = c) (hq : x ≠ quote) (hb : x ≠ '\\')
      (hc : ¬ isControl x) : Stands quote c [x]
  | letter {x : Char} (h : x = 't' ∧ c = 0x09 ∨ x = 'n' ∧ c = 0x0A ∨ x = 'r' ∧ c = 0x0D) :
      Stands quote c ['\\', x]
  | itself {x : Char} (hx : CodePoint.ofChar x = c) (h : IsQuote x ∨ x = '\\') :
      Stands quote c ['\\', x]
  | digits {x : Char} {ds : List Char} (hx : x = 'x' ∧ ds.length = 2 ∨ x = 'u' ∧ ds.length = 4)
      (hds : ∀ d ∈ ds, ∃ v < 16, d = Nat.digitChar v) (hc : hexCodePoint? ds = some c) :
      Stands quote c ('\\' :: x :: ds)

theorem hexValue?_digitChar {v : Nat} (h : v < 16) : hexValue? v.digitChar = some v := by
  have hall : ∀ v < 16, hexValue? v.digitChar = some v := by decide +kernel
  exact hall v h

def hexStep (n : Nat) (c : Char) : Option Nat := (hexValue? c).map (16 * n + ·)

theorem foldlM_hexStep_toDigits (n : Nat) : (Nat.toDigits 16 n).foldlM hexStep 0 = some n := by
  refine Numeral.toDigits_induction (P := fun cs n => cs.foldlM hexStep 0 = some n) (by decide)
    ?_ ?_ n
  · intro v hv
    simp [hexStep, hexValue?_digitChar hv]
  · intro cs n hn v hv
    rw [List.foldlM_append, hn]
    simp [hexStep, hexValue?_digitChar hv]

theorem foldlM_hexStep_zeros (k : Nat) : (List.replicate k '0').foldlM hexStep 0 = some 0 := by
  have hzero : hexValue? '0' = some 0 := hexValue?_digitChar (v := 0) (by decide)
  induction k with
  | zero => rfl
  | succ k ih => simp [List.replicate_succ, hexStep, hzero, ih]

theorem hexCodePoint?_hexDigits (width n : Nat) :
    hexCodePoint? (Numeral.hexDigits width n) = some (UInt32.ofNat n) := by
  have hfold : (Numeral.hexDigits width n).foldlM hexStep 0 = some n := by
    rw [Numeral.hexDigits, List.foldlM_append, foldlM_hexStep_zeros]
    exact foldlM_hexStep_toDigits n
  change ((Numeral.hexDigits width n).foldlM hexStep 0).bind (fun n => some (UInt32.ofNat n)) = _
  rw [hfold, Option.bind_some]

/-- Every code point is written in one of the four ways. -/
theorem stands_escape {quote : Char} (hq : IsQuote quote) {c : CodePoint} (hc : c.inRange) :
    Stands quote c (escape quote c) := by
  unfold escape
  split
  · next hnone =>
    have hs : c.isSurrogate := by
      rcases CodePoint.toChar?_eq_none.1 hnone with hs | hr
      · exact hs
      · exact absurd hc hr
    have hlt := (CodePoint.isSurrogate_iff.1 hs).2
    refine .digits (.inr ⟨rfl, Numeral.length_hexDigits (by decide) (by omega)⟩)
      (fun d => Numeral.mem_hexDigits) ?_
    rw [hexCodePoint?_hexDigits, UInt32.ofNat_toNat]
  · next x hx =>
    obtain rfl := CodePoint.toChar?_eq_some.1 hx
    by_cases h : x = quote ∨ x = '\\'
    · rw [if_pos h]
      refine .itself rfl ?_
      rcases h with rfl | h
      · exact .inl hq
      · exact .inr h
    rw [if_neg h]
    rw [not_or] at h
    by_cases ht : x = '\t'
    · subst ht
      exact .letter (.inl ⟨rfl, rfl⟩)
    by_cases hn : x = '\n'
    · subst hn
      exact .letter (.inr (.inl ⟨rfl, rfl⟩))
    by_cases hr : x = '\r'
    · subst hr
      exact .letter (.inr (.inr ⟨rfl, rfl⟩))
    rw [if_neg ht, if_neg hn, if_neg hr]
    split
    · next hcontrol =>
      have hlt : (CodePoint.ofChar x).toNat < 16 ^ 2 := by
        simp only [isControl, Char.toNat, Bool.or_eq_true, Bool.and_eq_true, decide_eq_true_eq]
          at hcontrol
        simp only [CodePoint.ofChar]
        omega
      refine .digits (.inl ⟨rfl, Numeral.length_hexDigits (by decide) hlt⟩)
        (fun d => Numeral.mem_hexDigits) ?_
      rw [hexCodePoint?_hexDigits, UInt32.ofNat_toNat]
    · next hcontrol => exact .plain rfl h.1 h.2 hcontrol

theorem ne_of_hex {quote : Char} (hq : IsQuote quote) {d : Char}
    (hd : ∃ v < 16, d = Nat.digitChar v) : d ≠ quote ∧ d ≠ '\\' := by
  have hall : ∀ v < 16, Nat.digitChar v ≠ singleQuote ∧ Nat.digitChar v ≠ doubleQuote ∧
      Nat.digitChar v ≠ '\\' := by decide
  obtain ⟨v, hv, rfl⟩ := hd
  obtain ⟨hs, hd, hb⟩ := hall v hv
  rcases hq with rfl | rfl
  · exact ⟨hs, hb⟩
  · exact ⟨hd, hb⟩

theorem closing?_append_of_plain {quote : Char} {cs : List Char}
    (h : ∀ x ∈ cs, x ≠ quote ∧ x ≠ '\\') (rest : List Char) :
    closing? quote (cs ++ rest) = (closing? quote rest).map (· + cs.length) := by
  induction cs with
  | nil => simp
  | cons x cs ih =>
    rw [List.forall_mem_cons] at h
    simp [closing?, h.1.1, h.1.2, ih h.2, Function.comp_def, Nat.add_assoc]

section

variable {quote : Char} {c : CodePoint} {cs : List Char} (h : Stands quote c cs)
include h

theorem decodeBody_stands (rest : List Char) :
    decodeBody quote (cs ++ rest) = (decodeBody quote rest).map (c :: ·) := by
  cases h with
  | plain hx hq hb _ =>
    subst hx
    simp [decodeBody, hq, hb]
  | letter h => rcases h with ⟨rfl, rfl⟩ | ⟨rfl, rfl⟩ | ⟨rfl, rfl⟩ <;> rfl
  | itself hx h =>
    subst hx
    rcases h with (rfl | rfl) | rfl <;> rfl
  | @digits x ds hx _ hc =>
    rcases hx with ⟨rfl, hlen⟩ | ⟨rfl, hlen⟩
    · match ds, hlen with
      | [a, b], _ => simp [decodeBody, hc]
    · match ds, hlen with
      | [a, b, c, d], _ => simp [decodeBody, hc]

theorem closing?_stands (hq : IsQuote quote) (rest : List Char) :
    closing? quote (cs ++ rest) = (closing? quote rest).map (· + cs.length) := by
  cases h with
  | plain _ hq hb _ => simp [closing?, hq, hb]
  | letter h => rfl
  | itself hx h => rfl
  | @digits x ds _ hds _ =>
    have hmap : closing? quote ('\\' :: x :: (ds ++ rest)) =
        (closing? quote (ds ++ rest)).map (· + 2) := rfl
    have hdigits := closing?_append_of_plain (fun d hd => ne_of_hex hq (hds d hd)) rest
    rw [List.cons_append, List.cons_append, hmap, hdigits, Option.map_map]
    rfl

theorem not_isControl_of_stands : ∀ x ∈ cs, ¬ isControl x := by
  cases h with
  | plain _ _ _ hc => simpa using hc
  | letter h => rcases h with ⟨rfl, rfl⟩ | ⟨rfl, rfl⟩ | ⟨rfl, rfl⟩ <;> simp [isControl]
  | itself hx h => rcases h with (rfl | rfl) | rfl <;> simp [isControl, singleQuote, doubleQuote]
  | @digits x ds hx hds _ =>
    have hall : ∀ v < 16, ¬ isControl (Nat.digitChar v) := by decide +kernel
    have hd : ∀ d ∈ ds, ¬ isControl d := fun d hd => by
      obtain ⟨v, hv, rfl⟩ := hds d hd
      exact hall v hv
    have hletter : ¬ isControl x := by
      rcases hx with ⟨rfl, _⟩ | ⟨rfl, _⟩ <;> decide
    exact List.forall_mem_cons.2 ⟨by decide, List.forall_mem_cons.2 ⟨hletter, hd⟩⟩

end

section

variable {quote : Char} (hq : IsQuote quote) {cs : List CodePoint} (hcs : ∀ c ∈ cs, c.inRange)
include hq hcs

/-- What is written between the quotes is read back, up to the quote behind it. -/
theorem decodeBody_flatMap_escape :
    decodeBody quote (cs.flatMap (escape quote) ++ [quote]) = some cs := by
  induction cs with
  | nil =>
    rcases hq with rfl | rfl <;> rfl
  | cons c cs ih =>
    rw [List.forall_mem_cons] at hcs
    rw [List.flatMap_cons, List.append_assoc, decodeBody_stands (stands_escape hq hcs.1), ih hcs.2]
    rfl

theorem closing?_flatMap_escape :
    closing? quote (cs.flatMap (escape quote) ++ [quote]) =
      some (cs.flatMap (escape quote)).length := by
  induction cs with
  | nil => rcases hq with rfl | rfl <;> rfl
  | cons c cs ih =>
    rw [List.forall_mem_cons] at hcs
    rw [List.flatMap_cons, List.append_assoc, closing?_stands (stands_escape hq hcs.1) hq,
      ih hcs.2, List.length_append, Option.map_some, Nat.add_comm]

theorem not_isControl_of_mem_flatMap_escape : ∀ x ∈ cs.flatMap (escape quote), ¬ isControl x := by
  intro x hx
  obtain ⟨c, hc, hxc⟩ := List.mem_flatMap.1 hx
  exact not_isControl_of_stands (stands_escape hq (hcs c hc)) x hxc

end

end Literal

namespace Text

theorem toList_literal (t : Text) : t.literal.toList = Literal.encode t.codePoints := by
  rw [literal, String.toList_ofList]

theorem decode_literal {t : Text} (h : t.WellFormed) :
    Literal.decode t.literal.toList = some t.codePoints := by
  have hq : Literal.IsQuote (Literal.quoteFor t.codePoints) := Literal.quoteFor_eq t.codePoints
  have hbody := Literal.decodeBody_flatMap_escape hq (fun c => inRange_of_mem h)
  rw [toList_literal]
  exact (if_pos hq).trans hbody

theorem literal_eq_iff {a b : Text} (ha : a.WellFormed) (hb : b.WellFormed) :
    a.literal = b.literal ↔ a.equal b := by
  rw [equal_iff ha hb]
  constructor
  · intro h
    have hdecode := congrArg (fun s => Literal.decode s.toList) h
    simpa only [decode_literal ha, decode_literal hb, Option.some.injEq] using hdecode
  · intro h
    rw [literal, literal, h]

/-- A literal is faithful: it is read back as the code points of the text and tells unequal texts
apart, it stands between two quotes of one kind of which the second is the first that is not
escaped, and none of its characters is a control character. -/
theorem literal_faithful {a b : Text} (ha : a.WellFormed) (hb : b.WellFormed) :
    Literal.decode a.literal.toList = some a.codePoints ∧
    (a.literal = b.literal ↔ a.equal b) ∧
    (∃ quote body, (quote = '\x27' ∨ quote = '\x22') ∧
      a.literal.toList = quote :: (body ++ [quote]) ∧
      Literal.closing? quote (body ++ [quote]) = some body.length) ∧
    ∀ x ∈ a.literal.toList, 0x20 ≤ x.toNat ∧ (x.toNat < 0x7F ∨ 0xA0 ≤ x.toNat) := by
  have hq : Literal.IsQuote (Literal.quoteFor a.codePoints) := Literal.quoteFor_eq a.codePoints
  have hrange : ∀ c ∈ a.codePoints, c.inRange := fun c => inRange_of_mem ha
  refine ⟨decode_literal ha, literal_eq_iff ha hb, ?_, ?_⟩
  · exact ⟨_, _, hq, toList_literal a, Literal.closing?_flatMap_escape hq hrange⟩
  · have hquote : ¬ Literal.isControl (Literal.quoteFor a.codePoints) := by
      rcases hq with h | h <;> rw [h] <;> decide
    have hbody := Literal.not_isControl_of_mem_flatMap_escape hq hrange
    intro x hx
    have hcontrol : ¬ Literal.isControl x := by
      rw [toList_literal, Literal.encode, List.mem_append, List.mem_cons, List.mem_singleton] at hx
      rcases hx with (rfl | hx) | rfl
      · exact hquote
      · exact hbody x hx
      · exact hquote
    simp only [Literal.isControl, Bool.or_eq_true, Bool.and_eq_true, decide_eq_true_eq] at hcontrol
    omega

/-- A pair of surrogates and the character that they would make have literals of their own, and so
have a backslash with digits behind it and the control character that these would write. -/
theorem literal_of_lookalikes :
    (wide [0xD83D, 0xDE00]).literal = "'\\ud83d\\ude00'" ∧
      (wide [0xD83D, 0xDE00]).literal ≠ (ofString "😀").literal ∧
      (ofString "\\x85").literal ≠ (wide [0x85]).literal ∧
      Literal.decode (ofString "\\x85").literal.toList = some [0x5C, 0x78, 0x38, 0x35] := by
  have hpair : (wide [0xD83D, 0xDE00]).WellFormed := by decide
  have hcontrol : (wide [0x85]).WellFormed := by decide
  obtain ⟨_, hsurrogates, _⟩ := literal_faithful hpair (wellFormed_ofString "😀")
  obtain ⟨hdecode, hbackslash, _⟩ := literal_faithful (wellFormed_ofString "\\x85") hcontrol
  refine ⟨by decide +kernel, ?_, ?_, hdecode⟩
  · rw [ne_eq, hsurrogates]
    decide +kernel
  · rw [ne_eq, hbackslash]
    decide +kernel

end Text
end CodePointText
