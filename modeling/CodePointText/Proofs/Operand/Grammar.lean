import CodePointText.Proofs.Numeral
import CodePointText.Proofs.Operand

/-!
# The grammar of operands

What every word denotes or why it denotes nothing, one rule for each form and one for each failure,
stated without a reader. The reader answers exactly what the grammar says. Only integers, booleans,
code points and slices can be written badly.
-/

namespace CodePointText
namespace Operand

open Numeral

def tagged (tag content : String) : String := tag ++ ":" ++ content

def tags : List String := ["s", "w", "cp", "i", "b", "slice"]

/-- A numeral of a code point: decimal, or hexadecimal behind `0x`, and with a plus sign in front of
the digits or without one. -/
inductive DenotesCodePoint : List Char → CodePoint → Prop
  | decimal {ds : List Char} {c : CodePoint} (h : Denotes 10 ds c.toNat) : DenotesCodePoint ds c
  | decimalPlus {ds : List Char} {c : CodePoint} (h : Denotes 10 ds c.toNat) :
      DenotesCodePoint ('+' :: ds) c
  | hexadecimal {ds : List Char} {c : CodePoint} (h : Denotes 16 ds c.toNat) :
      DenotesCodePoint ('0' :: 'x' :: ds) c
  | hexadecimalPlus {ds : List Char} {c : CodePoint} (h : Denotes 16 ds c.toNat) :
      DenotesCodePoint ('0' :: 'x' :: '+' :: ds) c

/-- What stands between the commas of a list of code points, without the blanks around it. -/
def parts (content : String) : List (List Char) := (content.toList.splitOn ',').map trim

inductive DenotesBound : List Char → Option Int64 → Prop
  | absent : DenotesBound [] none
  | present {cs : List Char} {i : Int64} (h : DenotesInt cs i.toInt) : DenotesBound cs (some i)

/-- At most three bounds between colons, in order; those that are missing at the end are absent. -/
def DenotesSlice (content : String) (s : Slice) : Prop :=
  ∃ bounds, List.Forall₂ DenotesBound (content.toList.splitOn ':') bounds ∧ bounds.length ≤ 3 ∧
    s = ⟨bounds[0]?.join, bounds[1]?.join, bounds[2]?.join⟩

/-- What words denote, and why some denote nothing. -/
inductive Reads : String → Except OperandError Value → Prop
  | absent : Reads "none" (.ok .absent)
  | bare {word : String} (hn : word ≠ "none") (hc : ':' ∉ word.toList) :
      Reads word (.ok (.text (.ofString word)))
  /-- Only the first colon ends a tag, and an unknown tag is part of the text. -/
  | untagged {tag content : String} (hc : ':' ∉ tag.toList) (ht : tag ∉ tags) :
      Reads (tagged tag content) (.ok (.text (.ofString (tagged tag content))))
  | compact (content : String) : Reads (tagged "s" content) (.ok (.text (.ofString content)))
  | wide (content : String) :
      Reads (tagged "w" content) (.ok (.text (.wide (content.toList.map CodePoint.ofChar))))
  | integer {content : String} {i : Int64} (h : DenotesInt content.toList i.toInt) :
      Reads (tagged "i" content) (.ok (.int i))
  | notInteger {content : String} (h : ∀ i : Int64, ¬ DenotesInt content.toList i.toInt) :
      Reads (tagged "i" content) (.error (.notInteger content))
  | boolean (b : Bool) : Reads (tagged "b" (if b then "true" else "false")) (.ok (.bool b))
  | notBoolean {content : String} (ht : content ≠ "true") (hf : content ≠ "false") :
      Reads (tagged "b" content) (.error (.notBoolean content))
  | slice {content : String} {s : Slice} (h : DenotesSlice content s) :
      Reads (tagged "slice" content) (.ok (.slice s))
  | notSlice {content : String} (h : ∀ s, ¬ DenotesSlice content s) :
      Reads (tagged "slice" content) (.error (.notSlice content))
  | noCodePoints : Reads (tagged "cp" "") (.ok (.text (.wide [])))
  | codePoints {content : String} {cs : List CodePoint} (hne : content ≠ "")
      (h : List.Forall₂ DenotesCodePoint (parts content) cs) (hr : ∀ c ∈ cs, c.toNat ≤ 0x10FFFF) :
      Reads (tagged "cp" content) (.ok (.text (.wide cs)))
  | outOfRange {content : String} {cs : List CodePoint} {c : CodePoint} (hne : content ≠ "")
      (h : List.Forall₂ DenotesCodePoint (parts content) cs) (hc : c ∈ cs)
      (hr : 0x10FFFF < c.toNat) :
      Reads (tagged "cp" content) (.error (.text .codePointOutOfRange))
  /-- The first part that is no numeral is the failure, whatever stands in front of it. -/
  | notCodePoint {content : String} {before after : List (List Char)} {part : List Char}
      (hne : content ≠ "") (hs : parts content = before ++ part :: after)
      (hb : ∀ p ∈ before, ∃ c, DenotesCodePoint p c) (hp : ∀ c, ¬ DenotesCodePoint part c) :
      Reads (tagged "cp" content) (.error (.notCodePoint (String.ofList part)))

theorem readCodePoint?_eq_some {cs : List Char} {c : CodePoint} :
    readCodePoint? cs = some c ↔ DenotesCodePoint cs c := by
  unfold readCodePoint?
  split
  · next ds =>
    have hdecimal : ¬ Denotes 10 ('0' :: 'x' :: ds) c.toNat :=
      not_denotes_of_mem (c := 'x') (by decide) (by simp) rfl _
    rw [readUInt32?_eq_some (by decide)]
    constructor
    · rintro (h | ⟨ds, rfl, h⟩)
      · exact .hexadecimal h
      · exact .hexadecimalPlus h
    · intro h
      cases h with
      | decimal h => exact absurd h hdecimal
      | hexadecimal h => exact .inl h
      | hexadecimalPlus h => exact .inr ⟨_, rfl, h⟩
  · next hne =>
    rw [readUInt32?_eq_some (by decide)]
    constructor
    · rintro (h | ⟨ds, rfl, h⟩)
      · exact .decimal h
      · exact .decimalPlus h
    · intro h
      cases h with
      | decimal h => exact .inl h
      | decimalPlus h => exact .inr ⟨_, rfl, h⟩
      | hexadecimal h => exact absurd rfl (hne _)
      | hexadecimalPlus h => exact absurd rfl (hne _)

theorem readBound?_eq_some {cs : List Char} {b : Option Int64} :
    readBound? cs = some b ↔ DenotesBound cs b := by
  unfold readBound?
  by_cases hcs : cs = []
  · subst hcs
    have hempty (i : Int64) : ¬ DenotesInt [] i.toInt := by
      rw [← readInt64?_eq_some]
      simp [readInt64?, readInt?]
    constructor
    · intro h
      obtain rfl := Option.some.inj h
      exact .absent
    · intro h
      cases h with
      | absent => rfl
      | present h => exact absurd h (hempty _)
  · rw [if_neg (by simpa using hcs)]
    constructor
    · intro h
      obtain ⟨i, hi, rfl⟩ := Option.map_eq_some_iff.1 h
      exact .present (readInt64?_eq_some.1 hi)
    · intro h
      cases h with
      | absent => exact absurd rfl hcs
      | present h => rw [readInt64?_eq_some.2 h, Option.map_some]

theorem readSlice?_eq_some {content : String} {s : Slice} :
    readSlice? content.toList = some s ↔ DenotesSlice content s := by
  have hbounds {bounds : List (Option Int64)} :
      (content.toList.splitOn ':').mapM readBound? = some bounds ↔
        List.Forall₂ DenotesBound (content.toList.splitOn ':') bounds := by
    simp only [mapM_eq_some, readBound?_eq_some]
  constructor
  · intro h
    obtain ⟨bounds, hb, hs⟩ := Option.bind_eq_some_iff.1 h
    refine ⟨bounds, hbounds.1 hb, ?_⟩
    split at hs
    · exact ⟨by simp, (Option.some.inj hs).symm⟩
    · exact ⟨by simp, (Option.some.inj hs).symm⟩
    · exact ⟨by simp, (Option.some.inj hs).symm⟩
    · cases hs
  · rintro ⟨bounds, hb, hl, rfl⟩
    have hne : bounds ≠ [] := by
      rintro rfl
      exact List.splitOn_ne_nil ':' content.toList (List.forall₂_nil_right_iff.1 hb)
    refine Option.bind_eq_some_iff.2 ⟨bounds, hbounds.2 hb, ?_⟩
    match bounds, hl, hne with
    | [start], _, _ => rfl
    | [start, stop], _, _ => rfl
    | [start, stop, step], _, _ => rfl

theorem wideText_of_inRange {cs : List CodePoint} (h : ∀ c ∈ cs, c.toNat ≤ 0x10FFFF) :
    wideText cs = .ok (.text (.wide cs)) := by
  have hall : cs.all CodePoint.inRange :=
    List.all_eq_true.2 fun c hc => CodePoint.inRange_iff.2 (h c hc)
  rw [wideText, Text.ofCodePoints, if_pos hall]

theorem wideText_of_not_inRange {cs : List CodePoint} {c : CodePoint} (hc : c ∈ cs)
    (h : 0x10FFFF < c.toNat) : wideText cs = .error (.text .codePointOutOfRange) := by
  have hall : ¬ cs.all CodePoint.inRange := fun hall => by
    have := CodePoint.inRange_iff.1 (List.all_eq_true.1 hall c hc)
    omega
  rw [wideText, Text.ofCodePoints, if_neg hall]

def readPart (part : List Char) : Except OperandError CodePoint :=
  match readCodePoint? part with
  | some c => .ok c
  | none => .error (.notCodePoint (String.ofList part))

theorem readPart_eq_ok {part : List Char} {c : CodePoint} :
    readPart part = .ok c ↔ DenotesCodePoint part c := by
  rw [readPart, ← readCodePoint?_eq_some]
  cases readCodePoint? part <;> simp

theorem readPart_eq_error {part : List Char} {e : OperandError} :
    readPart part = .error e ↔
      (∀ c, ¬ DenotesCodePoint part c) ∧ e = .notCodePoint (String.ofList part) := by
  simp only [readPart, ← readCodePoint?_eq_some]
  cases readCodePoint? part <;> simp [eq_comm]

theorem mapM_readPart_eq_ok {ps : List (List Char)} {cs : List CodePoint} :
    ps.mapM readPart = .ok cs ↔ List.Forall₂ DenotesCodePoint ps cs := by
  simp only [mapM_eq_ok, readPart_eq_ok]

theorem mapM_readPart_eq_error {ps : List (List Char)} {e : OperandError} :
    ps.mapM readPart = .error e ↔ ∃ before part after, ps = before ++ part :: after ∧
      (∀ p ∈ before, ∃ c, DenotesCodePoint p c) ∧ (∀ c, ¬ DenotesCodePoint part c) ∧
      e = .notCodePoint (String.ofList part) := by
  simp only [mapM_eq_error, readPart_eq_ok, readPart_eq_error]

theorem readCodePoints_eq {content : String} (h : content ≠ "") :
    readCodePoints content.toList = (parts content).mapM readPart := by
  have hne : ¬ content.toList.isEmpty := by simpa using h
  rw [readCodePoints, if_neg hne, parts, List.mapM_map]
  rfl

theorem read_tagged {tag : String} (h : ':' ∉ tag.toList) (content : String) :
    read (tagged tag content) =
      (readTagged? tag.toList content.toList).getD
        (.ok (.text (.ofString (tagged tag content)))) := by
  have hlist : (tagged tag content).toList = tag.toList ++ ':' :: content.toList := by
    simp [tagged]
  have hne : tagged tag content ≠ "none" := by
    intro he
    have hcolon : ':' ∈ "none".toList := by
      rw [← he, hlist]
      simp
    exact absurd hcolon (by decide)
  rw [read, if_neg hne, hlist, cutAtColon?_append h]
  rfl

theorem readTagged?_eq_none {tag : String} (h : tag ∉ tags) (content : List Char) :
    readTagged? tag.toList content = none := by
  have hne : ∀ known ∈ tags, tag.toList ≠ known.toList := fun known hk he =>
    h (String.toList_inj.1 he ▸ hk)
  unfold readTagged?
  split
  · next ht => exact absurd ht (hne "s" (by decide))
  · next ht => exact absurd ht (hne "w" (by decide))
  · next ht => exact absurd ht (hne "cp" (by decide))
  · next ht => exact absurd ht (hne "i" (by decide))
  · next ht => exact absurd ht (hne "b" (by decide))
  · next ht => exact absurd ht (hne "slice" (by decide))
  · rfl

section

variable (content : String)

theorem read_compact : read (tagged "s" content) = .ok (.text (.ofString content)) := by
  rw [read_tagged (by decide), show "s".toList = ['s'] from rfl, readTagged?, Text.ofChars,
    String.ofList_toList]
  rfl

theorem read_wide :
    read (tagged "w" content) = .ok (.text (.wide (content.toList.map CodePoint.ofChar))) := by
  have hr : ∀ c ∈ content.toList.map CodePoint.ofChar, c.toNat ≤ 0x10FFFF := by
    intro c hc
    obtain ⟨x, _, rfl⟩ := List.mem_map.1 hc
    exact CodePoint.inRange_iff.1 (CodePoint.inRange_ofChar x)
  rw [read_tagged (by decide)]
  exact wideText_of_inRange hr

theorem read_integer :
    read (tagged "i" content) =
      match readInt64? content.toList with
      | some i => .ok (.int i)
      | none => .error (.notInteger content) := by
  rw [read_tagged (by decide), show "i".toList = ['i'] from rfl, readTagged?, String.ofList_toList]
  rfl

theorem read_boolean :
    read (tagged "b" content) =
      if content = "true" then .ok (.bool true)
      else if content = "false" then .ok (.bool false)
      else .error (.notBoolean content) := by
  rw [read_tagged (by decide), show "b".toList = ['b'] from rfl, readTagged?, String.ofList_toList]
  simp only [String.toList_inj, Option.getD_some]

theorem read_slice :
    read (tagged "slice" content) =
      match readSlice? content.toList with
      | some s => .ok (.slice s)
      | none => .error (.notSlice content) := by
  rw [read_tagged (by decide), show "slice".toList = ['s', 'l', 'i', 'c', 'e'] from rfl,
    readTagged?, String.ofList_toList]
  rfl

theorem read_codePoints :
    read (tagged "cp" content) = readCodePoints content.toList >>= wideText := by
  rw [read_tagged (by decide)]
  rfl

end

theorem read_integer_eq_ok {content : String} {n : Int64} :
    read (tagged "i" content) = .ok (.int n) ↔ DenotesInt content.toList n.toInt := by
  rw [read_integer, ← readInt64?_eq_some]
  cases readInt64? content.toList <;> simp

theorem read_of_reads {word : String} {r : Except OperandError Value} (h : Reads word r) :
    read word = r := by
  cases h with
  | absent => rfl
  | bare hn hc =>
    rw [read, if_neg hn, cutAtColon?_of_not_mem hc]
    rfl
  | untagged hc ht =>
    rw [read_tagged hc, readTagged?_eq_none ht]
    rfl
  | compact content => exact read_compact content
  | wide content => exact read_wide content
  | integer h => rw [read_integer, readInt64?_eq_some.2 h]
  | notInteger h =>
    have hnone := Option.eq_none_iff_forall_ne_some.2 fun i hi => h i (readInt64?_eq_some.1 hi)
    rw [read_integer, hnone]
  | boolean b => cases b <;> exact read_boolean _
  | notBoolean ht hf => rw [read_boolean, if_neg ht, if_neg hf]
  | slice h => rw [read_slice, readSlice?_eq_some.2 h]
  | notSlice h =>
    have hnone := Option.eq_none_iff_forall_ne_some.2 fun s hs => h s (readSlice?_eq_some.1 hs)
    rw [read_slice, hnone]
  | noCodePoints => exact read_codePoints ""
  | codePoints hne h hr =>
    rw [read_codePoints, readCodePoints_eq hne, mapM_readPart_eq_ok.2 h]
    exact wideText_of_inRange hr
  | outOfRange hne h hc hr =>
    rw [read_codePoints, readCodePoints_eq hne, mapM_readPart_eq_ok.2 h]
    exact wideText_of_not_inRange hc hr
  | @notCodePoint content before after part hne hs hb hp =>
    have hfirst : (parts content).mapM readPart = .error (.notCodePoint (String.ofList part)) :=
      mapM_readPart_eq_error.2 ⟨before, part, after, hs, hb, hp, rfl⟩
    rw [read_codePoints, readCodePoints_eq hne, hfirst]
    rfl

theorem exists_reads_codePoints (content : String) : ∃ r, Reads (tagged "cp" content) r := by
  by_cases hne : content = ""
  · subst hne
    exact ⟨_, .noCodePoints⟩
  cases hp : (parts content).mapM readPart with
  | error e =>
    obtain ⟨before, part, after, hs, hb, hp, _⟩ := mapM_readPart_eq_error.1 hp
    exact ⟨_, .notCodePoint hne hs hb hp⟩
  | ok cs =>
    have hcs := mapM_readPart_eq_ok.1 hp
    by_cases hr : ∀ c ∈ cs, c.toNat ≤ 0x10FFFF
    · exact ⟨_, .codePoints hne hcs hr⟩
    · push Not at hr
      obtain ⟨c, hc, hlt⟩ := hr
      exact ⟨_, .outOfRange hne hcs hc hlt⟩

theorem exists_reads_tagged {tag : String} (h : tag ∈ tags) (content : String) :
    ∃ r, Reads (tagged tag content) r := by
  simp only [tags, List.mem_cons, List.not_mem_nil, or_false] at h
  rcases h with rfl | rfl | rfl | rfl | rfl | rfl
  · exact ⟨_, .compact content⟩
  · exact ⟨_, .wide content⟩
  · exact exists_reads_codePoints content
  · by_cases hi : ∃ i : Int64, DenotesInt content.toList i.toInt
    · exact ⟨_, .integer hi.choose_spec⟩
    · exact ⟨_, .notInteger (not_exists.1 hi)⟩
  · by_cases ht : content = "true"
    · subst ht
      exact ⟨_, .boolean true⟩
    by_cases hf : content = "false"
    · subst hf
      exact ⟨_, .boolean false⟩
    exact ⟨_, .notBoolean ht hf⟩
  · by_cases hs : ∃ s, DenotesSlice content s
    · exact ⟨_, .slice hs.choose_spec⟩
    · exact ⟨_, .notSlice (not_exists.1 hs)⟩

theorem exists_reads (word : String) : ∃ r, Reads word r := by
  by_cases hn : word = "none"
  · subst hn
    exact ⟨_, .absent⟩
  by_cases hc : ':' ∈ word.toList
  · obtain ⟨tag, content, rfl, htag⟩ : ∃ tag content, word = tagged tag content ∧
        ':' ∉ tag.toList := by
      obtain ⟨before, after, hsplit, hbefore⟩ := List.eq_append_cons_of_mem hc
      refine ⟨String.ofList before, String.ofList after, ?_, by rwa [String.toList_ofList]⟩
      rw [← String.toList_inj]
      simp [tagged, hsplit]
    by_cases hknown : tag ∈ tags
    · exact exists_reads_tagged hknown content
    · exact ⟨_, .untagged htag hknown⟩
  · exact ⟨_, .bare hn hc⟩

/-- The reader answers what the grammar says of a word, and the grammar says one thing of each. A
word that fails has one of four tags. Where a text is called for, a value of another type is a
failure too. -/
theorem read_eq_iff (word : String) :
    (∀ r, read word = r ↔ Reads word r) ∧
      (∀ e, read word = .error e →
        ∃ tag ∈ ["i", "b", "cp", "slice"], ∃ content, word = tagged tag content) ∧
      (∀ t, readText word = .ok t ↔ Reads word (.ok (.text t))) ∧
      ∀ e, readText word = .error e ↔
        Reads word (.error e) ∨
          ∃ v, Reads word (.ok v) ∧ v.text? = none ∧ e = .notText v.typeName := by
  have hreads (r : Except OperandError Value) : read word = r ↔ Reads word r := by
    constructor
    · rintro rfl
      obtain ⟨s, hs⟩ := exists_reads word
      rwa [read_of_reads hs]
    · exact read_of_reads
  refine ⟨hreads, fun e he => ?_, fun t => ?_, fun e => ?_⟩
  · cases (hreads _).1 he with
    | notInteger _ => exact ⟨"i", by decide, _, rfl⟩
    | notBoolean _ _ => exact ⟨"b", by decide, _, rfl⟩
    | notSlice _ => exact ⟨"slice", by decide, _, rfl⟩
    | outOfRange _ _ _ _ => exact ⟨"cp", by decide, _, rfl⟩
    | notCodePoint _ _ _ _ => exact ⟨"cp", by decide, _, rfl⟩
  · rw [readText_eq_ok, hreads]
  · simp only [readText_eq_error, hreads]

/-- The first part is out of range, the second is the first that is no numeral: that is the failure,
and without its blanks. -/
theorem read_of_bad_part :
    read (tagged "cp" "1114112,\u2003y ,z") = .error (.notCodePoint "y") := by
  have hsplit : parts "1114112,\u2003y ,z" = ["1114112".toList] ++ ['y'] :: [['z']] := by
    decide +kernel
  have hfirst : ∀ p ∈ ["1114112".toList], ∃ c, DenotesCodePoint p c := by
    intro p hp
    obtain rfl := List.mem_singleton.1 hp
    exact ⟨1114112, readCodePoint?_eq_some.1 (by decide +kernel)⟩
  have hbad (c : CodePoint) : ¬ DenotesCodePoint ['y'] c := by
    rw [← readCodePoint?_eq_some, show readCodePoint? ['y'] = none from by decide +kernel]
    simp
  exact ((read_eq_iff _).1 _).2 (.notCodePoint (by decide) hsplit hfirst hbad)

end Operand
end CodePointText
