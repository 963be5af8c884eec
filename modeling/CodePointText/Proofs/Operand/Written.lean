import CodePointText.Proofs.Operand.Grammar
import CodePointText.Proofs.Reachability

/-!
# Written forms of values

Every value can be written as an operand, in one way or in several, and each of them is read back as
the value itself, the storage of a text included. All words without a known tag are texts.
-/

namespace CodePointText

namespace Numeral

theorem DenotesInt.not_mem {cs : List Char} {i : Int} (h : DenotesInt cs i) {c : Char}
    (hc : digitValue? 10 c = none) (hplus : c ≠ '+') (hminus : c ≠ '-') : c ∉ cs := by
  have hdigits {ds : List Char} {n : Nat} (hds : Denotes 10 ds n) : c ∉ ds := fun hmem =>
    not_denotes_of_mem (by decide) hmem hc n hds
  cases h with
  | plain h => exact hdigits h
  | plus h => simpa [hplus] using hdigits h
  | minus h => simpa [hminus] using hdigits h

end Numeral

namespace Operand

open Numeral

def Spaced (part : List Char) (c : CodePoint) : Prop :=
  ∃ before numeral after, part = before ++ numeral ++ after ∧ DenotesCodePoint numeral c ∧
    (∀ x ∈ before, isBlank x) ∧ ∀ x ∈ after, isBlank x

def boundWord : Option Int64 → String
  | none => ""
  | some b => decimal b.toInt

/-- The words in which a value can be written. -/
inductive Written : Value → String → Prop
  | absent : Written .absent "none"
  | boolean (b : Bool) : Written (.bool b) (tagged "b" (if b then "true" else "false"))
  | integer (i : Int64) : Written (.int i) (tagged "i" (decimal i.toInt))
  | slice (s : Slice) :
      Written (.slice s)
        (tagged "slice" (boundWord s.start ++ ":" ++ boundWord s.stop ++ ":" ++ boundWord s.step))
  | compact (string : String) (length : Nat) (ascii : Bool) :
      Written (.text (.compact string length ascii)) (tagged "s" string)
  | codePoints {cs : List CodePoint} {parts : List (List Char)} (h : List.Forall₂ Spaced parts cs) :
      Written (.text (.wide cs)) (tagged "cp" (String.ofList ([','].intercalate parts)))
  | characters {cs : List CodePoint} (h : ∀ c ∈ cs, ¬ c.isSurrogate) :
      Written (.text (.wide cs)) (tagged "w" (String.ofList (cs.filterMap CodePoint.toChar?)))

section

variable {part : List Char} {c : CodePoint}

/-- A character with no value in any base is in no numeral of a code point, but for the sign and the
letter of the hexadecimal ones. -/
theorem DenotesCodePoint.not_mem (h : DenotesCodePoint part c) {x : Char}
    (hx : ∀ base, digitValue? base x = none) (hplus : x ≠ '+') (hletter : x ≠ 'x') : x ∉ part := by
  have hzero : x ≠ '0' := by
    rintro rfl
    exact absurd (hx 10) (by decide)
  have hdigits {base : Nat} (hb : base ≤ 16) {ds : List Char} (hds : Denotes base ds c.toNat) :
      x ∉ ds := fun hmem => not_denotes_of_mem hb hmem (hx base) _ hds
  cases h with
  | decimal h => exact hdigits (by decide) h
  | decimalPlus h => simpa [hplus] using hdigits (by decide) h
  | hexadecimal h => simpa [hzero, hletter] using hdigits (by decide) h
  | hexadecimalPlus h => simpa [hzero, hletter, hplus] using hdigits (by decide) h

theorem DenotesCodePoint.ne_nil (h : DenotesCodePoint part c) : part ≠ [] := by
  cases h with
  | decimal h => exact h.ne_nil
  | _ => simp

theorem DenotesCodePoint.not_isBlank (h : DenotesCodePoint part c) :
    ∀ x ∈ part, ¬ isBlank x := by
  intro x hmem hblank
  have hx (base : Nat) : digitValue? base x = none := digitValue?_of_isBlank base hblank
  have hplus : x ≠ '+' := by
    rintro rfl
    exact absurd hblank (by decide)
  have hletter : x ≠ 'x' := by
    rintro rfl
    exact absurd hblank (by decide)
  exact h.not_mem hx hplus hletter hmem

theorem Spaced.denotes_trim (h : Spaced part c) : DenotesCodePoint (trim part) c := by
  obtain ⟨before, numeral, after, rfl, hc, hb, ha⟩ := h
  rwa [trim_append_right ha, trim_append_left hb, trim_of_not_isBlank hc.not_isBlank]

theorem Spaced.not_mem_comma (h : Spaced part c) : ',' ∉ part := by
  obtain ⟨before, numeral, after, rfl, hc, hb, ha⟩ := h
  have hcomma : ¬ isBlank ',' := by decide
  have hnumeral : ',' ∉ numeral :=
    hc.not_mem (by simp [digitValue?]) (by decide) (by decide)
  simp only [List.mem_append, not_or]
  exact ⟨⟨fun h => hcomma (hb _ h), hnumeral⟩, fun h => hcomma (ha _ h)⟩

end

theorem not_mem_boundWord (b : Option Int64) : ':' ∉ (boundWord b).toList := by
  cases b with
  | none => simp [boundWord]
  | some i =>
    rw [boundWord, decimal, String.toList_ofList]
    exact (denotesInt_digitsOfInt i.toInt).not_mem rfl (by decide) (by decide)

theorem denotesBound_boundWord (b : Option Int64) : DenotesBound (boundWord b).toList b := by
  cases b with
  | none => exact .absent
  | some i =>
    rw [boundWord, decimal, String.toList_ofList]
    exact .present (denotesInt_digitsOfInt i.toInt)

theorem denotesSlice_boundWord (s : Slice) :
    DenotesSlice (boundWord s.start ++ ":" ++ boundWord s.stop ++ ":" ++ boundWord s.step) s := by
  have hlist : (boundWord s.start ++ ":" ++ boundWord s.stop ++ ":" ++ boundWord s.step).toList =
      (boundWord s.start).toList ++
        ':' :: ((boundWord s.stop).toList ++ ':' :: (boundWord s.step).toList) := by
    simp
  refine ⟨[s.start, s.stop, s.step], ?_, by simp, rfl⟩
  rw [hlist, List.splitOn_append_cons_self_of_not_mem (not_mem_boundWord s.start),
    List.splitOn_append_cons_self_of_not_mem (not_mem_boundWord s.stop),
    List.splitOn_eq_singleton (not_mem_boundWord s.step)]
  have hstep := List.Forall₂.cons (denotesBound_boundWord s.step) .nil
  have hstop := List.Forall₂.cons (denotesBound_boundWord s.stop) hstep
  exact .cons (denotesBound_boundWord s.start) hstop

theorem parts_intercalate {ps : List (List Char)} {cs : List CodePoint}
    (h : List.Forall₂ Spaced ps cs) (hne : ps ≠ []) :
    parts (String.ofList ([','].intercalate ps)) = ps.map trim := by
  have hcomma : ∀ p ∈ ps, ',' ∉ p :=
    ((List.forall₂_and_left _ _).1 (h.imp fun _ _ hp => ⟨hp.not_mem_comma, hp⟩)).1
  rw [parts, String.toList_ofList, List.splitOn_intercalate ',' hcomma hne]

theorem reads_codePoints {ps : List (List Char)} {cs : List CodePoint}
    (h : List.Forall₂ Spaced ps cs) (hr : ∀ c ∈ cs, c.inRange) :
    Reads (tagged "cp" (String.ofList ([','].intercalate ps))) (.ok (.text (.wide cs))) := by
  cases h with
  | nil => exact .noCodePoints
  | @cons p c ps cs hp hps =>
    have hparts := parts_intercalate (.cons hp hps) (List.cons_ne_nil p ps)
    -- No content would be one empty part, but a numeral is not empty.
    have hne : String.ofList ([','].intercalate (p :: ps)) ≠ "" := by
      intro he
      rw [he] at hparts
      have hfirst : trim p = [] := by
        have := congrArg List.head? hparts
        simpa [parts] using this.symm
      exact hp.denotes_trim.ne_nil hfirst
    refine .codePoints hne ?_ fun c hc => CodePoint.inRange_iff.1 (hr c hc)
    rw [hparts, List.forall₂_map_left_iff]
    exact (List.Forall₂.cons hp hps).imp fun _ _ h => h.denotes_trim

theorem reads_characters {cs : List CodePoint} (hr : ∀ c ∈ cs, c.inRange)
    (hs : ∀ c ∈ cs, ¬ c.isSurrogate) :
    Reads (tagged "w" (String.ofList (cs.filterMap CodePoint.toChar?)))
      (.ok (.text (.wide cs))) := by
  have hchar : ∀ c ∈ cs, c.toChar?.isSome := by
    intro c hc
    have hnone : c.toChar? ≠ none := by
      rw [ne_eq, CodePoint.toChar?_eq_none]
      simp [hs c hc, hr c hc]
    exact Option.isSome_iff_ne_none.2 hnone
  have hreads := Reads.wide (String.ofList (cs.filterMap CodePoint.toChar?))
  rwa [String.toList_ofList, Text.map_filterMap_toChar? hchar] at hreads

theorem reads_of_written {v : Value} (hv : v.WellFormed) {word : String} (h : Written v word) :
    Reads word (.ok v) := by
  cases h with
  | absent => exact .absent
  | boolean b => exact .boolean b
  | integer i =>
    refine .integer ?_
    rw [decimal, String.toList_ofList]
    exact denotesInt_digitsOfInt i.toInt
  | slice s => exact .slice (denotesSlice_boundWord s)
  | compact s n ascii => exact Text.ofString_of_wellFormed hv ▸ .compact s
  | codePoints h => exact reads_codePoints h hv
  | characters h => exact reads_characters hv h

theorem spaced_toDigits (c : CodePoint) : Spaced (Nat.toDigits 10 c.toNat) c :=
  ⟨[], _, [], by simp, .decimal (denotes_toDigits (by decide) _), by simp, by simp⟩

theorem exists_written (v : Value) : ∃ word, Written v word := by
  cases v with
  | absent => exact ⟨_, .absent⟩
  | bool b => exact ⟨_, .boolean b⟩
  | int i => exact ⟨_, .integer i⟩
  | slice s => exact ⟨_, .slice s⟩
  | text t =>
    cases t with
    | compact s n ascii => exact ⟨_, .compact s n ascii⟩
    | wide cs =>
      have hspaced : List.Forall₂ Spaced (cs.map fun c => Nat.toDigits 10 c.toNat) cs :=
        List.forall₂_map_left_iff.2 (List.forall₂_same.2 fun c _ => spaced_toDigits c)
      exact ⟨_, .codePoints hspaced⟩

/-- Every value can be written, and each word in which it is written is read as the value, with the
storage it has. A word without a known tag is compact text, all of it. -/
theorem read_of_written {v : Value} (hv : v.WellFormed) :
    (∃ word, Written v word) ∧ (∀ word, Written v word → read word = .ok v) ∧
      ∀ word, word ≠ "none" → (':' ∉ word.toList ∨
        ∃ tag content, word = tagged tag content ∧ ':' ∉ tag.toList ∧ tag ∉ tags) →
          read word = .ok (.text (.ofString word)) := by
  refine ⟨exists_written v, fun word h => read_of_reads (reads_of_written hv h), ?_⟩
  rintro word hn (hc | ⟨tag, content, rfl, hc, ht⟩)
  · exact read_of_reads (.bare hn hc)
  · exact read_of_reads (.untagged hc ht)

/-- An astral code point, a lone surrogate and the greatest code point, written in three ways. -/
theorem read_of_spaced_surrogate :
    Value.WellFormed (.text (.wide [0x1F600, 0xD800, 0x10FFFF])) ∧
      read "cp: 0x1f600 ,55296,\u20030x+10FFFF" =
        .ok (.text (.wide [0x1F600, 0xD800, 0x10FFFF])) := by
  have hv : (Text.wide [0x1F600, 0xD800, 0x10FFFF]).WellFormed := by decide +kernel
  have hfirst : Spaced " 0x1f600 ".toList 0x1F600 :=
    ⟨[' '], "0x1f600".toList, [' '], rfl, readCodePoint?_eq_some.1 (by decide +kernel),
      List.forall_mem_singleton.2 rfl, List.forall_mem_singleton.2 rfl⟩
  have hsecond : Spaced "55296".toList 0xD800 := spaced_toDigits 0xD800
  have hthird : Spaced "\u20030x+10FFFF".toList 0x10FFFF :=
    ⟨['\u2003'], "0x+10FFFF".toList, [], rfl, readCodePoint?_eq_some.1 (by decide +kernel),
      List.forall_mem_singleton.2 rfl, by simp⟩
  have hread := read_of_written (v := .text (.wide [0x1F600, 0xD800, 0x10FFFF])) hv
  refine ⟨hv, hread.2.1 _ ?_⟩
  exact .codePoints (.cons hfirst (.cons hsecond (.cons hthird .nil)))

end Operand
end CodePointText
