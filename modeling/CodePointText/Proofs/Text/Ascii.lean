import CodePointText.Proofs.Literal
import CodePointText.Proofs.Reachability
import CodePointText.Proofs.Text.Slice

/-!
# ASCII text in compact storage

Compact ASCII text is indexed by its bytes, in constant time. Whatever is built from such texts is
compact ASCII text again. For each operation this follows from the storage that it chooses and from
the code points that it puts into the result.
-/

namespace CodePointText

theorem CodePoint.inRange_of_isAscii {c : CodePoint} (h : c.isAscii) : c.inRange := by
  rw [isAscii_iff] at h
  rw [inRange_iff]
  omega

theorem CodePoint.isSome_toChar?_of_isAscii {c : CodePoint} (h : c.isAscii) : c.toChar?.isSome := by
  rw [isAscii_iff] at h
  rw [Option.isSome_iff_ne_none, ne_eq, toChar?_eq_none, isSurrogate_iff, inRange_iff]
  omega

namespace Literal

/-- Only a character that stands for itself can be other than ASCII in a literal. -/
theorem isAscii_of_stands {quote : Char} {c : CodePoint} {cs : List Char} (h : Stands quote c cs)
    (hc : c.isAscii) : ∀ x ∈ cs, (CodePoint.ofChar x).isAscii := by
  cases h with
  | plain hx _ _ _ =>
    subst hx
    exact List.forall_mem_singleton.2 hc
  | letter h =>
    refine List.forall_mem_cons.2 ⟨by decide, List.forall_mem_singleton.2 ?_⟩
    rcases h with ⟨rfl, _⟩ | ⟨rfl, _⟩ | ⟨rfl, _⟩ <;> decide
  | itself hx _ =>
    subst hx
    exact List.forall_mem_cons.2 ⟨by decide, List.forall_mem_singleton.2 hc⟩
  | @digits x ds hx hds _ =>
    have hall : ∀ v < 16, (CodePoint.ofChar (Nat.digitChar v)).isAscii := by decide +kernel
    have hletter : (CodePoint.ofChar x).isAscii := by
      rcases hx with ⟨rfl, _⟩ | ⟨rfl, _⟩ <;> decide
    refine List.forall_mem_cons.2 ⟨by decide, List.forall_mem_cons.2 ⟨hletter, fun d hd => ?_⟩⟩
    obtain ⟨v, hv, rfl⟩ := hds d hd
    exact hall v hv

theorem isAscii_of_mem_encode {cs : List CodePoint} (hcs : ∀ c ∈ cs, c.isAscii) :
    ∀ x ∈ encode cs, (CodePoint.ofChar x).isAscii := by
  have hq : IsQuote (quoteFor cs) := quoteFor_eq cs
  have hquote : (CodePoint.ofChar (quoteFor cs)).isAscii := by
    rcases hq with h | h <;> rw [h] <;> decide
  intro x hx
  rw [encode, List.mem_append, List.mem_cons, List.mem_singleton] at hx
  rcases hx with (rfl | hx) | rfl
  · exact hquote
  · obtain ⟨c, hc, hxc⟩ := List.mem_flatMap.1 hx
    have hstands := stands_escape hq (CodePoint.inRange_of_isAscii (hcs c hc))
    exact isAscii_of_stands hstands (hcs c hc) x hxc
  · exact hquote

end Literal

namespace Text

/-- Well-formed text in compact storage of which all code points are ASCII. -/
structure AsciiCompact (t : Text) : Prop where
  wellFormed : t.WellFormed
  isCompact : t.isCompact
  forall_isAscii : ∀ c ∈ t.codePoints, c.isAscii

theorem forall_isAscii_iff {t : Text} (h : t.WellFormed) :
    (∀ c ∈ t.codePoints, c.isAscii) ↔ t.isAscii := by
  rw [isAscii_eq h, List.all_eq_true]

theorem isAscii_fillCodePoint {fill : Option Text}
    (hf : ∀ f ∈ fill, f.WellFormed ∧ f.isAscii) {c : CodePoint} (h : fillCodePoint fill = .ok c) :
    c.isAscii := by
  rcases eq_or_mem_of_fillCodePoint (fun f hm => (hf f hm).1) h with rfl | ⟨f, hfill, hc⟩
  · decide
  · obtain ⟨hwf, hascii⟩ := hf f hfill
    exact (forall_isAscii_iff hwf).2 hascii c hc

namespace AsciiCompact

theorem mk_ofString {s : String} (h : Utf8.isAscii s) : (ofString s).AsciiCompact where
  wellFormed := wellFormed_ofString s
  isCompact := rfl
  forall_isAscii := (forall_isAscii_iff (wellFormed_ofString s)).2 h

theorem empty : Text.empty.AsciiCompact := mk_ofString rfl

theorem mk_ofCodePoint {c : CodePoint} (hc : c.isAscii) {u : Text} (h : ofCodePoint c = .ok u) :
    u.AsciiCompact where
  wellFormed := wellFormed_ofCodePoint h
  isCompact := by
    rw [isCompact_ofCodePoint h]
    exact CodePoint.isSome_toChar?_of_isAscii hc
  forall_isAscii := by
    rw [codePoints_ofCodePoint h]
    exact List.forall_mem_singleton.2 hc

section

variable {t : Text} (h : t.AsciiCompact)
include h

theorem isAscii : t.isAscii := (forall_isAscii_iff h.wellFormed).1 h.forall_isAscii

theorem eq_compact : ∃ s, Utf8.isAscii s ∧ t = .compact s s.utf8ByteSize true := by
  cases t with
  | compact s n ascii =>
    obtain rfl : ascii = true := h.isAscii
    have hs := isAscii_of_wellFormed h.wellFormed
    have hn : n = s.utf8ByteSize := by
      rw [Utf8.utf8ByteSize_of_isAscii hs]
      exact h.wellFormed.1
    exact ⟨s, hs, by rw [hn]⟩
  | wide cs => exact absurd h.isCompact nofun

theorem item {u : Text} {index : Int64} (hu : t.item index = .ok u) : u.AsciiCompact := by
  rw [item_eq h.wellFormed] at hu
  obtain ⟨i, _, hi⟩ := bind_eq_ok.1 hu
  split at hi
  · next c hc => exact mk_ofCodePoint (h.forall_isAscii c (List.mem_of_getElem? hc)) hi
  · cases hi

theorem slice {u : Text} {range : Slice} (hu : t.slice range = .ok u) : u.AsciiCompact where
  wellFormed := wellFormed_slice h.wellFormed hu
  isCompact := isCompact_slice_of_isAscii h.isCompact h.isAscii hu
  forall_isAscii := by
    obtain ⟨selection, hr, _⟩ := bind_eq_ok.1 hu
    rw [codePoints_of_slice hr h.wellFormed hu]
    exact fun c hc => h.forall_isAscii c (mem_of_mem_itemsAt hc)

theorem concat {u : Text} (hu : u.AsciiCompact) : (t.concat u).AsciiCompact where
  wellFormed := wellFormed_concat h.wellFormed hu.wellFormed
  isCompact := by
    rw [isCompact_concat, h.isCompact, hu.isCompact]
    simp
  forall_isAscii := by
    rw [codePoints_concat h.wellFormed hu.wellFormed, List.forall_mem_append]
    exact ⟨h.forall_isAscii, hu.forall_isAscii⟩

theorem replicate {u : Text} {n : Nat} (hu : t.replicate n = .ok u) : u.AsciiCompact where
  wellFormed := wellFormed_replicate h.wellFormed hu
  isCompact := by rw [isCompact_replicate hu, h.isCompact, Bool.or_true]
  forall_isAscii := by
    rw [codePoints_replicate h.wellFormed hu]
    exact fun c hc => h.forall_isAscii c (mem_copies hc)

/-- The pattern leaves no code points in the result, so it has to be compact only. -/
theorem replace {pattern substitute : Text} (hp : pattern.isCompact) (hs : substitute.AsciiCompact)
    (limit : Option Nat) : (t.replace pattern substitute limit).AsciiCompact where
  wellFormed := wellFormed_replace h.wellFormed hs.wellFormed pattern limit
  isCompact := by
    rw [isCompact_replace, h.isCompact, hp, hs.isCompact]
    simp
  forall_isAscii := by
    rw [codePoints_replace]
    intro c hc
    rcases mem_replaceCodePoints hc with hc | hc
    · exact hs.forall_isAscii c hc
    · exact h.forall_isAscii c hc

theorem padRight {u : Text} {memory : Allocator} {width : Int64} {fill : Option Text}
    (hf : ∀ f ∈ fill, f.WellFormed ∧ f.isAscii) (hu : t.padRight memory width fill = .ok u) :
    u.AsciiCompact := by
  obtain ⟨c, hc, hwf, hcs⟩ := exists_fill_of_padRight h.wellFormed (fun f hm => (hf f hm).1) hu
  have hascii := isAscii_fillCodePoint hf hc
  refine ⟨hwf, ?_, ?_⟩
  · rw [isCompact_padRight h.wellFormed hc hu, h.isCompact,
      CodePoint.isSome_toChar?_of_isAscii hascii]
    simp
  · rw [hcs, List.forall_mem_append]
    refine ⟨h.forall_isAscii, fun d hd => ?_⟩
    rw [List.eq_of_mem_replicate hd]
    exact hascii

theorem zeroPad {u : Text} {memory : Allocator} {width : Int64}
    (hu : t.zeroPad memory width = .ok u) : u.AsciiCompact where
  wellFormed := wellFormed_zeroPad h.wellFormed hu
  isCompact := by rw [isCompact_zeroPad hu, h.isCompact]
  forall_isAscii := by
    rcases eq_or_eq_zeroPadded hu with rfl | rfl
    · exact h.forall_isAscii
    · rw [codePoints_zeroPadded]
      intro c hc
      rcases mem_zerosAfterSign hc with rfl | hc
      · decide
      · exact h.forall_isAscii c hc

theorem literal : (ofString t.literal).AsciiCompact := by
  apply mk_ofString
  rw [Utf8.isAscii_eq, List.all_eq_true, toList_literal]
  exact Literal.isAscii_of_mem_encode h.forall_isAscii

end

end AsciiCompact
end Text
end CodePointText
