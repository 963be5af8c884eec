import CodePointText.Proofs.Operand.Grammar
import CodePointText.Proofs.Text.Storage

/-!
# Texts padded with zeros

Zeros that fill a text up to a width stand behind its sign and in front of all else. The text keeps
its storage, and what is a numeral still denotes the same integer.
-/

namespace CodePointText
namespace Text

open Operand Numeral

/-- Code points told apart into a leading plus or minus sign, if there is one, and the rest. -/
inductive Signed : List CodePoint → List CodePoint → List CodePoint → Prop
  | sign {c : CodePoint} {rest : List CodePoint} (h : c = .ofChar '+' ∨ c = .ofChar '-') :
      Signed (c :: rest) [c] rest
  | plain {cs : List CodePoint} (h : ∀ c ∈ cs.head?, c ≠ .ofChar '+' ∧ c ≠ .ofChar '-') :
      Signed cs [] cs

theorem isSign_iff {c : CodePoint} : isSign c ↔ c = .ofChar '+' ∨ c = .ofChar '-' := by
  rw [isSign, Bool.or_eq_true, beq_iff_eq, beq_iff_eq]
  exact Iff.rfl

theorem exists_signed (cs : List CodePoint) : ∃ sign rest, Signed cs sign rest := by
  cases cs with
  | nil => exact ⟨_, _, .plain nofun⟩
  | cons c cs =>
    by_cases hc : c = .ofChar '+' ∨ c = .ofChar '-'
    · exact ⟨_, _, .sign hc⟩
    · refine ⟨_, _, .plain ?_⟩
      rintro _ ⟨⟩
      exact not_or.1 hc

theorem Signed.unique {cs sign rest sign' rest' : List CodePoint} (h : Signed cs sign rest)
    (h' : Signed cs sign' rest') : sign = sign' ∧ rest = rest' := by
  cases h with
  | sign hc =>
    cases h' with
    | sign => exact ⟨rfl, rfl⟩
    | plain hne => exact absurd hc (not_or.2 (hne _ rfl))
  | plain hne =>
    cases h' with
    | sign hc => exact absurd hc (not_or.2 (hne _ rfl))
    | plain => exact ⟨rfl, rfl⟩

theorem zerosAfterSign_of_signed {cs sign rest : List CodePoint} (h : Signed cs sign rest)
    (zeros : Nat) : zerosAfterSign zeros cs = sign ++ List.replicate zeros 0x30 ++ rest := by
  cases h with
  | sign hc =>
    rw [zerosAfterSign, if_pos (isSign_iff.2 hc)]
    rfl
  | plain hne =>
    cases cs with
    | nil => exact (List.append_nil _).symm
    | cons c cs =>
      have hc : ¬ isSign c := fun hc => not_or.2 (hne c rfl) (isSign_iff.1 hc)
      rw [zerosAfterSign, if_neg hc]
      rfl

theorem signed_of_denotes {ds : List Char} {n : Nat} (h : Denotes 10 ds n) :
    Signed (ds.map CodePoint.ofChar) ([].map CodePoint.ofChar) (ds.map CodePoint.ofChar) := by
  refine .plain fun c hc => ?_
  obtain ⟨x, hx, rfl⟩ := List.mem_map.1 (List.mem_of_mem_head? hc)
  have hne {y : Char} (hy : digitValue? 10 y = none) : x ≠ y := by
    rintro rfl
    exact not_denotes_of_mem (by decide) hx hy n h
  exact ⟨CodePoint.ofChar_injective.ne (hne rfl), CodePoint.ofChar_injective.ne (hne rfl)⟩

theorem zerosAfterSign_map_ofChar {cs sign rest : List Char} (h : Signed
    (cs.map CodePoint.ofChar) (sign.map CodePoint.ofChar) (rest.map CodePoint.ofChar))
    (zeros : Nat) : zerosAfterSign zeros (cs.map CodePoint.ofChar) =
      (sign ++ List.replicate zeros '0' ++ rest).map CodePoint.ofChar := by
  rw [zerosAfterSign_of_signed h, List.map_append, List.map_append, List.map_replicate]
  rfl

/-- The zeros that are put into a numeral are digits behind its sign, and it denotes what it did. -/
theorem exists_denotesInt_zerosAfterSign {cs : List Char} {i : Int} (h : DenotesInt cs i)
    (zeros : Nat) : ∃ ds, DenotesInt ds i ∧
      zerosAfterSign zeros (cs.map CodePoint.ofChar) = ds.map CodePoint.ofChar := by
  cases h with
  | plain h =>
    exact ⟨_, .plain (h.zeros_append zeros), zerosAfterSign_map_ofChar (signed_of_denotes h) zeros⟩
  | @plus cs n h =>
    have hsigned : Signed (('+' :: cs).map CodePoint.ofChar) (['+'].map CodePoint.ofChar)
        (cs.map CodePoint.ofChar) := .sign (.inl rfl)
    exact ⟨_, .plus (h.zeros_append zeros), zerosAfterSign_map_ofChar hsigned zeros⟩
  | @minus cs n h =>
    have hsigned : Signed (('-' :: cs).map CodePoint.ofChar) (['-'].map CodePoint.ofChar)
        (cs.map CodePoint.ofChar) := .sign (.inr rfl)
    exact ⟨_, .minus (h.zeros_append zeros), zerosAfterSign_map_ofChar hsigned zeros⟩

theorem exists_read_zeroPadded {t : Text} {s : String} (hs : t.string? = some s) {n : Int64}
    (h : read (tagged "i" s) = .ok (.int n)) (width : Nat) :
    ∃ v, (t.zeroPadded width).string? = some v ∧ read (tagged "i" v) = .ok (.int n) := by
  obtain ⟨ds, hds, hzeros⟩ := exists_denotesInt_zerosAfterSign (read_integer_eq_ok.1 h)
    (width - t.length)
  have hcompact : (t.zeroPadded width).string?.isSome := by
    rw [isSome_string?, isCompact_zeroPadded, ← isSome_string?, hs]
    rfl
  obtain ⟨v, hv⟩ := Option.isSome_iff_exists.1 hcompact
  -- Both strings have the code points of the padded text, and these are characters in one way only.
  have hchars : v.toList = ds := by
    rw [← map_ofChar_inj, ← codePoints_of_string? hv, codePoints_zeroPadded,
      codePoints_of_string? hs, hzeros]
  exact ⟨v, hv, read_integer_eq_ok.2 (hchars ▸ hds)⟩

theorem length_zeroPadded {t : Text} (ht : t.WellFormed) {width : Nat} (h : t.length ≤ width) :
    (t.zeroPadded width).length = width := by
  rw [length_eq (wellFormed_zeroPadded ht width), codePoints_zeroPadded, length_zerosAfterSign,
    ← length_eq ht]
  omega

/-- Padding with zeros is exact. A text that is as wide already is kept as it is stored. A narrower
one is brought to exactly the width, in its own storage, by zeros between its sign and the rest, if
the allocator grants so many words, and this is an error otherwise; an allocator that grants nothing
from 2^60 on grants no such width. All that a compact text is padded to are characters, so nothing
is lost where they are made a string again, and if the text was read as an integer, it still is read
as the same integer. -/
theorem zero_padding_exact {t : Text} (ht : t.WellFormed) (memory : Allocator) (width : Int64) :
    (width.toInt ≤ t.length → t.zeroPad memory width = .ok t) ∧
    (t.length < width.toInt → ∃ u sign rest,
      t.zeroPad memory width =
        (if memory.words width.toInt.toNat then .ok u else .error .paddingTooLong) ∧
      u.length = width.toInt ∧ u.isCompact = t.isCompact ∧ Signed t.codePoints sign rest ∧
      u.codePoints = sign ++ List.replicate (width.toInt.toNat - t.length) 0x30 ++ rest) ∧
    (memory.Bounded → t.length < width.toInt → 0x1000000000000000 ≤ width.toInt →
      t.zeroPad memory width = .error .paddingTooLong) ∧
    (t.isCompact → ∀ zeros,
      ((zerosAfterSign zeros t.codePoints).filterMap CodePoint.toChar?).map CodePoint.ofChar =
        zerosAfterSign zeros t.codePoints) ∧
    (∀ s n u, t.string? = some s → read (tagged "i" s) = .ok (.int n) →
      t.zeroPad memory width = .ok u →
        ∃ v, u.string? = some v ∧ read (tagged "i" v) = .ok (.int n)) := by
  have hpad := zeroPad_eq t memory width
  refine ⟨fun hle => ?_, fun hlt => ?_, fun hm hlt hlarge => ?_, map_filterMap_zerosAfterSign,
    fun s n u hs hn hu => ?_⟩
  · rw [hpad, if_pos (by omega)]
  · rw [if_neg (by omega)] at hpad
    obtain ⟨sign, rest, hsigned⟩ := exists_signed t.codePoints
    have hlength : (t.zeroPadded width.toInt.toNat).length = width.toInt.toNat :=
      length_zeroPadded ht (by omega)
    refine ⟨_, sign, rest, hpad, by omega, isCompact_zeroPadded t _, hsigned, ?_⟩
    rw [codePoints_zeroPadded, zerosAfterSign_of_signed hsigned]
  · have hrefused : ¬ memory.words width.toInt.toNat := fun hgranted =>
      absurd (hm.words_lt hgranted) (by omega)
    rw [hpad, if_neg (by omega), if_neg hrefused]
  · rcases eq_or_eq_zeroPadded hu with rfl | rfl
    · exact ⟨s, hs, hn⟩
    · exact exists_read_zeroPadded hs hn _

/-- The least word stays the least word behind four zeros more, and a plus sign stays in front of a
lone surrogate. No text is brought to the greatest width, and 2^59 words are not granted even where
the bytes of the result would be. -/
theorem zero_padding_of_two_storages :
    (ofString "-9223372036854775808").WellFormed ∧ (wide [0x2B, 0xD800]).WellFormed ∧
      Allocator.process.Bounded ∧
      (∃ u v, (ofString "-9223372036854775808").zeroPad .process 24 = .ok u ∧ u.string? = some v ∧
        u.codePoints = "-00009223372036854775808".toList.map CodePoint.ofChar ∧
        read (tagged "i" v) = .ok (.int Int64.minValue)) ∧
      (∃ u, (wide [0x2B, 0xD800]).zeroPad .process 4 = .ok u ∧ u.isCompact = false ∧
        u.codePoints = [0x2B, 0x30, 0x30, 0xD800]) ∧
      (wide [0x2B, 0xD800]).zeroPad .process Int64.maxValue = .error .paddingTooLong ∧
      (ofString "-9223372036854775808").zeroPad .process 0x800000000000000 =
        .error .paddingTooLong := by
  have ht := wellFormed_ofString "-9223372036854775808"
  have hw : (wide [0x2B, 0xD800]).WellFormed := by decide
  refine ⟨ht, hw, Allocator.bounded_process, ?_, ?_, ?_, ?_⟩
  · obtain ⟨_, hpads, _, _, hreads⟩ := zero_padding_exact ht .process 24
    obtain ⟨u, sign, rest, hu, _, _, hsigned, hcs⟩ := hpads (by decide +kernel)
    rw [if_pos (by decide)] at hu
    obtain ⟨rfl, rfl⟩ := hsigned.unique (.sign (.inr rfl))
    obtain ⟨v, hv, hn⟩ := hreads "-9223372036854775808" Int64.minValue u rfl (by decide +kernel) hu
    exact ⟨u, v, hu, hv, hcs.trans (by decide +kernel), hn⟩
  · obtain ⟨_, hpads, _⟩ := zero_padding_exact hw .process 4
    obtain ⟨u, sign, rest, hu, _, hstorage, hsigned, hcs⟩ := hpads (by decide)
    rw [if_pos (by decide)] at hu
    obtain ⟨rfl, rfl⟩ := hsigned.unique (.sign (.inl rfl))
    exact ⟨u, hu, hstorage, hcs⟩
  · obtain ⟨_, _, hfails, _⟩ := zero_padding_exact hw .process Int64.maxValue
    exact hfails Allocator.bounded_process (by decide) (by decide)
  · obtain ⟨_, hpads, _⟩ := zero_padding_exact ht .process 0x800000000000000
    obtain ⟨u, _, _, hu, _⟩ := hpads (by decide +kernel)
    rw [if_neg (by decide)] at hu
    exact hu

end Text
end CodePointText
