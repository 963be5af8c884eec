import CodePointText.Proofs.Text.Storage
import CodePointText.Proofs.Utf8.Boundary

/-!
# Texts padded on the right

A padded text is exactly as wide as is asked for, and the room that is reserved for it is the room
that it takes. So a padding fails exactly if its result is too large, and it gives nothing else
instead. Once padded, a text stays as it is.
-/

namespace CodePointText
namespace Text

/-- What a fill stands for: a space if there is none, and its one code point otherwise. -/
inductive FillsWith : Option Text → CodePoint → Prop
  | space : FillsWith none 0x20
  | single {f : Text} {c : CodePoint} (h : f.codePoints = [c]) : FillsWith (some f) c

/-- There is a fill, and it is not one code point. -/
def BadFill (fill : Option Text) : Prop := ∃ f, fill = some f ∧ f.length ≠ 1

/-- A code point takes a byte at least, or a word. -/
theorem length_codePoints_le_room (t : Text) : t.codePoints.length ≤ t.room := by
  cases t with
  | compact s n ascii =>
    rw [room, Utf8.bytes_eq_encode, codePoints_compact, List.length_map]
    exact Utf8.length_le_length_encode s.toList
  | wide cs => exact Nat.le_refl _

theorem paddedSize_eq_room {t : Text} {s : String} {x : Char} (width : Nat) {c : CodePoint}
    (hs : t.string? = some s) (hx : c.toChar? = some x) :
    paddedSize s (width - t.length) x =
      if (t.padded width c).room < 0x10000000000000000 then some (t.padded width c).room
      else none := by
  rw [paddedSize_eq, padded_of_characters width hs hx]
  rfl

theorem fillCodePoint_eq_error_iff {fill : Option Text} :
    fillCodePoint fill = .error .fillNotOneCharacter ↔ BadFill fill := by
  cases fill with
  | none => exact ⟨nofun, nofun⟩
  | some f => simp [fillCodePoint, BadFill]

section

variable {fill : Option Text} (hf : ∀ f ∈ fill, f.WellFormed)
include hf

theorem fillCodePoint_of_fillsWith {c : CodePoint} (h : FillsWith fill c) :
    fillCodePoint fill = .ok c := by
  cases h with
  | space => rfl
  | single hc =>
    rw [fillCodePoint_some (hf _ rfl), hc]
    rfl

theorem exists_fillsWith (h : ¬ BadFill fill) : ∃ c, FillsWith fill c := by
  cases fill with
  | none => exact ⟨_, .space⟩
  | some f =>
    have h1 : f.length = 1 := by
      by_contra hne
      exact h ⟨f, rfl, hne⟩
    rw [length_eq (hf f rfl)] at h1
    obtain ⟨c, hc⟩ := List.length_eq_one_iff.1 h1
    exact ⟨c, .single hc⟩

theorem padRight_eq_badFill_iff {t : Text} (ht : t.WellFormed) (memory : Allocator)
    (width : Int64) :
    t.padRight memory width fill = .error .fillNotOneCharacter ↔ BadFill fill := by
  refine ⟨fun h => ?_, fun h => padRight_of_fill_error (fillCodePoint_eq_error_iff.2 h)⟩
  by_contra hgood
  obtain ⟨c, hc⟩ := exists_fillsWith hf hgood
  rw [padRight_eq ht memory width (fillCodePoint_of_fillsWith hf hc)] at h
  split at h
  · cases h
  · split at h <;> cases h

end

section

variable {t : Text} (ht : t.WellFormed)
include ht

theorem padRight_of_le {memory : Allocator} {width : Int64} (h : width.toInt ≤ t.length)
    {fill : Option Text} {c : CodePoint} (hc : fillCodePoint fill = .ok c) :
    t.padRight memory width fill = .ok t := by
  rw [padRight_eq ht memory width hc, if_pos (by omega)]

theorem length_padded {width : Nat} (h : t.length ≤ width) {c : CodePoint} (hc : c.inRange) :
    (t.padded width c).length = width := by
  rw [length_eq (wellFormed_padded ht width hc), codePoints_padded, List.length_append,
    List.length_replicate, ← length_eq ht]
  omega

theorem le_length_of_padRight {u : Text} {memory : Allocator} {width : Int64} {fill : Option Text}
    (hf : ∀ f ∈ fill, f.WellFormed) (hu : t.padRight memory width fill = .ok u) :
    width.toInt ≤ u.length := by
  obtain ⟨c, _, hwf, hcs⟩ := exists_fill_of_padRight ht hf hu
  rw [length_eq hwf, hcs, List.length_append, List.length_replicate]
  omega

theorem padRight_of_padRight {u : Text} {memory memory' : Allocator} {width : Int64}
    {fill fill' : Option Text} (hf : ∀ f ∈ fill, f.WellFormed) (hf' : ∀ f ∈ fill', f.WellFormed)
    (hgood : ¬ BadFill fill') (hu : t.padRight memory width fill = .ok u) :
    u.padRight memory' width fill' = .ok u := by
  obtain ⟨_, _, hwf, _⟩ := exists_fill_of_padRight ht hf hu
  obtain ⟨c, hc⟩ := exists_fillsWith hf' hgood
  exact padRight_of_le hwf (le_length_of_padRight ht hf hu) (fillCodePoint_of_fillsWith hf' hc)

end

/-- Padding on the right is exact. A fill that is not one code point fails before all else, whatever
the width. With any other fill, a text that is as wide already is kept as it is stored. A narrower
one is given copies of the fill up to exactly the width, compact if the text is and the fill is no
surrogate, if the allocator grants the room that the result takes; this is an error otherwise, never
another text. The room is no less than the width, and an allocator that grants nothing from 2^60 on
does not grant it from there on. For a string the size is computed in checked steps, and it is the
size of the result in bytes unless that is no word. Padded again to the same width, a text is kept,
whatever the allocator then grants. -/
theorem padding_exact {t : Text} (ht : t.WellFormed) (memory : Allocator) {fill : Option Text}
    (hf : ∀ f ∈ fill, f.WellFormed) (width : Int64) :
    (t.padRight memory width fill = .error .fillNotOneCharacter ↔ BadFill fill) ∧
    (¬ BadFill fill → ∃ c, FillsWith fill c ∧
      (width.toInt ≤ t.length → t.padRight memory width fill = .ok t) ∧
      (t.length < width.toInt → ∃ u : Text, u.length = width.toInt ∧
        u.codePoints = t.codePoints ++ List.replicate (width.toInt.toNat - t.length) c ∧
        (u.isCompact ↔ t.isCompact ∧ ¬ c.isSurrogate) ∧
        t.padRight memory width fill =
          (if u.grantedBy memory then .ok u else .error .paddingTooLong) ∧
        width.toInt ≤ u.room ∧
        (memory.Bounded → 0x1000000000000000 ≤ u.room →
          t.padRight memory width fill = .error .paddingTooLong) ∧
        (∀ s x, t.string? = some s → c.toChar? = some x →
          paddedSize s (width.toInt.toNat - t.length) x =
            if u.room < 0x10000000000000000 then some u.room else none) ∧
        (t.string? = none ∨ c.toChar? = none → u.room = width.toInt))) ∧
    (∀ u memory' fill', t.padRight memory width fill = .ok u → (∀ f ∈ fill', f.WellFormed) →
      ¬ BadFill fill' → u.padRight memory' width fill' = .ok u) := by
  refine ⟨padRight_eq_badFill_iff hf ht memory width, fun hgood => ?_,
    fun u memory' fill' hu hf' hgood => padRight_of_padRight ht hf hf' hgood hu⟩
  obtain ⟨c, hfills⟩ := exists_fillsWith hf hgood
  have hc := fillCodePoint_of_fillsWith hf hfills
  have hr := inRange_fillCodePoint hf hc
  refine ⟨c, hfills, fun hle => padRight_of_le ht hle hc, fun hlt => ?_⟩
  have hpad := padRight_eq ht memory width hc
  rw [if_neg (by omega)] at hpad
  have hlength : (t.padded width.toInt.toNat c).length = width.toInt.toNat :=
    length_padded ht (by omega) hr
  have hwf := wellFormed_padded ht width.toInt.toNat hr
  have hroom := length_codePoints_le_room (t.padded width.toInt.toNat c)
  rw [← length_eq hwf] at hroom
  refine ⟨_, by omega, codePoints_padded _ t c, ?_, hpad, by omega, fun hm hle => ?_,
    fun s x hs hx => paddedSize_eq_room _ hs hx, fun hnone => ?_⟩
  · rw [isCompact_padded, Bool.and_eq_true, CodePoint.isSome_toChar?_iff hr]
  · rw [hpad, if_neg fun hgranted => absurd (room_lt_of_grantedBy hm hgranted) (by omega)]
  · rw [room_padded_of_no_characters _ ht (by omega)]
    · omega
    · rintro s x hs hx
      rcases hnone with h | h
      · cases hs.symm.trans h
      · cases hx.symm.trans h

/-- A letter of two bytes with two characters of four bytes behind it: ten bytes. There is no room
for the greatest width, where the bytes are no word, and a fill of two characters is told even then.
Words take more room than bytes: 2^59 of them are not granted. -/
theorem padding_of_two_widths :
    (ofString "é").WellFormed ∧ (ofString "😀").WellFormed ∧ (ofString "xy").WellFormed ∧
      (wide [0x61]).WellFormed ∧ Allocator.process.Bounded ∧
      (∃ u, (ofString "é").padRight .process 3 (some (ofString "😀")) = .ok u ∧
        u.codePoints = [0xE9, 0x1F600, 0x1F600] ∧ u.room = 10 ∧
        u.padRight .process 3 none = .ok u) ∧
      (ofString "é").padRight .process Int64.maxValue (some (ofString "😀")) =
        .error .paddingTooLong ∧
      (ofString "é").padRight .process Int64.maxValue (some (ofString "xy")) =
        .error .fillNotOneCharacter ∧
      (wide [0x61]).padRight .process 0x800000000000000 none = .error .paddingTooLong := by
  have ht := wellFormed_ofString "é"
  have hw : (wide [0x61]).WellFormed := by decide
  have hf : ∀ f ∈ some (ofString "😀"), f.WellFormed := by
    rintro _ ⟨⟩
    exact wellFormed_ofString "😀"
  have hf' : ∀ f ∈ some (ofString "xy"), f.WellFormed := by
    rintro _ ⟨⟩
    exact wellFormed_ofString "xy"
  have hspace : ∀ f ∈ (none : Option Text), f.WellFormed := by
    rintro _ ⟨⟩
  have hgood : ¬ BadFill (some (ofString "😀")) := by
    rintro ⟨_, ⟨⟩, h⟩
    exact h (by decide +kernel)
  have hgood' : ¬ BadFill none := by
    rintro ⟨_, ⟨⟩, _⟩
  have hfill {c : CodePoint} (h : FillsWith (some (ofString "😀")) c) : c = 0x1F600 := by
    cases h with
    | single h => exact (List.cons_eq_cons.1 h).1.symm
  refine ⟨ht, hf _ rfl, hf' _ rfl, hw, Allocator.bounded_process, ?_, ?_, ?_, ?_⟩
  · obtain ⟨_, hpads, hagain⟩ := padding_exact ht .process hf 3
    obtain ⟨c, hc, _, hnarrow⟩ := hpads hgood
    obtain rfl := hfill hc
    obtain ⟨u, _, hcs, hcompact, hpad, _, _, hsize, _⟩ := hnarrow (by decide)
    have hroom : some 10 = if u.room < 0x10000000000000000 then some u.room else none :=
      hsize "é" '😀' rfl rfl
    have hten : u.room = 10 := by
      split at hroom
      · exact (Option.some.inj hroom).symm
      · cases hroom
    have hgranted : u.grantedBy .process := by
      cases u with
      | compact s n ascii => rw [grantedBy, hten]; rfl
      | wide cs => exact absurd (hcompact.2 ⟨rfl, by decide⟩) Bool.false_ne_true
    rw [if_pos hgranted] at hpad
    exact ⟨u, hpad, hcs, hten, hagain u _ none hpad hspace hgood'⟩
  · obtain ⟨_, hpads, _⟩ := padding_exact ht .process hf Int64.maxValue
    obtain ⟨_, _, _, hnarrow⟩ := hpads hgood
    obtain ⟨u, _, _, _, _, hle, hfails, _⟩ := hnarrow (by decide)
    have hmax : Int64.maxValue.toInt = 0x7FFFFFFFFFFFFFFF := rfl
    exact hfails Allocator.bounded_process (by omega)
  · obtain ⟨hbad, _⟩ := padding_exact ht .process hf' Int64.maxValue
    exact hbad.2 ⟨_, rfl, by decide +kernel⟩
  · obtain ⟨_, hpads, _⟩ := padding_exact hw .process hspace 0x800000000000000
    obtain ⟨_, _, _, hnarrow⟩ := hpads hgood'
    obtain ⟨u, _, _, hcompact, hpad, hle, _⟩ := hnarrow (by decide)
    have hwidth : (0x800000000000000 : Int64).toInt = 0x800000000000000 := rfl
    have hrefused : ¬ u.grantedBy .process := by
      cases u with
      | compact s n ascii => exact absurd (hcompact.1 rfl).1 Bool.false_ne_true
      | wide cs =>
        intro hgranted
        have hroom : 4 * (wide cs).room ≤ 0x7FFFFFFFFFFF := of_decide_eq_true hgranted
        omega
    rw [hpad, if_neg hrefused]

end Text
end CodePointText
