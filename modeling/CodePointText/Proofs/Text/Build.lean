import CodePointText.Text.Build
import CodePointText.Text.Pad

/-!
# Contents repeated and padded

Which code points come of a repetition or a padding that does not fail, how either fails, and that
what is built is well-formed.
-/

namespace CodePointText
namespace Text

theorem wellFormed_replicate {t u : Text} (ht : t.WellFormed) {n : Nat}
    (h : t.replicate n = .ok u) : u.WellFormed := by
  unfold replicate at h
  split at h
  · obtain rfl := Except.ok.inj h
    exact wellFormed_ofString ""
  · split at h
    · obtain rfl := Except.ok.inj h
      exact ht
    · split at h
      · split at h
        · obtain rfl := Except.ok.inj h
          exact wellFormed_ofString _
        · obtain rfl := Except.ok.inj h
          exact fun c hc => inRange_of_mem ht (mem_copies hc)
      · cases h

theorem replicate_error {t : Text} {n : Nat} {e : TextError} (h : t.replicate n = .error e) :
    e = .repetitionTooLong := by
  unfold replicate at h
  split at h
  · cases h
  · split at h
    · cases h
    · split at h
      · split at h <;> cases h
      · exact (Except.error.inj h).symm

theorem replicate_cases {t : Text} (ht : t.WellFormed) (n : Nat) :
    t.replicate n = .error .repetitionTooLong ∨
      ∃ u, t.replicate n = .ok u ∧ u.WellFormed ∧ u.codePoints = copies n t.codePoints := by
  cases h : t.replicate n with
  | error e => exact .inl (congrArg _ (replicate_error h))
  | ok u => exact .inr ⟨u, rfl, wellFormed_replicate ht h, codePoints_replicate ht h⟩

theorem fillCodePoint_some {fill : Text} (h : fill.WellFormed) :
    fillCodePoint (some fill) =
      if fill.codePoints.length = 1 then .ok (fill.codePoints.head?.getD 0x20)
      else .error .fillNotOneCharacter := by
  rw [fillCodePoint, length_eq h]

theorem eq_or_mem_of_fillCodePoint {fill : Option Text} (hf : ∀ f ∈ fill, f.WellFormed)
    {c : CodePoint} (h : fillCodePoint fill = .ok c) : c = 0x20 ∨ ∃ f ∈ fill, c ∈ f.codePoints := by
  cases fill with
  | none => exact .inl (Except.ok.inj h).symm
  | some f =>
    rw [fillCodePoint_some (hf f rfl)] at h
    split at h
    · next h1 =>
      obtain ⟨x, hx⟩ := List.length_eq_one_iff.1 h1
      obtain rfl := Except.ok.inj h
      exact .inr ⟨f, rfl, by simp [hx]⟩
    · cases h

theorem inRange_fillCodePoint {fill : Option Text} (hf : ∀ f ∈ fill, f.WellFormed) {c : CodePoint}
    (h : fillCodePoint fill = .ok c) : c.inRange := by
  rcases eq_or_mem_of_fillCodePoint hf h with rfl | ⟨f, hfill, hc⟩
  · decide
  · exact inRange_of_mem (hf f hfill) hc

theorem padRight_of_fill_error {t : Text} {memory : Allocator} {width : Int64} {fill : Option Text}
    {e : TextError} (h : fillCodePoint fill = .error e) :
    t.padRight memory width fill = .error e := by
  rw [padRight, h]
  rfl

theorem codePoints_of_string? {t : Text} {s : String} (h : t.string? = some s) :
    t.codePoints = s.toList.map CodePoint.ofChar := by
  cases t with
  | compact s' n ascii =>
    obtain rfl := Option.some.inj h
    rfl
  | wide cs => cases h

def paddedString (s : String) (copies : Nat) (x : Char) : String :=
  String.ofList (s.toList ++ List.replicate copies x)

def padded (t : Text) (width : Nat) (c : CodePoint) : Text :=
  match t.string?, c.toChar? with
  | some s, some x => ofString (paddedString s (width - t.length) x)
  | _, _ => .wide (t.codePoints ++ List.replicate (width - t.length) c)

/-- The room that a text takes: the bytes of a compact one, the words of a wide one. -/
def room : Text → Nat
  | .compact s _ _ => (Utf8.bytes s).length
  | .wide cs => cs.length

theorem length_bytes_paddedString (s : String) (copies : Nat) (x : Char) :
    (Utf8.bytes (paddedString s copies x)).length = copies * x.utf8Size + s.utf8ByteSize := by
  rw [paddedString, Utf8.bytes_ofList, List.flatMap_append, ← Utf8.bytes_eq_flatMap,
    List.length_append, Utf8.length_bytes]
  simp [Nat.add_comm]

/-- Computed in checked steps, the size of a padded string is its size in bytes, if that is a
word. -/
theorem paddedSize_eq (s : String) (copies : Nat) (x : Char) :
    paddedSize s copies x =
      if (Utf8.bytes (paddedString s copies x)).length < Size.limit then
        some (Utf8.bytes (paddedString s copies x)).length
      else none := by
  rw [length_bytes_paddedString, paddedSize, Size.mul?]
  split
  · rw [Option.bind_some, Size.add?]
  · rw [Option.bind_none, if_neg (by omega)]

/-- The room for a text is granted. A size in bytes that is no word is not even asked for. -/
def grantedBy (t : Text) (memory : Allocator) : Bool :=
  match t with
  | .compact .. => t.room < Size.limit && memory.bytes t.room
  | .wide _ => memory.words t.room

theorem room_lt_of_grantedBy {t : Text} {memory : Allocator} (hm : memory.Bounded)
    (h : t.grantedBy memory) : t.room < 0x1000000000000000 := by
  cases t with
  | compact s n ascii => exact hm.bytes_lt (Bool.and_eq_true_iff.1 h).2
  | wide cs => exact hm.words_lt h

theorem grantedBy_ofString (s : String) (memory : Allocator) :
    (ofString s).grantedBy memory =
      (decide ((Utf8.bytes s).length < Size.limit) && memory.bytes (Utf8.bytes s).length) := rfl

theorem any_bytes_paddedSize (memory : Allocator) (s : String) (copies : Nat) (x : Char) :
    (paddedSize s copies x).any memory.bytes =
      (ofString (paddedString s copies x)).grantedBy memory := by
  rw [paddedSize_eq, grantedBy_ofString]
  split
  · next h => rw [Option.any_some, decide_eq_true h, Bool.true_and]
  · next h => rw [Option.any_none, decide_eq_false h, Bool.false_and]

section

variable {t : Text} {c : CodePoint} (width : Nat)

theorem padded_of_characters {s : String} {x : Char} (hs : t.string? = some s)
    (hx : c.toChar? = some x) :
    t.padded width c = ofString (paddedString s (width - t.length) x) := by
  rw [padded, hs, hx]

theorem padded_of_no_characters (h : ∀ s x, t.string? = some s → c.toChar? = some x → False) :
    t.padded width c = .wide (t.codePoints ++ List.replicate (width - t.length) c) := by
  unfold padded
  split
  · next s x hs hx => exact absurd hx (h s x hs)
  · rfl

theorem room_padded_of_no_characters (ht : t.WellFormed) (hle : t.length ≤ width)
    (h : ∀ s x, t.string? = some s → c.toChar? = some x → False) :
    (t.padded width c).room = width := by
  rw [padded_of_no_characters width h, room, List.length_append, List.length_replicate,
    ← length_eq ht]
  omega

theorem codePoints_padded (t : Text) (c : CodePoint) :
    (t.padded width c).codePoints = t.codePoints ++ List.replicate (width - t.length) c := by
  unfold padded
  split
  · next s x hs hx =>
    rw [codePoints_ofString, paddedString, String.toList_ofList, List.map_append,
      List.map_replicate, codePoints_of_string? hs, CodePoint.toChar?_eq_some.1 hx]
  · rfl

end

/-- With a fill, a text that is as wide already is kept; any other is padded if there is room for
the result. -/
theorem padRight_eq {t : Text} (ht : t.WellFormed) (memory : Allocator) (width : Int64)
    {fill : Option Text} {c : CodePoint} (h : fillCodePoint fill = .ok c) :
    t.padRight memory width fill =
      if width.toInt.toNat ≤ t.length then .ok t
      else if (t.padded width.toInt.toNat c).grantedBy memory then
        .ok (t.padded width.toInt.toNat c)
      else .error .paddingTooLong := by
  rw [padRight, h]
  generalize width.toInt.toNat = width
  change (if width ≤ t.length then _ else _) = _
  split
  · rfl
  · split
    · next s x hs hx =>
      rw [padded_of_characters width hs hx, any_bytes_paddedSize]
      rfl
    · next hle hnone =>
      have hroom := room_padded_of_no_characters width ht (by omega) hnone
      rw [padded_of_no_characters width hnone] at hroom ⊢
      rw [grantedBy, hroom]
      rfl

theorem wellFormed_padded {t : Text} (ht : t.WellFormed) (width : Nat) {c : CodePoint}
    (hc : c.inRange) : (t.padded width c).WellFormed := by
  unfold padded
  split
  · exact wellFormed_ofString _
  · intro d hd
    rcases List.mem_append.1 hd with hd | hd
    · exact inRange_of_mem ht hd
    · rw [List.eq_of_mem_replicate hd]
      exact hc

/-- With a fill, either the padding does not fit, or the copies of the fill stand behind the text. A
text that is as wide already has none. -/
theorem padRight_cases {t : Text} (ht : t.WellFormed) (memory : Allocator) (width : Int64)
    {fill : Option Text} {c : CodePoint} (h : fillCodePoint fill = .ok c) (hc : c.inRange) :
    t.padRight memory width fill = .error .paddingTooLong ∨
      ∃ u, t.padRight memory width fill = .ok u ∧ u.WellFormed ∧ u.codePoints =
        t.codePoints ++ List.replicate (width.toInt.toNat - t.codePoints.length) c := by
  rw [padRight_eq ht memory width h, ← length_eq ht]
  split
  · next hle =>
    refine Or.inr ⟨t, rfl, ht, ?_⟩
    rw [Nat.sub_eq_zero_of_le hle, List.replicate_zero, List.append_nil]
  · split
    · exact Or.inr ⟨_, rfl, wellFormed_padded ht _ hc, codePoints_padded _ t c⟩
    · exact Or.inl rfl

theorem exists_fill_of_padRight {t u : Text} (ht : t.WellFormed) {memory : Allocator}
    {width : Int64} {fill : Option Text} (hf : ∀ f ∈ fill, f.WellFormed)
    (h : t.padRight memory width fill = .ok u) :
    ∃ c, fillCodePoint fill = .ok c ∧ u.WellFormed ∧ u.codePoints =
      t.codePoints ++ List.replicate (width.toInt.toNat - t.codePoints.length) c := by
  cases hc : fillCodePoint fill with
  | error e =>
    rw [padRight_of_fill_error hc] at h
    cases h
  | ok c =>
    have hr := inRange_fillCodePoint hf hc
    obtain he | ⟨v, hv, hwf, hcs⟩ := padRight_cases ht memory width hc hr
    · rw [h] at he
      cases he
    · obtain rfl := Except.ok.inj (h.symm.trans hv)
      exact ⟨c, rfl, hwf, hcs⟩

theorem map_filterMap_toChar? {cs : List CodePoint} (h : ∀ c ∈ cs, c.toChar?.isSome) :
    (cs.filterMap CodePoint.toChar?).map CodePoint.ofChar = cs := by
  induction cs with
  | nil => rfl
  | cons c cs ih =>
    obtain ⟨x, hx⟩ := Option.isSome_iff_exists.1 (h c (by simp))
    have hcs := ih fun d hd => h d (by simp [hd])
    rw [List.filterMap_cons_some hx, List.map_cons, hcs, CodePoint.toChar?_eq_some.1 hx]

theorem mem_zerosAfterSign {zeros : Nat} {cs : List CodePoint} {c : CodePoint}
    (h : c ∈ zerosAfterSign zeros cs) : c = 0x30 ∨ c ∈ cs := by
  cases cs with
  | nil => exact Or.inl (List.eq_of_mem_replicate h)
  | cons d ds =>
    rw [zerosAfterSign] at h
    split at h
    · rw [List.mem_cons, List.mem_append] at h
      rcases h with rfl | h | h
      · exact Or.inr (List.mem_cons_self)
      · exact Or.inl (List.eq_of_mem_replicate h)
      · exact Or.inr (List.mem_cons_of_mem d h)
    · rcases List.mem_append.1 h with h | h
      · exact Or.inl (List.eq_of_mem_replicate h)
      · exact Or.inr h

theorem isSome_toChar?_of_isCompact {t : Text} (h : t.isCompact) {c : CodePoint}
    (hc : c ∈ t.codePoints) : c.toChar?.isSome := by
  cases t with
  | compact s n ascii =>
    obtain ⟨x, _, rfl⟩ := List.mem_map.1 hc
    rw [CodePoint.toChar?_ofChar]
    rfl
  | wide cs => cases h

/-- All code points behind the zeros and the sign of a compact text are characters, so none is lost
when they are read as characters. -/
theorem map_filterMap_zerosAfterSign {t : Text} (h : t.isCompact) (zeros : Nat) :
    ((zerosAfterSign zeros t.codePoints).filterMap CodePoint.toChar?).map CodePoint.ofChar =
      zerosAfterSign zeros t.codePoints := by
  refine map_filterMap_toChar? fun c hc => ?_
  rcases mem_zerosAfterSign hc with rfl | hc
  · decide
  · exact isSome_toChar?_of_isCompact h hc

def zeroPadded (t : Text) (width : Nat) : Text :=
  let cs := zerosAfterSign (width - t.length) t.codePoints
  if t.isCompact then ofChars (cs.filterMap CodePoint.toChar?) else .wide cs

theorem codePoints_zeroPadded (t : Text) (width : Nat) :
    (t.zeroPadded width).codePoints = zerosAfterSign (width - t.length) t.codePoints := by
  rw [zeroPadded]
  split
  · next hc => rw [codePoints_ofChars, map_filterMap_zerosAfterSign hc]
  · rfl

theorem wellFormed_zeroPadded {t : Text} (ht : t.WellFormed) (width : Nat) :
    (t.zeroPadded width).WellFormed := by
  rw [zeroPadded]
  split
  · exact wellFormed_ofString _
  · intro c hc
    rcases mem_zerosAfterSign hc with rfl | hc
    · decide
    · exact inRange_of_mem ht hc

/-- A text that is as wide already is kept; any other is padded if so many words can be reserved,
however it is stored. -/
theorem zeroPad_eq (t : Text) (memory : Allocator) (width : Int64) :
    t.zeroPad memory width =
      if width.toInt.toNat ≤ t.length then .ok t
      else if memory.words width.toInt.toNat then .ok (t.zeroPadded width.toInt.toNat)
      else .error .paddingTooLong := rfl

theorem zeroPad_cases {t : Text} (ht : t.WellFormed) (memory : Allocator) (width : Int64) :
    t.zeroPad memory width = .error .paddingTooLong ∨
      ∃ u, t.zeroPad memory width = .ok u ∧ u.WellFormed ∧ u.codePoints =
        if width.toInt.toNat ≤ t.codePoints.length then t.codePoints
        else zerosAfterSign (width.toInt.toNat - t.codePoints.length) t.codePoints := by
  rw [zeroPad_eq, ← length_eq ht]
  split
  · exact .inr ⟨t, rfl, ht, rfl⟩
  · split
    · exact .inr ⟨_, rfl, wellFormed_zeroPadded ht _, codePoints_zeroPadded t _⟩
    · exact .inl rfl

theorem eq_or_eq_zeroPadded {t u : Text} {memory : Allocator} {width : Int64}
    (h : t.zeroPad memory width = .ok u) : u = t ∨ u = t.zeroPadded width.toInt.toNat := by
  rw [zeroPad_eq] at h
  split at h
  · exact .inl (Except.ok.inj h).symm
  · split at h
    · exact .inr (Except.ok.inj h).symm
    · cases h

theorem wellFormed_zeroPad {t u : Text} (ht : t.WellFormed) {memory : Allocator} {width : Int64}
    (h : t.zeroPad memory width = .ok u) : u.WellFormed := by
  rcases eq_or_eq_zeroPadded h with rfl | rfl
  · exact ht
  · exact wellFormed_zeroPadded ht _

end Text
end CodePointText
