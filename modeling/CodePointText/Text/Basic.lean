import CodePointText.Error
import CodePointText.Sequence
import CodePointText.Utf8

/-!
# Texts

A text is an immutable sequence of Unicode code points in one of two storages. Compact storage holds
a character string with its length and whether it is ASCII; wide storage holds the code points
themselves, lone surrogates among them. `codePoints` is the view through which all else is stated,
and `WellFormed` says that what a storage remembers is true.
-/

namespace CodePointText

inductive Text
  /-- A character string, its number of characters, and whether all of them are ASCII. -/
  | compact (string : String) (length : Nat) (ascii : Bool)
  /-- One word for each code point. -/
  | wide (codePoints : List CodePoint)
  deriving DecidableEq, Repr

namespace Text

/-- Compact text. The characters of an ASCII string are counted by its bytes. -/
def ofString (s : String) : Text :=
  let ascii := Utf8.isAscii s
  .compact s (if ascii then s.utf8ByteSize else s.length) ascii

def ofChars (chars : List Char) : Text := ofString (String.ofList chars)

def empty : Text := ofString ""

/-- Text that indexes in constant time: compact if the string is ASCII, and wide otherwise. -/
def ofStringIndexed (s : String) : Text :=
  if Utf8.isAscii s then ofString s else .wide (s.toList.map CodePoint.ofChar)

/-- The text of a single code point: compact for a character, wide for a surrogate. -/
def ofCodePoint (c : CodePoint) : Except TextError Text :=
  match c.toChar? with
  | some x => .ok (ofChars [x])
  | none => if c.inRange then .ok (.wide [c]) else .error .codePointOutOfRange

/-- Wide text. All words have to be in range. -/
def ofCodePoints (cs : List CodePoint) : Except TextError Text :=
  if cs.all CodePoint.inRange then .ok (.wide cs) else .error .codePointOutOfRange

def codePoints : Text → List CodePoint
  | .compact s _ _ => s.toList.map CodePoint.ofChar
  | .wide cs => cs

def length : Text → Nat
  | .compact _ n _ => n
  | .wide cs => cs.length

def isEmpty (t : Text) : Bool := t.length == 0

def isCompact : Text → Bool
  | .compact .. => true
  | .wide _ => false

def string? : Text → Option String
  | .compact s _ _ => some s
  | .wide _ => none

def isAscii : Text → Bool
  | .compact _ _ ascii => ascii
  | .wide cs => cs.all CodePoint.isAscii

/-- A text as a sequence that reports the length it remembers. -/
def toSequence (t : Text) : Sequence := ⟨t.codePoints, t.length⟩

/-- What a storage remembers is true, and every code point is in the Unicode range. -/
def WellFormed : Text → Prop
  | .compact s n ascii => n = s.length ∧ ascii = s.toList.all (CodePoint.ofChar · |>.isAscii)
  | .wide cs => ∀ c ∈ cs, c.inRange

instance : (t : Text) → Decidable t.WellFormed
  | .compact .. => inferInstanceAs (Decidable (_ ∧ _))
  | .wide cs => List.decidableBAll _ cs

@[simp] theorem codePoints_ofString (s : String) :
    (ofString s).codePoints = s.toList.map CodePoint.ofChar := rfl

@[simp] theorem codePoints_ofChars (cs : List Char) :
    (ofChars cs).codePoints = cs.map CodePoint.ofChar := by
  simp [ofChars]

@[simp] theorem codePoints_compact (s : String) (n : Nat) (ascii : Bool) :
    (compact s n ascii).codePoints = s.toList.map CodePoint.ofChar := rfl

@[simp] theorem codePoints_wide (cs : List CodePoint) : (wide cs).codePoints = cs := rfl

theorem codePoints_ofCodePoint {c : CodePoint} {t : Text} (h : ofCodePoint c = .ok t) :
    t.codePoints = [c] := by
  unfold ofCodePoint at h
  split at h
  · next x hx =>
    obtain rfl := Except.ok.inj h
    simp [CodePoint.toChar?_eq_some.1 hx]
  · split at h
    · obtain rfl := Except.ok.inj h
      rfl
    · cases h

theorem wellFormed_ofString (s : String) : (ofString s).WellFormed := by
  refine ⟨?_, Utf8.isAscii_eq s⟩
  split
  · next h => exact Utf8.utf8ByteSize_of_isAscii h
  · rfl

theorem length_eq {t : Text} (h : t.WellFormed) : t.length = t.codePoints.length := by
  cases t with
  | compact s n ascii => simp [length, codePoints, h.1, String.length_toList]
  | wide cs => rfl

theorem isEmpty_iff {t : Text} (h : t.WellFormed) : t.isEmpty ↔ t.codePoints = [] := by
  rw [isEmpty, beq_iff_eq, length_eq h, List.length_eq_zero_iff]

theorem isAscii_eq {t : Text} (h : t.WellFormed) : t.isAscii = t.codePoints.all CodePoint.isAscii := by
  cases t with
  | compact s n ascii => simp [isAscii, codePoints, h.2, List.all_map, Function.comp_def]
  | wide cs => rfl

theorem inRange_of_mem {t : Text} (h : t.WellFormed) {c : CodePoint} (hc : c ∈ t.codePoints) :
    c.inRange := by
  cases t with
  | compact s n ascii =>
    obtain ⟨x, _, rfl⟩ := List.mem_map.1 hc
    exact CodePoint.inRange_ofChar x
  | wide cs => exact h c hc

theorem wellFormed_ofStringIndexed (s : String) : (ofStringIndexed s).WellFormed := by
  unfold ofStringIndexed
  split
  · exact wellFormed_ofString s
  · intro c hc
    obtain ⟨x, _, rfl⟩ := List.mem_map.1 hc
    exact CodePoint.inRange_ofChar x

theorem wellFormed_ofCodePoints {cs : List CodePoint} {t : Text} (h : ofCodePoints cs = .ok t) :
    t.WellFormed := by
  unfold ofCodePoints at h
  split at h
  · next hall =>
    obtain rfl := Except.ok.inj h
    exact fun c hc => List.all_eq_true.1 hall c hc
  · cases h

theorem wellFormed_ofCodePoint {c : CodePoint} {t : Text} (h : ofCodePoint c = .ok t) :
    t.WellFormed := by
  unfold ofCodePoint at h
  split at h
  · obtain rfl := Except.ok.inj h
    exact wellFormed_ofString _
  · split at h
    · next hr =>
      obtain rfl := Except.ok.inj h
      intro x hx
      rw [List.mem_singleton.1 hx]
      exact hr
    · cases h

end Text
end CodePointText
