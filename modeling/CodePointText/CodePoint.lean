/-!
# Code points

A code point is a 32-bit word. The Unicode code points are the words up to U+10FFFF; those that are
not surrogates are the values of characters. Words above U+10FFFF occur only in raw sequences.
-/

namespace CodePointText

abbrev CodePoint := UInt32

namespace CodePoint

def greatest : CodePoint := 0x10FFFF

def isAscii (c : CodePoint) : Bool := c < 0x80

def isHighSurrogate (c : CodePoint) : Bool := 0xD800 ≤ c && c ≤ 0xDBFF

def isLowSurrogate (c : CodePoint) : Bool := 0xDC00 ≤ c && c ≤ 0xDFFF

def isSurrogate (c : CodePoint) : Bool := c.isHighSurrogate || c.isLowSurrogate

def inRange (c : CodePoint) : Bool := c ≤ greatest

def ofChar (c : Char) : CodePoint := c.val

/-- The character with this code point: none for a surrogate and for a word out of range. -/
def toChar? (c : CodePoint) : Option Char :=
  if h : c.isValidChar then some ⟨c, h⟩ else none

@[simp] theorem toChar?_ofChar (c : Char) : toChar? (ofChar c) = some c := by
  simp [toChar?, ofChar, c.valid]

theorem ofChar_injective : Function.Injective ofChar := fun c d h => by
  have hc := congrArg toChar? h
  rw [toChar?_ofChar, toChar?_ofChar] at hc
  exact Option.some.inj hc

theorem toChar?_eq_some {c : CodePoint} {x : Char} : toChar? c = some x ↔ c = ofChar x := by
  constructor
  · intro h
    simp only [toChar?, Option.dite_none_right_eq_some, Option.some.injEq] at h
    obtain ⟨_, rfl⟩ := h
    rfl
  · rintro rfl
    exact toChar?_ofChar x

theorem isAscii_iff {c : CodePoint} : c.isAscii ↔ c.toNat < 0x80 := by
  simp [isAscii, UInt32.lt_iff_toNat_lt]

theorem isSurrogate_iff {c : CodePoint} : c.isSurrogate ↔ 0xD800 ≤ c.toNat ∧ c.toNat ≤ 0xDFFF := by
  simp only [isSurrogate, isHighSurrogate, isLowSurrogate, Bool.or_eq_true, Bool.and_eq_true,
    decide_eq_true_eq, UInt32.le_iff_toNat_le, UInt32.reduceToNat]
  omega

theorem inRange_iff {c : CodePoint} : c.inRange ↔ c.toNat ≤ 0x10FFFF := by
  simp [inRange, greatest, UInt32.le_iff_toNat_le]

/-- Within the Unicode range exactly the surrogates are no characters. -/
theorem toChar?_eq_none {c : CodePoint} : toChar? c = none ↔ c.isSurrogate ∨ ¬ c.inRange := by
  simp only [toChar?, isSurrogate_iff, inRange_iff, UInt32.isValidChar, Nat.isValidChar]
  split <;> simp <;> omega

theorem isSome_toChar?_iff {c : CodePoint} (h : c.inRange) : c.toChar?.isSome ↔ ¬ c.isSurrogate := by
  have hnone := @toChar?_eq_none c
  cases hx : c.toChar? <;> simp_all

theorem inRange_ofChar (c : Char) : (ofChar c).inRange := by
  have h := c.valid
  simp only [UInt32.isValidChar, Nat.isValidChar] at h
  simp only [inRange_iff, ofChar]
  omega

end CodePoint
end CodePointText
