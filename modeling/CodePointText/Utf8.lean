import CodePointText.CodePoint

/-!
# UTF-8 bytes

The byte view of a character string and what is done on it: the ASCII test, and decoding one
character from either end. A text is recovered from the bytes that encode it.
-/

namespace CodePointText
namespace Utf8

def bytes (s : String) : List UInt8 := s.toByteArray.data.toList

/-- The string that the bytes encode, and the empty one if they encode none. -/
def ofBytes (bs : List UInt8) : String := (String.fromUTF8? bs.toByteArray).getD ""

def isAscii (s : String) : Bool := (bytes s).all (· < 0x80)

/-- Continuation bytes have the form `10xxxxxx`; no character starts with one. -/
def isContinuation (b : UInt8) : Bool := 0x80 ≤ b && b < 0xC0

def head? (bs : List UInt8) : Option Char := (bs.take 4).toByteArray.utf8DecodeChar? 0

def popFront? (bs : List UInt8) : Option (Char × List UInt8) :=
  (head? bs).map fun c => (c, bs.drop c.utf8Size)

/-- The bytes of the last character: back over the continuation bytes to the leading byte. -/
def lastWidth (bs : List UInt8) : Nat := (bs.reverse.takeWhile isContinuation).length + 1

def popBack? (bs : List UInt8) : Option (Char × List UInt8) :=
  let start := bs.length - lastWidth bs
  (head? (bs.drop start)).map fun c => (c, bs.take start)

theorem bytes_eq_flatMap (s : String) : bytes s = s.toList.flatMap String.utf8EncodeChar := by
  obtain ⟨cs, rfl⟩ := s.exists_eq_ofList
  simp [bytes, List.utf8Encode]

@[simp] theorem bytes_ofList (cs : List Char) :
    bytes (String.ofList cs) = cs.flatMap String.utf8EncodeChar := by
  simp [bytes_eq_flatMap]

@[simp] theorem length_bytes (s : String) : (bytes s).length = s.utf8ByteSize := by
  rw [bytes, Array.length_toList, ByteArray.size_data, String.size_toByteArray]

@[simp] theorem toByteArray_bytes (s : String) : (bytes s).toByteArray = s.toByteArray := by
  obtain ⟨cs, rfl⟩ := s.exists_eq_ofList
  simp [List.utf8Encode]

@[simp] theorem ofBytes_bytes (s : String) : ofBytes (bytes s) = s := by
  simp [ofBytes, String.fromUTF8?, s.isValidUTF8, String.fromUTF8]

theorem all_encodeChar (c : Char) :
    (String.utf8EncodeChar c).all (· < 0x80) = (CodePoint.ofChar c).isAscii := by
  have ht : c.toNat = c.val.toNat := rfl
  rw [Bool.eq_iff_iff]
  simp only [CodePoint.isAscii, CodePoint.ofChar, UInt32.lt_iff_toNat_lt, UInt32.reduceToNat,
    decide_eq_true_eq, String.utf8EncodeChar]
  split
  · simp [UInt8.lt_iff_toNat_lt]; omega
  · split
    · simp [UInt8.lt_iff_toNat_lt]; omega
    · split <;> simp [UInt8.lt_iff_toNat_lt] <;> omega

theorem isAscii_eq (s : String) :
    isAscii s = s.toList.all (CodePoint.ofChar · |>.isAscii) := by
  simp only [isAscii, bytes_eq_flatMap, List.all_flatMap, all_encodeChar]

theorem encodeChar_of_isAscii {c : Char} (h : (CodePoint.ofChar c).isAscii) :
    String.utf8EncodeChar c = [c.val.toUInt8] := by
  simp only [CodePoint.isAscii, CodePoint.ofChar, UInt32.lt_iff_toNat_lt, UInt32.reduceToNat,
    decide_eq_true_eq] at h
  exact String.utf8EncodeChar_eq_singleton (Char.utf8Size_eq_one_iff.2 (by
    simp only [UInt32.le_iff_toNat_le, UInt32.reduceToNat]; omega))

theorem bytes_of_isAscii {s : String} (h : isAscii s) : bytes s = s.toList.map (·.val.toUInt8) := by
  rw [isAscii_eq, List.all_eq_true] at h
  rw [bytes_eq_flatMap]
  generalize s.toList = cs at h
  induction cs with
  | nil => rfl
  | cons c cs ih =>
    simp [encodeChar_of_isAscii (h c (by simp)), ih fun x hx => h x (by simp [hx])]

theorem utf8ByteSize_of_isAscii {s : String} (h : isAscii s) : s.utf8ByteSize = s.length := by
  rw [← length_bytes, bytes_of_isAscii h, List.length_map, String.length_toList]

end Utf8
end CodePointText
