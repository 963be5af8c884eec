import CodePointText.Occurrence
import CodePointText.Utf8

/-!
# Boundaries of characters

A character is encoded by a leading byte and continuation bytes behind it, and no leading byte is a
continuation byte. So bytes are cut into characters in one way, from either end, and the bytes of a
pattern occur in the bytes of a text only where the pattern occurs in the text.
-/

namespace CodePointText
namespace Utf8

def encode (cs : List Char) : List UInt8 := cs.flatMap String.utf8EncodeChar

@[simp] theorem encode_nil : encode [] = [] := rfl

@[simp] theorem encode_cons (c : Char) (cs : List Char) :
    encode (c :: cs) = String.utf8EncodeChar c ++ encode cs := rfl

@[simp] theorem encode_append (cs ds : List Char) : encode (cs ++ ds) = encode cs ++ encode ds :=
  List.flatMap_append

theorem bytes_eq_encode (s : String) : bytes s = encode s.toList := bytes_eq_flatMap s

theorem isContinuation_ofNat {n : Nat} (h : n < 256) :
    isContinuation (UInt8.ofNat n) = true ↔ 0x80 ≤ n ∧ n < 0xC0 := by
  simp only [isContinuation, UInt8.le_iff_toNat_le, UInt8.lt_iff_toNat_lt, Bool.and_eq_true,
    decide_eq_true_eq, UInt8.toNat_ofNat', UInt8.reduceToNat, Nat.mod_eq_of_lt h]

/-- The first byte of a character is the only one that is no continuation byte. -/
theorem encodeChar_eq_cons (c : Char) :
    ∃ lead rest, String.utf8EncodeChar c = lead :: rest ∧ isContinuation lead = false ∧
      ∀ b ∈ rest, isContinuation b = true := by
  have lead {n : Nat} (h : n < 256) (hn : n < 0x80 ∨ 0xC0 ≤ n) :
      isContinuation (UInt8.ofNat n) = false := by
    rw [Bool.eq_false_iff, ne_eq, isContinuation_ofNat h]
    omega
  have tail (n : Nat) : isContinuation (UInt8.ofNat (n % 64 + 128)) = true := by
    rw [isContinuation_ofNat (by omega)]
    omega
  have done : ∀ b ∈ ([] : List UInt8), isContinuation b = true := by simp
  have one {n : Nat} {bs : List UInt8} (h : ∀ b ∈ bs, isContinuation b = true) :
      ∀ b ∈ UInt8.ofNat (n % 64 + 128) :: bs, isContinuation b = true :=
    List.forall_mem_cons.2 ⟨tail n, h⟩
  unfold String.utf8EncodeChar
  generalize c.val.toNat = v
  dsimp only
  split
  · exact ⟨_, _, rfl, lead (by omega) (by omega), done⟩
  · split
    · exact ⟨_, _, rfl, lead (by omega) (by omega), one done⟩
    · split
      · exact ⟨_, _, rfl, lead (by omega) (by omega), one (one done)⟩
      · exact ⟨_, _, rfl, lead (by omega) (by omega), one (one (one done))⟩

theorem head?_encodeChar_append (c : Char) (bs : List UInt8) :
    head? (String.utf8EncodeChar c ++ bs) = some c := by
  have hl : (String.utf8EncodeChar c).length ≤ 4 := by
    rw [String.length_utf8EncodeChar]
    exact c.utf8Size_le_four
  rw [head?, List.take_append, List.take_of_length_le hl, List.toByteArray_append]
  exact ByteArray.utf8DecodeChar?_utf8EncodeChar_append

@[simp] theorem popFront?_encodeChar_append (c : Char) (bs : List UInt8) :
    popFront? (String.utf8EncodeChar c ++ bs) = some (c, bs) := by
  rw [popFront?, head?_encodeChar_append, Option.map_some, ← String.length_utf8EncodeChar,
    List.drop_left]

theorem lastWidth_append_encodeChar (bs : List UInt8) (c : Char) :
    lastWidth (bs ++ String.utf8EncodeChar c) = (String.utf8EncodeChar c).length := by
  obtain ⟨lead, rest, he, hlead, hrest⟩ := encodeChar_eq_cons c
  have hr : ∀ b ∈ rest.reverse, isContinuation b = true := fun b hb =>
    hrest b (List.mem_reverse.1 hb)
  have hw : (bs ++ lead :: rest).reverse = rest.reverse ++ (lead :: bs.reverse) := by simp
  rw [he, lastWidth, hw, List.takeWhile_append_of_pos hr, List.takeWhile_cons, hlead]
  simp

/-- From the back, a character comes off whole. -/
@[simp] theorem popBack?_append_encodeChar (bs : List UInt8) (c : Char) :
    popBack? (bs ++ String.utf8EncodeChar c) = some (c, bs) := by
  have hs : (bs ++ String.utf8EncodeChar c).length - lastWidth (bs ++ String.utf8EncodeChar c) =
      bs.length := by
    rw [lastWidth_append_encodeChar, List.length_append]
    omega
  have hh := head?_encodeChar_append c []
  rw [List.append_nil] at hh
  simp only [popBack?, hs]
  rw [List.drop_left, List.take_left, hh, Option.map_some]

theorem encodeChar_append_inj {c d : Char} {as bs : List UInt8}
    (h : String.utf8EncodeChar c ++ as = String.utf8EncodeChar d ++ bs) : c = d ∧ as = bs := by
  have hp := congrArg popFront? h
  simp only [popFront?_encodeChar_append, Option.some.injEq, Prod.mk.injEq] at hp
  exact hp

theorem encode_ne_nil {cs : List Char} (h : cs ≠ []) : encode cs ≠ [] := by
  cases cs with
  | nil => exact absurd rfl h
  | cons c cs =>
    obtain ⟨lead, rest, he, _, _⟩ := encodeChar_eq_cons c
    simp [he]

/-- Bytes of characters are a prefix where the characters are. -/
theorem encode_prefix_encode {cs ds : List Char} : encode cs <+: encode ds ↔ cs <+: ds := by
  constructor
  · intro h
    induction cs generalizing ds with
    | nil => exact List.nil_prefix
    | cons c cs ih =>
      obtain ⟨rest, hr⟩ := h
      cases ds with
      | nil =>
        have hn : encode (c :: cs) = [] := (List.append_eq_nil_iff.1 hr).1
        exact absurd hn (encode_ne_nil (by simp))
      | cons d ds =>
        rw [encode_cons, encode_cons, List.append_assoc] at hr
        obtain ⟨rfl, hrest⟩ := encodeChar_append_inj hr
        exact List.cons_prefix_cons.2 ⟨rfl, ih ⟨rest, hrest⟩⟩
  · rintro ⟨rest, rfl⟩
    exact ⟨encode rest, (encode_append cs rest).symm⟩

theorem length_le_length_encode (cs : List Char) : cs.length ≤ (encode cs).length := by
  induction cs with
  | nil => exact Nat.le_refl _
  | cons c cs ih =>
    have hc := c.utf8Size_pos
    simp only [encode_cons, List.length_cons, List.length_append, String.length_utf8EncodeChar]
    omega

theorem length_encode_le (cs : List Char) : (encode cs).length ≤ 4 * cs.length := by
  induction cs with
  | nil => exact Nat.le_refl _
  | cons c cs ih =>
    have hc := c.utf8Size_le_four
    simp only [encode_cons, List.length_cons, List.length_append, String.length_utf8EncodeChar]
    omega

/-- The characters up to U+FFFF are those that are encoded by fewer bytes than four. -/
theorem utf8Size_lt_four_iff (c : Char) :
    c.utf8Size < 4 ↔ (CodePoint.ofChar c).toNat < 0x10000 := by
  have hle := c.utf8Size_le_four
  have hfour := @Char.utf8Size_eq_four_iff c
  simp only [UInt32.lt_iff_toNat_lt, UInt32.reduceToNat] at hfour
  rw [CodePoint.ofChar]
  omega

theorem length_encode_lt_iff {cs : List Char} :
    (encode cs).length < 4 * cs.length ↔ ∃ c ∈ cs, (CodePoint.ofChar c).toNat < 0x10000 := by
  induction cs with
  | nil => simp
  | cons c cs ih =>
    have hc := c.utf8Size_le_four
    have hcs := length_encode_le cs
    simp only [List.mem_cons, exists_eq_or_imp]
    rw [← ih, ← utf8Size_lt_four_iff]
    simp only [encode_cons, List.length_cons, List.length_append, String.length_utf8EncodeChar]
    omega

end Utf8
end CodePointText
