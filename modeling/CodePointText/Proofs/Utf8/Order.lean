import CodePointText.Proofs.Utf8.Boundary
import Mathlib.Tactic.SplitIfs

/-!
# The order of encodings

Bytes compare like the code points that they encode: the leading bytes of longer encodings are
greater, and within one length the bytes are the digits of the code point, most significant first.
-/

namespace CodePointText
namespace Utf8

theorem compare_byte_eq_lt {a b : UInt8} : compare a b = .lt ↔ a.toNat < b.toNat :=
  Std.compare_eq_lt.trans UInt8.lt_iff_toNat_lt

theorem compare_byte_eq_eq {a b : UInt8} : compare a b = .eq ↔ a.toNat = b.toNat :=
  Std.compare_eq_eq_iff_eq.trans UInt8.toNat_inj.symm

theorem compare_ofNat_append {m n : Nat} (hm : m < 256) (hn : n < 256) (as bs : List UInt8) :
    compare (UInt8.ofNat m :: as) (UInt8.ofNat n :: bs) = .lt ↔
      m < n ∨ m = n ∧ compare as bs = .lt := by
  rw [List.compare_cons_cons, Ordering.then_eq_lt, compare_byte_eq_lt, compare_byte_eq_eq,
    UInt8.toNat_ofNat', UInt8.toNat_ofNat', Nat.mod_eq_of_lt hm, Nat.mod_eq_of_lt hn]

/-- The smaller character decides the comparison, whatever follows. -/
theorem compare_encodeChar_append {c d : Char} (h : c.val < d.val) (as bs : List UInt8) :
    compare (String.utf8EncodeChar c ++ as) (String.utf8EncodeChar d ++ bs) = .lt := by
  have hd : d.val.toNat < 0x110000 := by
    have hv := d.valid
    simp only [UInt32.isValidChar, Nat.isValidChar] at hv
    omega
  have hlt : c.val.toNat < d.val.toNat := UInt32.lt_iff_toNat_lt.1 h
  unfold String.utf8EncodeChar
  generalize c.val.toNat = v at hlt
  generalize d.val.toNat = w at hlt hd
  dsimp only
  -- The digits to the base 64, each by dividing the one before.
  have shift (n : Nat) : n / 4096 = n / 64 / 64 ∧ n / 262144 = n / 64 / 64 / 64 := by omega
  rw [(shift v).1, (shift v).2, (shift w).1, (shift w).2]
  -- One case for each pair of lengths; those in which the second is shorter cannot be.
  split_ifs <;>
    simp (disch := omega) only [List.cons_append, List.nil_append, compare_ofNat_append] <;>
    omega

theorem compare_append_left {α : Type} [Ord α] [Std.ReflOrd α] (shared as bs : List α) :
    compare (shared ++ as) (shared ++ bs) = compare as bs := by
  induction shared with
  | nil => rfl
  | cons x shared ih => simp [ih]

theorem compare_ofChar {c d : Char} (h : c.val < d.val) :
    compare (CodePoint.ofChar c) (CodePoint.ofChar d) = .lt := Std.compare_eq_lt.2 h

/-- The order of bytes is the order of the code points that they encode. -/
theorem compare_encode (cs ds : List Char) :
    compare (encode cs) (encode ds) =
      compare (cs.map CodePoint.ofChar) (ds.map CodePoint.ofChar) := by
  induction cs generalizing ds with
  | nil =>
    cases ds with
    | nil => rfl
    | cons d ds =>
      obtain ⟨lead, rest, he, _, _⟩ := encodeChar_eq_cons d
      simp [he]
  | cons c cs ih =>
    cases ds with
    | nil =>
      obtain ⟨lead, rest, he, _, _⟩ := encodeChar_eq_cons c
      simp [he]
    | cons d ds =>
      rw [encode_cons, encode_cons, List.map_cons, List.map_cons, List.compare_cons_cons]
      by_cases h : c.val < d.val
      · rw [compare_encodeChar_append h, compare_ofChar h, Ordering.lt_then]
      · by_cases h' : d.val < c.val
        · have hs := compare_ofChar h'
          rw [Std.OrientedOrd.eq_swap, Ordering.swap_eq_lt] at hs
          rw [Std.OrientedOrd.eq_swap, compare_encodeChar_append h', hs]
          rfl
        · have hval := UInt32.le_antisymm (UInt32.not_lt.1 h') (UInt32.not_lt.1 h)
          obtain rfl : c = d := Char.ext hval
          rw [compare_append_left, ih, Std.ReflOrd.compare_self, Ordering.eq_then]

end Utf8
end CodePointText
