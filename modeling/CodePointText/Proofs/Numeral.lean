import CodePointText.Blank
import CodePointText.Numeral
import Mathlib.Data.List.Induction
import Mathlib.Data.Nat.Digits.Defs

/-!
# What numerals denote

Positional notation, stated without a reader. The readers accept exactly the numerals that denote a
number in their range, and the numerals that are written denote the numbers they are written for.
-/

namespace CodePointText
namespace Numeral

/-- The character is a digit of the base and has this value. Letters count in both cases. -/
def Digit (base : Nat) (c : Char) (v : Nat) : Prop :=
  v < base ∧ (c = v.digitChar ∨ c = v.digitChar.toUpper)

instance (base : Nat) (c : Char) (v : Nat) : Decidable (Digit base c v) :=
  inferInstanceAs (Decidable (_ ∧ _))

/-- One digit or more, of which each further one moves the others up a place. -/
inductive Denotes (base : Nat) : List Char → Nat → Prop
  | digit {c : Char} {v : Nat} (h : Digit base c v) : Denotes base [c] v
  | next {cs : List Char} {c : Char} {n v : Nat} (hcs : Denotes base cs n) (h : Digit base c v) :
      Denotes base (cs ++ [c]) (base * n + v)

inductive DenotesInt : List Char → Int → Prop
  | plain {cs : List Char} {n : Nat} (h : Denotes 10 cs n) : DenotesInt cs n
  | plus {cs : List Char} {n : Nat} (h : Denotes 10 cs n) : DenotesInt ('+' :: cs) n
  | minus {cs : List Char} {n : Nat} (h : Denotes 10 cs n) : DenotesInt ('-' :: cs) (-n)

theorem digitValue?_of_le {base : Nat} (hb : base ≤ 16) {c : Char} {v : Nat} :
    digitValue? base c = some v ↔ v < base ∧ digitValue? 16 c = some v := by
  have hv : v < base → v < 16 := fun h => Nat.lt_of_lt_of_le h hb
  simp only [digitValue?, Option.ite_none_right_eq_some, Option.some.injEq]
  split
  · omega
  · split
    · omega
    · split <;> omega

/-- All hexadecimal digits stand among the first characters, so they can be gone through. -/
theorem digitValue?_sixteen {c : Char} {v : Nat} : digitValue? 16 c = some v ↔ Digit 16 c v := by
  constructor
  · intro h
    have hlt : c.toNat < 0x67 := by
      obtain ⟨hv, _⟩ := Option.ite_none_right_eq_some.1 h
      split at hv
      · omega
      · split at hv
        · omega
        · split at hv <;> omega
    have hall : ∀ n < 0x67, ∀ v ∈ digitValue? 16 (Char.ofNat n), Digit 16 (Char.ofNat n) v := by
      decide +kernel
    have hc := hall c.toNat hlt v
    rw [Char.ofNat_toNat] at hc
    exact hc h
  · rintro ⟨hv, hc⟩
    have hall : ∀ v < 16, digitValue? 16 v.digitChar = some v ∧
        digitValue? 16 v.digitChar.toUpper = some v := by
      decide +kernel
    rcases hc with rfl | rfl
    · exact (hall v hv).1
    · exact (hall v hv).2

theorem digitValue?_eq_some {base : Nat} (hb : base ≤ 16) {c : Char} {v : Nat} :
    digitValue? base c = some v ↔ Digit base c v := by
  rw [digitValue?_of_le hb, digitValue?_sixteen, Digit, Digit]
  constructor
  · rintro ⟨hv, _, hc⟩
    exact ⟨hv, hc⟩
  · rintro ⟨hv, hc⟩
    exact ⟨hv, by omega, hc⟩

theorem digitValue?_of_isBlank (base : Nat) {c : Char} (h : isBlank c) :
    digitValue? base c = none := by
  simp only [isBlank, Bool.or_eq_true, Bool.and_eq_true, decide_eq_true_eq, beq_iff_eq] at h
  have hdecimal : ¬ (0x30 ≤ c.toNat ∧ c.toNat ≤ 0x39) := by omega
  have hupper : ¬ (0x41 ≤ c.toNat ∧ c.toNat ≤ 0x46) := by omega
  have hlower : ¬ (0x61 ≤ c.toNat ∧ c.toNat ≤ 0x66) := by omega
  simp only [digitValue?, if_neg hdecimal, if_neg hupper, if_neg hlower, lt_irrefl, if_false]

theorem Denotes.ne_nil {base n : Nat} {cs : List Char} (h : Denotes base cs n) : cs ≠ [] := by
  cases h <;> simp

theorem Denotes.digit_of_mem {base n : Nat} {cs : List Char} (h : Denotes base cs n) :
    ∀ c ∈ cs, ∃ v, Digit base c v := by
  induction h with
  | digit h => simpa using ⟨_, h⟩
  | next _ h ih =>
    intro c hc
    rcases List.mem_append.1 hc with hc | hc
    · exact ih c hc
    · rw [List.mem_singleton.1 hc]
      exact ⟨_, h⟩

theorem Denotes.zero_cons {base n : Nat} {cs : List Char} (h : Denotes base cs n) :
    Denotes base ('0' :: cs) n := by
  -- A numeral grows at its end, so the zero meets the first digit at the bottom of the induction.
  induction h with
  | @digit c v h =>
    have hzero : Digit base '0' 0 := ⟨Nat.zero_lt_of_lt h.1, .inl rfl⟩
    have hnext := Denotes.next (.digit hzero) h
    rwa [Nat.mul_zero, Nat.zero_add] at hnext
  | next _ h ih => exact ih.next h

theorem Denotes.zeros_append {base n : Nat} {cs : List Char} (h : Denotes base cs n) (zeros : Nat) :
    Denotes base (List.replicate zeros '0' ++ cs) n := by
  induction zeros with
  | zero => exact h
  | succ zeros ih => exact ih.zero_cons

theorem readNat?_singleton (base : Nat) (c : Char) : readNat? base [c] = digitValue? base c := by
  cases h : digitValue? base c <;> simp [readNat?, readDigits?, h]

theorem readNat?_append_singleton {cs : List Char} (hcs : cs ≠ []) (base : Nat) (c : Char) :
    readNat? base (cs ++ [c]) =
      (readNat? base cs).bind fun n => (digitValue? base c).map (base * n + ·) := by
  have hread (n : Nat) : readDigits? base n [c] = (digitValue? base c).map (base * n + ·) := by
    cases h : digitValue? base c <;> simp [readDigits?, h]
  simp [readNat?, hcs, readDigits?_append, hread]

theorem readNat?_eq_some {base : Nat} (hb : base ≤ 16) {cs : List Char} {n : Nat} :
    readNat? base cs = some n ↔ Denotes base cs n := by
  constructor
  · intro h
    induction cs using List.reverseRecOn generalizing n with
    | nil => simp at h
    | append_singleton cs c ih =>
      by_cases hcs : cs = []
      · subst hcs
        rw [List.nil_append, readNat?_singleton, digitValue?_eq_some hb] at h
        exact .digit h
      · rw [readNat?_append_singleton hcs] at h
        obtain ⟨m, hm, hn⟩ := Option.bind_eq_some_iff.1 h
        obtain ⟨v, hv, rfl⟩ := Option.map_eq_some_iff.1 hn
        exact .next (ih hm) ((digitValue?_eq_some hb).1 hv)
  · intro h
    induction h with
    | digit h => rw [readNat?_singleton, (digitValue?_eq_some hb).2 h]
    | next hcs h ih =>
      rw [readNat?_append_singleton hcs.ne_nil, ih, (digitValue?_eq_some hb).2 h]
      rfl

theorem not_digit {base : Nat} (hb : base ≤ 16) {c : Char} (hc : digitValue? base c = none) :
    ¬ ∃ v, Digit base c v := by
  rintro ⟨v, hv⟩
  rw [(digitValue?_eq_some hb).2 hv] at hc
  cases hc

theorem not_denotes_of_mem {base : Nat} (hb : base ≤ 16) {c : Char} {cs : List Char} (h : c ∈ cs)
    (hc : digitValue? base c = none) (n : Nat) : ¬ Denotes base cs n := fun hn =>
  not_digit hb hc (hn.digit_of_mem c h)

theorem readInt?_minus (cs : List Char) :
    readInt? ('-' :: cs) = (readNat? 10 cs).map fun n => -(Int.ofNat n) := by
  cases h : readNat? 10 cs <;> simp [readInt?, h]

theorem readInt?_eq_some {cs : List Char} {i : Int} : readInt? cs = some i ↔ DenotesInt cs i := by
  have hten {ds : List Char} {n : Nat} : readNat? 10 ds = some n ↔ Denotes 10 ds n :=
    readNat?_eq_some (by decide)
  constructor
  · intro h
    unfold readInt? at h
    split at h
    · rw [← readInt?, readInt?_minus] at h
      obtain ⟨n, hn, rfl⟩ := Option.map_eq_some_iff.1 h
      exact .minus (hten.1 hn)
    · obtain ⟨n, hn, rfl⟩ := Option.map_eq_some_iff.1 h
      exact .plus (hten.1 hn)
    · obtain ⟨n, hn, rfl⟩ := Option.map_eq_some_iff.1 h
      exact .plain (hten.1 hn)
  · intro h
    cases h with
    | minus h => simp [readInt?_minus, hten.2 h]
    | plus h => simp [readInt?, hten.2 h]
    | plain h =>
      unfold readInt?
      split
      · exact absurd h (not_denotes_of_mem (by decide) List.mem_cons_self rfl _)
      · exact absurd h (not_denotes_of_mem (by decide) List.mem_cons_self rfl _)
      · rw [hten.2 h]
        rfl

theorem readInt64?_eq_some {cs : List Char} {i : Int64} :
    readInt64? cs = some i ↔ DenotesInt cs i.toInt := by
  have hmem := And.intro i.le_toInt i.toInt_lt
  rw [← readInt?_eq_some, readInt64?]
  constructor
  · intro h
    obtain ⟨n, hn, hi⟩ := Option.bind_eq_some_iff.1 h
    obtain ⟨hr, hi⟩ := Option.ite_none_right_eq_some.1 hi
    rw [← Option.some.inj hi]
    rw [Int64.toInt_ofInt_of_le (by omega) (by omega)]
    exact hn
  · intro h
    rw [h]
    simp only [Option.bind_eq_bind, Option.bind_some, Int64.ofInt_toInt]
    exact if_pos (by omega)

theorem readUInt32?_eq_some {base : Nat} (hb : base ≤ 16) {cs : List Char} {c : UInt32} :
    readUInt32? base cs = some c ↔
      Denotes base cs c.toNat ∨ ∃ ds, cs = '+' :: ds ∧ Denotes base ds c.toNat := by
  have hword {ds : List Char} :
      ((readNat? base ds).bind fun n => if n < 0x100000000 then some (UInt32.ofNat n) else none) =
        some c ↔ Denotes base ds c.toNat := by
    have hc := c.toNat_lt
    rw [← readNat?_eq_some hb]
    constructor
    · intro h
      obtain ⟨n, hn, hi⟩ := Option.bind_eq_some_iff.1 h
      obtain ⟨hlt, hi⟩ := Option.ite_none_right_eq_some.1 hi
      rw [hn, ← Option.some.inj hi, UInt32.toNat_ofNat_of_lt' hlt]
    · intro h
      rw [h, Option.bind_some, if_pos hc, UInt32.ofNat_toNat]
  unfold readUInt32?
  split
  · next ds =>
    have hplus : ¬ Denotes base ('+' :: ds) c.toNat :=
      not_denotes_of_mem hb List.mem_cons_self (by simp [digitValue?]) _
    simpa [hplus] using hword
  · next hne =>
    have hno : ¬ ∃ ds, cs = '+' :: ds ∧ Denotes base ds c.toNat := by
      rintro ⟨ds, h, _⟩
      exact hne ds h
    simpa [hno] using hword

/-- The numeral of a number is one digit, or that of a smaller number with a digit behind it. -/
theorem toDigits_induction {base : Nat} (hb : 1 < base) {P : List Char → Nat → Prop}
    (digit : ∀ v < base, P [v.digitChar] v)
    (next : ∀ cs n, P cs n → ∀ v < base, P (cs ++ [v.digitChar]) (base * n + v)) (n : Nat) :
    P (Nat.toDigits base n) n := by
  induction n using Nat.strong_induction_on with
  | _ n ih =>
    rw [Nat.toDigits_eq_if hb]
    by_cases hn : n < base
    · rw [if_pos hn]
      exact digit n hn
    · have hinit := ih (n / base) (Nat.div_lt_self (by omega) hb)
      have hnext := next _ _ hinit (n % base) (Nat.mod_lt n (by omega))
      rw [Nat.div_add_mod] at hnext
      rwa [if_neg hn]

theorem denotes_toDigits {base : Nat} (hb : 1 < base) (n : Nat) :
    Denotes base (Nat.toDigits base n) n :=
  toDigits_induction hb (fun _ hv => .digit ⟨hv, .inl rfl⟩)
    (fun _ _ h _ hv => h.next ⟨hv, .inl rfl⟩) n

theorem mem_toDigits {base : Nat} (hb : 1 < base) (n : Nat) :
    ∀ c ∈ Nat.toDigits base n, ∃ v < base, c = v.digitChar := by
  refine toDigits_induction (P := fun cs _ => ∀ c ∈ cs, ∃ v < base, c = v.digitChar) hb ?_ ?_ n
  · intro v hv
    simpa using ⟨v, hv, rfl⟩
  · intro cs n hcs v hv
    rw [List.forall_mem_append, List.forall_mem_singleton]
    exact ⟨hcs, v, hv, rfl⟩

theorem mem_hexDigits {width n : Nat} {c : Char} (h : c ∈ hexDigits width n) :
    ∃ v < 16, c = v.digitChar := by
  rcases List.mem_append.1 h with hzero | hdigit
  · exact ⟨0, by decide, List.eq_of_mem_replicate hzero⟩
  · exact mem_toDigits (by decide) n c hdigit

theorem length_hexDigits {width n : Nat} (hw : 0 < width) (hn : n < 16 ^ width) :
    (hexDigits width n).length = width := by
  have hle := Nat.toDigits_length 16 n width hw hn
  simp only [hexDigits, List.length_append, List.length_replicate]
  omega

theorem denotesInt_digitsOfInt (i : Int) : DenotesInt (digitsOfInt i) i := by
  have h : Denotes 10 (Nat.toDigits 10 i.natAbs) i.natAbs :=
    denotes_toDigits (by decide) _
  unfold digitsOfInt
  split
  · have hm := DenotesInt.minus h
    rwa [show -(i.natAbs : Int) = i by omega] at hm
  · have hp := DenotesInt.plain h
    rwa [show (i.natAbs : Int) = i by omega] at hp

end Numeral
end CodePointText
