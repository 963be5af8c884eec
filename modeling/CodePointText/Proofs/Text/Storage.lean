import CodePointText.Proofs.Result
import CodePointText.Proofs.Text.Build
import CodePointText.Text.Index
import CodePointText.Text.Order
import CodePointText.Text.Replace

/-!
# The storage of a result

Which storage an operation chooses for the text that it gives. Where an operand is given back as it
is, so is its storage; a new text is compact if it is built from compact texts and characters only.
With the code points, the kind of storage settles a text.
-/

namespace CodePointText
namespace Text

@[simp] theorem isCompact_empty : empty.isCompact = true := rfl

@[simp] theorem isSome_string? (t : Text) : t.string?.isSome = t.isCompact := by
  cases t <;> rfl

/-- A text is settled by its code points and the kind of its storage: what else is stored follows. -/
theorem eq_of_codePoints_eq {t u : Text} (ht : t.WellFormed) (hu : u.WellFormed)
    (hcs : t.codePoints = u.codePoints) (hstorage : t.isCompact = u.isCompact) : t = u := by
  cases t with
  | compact s n x =>
    cases u with
    | compact s' n' x' =>
      obtain rfl : s = s' := String.toList_inj.1 (map_ofChar_inj.1 hcs)
      rw [compact.injEq]
      exact ⟨rfl, ht.1.trans hu.1.symm, ht.2.trans hu.2.symm⟩
    | wide cs => cases hstorage
  | wide cs =>
    cases u with
    | compact s n x => cases hstorage
    | wide cs' => exact congrArg wide hcs

theorem isCompact_ofCodePoint {c : CodePoint} {t : Text} (h : ofCodePoint c = .ok t) :
    t.isCompact = c.toChar?.isSome := by
  unfold ofCodePoint at h
  split at h
  · next x hx =>
    obtain rfl := Except.ok.inj h
    rw [hx]
    rfl
  · next hx =>
    split at h
    · obtain rfl := Except.ok.inj h
      rw [hx]
      rfl
    · cases h

theorem isCompact_concat (a b : Text) :
    (a.concat b).isCompact =
      if b.isEmpty then a.isCompact
      else if a.isEmpty then b.isCompact
      else a.isCompact && b.isCompact := by
  unfold concat
  by_cases hb : b.isEmpty
  · rw [if_pos hb, if_pos hb]
  rw [if_neg hb, if_neg hb]
  by_cases ha : a.isEmpty
  · rw [if_pos ha, if_pos ha]
  rw [if_neg ha, if_neg ha]
  cases a with
  | compact s n x => cases b <;> rfl
  | wide as => cases b <;> rfl

theorem isCompact_replicate {t u : Text} {n : Nat} (h : t.replicate n = .ok u) :
    u.isCompact = (n == 0 || t.isCompact) := by
  unfold replicate at h
  by_cases h0 : n = 0
  · rw [if_pos h0] at h
    obtain rfl := Except.ok.inj h
    rw [h0]
    rfl
  have hn : (n == 0) = false := beq_false_of_ne h0
  rw [if_neg h0] at h
  rw [hn, Bool.false_or]
  split at h
  · obtain rfl := Except.ok.inj h
    rfl
  · split at h
    · cases t with
      | compact s m x =>
        obtain rfl := Except.ok.inj h
        rfl
      | wide cs =>
        obtain rfl := Except.ok.inj h
        rfl
    · cases h

theorem isCompact_replace (t pattern substitute : Text) (limit : Option Nat) :
    (t.replace pattern substitute limit).isCompact =
      if limit = some 0 then t.isCompact
      else t.isCompact && pattern.isCompact && substitute.isCompact := by
  unfold replace
  by_cases h0 : limit = some 0
  · rw [if_pos h0, if_pos h0]
  rw [if_neg h0, if_neg h0]
  cases t <;> cases pattern <;> cases substitute <;> rfl

theorem isCompact_padded (t : Text) (width : Nat) (c : CodePoint) :
    (t.padded width c).isCompact = (t.isCompact && c.toChar?.isSome) := by
  rw [← isSome_string? t]
  cases hs : t.string? with
  | none =>
    rw [padded_of_no_characters width fun s x h => by rw [hs] at h; cases h]
    rfl
  | some s =>
    cases hx : c.toChar? with
    | none =>
      rw [padded_of_no_characters width fun s x _ h => by rw [hx] at h; cases h]
      rfl
    | some x =>
      rw [padded_of_characters width hs hx]
      rfl

theorem isCompact_padRight {t u : Text} (ht : t.WellFormed) {memory : Allocator} {width : Int64}
    {fill : Option Text} {c : CodePoint} (hc : fillCodePoint fill = .ok c)
    (h : t.padRight memory width fill = .ok u) :
    u.isCompact =
      if width.toInt.toNat ≤ t.length then t.isCompact
      else t.isCompact && c.toChar?.isSome := by
  rw [padRight_eq ht memory width hc] at h
  split at h
  · next hle =>
    obtain rfl := Except.ok.inj h
    rw [if_pos hle]
  · next hle =>
    split at h
    · obtain rfl := Except.ok.inj h
      rw [if_neg hle, isCompact_padded]
    · cases h

theorem isCompact_zeroPadded (t : Text) (width : Nat) :
    (t.zeroPadded width).isCompact = t.isCompact := by
  cases t <;> rfl

theorem isCompact_zeroPad {t u : Text} {memory : Allocator} {width : Int64}
    (h : t.zeroPad memory width = .ok u) : u.isCompact = t.isCompact := by
  rcases eq_or_eq_zeroPadded h with rfl | rfl
  · rfl
  · exact isCompact_zeroPadded t _

end Text
end CodePointText
