import CodePointText.Proofs.Sequence.Scan

/-!
# Laws of the generic comparison

Of sequences that report their true lengths, equality is an equivalence and the order is total, a
list coming before those that it begins. What two sequences both begin with can be left out. Words,
characters, character strings and texts all provide such sequences, and may be compared in any mix.
-/

namespace CodePointText
namespace Sequence

/-- The sequences that the types of this library provide. -/
inductive Provided : Sequence → Prop
  | words (cs : List CodePoint) : Provided (ofList cs)
  | chars (cs : List Char) : Provided (ofChars cs)
  | string (s : String) : Provided (ofString s)
  | text {t : Text} (h : t.WellFormed) : Provided t.toSequence

theorem Provided.honest {a : Sequence} (h : a.Provided) : a.Honest := by
  cases h with
  | words cs => exact honest_ofList cs
  | chars cs => exact honest_ofChars cs
  | string s => exact honest_ofString s
  | text h => exact Text.honest_toSequence h

/-- The sequence with further items in front, which its report takes into account. -/
def prepend (p : List CodePoint) (a : Sequence) : Sequence :=
  ⟨p ++ a.items, p.length + a.reported⟩

theorem honest_prepend (p : List CodePoint) {a : Sequence} (h : a.Honest) :
    (a.prepend p).Honest := by
  rw [Honest, prepend, List.length_append, show a.reported = a.items.length from h]

theorem equal_answer_prepend (p : List CodePoint) (a b : Sequence) :
    ((a.prepend p).equal (b.prepend p)).answer = (a.equal b).answer := by
  have hreported : (a.prepend p).reported = (b.prepend p).reported ↔ a.reported = b.reported :=
    Nat.add_left_cancel_iff
  have hitems : (a.prepend p).items <+: (b.prepend p).items ↔ a.items <+: b.items :=
    List.prefix_append_right_inj p
  rw [Bool.eq_iff_iff, equal_answer_iff, equal_answer_iff, hreported, hitems]

theorem order_answer_prepend (p : List CodePoint) (a b : Sequence) :
    ((a.prepend p).order (b.prepend p)).answer = (a.order b).answer := by
  rw [order, prepend, prepend, scanOrder_append]
  rfl

theorem order_answer_of_prefix {a b : Sequence} (h : a.items <+: b.items)
    (hne : a.items ≠ b.items) : (a.order b).answer = .lt := by
  obtain ⟨rest, hrest⟩ := h
  have hscan := scanOrder_append a.items [] rest
  rw [List.append_nil, hrest] at hscan
  cases rest with
  | nil => exact absurd (by simpa using hrest) hne
  | cons c rest =>
    rw [order, hscan]
    rfl

theorem order_answer_swap (a b : Sequence) : (b.order a).answer = (a.order b).answer.swap := by
  rw [order, order, scanOrder_answer, scanOrder_answer]
  exact Std.OrientedOrd.eq_swap

section

variable {a b c : Sequence}

theorem order_answer_trans (hab : (a.order b).answer.isLE) (hbc : (b.order c).answer.isLE) :
    (a.order c).answer.isLE := by
  rw [order, scanOrder_answer] at hab hbc ⊢
  exact Std.TransOrd.isLE_trans hab hbc

/-- One strict step makes the whole strict. -/
theorem order_answer_trans_strict (hab : (a.order b).answer.isLE) (hbc : (b.order c).answer.isLE)
    (h : (a.order b).answer = .lt ∨ (b.order c).answer = .lt) : (a.order c).answer = .lt := by
  rw [order, scanOrder_answer] at hab hbc ⊢
  rw [order, order, scanOrder_answer, scanOrder_answer] at h
  rcases h with h | h
  · exact Std.TransCmp.lt_of_lt_of_isLE h hbc
  · exact Std.TransCmp.lt_of_isLE_of_lt hab h

theorem equal_answer_honest (ha : a.Honest) (hb : b.Honest) :
    (a.equal b).answer ↔ a.items = b.items := by
  rw [equal_answer_of_honest ha hb, decide_eq_true_iff]

/-- The laws of equality and order of sequences that report their true lengths. -/
theorem comparison_laws (ha : a.Honest) (hb : b.Honest) (hc : c.Honest) (p : List CodePoint) :
    (a.equal a).answer ∧
    (a.equal b).answer = (b.equal a).answer ∧
    ((a.equal b).answer → (b.equal c).answer → (a.equal c).answer) ∧
    (a.order b).answer = (b.order a).answer.swap ∧
    ((a.order b).answer.isLE → (b.order c).answer.isLE →
      (a.order c).answer.isLE ∧
        ((a.order b).answer = .lt ∨ (b.order c).answer = .lt → (a.order c).answer = .lt)) ∧
    ((a.order b).answer = .eq ↔ (a.equal b).answer) ∧
    (a.items <+: b.items → a.items ≠ b.items → (a.order b).answer = .lt) ∧
    (a.prepend p).Honest ∧
    ((a.prepend p).equal (b.prepend p)).answer = (a.equal b).answer ∧
    ((a.prepend p).order (b.prepend p)).answer = (a.order b).answer ∧
    ∀ s : Sequence, s.Provided → s.Honest := by
  have hab := equal_answer_honest ha hb
  have hba := equal_answer_honest hb ha
  have hbc := equal_answer_honest hb hc
  have hac := equal_answer_honest ha hc
  refine ⟨(equal_answer_honest ha ha).2 rfl, ?_, ?_, order_answer_swap b a, ?_, ?_,
    order_answer_of_prefix, honest_prepend p ha, equal_answer_prepend p a b,
    order_answer_prepend p a b, fun s hs => hs.honest⟩
  · rw [Bool.eq_iff_iff, hab, hba]
    exact eq_comm
  · rw [hab, hbc, hac]
    exact Eq.trans
  · exact fun h h' => ⟨order_answer_trans h h', order_answer_trans_strict h h'⟩
  · rw [order_answer_eq_iff, hab]

end

/-- A character string, a text with a surrogate and words that go beyond Unicode ascend, and
equality tells the first from the last. -/
theorem laws_of_ascending_types :
    (ofString "a").Honest ∧ (Text.wide [0x61, 0xD800]).toSequence.Honest ∧
      (ofList [0x61, 0xD800, 0xFFFFFFFF]).Honest ∧
      ((ofString "a").order (Text.wide [0x61, 0xD800]).toSequence).answer = .lt ∧
      ((ofString "a").order (ofList [0x61, 0xD800, 0xFFFFFFFF])).answer = .lt ∧
      ((ofList [0x61, 0xD800, 0xFFFFFFFF]).equal (ofString "a")).answer = false := by
  have hs := honest_ofString "a"
  have hw := Text.honest_toSequence (t := .wide [0x61, 0xD800]) (by decide)
  have hl := honest_ofList [0x61, 0xD800, 0xFFFFFFFF]
  obtain ⟨_, _, _, _, htrans, _, hprefix, _⟩ := comparison_laws hs hw hl []
  obtain ⟨_, hsymm, _, _, _, heq, _⟩ := comparison_laws hs hl hl []
  have hlt : ((ofString "a").order (Text.wide [0x61, 0xD800]).toSequence).answer = .lt :=
    hprefix ⟨[0xD800], by decide⟩ (by decide)
  have hle : ((Text.wide [0x61, 0xD800]).toSequence.order
      (ofList [0x61, 0xD800, 0xFFFFFFFF])).answer.isLE := by decide
  have hall := (htrans (by rw [hlt]; rfl) hle).2 (.inl hlt)
  refine ⟨hs, hw, hl, hlt, hall, ?_⟩
  rw [← hsymm, Bool.eq_false_iff, ne_eq, ← heq, hall]
  decide

end Sequence
end CodePointText
