import CodePointText.Method
import CodePointText.Proofs.Utf8.Order

/-!
# Equality and order are those of code points

Texts are compared by bytes, by words or by walking two traversals, and all three come to the
lexicographic order of the code points. So the order is total through any mix of storages, and the
six operators are the cases of one comparison.
-/

namespace CodePointText

theorem compare_eq_lt_iff {as bs : List CodePoint} : compare as bs = .lt ↔ as < bs := by
  induction as generalizing bs with
  | nil => cases bs <;> simp
  | cons a as ih =>
    cases bs with
    | nil => simp
    | cons b bs =>
      rw [List.compare_cons_cons, Ordering.then_eq_lt, Std.compare_eq_lt, Std.compare_eq_eq_iff_eq,
        ih, List.cons_lt_cons_iff]

namespace Text

/-- The order of texts is the order of their code points, in any mix of storages. -/
theorem order_eq (a b : Text) : a.order b = compare a.codePoints b.codePoints := by
  unfold order
  split
  · next s n x t m y =>
    rw [Utf8.bytes_eq_encode, Utf8.bytes_eq_encode, Utf8.compare_encode]
    rfl
  · exact Sequence.scanOrder_answer a.codePoints b.codePoints

theorem order_eq_eq_iff {a b : Text} : a.order b = .eq ↔ a.codePoints = b.codePoints := by
  rw [order_eq, Std.compare_eq_eq_iff_eq]

theorem order_swap (a b : Text) : b.order a = (a.order b).swap := by
  rw [order_eq, order_eq]
  exact Std.OrientedOrd.eq_swap

theorem order_trans {a b c : Text} (hab : (a.order b).isLE) (hbc : (b.order c).isLE) :
    (a.order c).isLE := by
  rw [order_eq] at hab hbc ⊢
  exact Std.TransOrd.isLE_trans hab hbc

theorem equal_iff {a b : Text} (ha : a.WellFormed) (hb : b.WellFormed) :
    a.equal b ↔ a.codePoints = b.codePoints := by
  rw [equal_eq ha hb, decide_eq_true_iff]

/-- The walk over two traversals gives the same answer as the comparison of storages. -/
theorem sequence_equal_eq {a b : Text} (ha : a.WellFormed) (hb : b.WellFormed) :
    (a.toSequence.equal b.toSequence).answer = a.equal b := by
  rw [equal_eq ha hb,
    Sequence.equal_answer_of_honest (honest_toSequence ha) (honest_toSequence hb)]
  rfl

theorem sequence_order_eq (a b : Text) : (a.toSequence.order b.toSequence).answer = a.order b := by
  rw [order_eq]
  exact Sequence.scanOrder_answer a.codePoints b.codePoints

theorem equalString_eq {a : Text} (ha : a.WellFormed) (s : String) :
    a.equalString s = a.equal (ofString s) := by
  cases a with
  | compact t n ascii => rfl
  | wide cs =>
    have hw := Sequence.equal_answer_of_honest (honest_toSequence ha) (Sequence.honest_ofString s)
    rw [equal_eq ha (wellFormed_ofString s)]
    exact hw

theorem equal_eq_order {a b : Text} (ha : a.WellFormed) (hb : b.WellFormed) :
    a.equal b = (a.order b).isEq := by
  rw [Bool.eq_iff_iff, equal_iff ha hb, Ordering.isEq_iff_eq_eq, order_eq_eq_iff]

end Text

namespace Comparison

theorem holds_eq {a b : Text} (ha : a.WellFormed) (hb : b.WellFormed) (o : Comparison) :
    o.holds a b =
      match o with
      | eq => (a.order b).isEq
      | ne => (a.order b).isNe
      | lt => (a.order b).isLT
      | le => (a.order b).isLE
      | gt => (a.order b).isGT
      | ge => (a.order b).isGE := by
  have he := Text.equal_eq_order ha hb
  cases o with
  | eq => exact he
  | ne =>
    rw [holds, he]
    cases a.order b <;> rfl
  | _ => rfl

theorem countP_holds {a b : Text} (ha : a.WellFormed) (hb : b.WellFormed) :
    [lt, eq, gt].countP (fun o => o.holds a b) = 1 := by
  simp only [List.countP_cons, List.countP_nil, holds_eq ha hb]
  cases a.order b <;> rfl

end Comparison

namespace Text

/-- Equality and order of texts are those of their code points, through every path of comparison:
the generic walks, the comparison with a string, and the operators. -/
theorem comparison_by_codePoints {a b c : Text} (ha : a.WellFormed) (hb : b.WellFormed)
    (s : String) :
    (a.equal b ↔ a.codePoints = b.codePoints) ∧
    a.order b = compare a.codePoints b.codePoints ∧
    (a.order b = .lt ↔ a.codePoints < b.codePoints) ∧
    (a.order b = .eq ↔ a.equal b) ∧
    b.order a = (a.order b).swap ∧
    ((a.order b).isLE → (b.order c).isLE → (a.order c).isLE) ∧
    (a.toSequence.equal b.toSequence).answer = a.equal b ∧
    (a.toSequence.order b.toSequence).answer = a.order b ∧
    a.equalString s = a.equal (ofString s) ∧
    [Comparison.lt, .eq, .gt].countP (fun o => o.holds a b) = 1 ∧
    Comparison.eq.holds a b = a.equal b ∧
    (Comparison.lt.holds a b ↔ a.order b = .lt) ∧
    Comparison.le.holds a b = (Comparison.lt.holds a b || Comparison.eq.holds a b) ∧
    Comparison.ge.holds a b = (Comparison.gt.holds a b || Comparison.eq.holds a b) ∧
    Comparison.ne.holds a b = !Comparison.eq.holds a b := by
  have hequal := equal_iff ha hb
  have horder := order_eq a b
  refine ⟨hequal, horder, ?_, ?_, order_swap a b, order_trans, sequence_equal_eq ha hb,
    sequence_order_eq a b, equalString_eq ha s, Comparison.countP_holds ha hb, rfl, ?_, ?_, ?_, rfl⟩
  · rw [horder, compare_eq_lt_iff]
  · rw [order_eq_eq_iff, hequal]
  · exact Ordering.isLT_iff_eq_lt
  · rw [Comparison.holds_eq ha hb, Comparison.holds_eq ha hb, Comparison.holds_eq ha hb]
    cases a.order b <;> rfl
  · rw [Comparison.holds_eq ha hb, Comparison.holds_eq ha hb, Comparison.holds_eq ha hb]
    cases a.order b <;> rfl

/-- A character below the surrogates, a lone surrogate and one beyond U+FFFF ascend by code point,
though they are held in different storages. -/
theorem comparison_ascending :
    (ofString "z\ud7ff").WellFormed ∧ (wide [0x7A, 0xD800]).WellFormed ∧
      (ofString "z\ud7ff").order (wide [0x7A, 0xD800]) = .lt ∧
      ((wide [0x7A, 0xD800]).order (ofString "z😀")).isLE ∧
      ((ofString "z\ud7ff").order (ofString "z😀")).isLE := by
  have hs := wellFormed_ofString "z\ud7ff"
  have hw : (wide [0x7A, 0xD800]).WellFormed := by decide
  have h := comparison_by_codePoints (c := ofString "z😀") hs hw ""
  have hlt : (ofString "z\ud7ff").order (wide [0x7A, 0xD800]) = .lt := h.2.2.1.2 (by decide)
  have hle : ((wide [0x7A, 0xD800]).order (ofString "z😀")).isLE := by decide
  have htrans := h.2.2.2.2.2.1 (by rw [hlt]; rfl) hle
  exact ⟨hs, hw, hlt, hle, htrans⟩

end Text
end CodePointText
