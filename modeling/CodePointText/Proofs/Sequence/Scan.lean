import CodePointText.Proofs.Comparison

/-!
# What a scan answers and counts

Two lists are their longest common prefix with rests that have nothing in common. A scan passes over
the prefix in pairs and is decided by the first items of the rests, so its counts are one more than
the length of the prefix at most. Nothing is assumed of the lengths that sequences report.
-/

namespace CodePointText

namespace Scan

def afterPairs {α : Type} (n : Nat) (s : Scan α) : Scan α :=
  ⟨s.answer, s.leftReads + n, s.rightReads + n⟩

@[simp] theorem afterPairs_leftReads {α : Type} (n : Nat) (s : Scan α) :
    (s.afterPairs n).leftReads = s.leftReads + n := rfl

@[simp] theorem afterPairs_rightReads {α : Type} (n : Nat) (s : Scan α) :
    (s.afterPairs n).rightReads = s.rightReads + n := rfl

theorem afterPair_afterPairs {α : Type} (n : Nat) (s : Scan α) :
    (s.afterPairs n).afterPair = s.afterPairs (n + 1) := rfl

end Scan

namespace Sequence

def commonPrefix : List CodePoint → List CodePoint → List CodePoint
  | a :: as, b :: bs => if a = b then a :: commonPrefix as bs else []
  | _, _ => []

@[simp] theorem commonPrefix_nil_left (bs : List CodePoint) : commonPrefix [] bs = [] := rfl

@[simp] theorem commonPrefix_nil_right (as : List CodePoint) : commonPrefix as [] = [] := by
  cases as <;> rfl

theorem commonPrefix_cons_cons (a b : CodePoint) (as bs : List CodePoint) :
    commonPrefix (a :: as) (b :: bs) = if a = b then a :: commonPrefix as bs else [] := rfl

theorem prefix_commonPrefix_iff {p as bs : List CodePoint} :
    p <+: commonPrefix as bs ↔ p <+: as ∧ p <+: bs := by
  induction as generalizing p bs with
  | nil => simp +contextual [List.prefix_nil]
  | cons a as ih =>
    cases bs with
    | nil => simp +contextual [List.prefix_nil]
    | cons b bs =>
      cases p with
      | nil => simp
      | cons c p =>
        by_cases h : a = b
        · subst h
          rw [commonPrefix_cons_cons, if_pos rfl]
          simp only [List.cons_prefix_cons, ih]
          exact and_and_left
        · rw [commonPrefix_cons_cons, if_neg h]
          simp only [List.prefix_nil, List.cons_prefix_cons, reduceCtorEq, false_iff]
          rintro ⟨⟨rfl, _⟩, rfl, _⟩
          exact h rfl

theorem commonPrefix_append (p as bs : List CodePoint) :
    commonPrefix (p ++ as) (p ++ bs) = p ++ commonPrefix as bs := by
  induction p with
  | nil => rfl
  | cons c p ih => rw [List.cons_append, List.cons_append, commonPrefix_cons_cons, if_pos rfl, ih,
      List.cons_append]

/-- Two lists are their longest common prefix, each followed by a rest, and the rests have nothing
in common. -/
theorem exists_rests (as bs : List CodePoint) :
    ∃ as' bs', as = commonPrefix as bs ++ as' ∧ bs = commonPrefix as bs ++ bs' ∧
      commonPrefix as' bs' = [] := by
  obtain ⟨⟨as', ha⟩, bs', hb⟩ := prefix_commonPrefix_iff.1 (List.prefix_refl (commonPrefix as bs))
  refine ⟨as', bs', ha.symm, hb.symm, ?_⟩
  have happend := commonPrefix_append (commonPrefix as bs) as' bs'
  rw [ha, hb] at happend
  exact List.self_eq_append_right.1 happend

section Walk

variable (p : List CodePoint) (as bs : List CodePoint)

/-- What both sides begin with is read in pairs and decides nothing. -/
theorem scanEqual_append :
    scanEqual (p ++ as) (p ++ bs) = (scanEqual as bs).afterPairs p.length := by
  induction p with
  | nil => rfl
  | cons c p ih =>
    rw [List.cons_append, List.cons_append, scanEqual, if_pos rfl, ih, Scan.afterPair_afterPairs,
      List.length_cons]

theorem scanOrder_append :
    scanOrder (p ++ as) (p ++ bs) = (scanOrder as bs).afterPairs p.length := by
  induction p with
  | nil => rfl
  | cons c p ih =>
    have hc : compare c c = .eq := Std.ReflCmp.compare_self
    rw [List.cons_append, List.cons_append, scanOrder, hc, ih]
    exact Scan.afterPair_afterPairs p.length _

end Walk

section Parted

variable {as bs : List CodePoint} (h : commonPrefix as bs = [])
include h

/-- Where nothing is in common, a first item is read on each side, unless the left side has none. -/
theorem reads_scanEqual_of_parted :
    (scanEqual as bs).leftReads = min as.length 1 ∧
      (scanEqual as bs).rightReads = if as = [] then 0 else min bs.length 1 := by
  cases as with
  | nil => exact ⟨rfl, rfl⟩
  | cons a as =>
    cases bs with
    | nil => simp [scanEqual]
    | cons b bs =>
      have hab : a ≠ b := fun hab => by simp [commonPrefix_cons_cons, hab] at h
      simp [scanEqual, hab]

theorem reads_scanOrder_of_parted :
    (scanOrder as bs).leftReads = min as.length 1 ∧
      (scanOrder as bs).rightReads = min bs.length 1 := by
  cases as with
  | nil => cases bs <;> simp [scanOrder]
  | cons a as =>
    cases bs with
    | nil => simp [scanOrder]
    | cons b bs =>
      have hab : compare a b ≠ .eq := fun hab => by
        simp [commonPrefix_cons_cons, Std.LawfulEqCmp.eq_of_compare hab] at h
      cases hc : compare a b with
      | eq => exact absurd hc hab
      | lt => simp [scanOrder, hc]
      | gt => simp [scanOrder, hc]

end Parted

section

variable (as bs : List CodePoint)

theorem reads_scanEqual :
    (scanEqual as bs).leftReads = min as.length ((commonPrefix as bs).length + 1) ∧
      (scanEqual as bs).rightReads =
        if (commonPrefix as bs).length = as.length then as.length
        else min bs.length ((commonPrefix as bs).length + 1) := by
  obtain ⟨as', bs', ha, hb, hparted⟩ := exists_rests as bs
  generalize commonPrefix as bs = p at ha hb ⊢
  subst ha hb
  obtain ⟨hleft, hright⟩ := reads_scanEqual_of_parted hparted
  have hend : p.length = (p ++ as').length ↔ as' = [] := by simp
  rw [scanEqual_append, Scan.afterPairs_leftReads, Scan.afterPairs_rightReads, hleft, hright]
  refine ⟨?_, ?_⟩
  · rw [List.length_append]
    omega
  · simp only [hend]
    split
    · next hnil => simp [hnil]
    · rw [List.length_append]
      omega

theorem reads_scanOrder :
    (scanOrder as bs).leftReads = min as.length ((commonPrefix as bs).length + 1) ∧
      (scanOrder as bs).rightReads = min bs.length ((commonPrefix as bs).length + 1) := by
  obtain ⟨as', bs', ha, hb, hparted⟩ := exists_rests as bs
  generalize commonPrefix as bs = p at ha hb ⊢
  subst ha hb
  obtain ⟨hleft, hright⟩ := reads_scanOrder_of_parted hparted
  rw [scanOrder_append, Scan.afterPairs_leftReads, Scan.afterPairs_rightReads, hleft, hright,
    List.length_append, List.length_append]
  omega

end

theorem equal_answer_iff (a b : Sequence) :
    (a.equal b).answer ↔ a.reported = b.reported ∧ a.items <+: b.items := by
  unfold equal
  split
  · next h => simp [h, scanEqual_answer]
  · next h => simp [h]

theorem order_answer_lt_iff (a b : Sequence) : (a.order b).answer = .lt ↔ a.items < b.items := by
  rw [order, scanOrder_answer, compare_eq_lt_iff]

theorem order_answer_eq_iff (a b : Sequence) : (a.order b).answer = .eq ↔ a.items = b.items := by
  rw [order, scanOrder_answer, Std.compare_eq_eq_iff_eq]

theorem order_answer_gt_iff (a b : Sequence) : (a.order b).answer = .gt ↔ b.items < a.items := by
  rw [order, scanOrder_answer, Std.OrientedCmp.gt_iff_lt, compare_eq_lt_iff]

theorem reads_equal (a b : Sequence) :
    (a.reported ≠ b.reported → (a.equal b).leftReads = 0 ∧ (a.equal b).rightReads = 0) ∧
      (a.reported = b.reported →
        (a.equal b).leftReads = min a.items.length ((commonPrefix a.items b.items).length + 1) ∧
        (a.equal b).rightReads =
          if (commonPrefix a.items b.items).length = a.items.length then a.items.length
          else min b.items.length ((commonPrefix a.items b.items).length + 1)) := by
  refine ⟨fun h => ?_, fun h => ?_⟩
  · rw [equal, if_neg h]
    exact ⟨rfl, rfl⟩
  · rw [equal, if_pos h]
    exact reads_scanEqual a.items b.items

theorem totalReads_self (a : Sequence) :
    (a.equal a).totalReads = 2 * a.items.length ∧ (a.order a).totalReads = 2 * a.items.length := by
  have hself : commonPrefix a.items a.items = a.items := by
    have hall := commonPrefix_append a.items [] []
    rwa [List.append_nil, commonPrefix_nil_left, List.append_nil] at hall
  obtain ⟨hleft, hright⟩ := (reads_equal a a).2 rfl
  obtain ⟨hleft', hright'⟩ := reads_scanOrder a.items a.items
  rw [hself] at hleft hright hleft' hright'
  rw [if_pos rfl] at hright
  rw [Scan.totalReads, Scan.totalReads, hleft, hright, order, hleft', hright']
  omega

end Sequence
end CodePointText
