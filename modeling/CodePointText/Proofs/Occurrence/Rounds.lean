import CodePointText.Proofs.Occurrence.Position

/-!
# Rounds of a search

Counting and replacing search again behind each occurrence that is found. In a round the least
occurrence is passed; as the pattern is not empty, less of the text is left, so every run of rounds
ends. What the rounds pass are the pieces into which the leftmost occurrences cut the text: a text
has them in one way only.
-/

namespace CodePointText
namespace Occurrence

variable {α : Type} [DecidableEq α]

/-- Some rounds: what each of them passes before its occurrence, and what is left behind the
last one. -/
inductive Rounds (pattern : List α) : List α → List (List α) → List α → Prop
  | stop (text : List α) : Rounds pattern text [] text
  | round {text before after rest : List α} {passed : List (List α)}
      (hcut : cut? pattern text = some (before, after)) (hrest : Rounds pattern after passed rest) :
      Rounds pattern text (before :: passed) rest

/-- Where the loop stops: its limit is reached, or before that nothing is found any more. -/
def Ended (pattern : List α) (limit : Nat) (passed : List (List α)) (rest : List α) : Prop :=
  passed.length = limit ∨ passed.length < limit ∧ cut? pattern rest = none

/-- The pieces of a text that is cut at its leftmost occurrences. With the pattern between them they
are the text, and where a piece ends, the pattern stands for the first time in what is left. -/
structure CutLeftmost (pattern text : List α) (pieces : List (List α)) : Prop where
  intercalate_eq : pattern.intercalate pieces = text
  isLeast (i : Nat) (h : i + 1 < pieces.length) :
    IsLeast {j | StandsAt pattern (pattern.intercalate (pieces.drop i)) j} pieces[i].length

omit [DecidableEq α] in
theorem intercalate_append_singleton (separator : List α) (passed : List (List α))
    (rest : List α) :
    separator.intercalate (passed ++ [rest]) = passed.flatMap (· ++ separator) ++ rest := by
  induction passed with
  | nil => simp
  | cons before passed ih =>
    have hne : passed ++ [rest] ≠ [] := by simp
    obtain ⟨piece, pieces, hp⟩ := List.exists_cons_of_ne_nil hne
    rw [List.cons_append, hp, List.intercalate_cons_cons, ← hp, ih, List.flatMap_cons,
      List.append_assoc (before ++ separator)]

omit [DecidableEq α] in
theorem length_flatMap_append (passed : List (List α)) (separator : List α) :
    (passed.flatMap (· ++ separator)).length =
      passed.flatten.length + passed.length * separator.length := by
  induction passed with
  | nil => simp
  | cons before passed ih =>
    rw [List.flatMap_cons, List.flatten_cons, List.length_append, List.length_append,
      List.length_append, ih, List.length_cons, Nat.succ_mul]
    omega

theorem length_split (pattern : List α) (limit : Nat) (text : List α) :
    (split pattern limit text).length = countUpTo pattern limit text + 1 := by
  induction limit generalizing text with
  | zero => rfl
  | succ n ih =>
    rw [split, countUpTo]
    cases cut? pattern text with
    | none => rfl
    | some p => exact congrArg (· + 1) (ih p.2)

namespace Rounds

variable {pattern text rest : List α} {passed : List (List α)}

theorem text_eq (h : Rounds pattern text passed rest) :
    text = passed.flatMap (· ++ pattern) ++ rest := by
  induction h with
  | stop text => rfl
  | round hcut _ ih =>
    rw [List.flatMap_cons, List.append_assoc, ← ih]
    exact cut?_eq_some_append hcut

theorem length_le (h : Rounds pattern text passed rest) :
    passed.length * pattern.length + rest.length ≤ text.length := by
  rw [h.text_eq, List.length_append, length_flatMap_append]
  omega

theorem unique (h : Rounds pattern text passed rest) {passed' : List (List α)} {rest' : List α}
    (h' : Rounds pattern text passed' rest') (hlength : passed.length = passed'.length) :
    passed = passed' ∧ rest = rest' := by
  induction h generalizing passed' with
  | stop text =>
    cases h' with
    | stop => exact ⟨rfl, rfl⟩
    | round _ _ => cases hlength
  | round hcut _ ih =>
    cases h' with
    | stop => cases hlength
    | round hcut' hrest' =>
      obtain ⟨rfl, rfl⟩ := Prod.mk.inj (Option.some.inj (hcut.symm.trans hcut'))
      obtain ⟨rfl, rfl⟩ := ih hrest' (Nat.succ.inj hlength)
      exact ⟨rfl, rfl⟩

/-- Rounds that came to an end at a limit pass the pieces into which the text is split up to this
limit, but for the last piece, which they leave. -/
theorem split_eq (h : Rounds pattern text passed rest) {limit : Nat}
    (hend : Ended pattern limit passed rest) : split pattern limit text = passed ++ [rest] := by
  induction h generalizing limit with
  | stop text =>
    rcases hend with rfl | ⟨hlt, hnone⟩
    · rfl
    · obtain ⟨n, rfl⟩ := Nat.exists_eq_succ_of_ne_zero (Nat.ne_of_gt hlt)
      rw [split, hnone]
      rfl
  | round hcut _ ih =>
    unfold Ended at hend
    rw [List.length_cons] at hend
    obtain ⟨n, rfl⟩ : ∃ n, limit = n + 1 := ⟨limit - 1, by omega⟩
    rw [split, hcut]
    exact congrArg (List.cons _)
      (ih (hend.imp Nat.succ.inj (And.imp_left Nat.lt_of_succ_lt_succ)))

theorem countUpTo_eq (h : Rounds pattern text passed rest) {limit : Nat}
    (hend : Ended pattern limit passed rest) : countUpTo pattern limit text = passed.length := by
  have hlength := length_split pattern limit text
  rw [h.split_eq hend, List.length_append, List.length_singleton] at hlength
  exact (Nat.succ.inj hlength).symm

theorem replace_eq (h : Rounds pattern text passed rest) {limit : Nat}
    (hend : Ended pattern limit passed rest) (substitute : List α) :
    replace pattern substitute limit text = passed.flatMap (· ++ substitute) ++ rest := by
  rw [replace, h.split_eq hend, intercalate_append_singleton]

theorem exists_append (h : Rounds pattern text passed rest) {passed' : List (List α)}
    {rest' : List α} (h' : Rounds pattern text passed' rest') (hnone : cut? pattern rest' = none) :
    ∃ more, passed' = passed ++ more ∧ Rounds pattern rest more rest' := by
  induction h generalizing passed' with
  | stop text => exact ⟨passed', rfl, h'⟩
  | round hcut _ ih =>
    cases h' with
    | stop => cases hnone.symm.trans hcut
    | round hcut' hrest' =>
      obtain ⟨rfl, rfl⟩ := Prod.mk.inj (Option.some.inj (hcut.symm.trans hcut'))
      obtain ⟨more, rfl, hmore⟩ := ih hrest'
      exact ⟨more, rfl, hmore⟩

end Rounds

/-- A loop with a limit ends. -/
theorem exists_rounds (pattern : List α) (limit : Nat) (text : List α) :
    ∃ passed rest, Rounds pattern text passed rest ∧ Ended pattern limit passed rest := by
  induction limit generalizing text with
  | zero => exact ⟨[], text, .stop text, .inl rfl⟩
  | succ n ih =>
    cases hcut : cut? pattern text with
    | none => exact ⟨[], text, .stop text, .inr ⟨Nat.succ_pos n, hcut⟩⟩
    | some p =>
      obtain ⟨passed, rest, hrounds, hend⟩ := ih p.2
      refine ⟨p.1 :: passed, rest, .round hcut hrounds, ?_⟩
      exact hend.imp (congrArg (· + 1)) (And.imp_left Nat.succ_lt_succ)

theorem replace_self (pattern : List α) (limit : Nat) (text : List α) :
    replace pattern pattern limit text = text := by
  obtain ⟨passed, rest, hrounds, hend⟩ := exists_rounds pattern limit text
  rw [hrounds.replace_eq hend, ← hrounds.text_eq]

section

variable {pattern : List α} (hp : pattern ≠ [])
include hp

theorem Rounds.length_add_le {text rest : List α} {passed : List (List α)}
    (h : Rounds pattern text passed rest) : passed.length + rest.length ≤ text.length := by
  have hle := h.length_le
  have hmul : passed.length * 1 ≤ passed.length * pattern.length :=
    Nat.mul_le_mul_left _ (List.length_pos_iff.2 hp)
  omega

/-- Without a limit it ends as well, and its rounds are counted. -/
theorem exists_rounds_count (text : List α) :
    ∃ passed rest, Rounds pattern text passed rest ∧ cut? pattern rest = none ∧
      passed.length = count pattern text := by
  obtain ⟨passed, rest, hrounds, hend⟩ := exists_rounds pattern text.length text
  refine ⟨passed, rest, hrounds, ?_, (hrounds.countUpTo_eq hend).symm⟩
  rcases hend with hlength | ⟨_, hnone⟩
  · -- As many rounds as there are items leave nothing, and nothing is found in it.
    have hle := hrounds.length_add_le hp
    have hrest : rest = [] := List.length_eq_zero_iff.1 (by omega)
    rw [hrest, cut?, first?_eq_none_of_nil hp]
    rfl
  · exact hnone

theorem count_le_length (text : List α) : count pattern text ≤ text.length := by
  obtain ⟨passed, rest, hrounds, _, hcount⟩ := exists_rounds_count hp text
  have hle := hrounds.length_add_le hp
  omega

namespace Rounds

variable {text rest : List α} {passed : List (List α)}

theorem length_le_count (h : Rounds pattern text passed rest) :
    passed.length ≤ count pattern text := by
  obtain ⟨passed', rest', hrounds, hnone, hcount⟩ := exists_rounds_count hp text
  obtain ⟨more, rfl, _⟩ := h.exists_append hrounds hnone
  rw [← hcount, List.length_append]
  exact Nat.le_add_right _ _

theorem length_eq_count (h : Rounds pattern text passed rest) (hnone : cut? pattern rest = none) :
    passed.length = count pattern text := by
  obtain ⟨passed', rest', hrounds, hnone', hcount⟩ := exists_rounds_count hp text
  obtain ⟨more, rfl, hmore⟩ := h.exists_append hrounds hnone'
  cases hmore with
  | stop => rwa [List.append_nil] at hcount
  | round hcut _ => cases hnone.symm.trans hcut

/-- Rounds that find nothing more also come to an end at any limit that the text keeps to. -/
theorem ended_of_length_le (h : Rounds pattern text passed rest) (hnone : cut? pattern rest = none)
    {limit : Nat} (hlimit : text.length ≤ limit) : Ended pattern limit passed rest := by
  have hle := h.length_add_le hp
  rcases Nat.lt_or_eq_of_le (show passed.length ≤ limit by omega) with hlt | heq
  · exact .inr ⟨hlt, hnone⟩
  · exact .inl heq

theorem length_eq_min (h : Rounds pattern text passed rest) {limit : Nat}
    (hend : Ended pattern limit passed rest) :
    passed.length = min limit (count pattern text) := by
  rcases hend with rfl | ⟨hlt, hnone⟩
  · exact (Nat.min_eq_left (h.length_le_count hp)).symm
  · rw [← h.length_eq_count hp hnone, Nat.min_eq_right (Nat.le_of_lt hlt)]

end Rounds

/-- No text has more occurrences of a pattern than items, so greater limits do not bind. -/
theorem replace_of_length_le {text : List α} (substitute : List α) {m n : Nat}
    (hm : text.length ≤ m) (hn : text.length ≤ n) :
    replace pattern substitute m text = replace pattern substitute n text := by
  obtain ⟨passed, rest, hrounds, hnone, _⟩ := exists_rounds_count hp text
  rw [hrounds.replace_eq (hrounds.ended_of_length_le hp hnone hm),
    hrounds.replace_eq (hrounds.ended_of_length_le hp hnone hn)]

end

theorem cutLeftmost_cons {pattern text before : List α} {pieces : List (List α)}
    (hne : pieces ≠ []) :
    CutLeftmost pattern text (before :: pieces) ↔
      ∃ after, cut? pattern text = some (before, after) ∧ CutLeftmost pattern after pieces := by
  obtain ⟨p, ps, rfl⟩ := List.exists_cons_of_ne_nil hne
  constructor
  · rintro ⟨rfl, hleast⟩
    refine ⟨pattern.intercalate (p :: ps), cut?_eq_some_iff.2 ⟨?_, ?_⟩, rfl, fun i hi => ?_⟩
    · rw [List.intercalate_cons_cons]
    · exact hleast 0 (by simp)
    · exact hleast (i + 1) (Nat.succ_lt_succ hi)
  · rintro ⟨after, hcut, rfl, hleast⟩
    obtain ⟨ht, hfirst⟩ := cut?_eq_some_iff.1 hcut
    have htext : pattern.intercalate (before :: p :: ps) = text := by
      rw [List.intercalate_cons_cons, ht]
    refine ⟨htext, fun i hi => ?_⟩
    cases i with
    | zero =>
      rw [List.drop_zero, htext]
      exact hfirst
    | succ i => exact hleast i (Nat.lt_of_succ_lt_succ hi)

/-- The pieces of a text are what rounds pass and what they leave. -/
theorem cutLeftmost_iff_rounds {pattern text rest : List α} {passed : List (List α)} :
    CutLeftmost pattern text (passed ++ [rest]) ↔ Rounds pattern text passed rest := by
  constructor
  · intro h
    induction passed generalizing text with
    | nil =>
      obtain rfl : rest = text := by simpa using h.intercalate_eq
      exact .stop rest
    | cons before passed ih =>
      obtain ⟨after, hcut, hrest⟩ := (cutLeftmost_cons (by simp)).1 h
      exact .round hcut (ih hrest)
  · intro h
    induction h with
    | stop text => exact ⟨by simp, fun i hi => by simp at hi⟩
    | round hcut _ ih => exact (cutLeftmost_cons (by simp)).2 ⟨_, hcut, ih⟩

theorem CutLeftmost.exists_passed {pattern text : List α} {pieces : List (List α)} {k : Nat}
    (h : CutLeftmost pattern text pieces) (hlength : pieces.length = k + 1) :
    ∃ passed rest, pieces = passed ++ [rest] ∧ passed.length = k ∧
      Rounds pattern text passed rest := by
  have hne : pieces ≠ [] := List.ne_nil_of_length_eq_add_one hlength
  have hpieces := List.dropLast_concat_getLast hne
  refine ⟨pieces.dropLast, pieces.getLast hne, hpieces.symm, ?_, ?_⟩
  · rw [List.length_dropLast, hlength, Nat.add_sub_cancel]
  · rw [← cutLeftmost_iff_rounds, hpieces]
    exact h

section

variable {pattern text : List α} (hp : pattern ≠ [])
include hp

/-- A text is cut at its first occurrences in one way only, up to all of them. -/
theorem existsUnique_cutLeftmost {k : Nat} (hk : k ≤ count pattern text) :
    ∃! pieces, pieces.length = k + 1 ∧ CutLeftmost pattern text pieces := by
  obtain ⟨passed, rest, hrounds, hend⟩ := exists_rounds pattern k text
  have hlength : passed.length = k := by rw [hrounds.length_eq_min hp hend, Nat.min_eq_left hk]
  refine ⟨passed ++ [rest], ⟨by simp [hlength], cutLeftmost_iff_rounds.2 hrounds⟩, ?_⟩
  rintro pieces ⟨hpieces, hcut⟩
  obtain ⟨passed', rest', rfl, hlength', hrounds'⟩ := hcut.exists_passed hpieces
  obtain ⟨rfl, rfl⟩ := hrounds'.unique hrounds (hlength'.trans hlength.symm)
  rfl

theorem replace_eq_intercalate {limit : Nat} {pieces : List (List α)}
    (h : CutLeftmost pattern text pieces)
    (hlength : pieces.length = min limit (count pattern text) + 1) (substitute : List α) :
    replace pattern substitute limit text = substitute.intercalate pieces := by
  obtain ⟨passed, rest, rfl, hlen, hrounds⟩ := h.exists_passed hlength
  obtain ⟨passed', rest', hrounds', hend⟩ := exists_rounds pattern limit text
  obtain ⟨rfl, rfl⟩ := hrounds'.unique hrounds ((hrounds'.length_eq_min hp hend).trans hlen.symm)
  rw [replace, hrounds.split_eq hend]

theorem length_replace (substitute : List α) (limit : Nat) :
    (replace pattern substitute limit text).length +
        min limit (count pattern text) * pattern.length =
      text.length + min limit (count pattern text) * substitute.length := by
  obtain ⟨passed, rest, hrounds, hend⟩ := exists_rounds pattern limit text
  have htext := congrArg List.length hrounds.text_eq
  rw [List.length_append, length_flatMap_append] at htext
  rw [hrounds.replace_eq hend, ← hrounds.length_eq_min hp hend, List.length_append,
    length_flatMap_append, htext]
  omega

end

end Occurrence
end CodePointText
