import CodePointText.Proofs.Occurrence.Position
import CodePointText.Proofs.Utf8.Boundary

/-!
# Occurrences under a code

Where every item is written as a word, and the words are such that a pattern of items is found only
where its items stand, search, splitting and replacement may be done on the words. UTF-8 is such a
code, and so is any renaming of items by a function that merges none.
-/

namespace CodePointText
namespace Occurrence

variable {α β : Type}

/-- Words that keep patterns apart: none is empty, what is written tells the items in front, and no
word begins within another one. -/
structure Synchronizing (word : α → List β) : Prop where
  ne_nil : ∀ a, word a ≠ []
  of_prefix : ∀ as bs, as.flatMap word <+: bs.flatMap word → as <+: bs
  not_within : ∀ a b i rest, 0 < i → i < (word b).length → ¬ word a <+: (word b).drop i ++ rest

namespace Synchronizing

variable {word : α → List β} (hw : Synchronizing word)
include hw

theorem flatMap_ne_nil {as : List α} (h : as ≠ []) : as.flatMap word ≠ [] := by
  cases as with
  | nil => exact absurd rfl h
  | cons a as => simp [hw.ne_nil a]

theorem prefix_iff {as bs : List α} : as.flatMap word <+: bs.flatMap word ↔ as <+: bs := by
  refine ⟨hw.of_prefix as bs, ?_⟩
  rintro ⟨rest, rfl⟩
  exact ⟨rest.flatMap word, by rw [List.flatMap_append]⟩

/-- Where the words of a pattern stand among the words of a text, no word is cut and the pattern
stands in the text. -/
theorem standsAt_flatMap {pattern : List α} (hp : pattern ≠ []) {text : List α} {b : Nat} :
    StandsAt (pattern.flatMap word) (text.flatMap word) b ↔
      ∃ i, StandsAt pattern text i ∧ ((text.take i).flatMap word).length = b := by
  constructor
  · intro h
    induction text generalizing b with
    | nil =>
      obtain ⟨before, after, ht, _⟩ := h
      have hnil := (List.append_eq_nil_iff.1 ht.symm).1
      exact absurd (List.append_eq_nil_iff.1 hnil).2 (hw.flatMap_ne_nil hp)
    | cons a text ih =>
      by_cases hb : (word a).length ≤ b
      · obtain ⟨c, rfl⟩ := Nat.exists_eq_add_of_le hb
        obtain ⟨i, hi, hc⟩ := ih ((standsAt_append_left (word a)).1 h)
        refine ⟨i + 1, ?_, by rw [List.take_succ_cons, List.flatMap_cons, List.length_append, hc]⟩
        exact Nat.add_comm i 1 ▸ (standsAt_append_left [a]).2 hi
      · -- Inside the first word nothing begins, so the pattern stands right at the front.
        have hpre := (standsAt_iff.1 h).2
        rcases Nat.eq_zero_or_pos b with rfl | hpos
        · exact ⟨0, standsAt_zero.2 (hw.prefix_iff.1 hpre), rfl⟩
        · rw [List.flatMap_cons, List.drop_append_of_le_length (by omega)] at hpre
          cases pattern with
          | nil => exact absurd rfl hp
          | cons c cs =>
            have hc : word c <+: (c :: cs).flatMap word := List.prefix_append _ _
            exact absurd (hc.trans hpre) (hw.not_within c a b _ hpos (by omega))
  · rintro ⟨i, h, rfl⟩
    exact h.flatMap word

end Synchronizing

theorem synchronizing_singleton {f : α → β} (hf : Function.Injective f) :
    Synchronizing fun a => [f a] where
  ne_nil a := List.cons_ne_nil _ _
  of_prefix as bs h := by
    rw [← List.map_eq_flatMap, ← List.map_eq_flatMap] at h
    exact (List.prefix_map_iff_of_injective hf).1 h
  not_within a b i rest hpos hi := by
    simp only [List.length_singleton] at hi
    omega

/-- A character is written by bytes of which only the first can begin a character. -/
theorem synchronizing_encodeChar : Synchronizing String.utf8EncodeChar where
  ne_nil c := by
    obtain ⟨lead, rest, he, _, _⟩ := Utf8.encodeChar_eq_cons c
    rw [he]
    exact List.cons_ne_nil lead rest
  of_prefix cs ds h := Utf8.encode_prefix_encode.1 h
  not_within c d i rest hpos hi hpre := by
    obtain ⟨lead, tail, hc, hlead, _⟩ := Utf8.encodeChar_eq_cons c
    obtain ⟨lead', tail', hd, _, htail⟩ := Utf8.encodeChar_eq_cons d
    obtain ⟨i, rfl⟩ : ∃ j, i = j + 1 := ⟨i - 1, by omega⟩
    rw [hd, List.length_cons] at hi
    have hlt : i < tail'.length := by omega
    rw [hc, hd, List.drop_succ_cons, List.drop_eq_getElem_cons hlt, List.cons_append,
      List.cons_prefix_cons] at hpre
    have hcont := htail _ (List.getElem_mem hlt)
    rw [← hpre.1, hlead] at hcont
    exact absurd hcont (by decide)

theorem flatMap_intercalate (word : α → List β) (separator : List α) (pieces : List (List α)) :
    (separator.intercalate pieces).flatMap word =
      (separator.flatMap word).intercalate (pieces.map (·.flatMap word)) := by
  induction pieces with
  | nil => rfl
  | cons x pieces ih =>
    cases pieces with
    | nil => simp
    | cons y pieces => simp [ih]

variable [DecidableEq α] [DecidableEq β]

section

variable {word : α → List β} (hw : Synchronizing word)
include hw

theorem first?_flatMap {pattern : List α} (hp : pattern ≠ []) (text : List α) :
    first? (pattern.flatMap word) (text.flatMap word) =
      (first? pattern text).map fun i => ((text.take i).flatMap word).length := by
  cases hfirst : first? pattern text with
  | none =>
    rw [Option.map_none, first?_eq_none_iff]
    intro b hb
    obtain ⟨i, hi, _⟩ := (hw.standsAt_flatMap hp).1 hb
    exact first?_eq_none_iff.1 hfirst i hi
  | some i =>
    obtain ⟨hi, hleast⟩ := first?_eq_some_iff.1 hfirst
    rw [Option.map_some, first?_eq_some_iff]
    refine ⟨hi.flatMap word, fun b hb => ?_⟩
    obtain ⟨j, hj, rfl⟩ := (hw.standsAt_flatMap hp).1 hb
    have hprefix : text.take i <+: text.take j := List.take_prefix_take_left (hleast hj)
    exact (hw.prefix_iff.2 hprefix).length_le

theorem isSome_first?_flatMap (pattern text : List α) :
    (first? (pattern.flatMap word) (text.flatMap word)).isSome = (first? pattern text).isSome := by
  cases pattern with
  | nil => simp
  | cons p ps => rw [first?_flatMap hw (List.cons_ne_nil p ps), Option.isSome_map]

theorem cut?_flatMap {pattern : List α} (hp : pattern ≠ []) (text : List α) :
    cut? (pattern.flatMap word) (text.flatMap word) =
      (cut? pattern text).map fun p => (p.1.flatMap word, p.2.flatMap word) := by
  simp only [cut?, first?_flatMap hw hp, Option.map_map]
  cases hi : first? pattern text with
  | none => rfl
  | some i =>
    have hc : cut? pattern text = some (text.take i, text.drop (i + pattern.length)) := by
      rw [cut?, hi]; rfl
    have ht : text.flatMap word = (text.take i).flatMap word ++
        (pattern.flatMap word ++ (text.drop (i + pattern.length)).flatMap word) := by
      rw [← List.flatMap_append, ← List.flatMap_append, ← List.append_assoc,
        ← cut?_eq_some_append hc]
    simp only [Option.map_some, Function.comp_apply, Option.some.injEq, Prod.mk.injEq]
    refine ⟨?_, ?_⟩
    · rw [ht, List.take_left]
    · rw [ht, ← List.drop_drop, List.drop_left, List.drop_left]

theorem split_flatMap {pattern : List α} (hp : pattern ≠ []) (limit : Nat) (text : List α) :
    split (pattern.flatMap word) limit (text.flatMap word) =
      (split pattern limit text).map (·.flatMap word) := by
  induction limit generalizing text with
  | zero => rfl
  | succ limit ih =>
    rw [split, split, cut?_flatMap hw hp]
    cases cut? pattern text with
    | none => rfl
    | some p => simp [ih]

theorem replace_flatMap {pattern : List α} (hp : pattern ≠ []) (substitute : List α) (limit : Nat)
    (text : List α) :
    replace (pattern.flatMap word) (substitute.flatMap word) limit (text.flatMap word) =
      (replace pattern substitute limit text).flatMap word := by
  rw [replace, replace, split_flatMap hw hp, flatMap_intercalate]

end

theorem insertBetween_map {α β : Type} (f : α → β) (insertion : List α) (limit : Nat)
    (text : List α) :
    insertBetween (insertion.map f) limit (text.map f) =
      (insertBetween insertion limit text).map f := by
  induction text generalizing limit with
  | nil => cases limit <;> rfl
  | cons x xs ih =>
    cases limit with
    | zero => rfl
    | succ limit => simp [insertBetween, ih]

theorem mem_insertBetween {α : Type} {insertion text : List α} {limit : Nat} {x : α}
    (h : x ∈ insertBetween insertion limit text) : x ∈ insertion ∨ x ∈ text := by
  induction text generalizing limit with
  | nil =>
    cases limit with
    | zero => exact Or.inr h
    | succ limit => exact Or.inl h
  | cons y ys ih =>
    cases limit with
    | zero => exact Or.inr h
    | succ limit =>
      rw [insertBetween, List.mem_append, List.mem_cons] at h
      rcases h with h | h | h
      · exact Or.inl h
      · exact Or.inr (List.mem_cons.2 (Or.inl h))
      · exact (ih h).imp_right (List.mem_cons_of_mem y)

omit [DecidableEq α] in
theorem mem_intercalate {separator : List α} {pieces : List (List α)} {x : α}
    (h : x ∈ separator.intercalate pieces) : x ∈ separator ∨ ∃ piece ∈ pieces, x ∈ piece := by
  induction pieces with
  | nil => exact absurd h List.not_mem_nil
  | cons p pieces ih =>
    cases pieces with
    | nil => exact Or.inr ⟨p, List.mem_singleton.2 rfl, by simpa using h⟩
    | cons q pieces =>
      rw [List.intercalate_cons_cons, List.mem_append, List.mem_append] at h
      rcases h with (h | h) | h
      · exact Or.inr ⟨p, by simp, h⟩
      · exact Or.inl h
      · obtain h | ⟨piece, hp, hx⟩ := ih h
        · exact Or.inl h
        · exact Or.inr ⟨piece, List.mem_cons_of_mem p hp, hx⟩

theorem mem_of_mem_split {pattern text piece : List α} {limit : Nat} {x : α}
    (hp : piece ∈ split pattern limit text) (hx : x ∈ piece) : x ∈ text := by
  induction limit generalizing text with
  | zero => exact List.mem_singleton.1 hp ▸ hx
  | succ limit ih =>
    rw [split] at hp
    split at hp
    · exact List.mem_singleton.1 hp ▸ hx
    · next before after hc =>
      rw [cut?_eq_some_append hc]
      rcases List.mem_cons.1 hp with rfl | hp
      · exact List.mem_append_left _ (List.mem_append_left _ hx)
      · exact List.mem_append_right _ (ih hp)

theorem mem_replace {pattern substitute text : List α} {limit : Nat} {x : α}
    (h : x ∈ replace pattern substitute limit text) : x ∈ substitute ∨ x ∈ text := by
  obtain h | ⟨piece, hp, hx⟩ := mem_intercalate h
  · exact Or.inl h
  · exact Or.inr (mem_of_mem_split hp hx)

end Occurrence
end CodePointText
