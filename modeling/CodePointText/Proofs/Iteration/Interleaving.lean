import CodePointText.Proofs.Iteration
import Mathlib.Data.List.Induction

/-!
# Both ends of a cursor

Steps at the two ends of one cursor, in any order. What the front has given, what is still to come
and what the back has given are the text, so the ends meet and neither passes the other. How many
code points are still to come lies between the bounds at every moment.
-/

namespace CodePointText

namespace Cursor

/-- The code points that the steps at one end have given, in order. -/
def given (side : Step) : List Step → List Reply → List CodePoint
  | s :: steps, .codePoint c :: replies =>
    (if s = side then c.toList else []) ++ given side steps replies
  | _ :: steps, .bounds _ _ :: replies => given side steps replies
  | _, _ => []

def replies (t : Text) (steps : List Step) : List Reply := ((ofText t).run steps).1

def Step.spent : Step → Reply
  | .size => .bounds 0 0
  | _ => .codePoint none

/-- The cursor decodes bytes, as it does over compact text. -/
def decodes : Cursor → Bool
  | .bytes _ => true
  | .words _ => false

theorem run_append (c : Cursor) (steps more : List Step) :
    c.run (steps ++ more) =
      ((c.run steps).1 ++ ((c.run steps).2.run more).1, ((c.run steps).2.run more).2) := by
  induction steps generalizing c with
  | nil => rfl
  | cons s steps ih => simp only [List.cons_append, run, ih]

theorem decodes_step (c : Cursor) (s : Step) : (c.step s).2.decodes = c.decodes := by
  cases s with
  | front =>
    cases c with
    | bytes rest =>
      simp only [step, next]
      split <;> rfl
    | words rest => cases rest <;> rfl
  | back =>
    cases c with
    | bytes rest =>
      simp only [step, nextBack]
      split <;> rfl
    | words rest => rfl
  | size => rfl

theorem decodes_run (c : Cursor) (steps : List Step) : (c.run steps).2.decodes = c.decodes := by
  induction steps generalizing c with
  | nil => rfl
  | cons s steps ih => exact (ih (c.step s).2).trans (decodes_step c s)

section

variable {c : Cursor} {cs : List CodePoint} (h : c.Yields cs)
include h

/-- What is still to come lies between what both ends give: one step takes it off one end. -/
theorem run_conserves (steps : List Step) :
    ∃ rest, (c.run steps).2.Yields rest ∧
      given .front steps (c.run steps).1 ++ rest ++ (given .back steps (c.run steps).1).reverse =
        cs := by
  induction steps generalizing c cs with
  | nil => exact ⟨cs, h, by simp [given]⟩
  | cons s steps ih =>
    cases s with
    | front =>
      obtain ⟨hhead, htail⟩ := yields_next h
      obtain ⟨rest, hrest, heq⟩ := ih htail
      refine ⟨rest, hrest, ?_⟩
      simp only [run, step, given, hhead, if_true, reduceCtorEq, if_false, List.nil_append,
        List.append_assoc] at heq ⊢
      rw [heq]
      cases cs <;> rfl
    | back =>
      obtain ⟨hlast, hinit⟩ := yields_nextBack h
      obtain ⟨rest, hrest, heq⟩ := ih hinit
      refine ⟨rest, hrest, ?_⟩
      simp only [run, step, given, hlast, if_true, reduceCtorEq, if_false, List.nil_append,
        List.reverse_append, ← List.append_assoc] at heq ⊢
      rw [heq]
      cases cs using List.reverseRecOn <;> simp
    | size => exact ih h

theorem run_replicate_back (n : Nat) :
    (c.run (List.replicate n .back)).1 =
      (List.range n).map fun i => .codePoint cs.reverse[i]? := by
  induction n generalizing c cs with
  | zero => rfl
  | succ n ih =>
    obtain ⟨hlast, hinit⟩ := yields_nextBack h
    rw [List.replicate_succ, List.range_succ_eq_map, List.map_cons, List.map_map]
    simp only [run, step, ih hinit, hlast, List.getLast?_eq_head?_reverse, ← List.tail_reverse]
    cases cs.reverse <;> rfl

/-- The lower bound is kept as well: no character takes more bytes than four. -/
theorem sizeHint_le_length : c.sizeHint.1 ≤ cs.length := by
  cases c with
  | bytes rest =>
    obtain ⟨chars, rfl, rfl⟩ := h
    have hle := Utf8.length_encode_le chars
    rw [List.length_map]
    simp only [sizeHint]
    omega
  | words rest =>
    obtain rfl : rest = cs := h
    exact Nat.le_refl _

end

theorem step_spent {c : Cursor} (h : c.Yields []) (s : Step) :
    (c.step s).1 = s.spent ∧ (c.step s).2.Yields [] := by
  cases s with
  | front =>
    obtain ⟨hhead, htail⟩ := yields_next h
    exact ⟨congrArg Reply.codePoint hhead, htail⟩
  | back =>
    obtain ⟨hlast, hinit⟩ := yields_nextBack h
    exact ⟨congrArg Reply.codePoint hlast, hinit⟩
  | size =>
    refine ⟨?_, h⟩
    cases c with
    | bytes rest =>
      obtain ⟨chars, rfl, hnil⟩ := h
      obtain rfl : chars = [] := List.map_eq_nil_iff.1 hnil.symm
      rfl
    | words rest =>
      obtain rfl : rest = [] := h
      rfl

theorem run_spent {c : Cursor} (h : c.Yields []) (steps : List Step) :
    (c.run steps).1 = steps.map Step.spent ∧ (c.run steps).2.Yields [] := by
  induction steps generalizing c with
  | nil => exact ⟨rfl, h⟩
  | cons s steps ih =>
    obtain ⟨hreply, hrest⟩ := step_spent h s
    obtain ⟨hreplies, hleft⟩ := ih hrest
    exact ⟨List.cons_eq_cons.2 ⟨hreply, hreplies⟩, hleft⟩

/-- A step finds its end empty only if nothing was to come, and leaves something else to come. -/
theorem exists_yields_step {c : Cursor} {cs : List CodePoint} (h : c.Yields cs) (s : Step) :
    ((c.step s).1 = .codePoint none → cs = []) ∧ ∃ rest, (c.step s).2.Yields rest := by
  cases s with
  | front =>
    obtain ⟨hhead, htail⟩ := yields_next h
    refine ⟨fun hnone => ?_, _, htail⟩
    exact List.head?_eq_none_iff.1 (hhead.symm.trans (Reply.codePoint.inj hnone))
  | back =>
    obtain ⟨hlast, hinit⟩ := yields_nextBack h
    refine ⟨fun hnone => ?_, _, hinit⟩
    exact List.getLast?_eq_none_iff.1 (hlast.symm.trans (Reply.codePoint.inj hnone))
  | size => exact ⟨nofun, cs, h⟩

theorem yields_nil_of_mem_run {c : Cursor} {cs : List CodePoint} (h : c.Yields cs)
    {steps : List Step} (hnone : .codePoint none ∈ (c.run steps).1) :
    (c.run steps).2.Yields [] := by
  induction steps generalizing c cs with
  | nil => cases hnone
  | cons s steps ih =>
    obtain ⟨hempty, rest, hrest⟩ := exists_yields_step h s
    rcases List.mem_cons.1 hnone with hfirst | hlater
    · obtain rfl := hempty hfirst.symm
      exact (run_spent (step_spent h s).2 steps).2
    · exact ih hrest hlater

theorem sizeHint_of_decodes {c : Cursor} {cs : List CodePoint} (h : c.Yields cs)
    (hd : c.decodes = true) :
    ∃ s : String, cs = s.toList.map CodePoint.ofChar ∧
      c.sizeHint = ((s.utf8ByteSize + 3) / 4, s.utf8ByteSize) := by
  cases c with
  | bytes rest =>
    obtain ⟨chars, rfl, rfl⟩ := h
    refine ⟨String.ofList chars, by rw [String.toList_ofList], ?_⟩
    rw [← Utf8.length_bytes, Utf8.bytes_eq_encode, String.toList_ofList]
    rfl
  | words rest => cases hd

theorem sizeHint_of_not_decodes {c : Cursor} {cs : List CodePoint} (h : c.Yields cs)
    (hd : c.decodes = false) : c.sizeHint = (cs.length, cs.length) := by
  cases c with
  | bytes rest => cases hd
  | words rest =>
    obtain rfl : rest = cs := h
    rfl

theorem replies_append (t : Text) (steps more : List Step) :
    replies t (steps ++ more) = replies t steps ++ (((ofText t).run steps).2.run more).1 := by
  rw [replies, run_append, replies]

/-- Nothing is lost and nothing is given twice, whichever ends are asked in which order. At every
moment what the front has given, what is still to come and what the back has given in reverse are the
code points of the text, and what is still to come can be read on from either end. Once an end had
nothing to give, neither has anything for ever. How many code points are still to come lies between
the bounds: of compact text these are a quarter of the bytes to come, rounded up, and all of them,
and of wide text both are the number itself. -/
theorem interleaving_exact (t : Text) (steps : List Step) :
    ∃ rest lower upper,
      given .front steps (replies t steps) ++ rest ++
        (given .back steps (replies t steps)).reverse = t.codePoints ∧
      (∀ n, replies t (steps ++ List.replicate n .front) =
        replies t steps ++ (List.range n).map fun i => .codePoint rest[i]?) ∧
      (∀ n, replies t (steps ++ List.replicate n .back) =
        replies t steps ++ (List.range n).map fun i => .codePoint rest.reverse[i]?) ∧
      (.codePoint none ∈ replies t steps → ∀ more,
        replies t (steps ++ more) = replies t steps ++ more.map Step.spent) ∧
      replies t (steps ++ [.size]) = replies t steps ++ [.bounds lower upper] ∧
      lower ≤ rest.length ∧ rest.length ≤ upper ∧
      match t with
      | .compact .. => ∃ s : String, rest = s.toList.map CodePoint.ofChar ∧
        lower = (s.utf8ByteSize + 3) / 4 ∧ upper = s.utf8ByteSize
      | .wide _ => lower = rest.length ∧ upper = rest.length := by
  have hall := yields_ofText t
  obtain ⟨rest, hrest, hconserved⟩ := run_conserves hall steps
  have hstorage := decodes_run (ofText t) steps
  refine ⟨rest, _, _, hconserved, fun n => ?_, fun n => ?_, fun hnone more => ?_,
    replies_append t steps [.size], sizeHint_le_length hrest, length_le_sizeHint hrest, ?_⟩
  · rw [replies_append, run_replicate_front hrest]
  · rw [replies_append, run_replicate_back hrest]
  · rw [replies_append, (run_spent (yields_nil_of_mem_run hall hnone) more).1]
  · cases t with
    | compact s n ascii =>
      obtain ⟨s, hs, hbounds⟩ := sizeHint_of_decodes hrest hstorage
      exact ⟨s, hs, congrArg Prod.fst hbounds, congrArg Prod.snd hbounds⟩
    | wide cs =>
      have hbounds := sizeHint_of_not_decodes hrest hstorage
      exact ⟨congrArg Prod.fst hbounds, congrArg Prod.snd hbounds⟩

/-- Two characters of two and four bytes, one taken off each end. The back then finds nothing, though
the front had the last one. -/
theorem interleaving_of_two_widths :
    replies (.ofString "é😀") [.back, .size, .front, .back] =
        [.codePoint (some 0x1F600), .bounds 1 2, .codePoint (some 0xE9), .codePoint none] ∧
      ∀ more, replies (.ofString "é😀") ([.back, .size, .front, .back] ++ more) =
        [.codePoint (some 0x1F600), .bounds 1 2, .codePoint (some 0xE9), .codePoint none] ++
          more.map Step.spent := by
  have hreplies : replies (.ofString "é😀") [.back, .size, .front, .back] =
      [.codePoint (some 0x1F600), .bounds 1 2, .codePoint (some 0xE9), .codePoint none] := by
    decide +kernel
  obtain ⟨_, _, _, _, _, _, hspent, _⟩ :=
    interleaving_exact (.ofString "é😀") [.back, .size, .front, .back]
  rw [hreplies] at hspent
  exact ⟨hreplies, hspent (by decide)⟩

end Cursor
end CodePointText
