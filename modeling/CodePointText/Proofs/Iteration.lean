import CodePointText.Cursor
import CodePointText.Proofs.Utf8.Boundary

/-!
# What a cursor yields

A cursor over a text has a list of code points to come. Every step takes one of them off an end, and
which one it is does not depend on the storage; only the bounds on how many are left do.
-/

namespace CodePointText
namespace Cursor

/-- These code points are still to come. -/
def Yields : Cursor → List CodePoint → Prop
  | .bytes rest, cs => ∃ chars, rest = Utf8.encode chars ∧ cs = chars.map CodePoint.ofChar
  | .words rest, cs => rest = cs

theorem yields_ofText (t : Text) : (ofText t).Yields t.codePoints := by
  cases t with
  | compact s n ascii => exact ⟨s.toList, Utf8.bytes_eq_encode s, rfl⟩
  | wide cs => exact rfl

theorem yields_next {c : Cursor} {cs : List CodePoint} (h : c.Yields cs) :
    c.next.1 = cs.head? ∧ c.next.2.Yields cs.tail := by
  cases c with
  | bytes rest =>
    obtain ⟨chars, rfl, rfl⟩ := h
    cases chars with
    | nil => exact ⟨rfl, [], rfl, rfl⟩
    | cons x chars =>
      simp only [next, Utf8.encode_cons, Utf8.popFront?_encodeChar_append]
      exact ⟨rfl, chars, rfl, rfl⟩
  | words rest =>
    obtain rfl : rest = cs := h
    cases rest with
    | nil => exact ⟨rfl, rfl⟩
    | cons x rest => exact ⟨rfl, rfl⟩

theorem yields_nextBack {c : Cursor} {cs : List CodePoint} (h : c.Yields cs) :
    c.nextBack.1 = cs.getLast? ∧ c.nextBack.2.Yields cs.dropLast := by
  cases c with
  | bytes rest =>
    obtain ⟨chars, rfl, rfl⟩ := h
    rcases List.eq_nil_or_concat chars with rfl | ⟨chars, x, rfl⟩
    · exact ⟨rfl, [], rfl, rfl⟩
    · have he : Utf8.encode (chars ++ [x]) = Utf8.encode chars ++ String.utf8EncodeChar x := by
        simp
      simp only [nextBack, List.concat_eq_append, he, Utf8.popBack?_append_encodeChar,
        List.map_append, List.map_cons, List.map_nil, List.getLast?_concat, List.dropLast_concat]
      exact ⟨trivial, chars, rfl, rfl⟩
  | words rest =>
    obtain rfl : rest = cs := h
    exact ⟨rfl, rfl⟩

theorem length_le_sizeHint {c : Cursor} {cs : List CodePoint} (h : c.Yields cs) :
    cs.length ≤ c.sizeHint.2 := by
  cases c with
  | bytes rest =>
    obtain ⟨chars, rfl, rfl⟩ := h
    rw [List.length_map]
    exact Utf8.length_le_length_encode chars
  | words rest =>
    obtain rfl : rest = cs := h
    exact Nat.le_refl _

theorem drainUpTo_eq {c : Cursor} {cs : List CodePoint} (h : c.Yields cs) (limit : Nat) :
    drainUpTo limit c = cs.take limit := by
  induction limit generalizing c cs with
  | zero => rfl
  | succ limit ih =>
    obtain ⟨hhead, htail⟩ := yields_next h
    cases cs with
    | nil =>
      rw [drainUpTo]
      split
      · next x d hd =>
        rw [hd] at hhead
        cases hhead
      · rfl
    | cons x cs =>
      rw [drainUpTo]
      split
      · next y d hd =>
        rw [hd] at hhead htail
        obtain rfl : y = x := Option.some.inj hhead
        rw [ih htail]
        rfl
      · next d hd =>
        rw [hd] at hhead
        cases hhead

theorem drain_eq {c : Cursor} {cs : List CodePoint} (h : c.Yields cs) : c.drain = cs := by
  rw [drain, drainUpTo_eq h, List.take_of_length_le (length_le_sizeHint h)]

theorem run_replicate_front {c : Cursor} {cs : List CodePoint} (h : c.Yields cs) (n : Nat) :
    (c.run (List.replicate n .front)).1 = (List.range n).map fun i => .codePoint cs[i]? := by
  induction n generalizing c cs with
  | zero => rfl
  | succ n ih =>
    obtain ⟨hhead, htail⟩ := yields_next h
    rw [List.replicate_succ, List.range_succ_eq_map, List.map_cons, List.map_map]
    simp only [run, step, ih htail, hhead]
    cases cs <;> rfl

/-- Read from the front often enough, a cursor gives what is to come, each code point once, and
after these nothing for ever. -/
theorem run_front {c : Cursor} {cs : List CodePoint} (h : c.Yields cs) (more : Nat) :
    (c.run (List.replicate (cs.length + more) .front)).1 =
      cs.map (fun x => .codePoint (some x)) ++ List.replicate more (.codePoint none) := by
  rw [run_replicate_front h]
  refine List.ext_getElem (by simp) fun i hi hi' => ?_
  rw [List.getElem_map, List.getElem_range]
  by_cases hlt : i < cs.length
  · rw [List.getElem_append_left (by simpa using hlt), List.getElem_map,
      List.getElem?_eq_getElem hlt]
  · rw [List.getElem_append_right (by simpa using hlt), List.getElem_replicate,
      List.getElem?_eq_none (by omega)]

/-- Two cursors with the same code points to come reply alike, unless they are asked for bounds. -/
theorem yields_step {c d : Cursor} {cs : List CodePoint} (hc : c.Yields cs) (hd : d.Yields cs)
    {s : Step} (hs : s ≠ .size) :
    (c.step s).1 = (d.step s).1 ∧ ∃ rest, (c.step s).2.Yields rest ∧ (d.step s).2.Yields rest := by
  cases s with
  | front =>
    obtain ⟨hch, hct⟩ := yields_next hc
    obtain ⟨hdh, hdt⟩ := yields_next hd
    exact ⟨congrArg Reply.codePoint (hch.trans hdh.symm), cs.tail, hct, hdt⟩
  | back =>
    obtain ⟨hch, hct⟩ := yields_nextBack hc
    obtain ⟨hdh, hdt⟩ := yields_nextBack hd
    exact ⟨congrArg Reply.codePoint (hch.trans hdh.symm), cs.dropLast, hct, hdt⟩
  | size => exact absurd rfl hs

theorem yields_run {c d : Cursor} {cs : List CodePoint} (hc : c.Yields cs) (hd : d.Yields cs)
    {steps : List Step} (hs : .size ∉ steps) :
    (c.run steps).1 = (d.run steps).1 ∧ (c.run steps).2.drain = (d.run steps).2.drain := by
  induction steps generalizing c d cs with
  | nil => exact ⟨rfl, (drain_eq hc).trans (drain_eq hd).symm⟩
  | cons s steps ih =>
    rw [List.mem_cons, not_or] at hs
    obtain ⟨hreply, rest, hc', hd'⟩ := yields_step hc hd (Ne.symm hs.1)
    obtain ⟨hreplies, hdrain⟩ := ih hc' hd' hs.2
    exact ⟨List.cons_eq_cons.2 ⟨hreply, hreplies⟩, hdrain⟩

end Cursor
end CodePointText
