import CodePointText.Size
import CodePointText.Text.Basic

/-!
# Concatenation and repetition

Compact operands give compact results; an operand in wide storage makes the result wide. Empty
operands and trivial counts give back a text as it is stored.
-/

namespace CodePointText
namespace Text

def concat (a b : Text) : Text :=
  if b.isEmpty then a
  else if a.isEmpty then b
  else
    match a, b with
    | .compact s _ _, .compact t _ _ => ofString (s ++ t)
    | _, _ => .wide (a.codePoints ++ b.codePoints)

def byteSize : Text → Nat
  | .compact s _ _ => s.utf8ByteSize
  | .wide cs => 4 * cs.length

def copies {α : Type} (n : Nat) (items : List α) : List α := (List.replicate n items).flatten

/-- A text repeated `n` times. Its storage is kept, except that no copy at all is empty and compact. -/
def replicate (t : Text) (n : Nat) : Except TextError Text :=
  if n = 0 then .ok .empty
  else if n = 1 ∨ t.isEmpty then .ok t
  else if Size.copiesFit t.byteSize n then
    match t with
    | .compact s _ _ => .ok (ofChars (copies n s.toList))
    | .wide cs => .ok (.wide (copies n cs))
  else .error .repetitionTooLong

@[simp] theorem length_copies {α : Type} (n : Nat) (items : List α) :
    (copies n items).length = n * items.length := by
  simp [copies]

theorem copies_add {α : Type} (m n : Nat) (items : List α) :
    copies (m + n) items = copies m items ++ copies n items := by
  rw [copies, List.replicate_append_replicate.symm, List.flatten_append, copies, copies]

theorem concat_empty_right {a b : Text} (h : b.isEmpty) : a.concat b = a := by
  simp [concat, h]

theorem concat_empty_left {a b : Text} (ha : a.isEmpty) (hb : ¬ b.isEmpty) : a.concat b = b := by
  simp [concat, ha, hb]

theorem codePoints_concat {a b : Text} (ha : a.WellFormed) (hb : b.WellFormed) :
    (a.concat b).codePoints = a.codePoints ++ b.codePoints := by
  unfold concat
  split
  · next h => rw [(isEmpty_iff hb).1 h, List.append_nil]
  · split
    · next h => rw [(isEmpty_iff ha).1 h, List.nil_append]
    · split
      · simp
      · rfl

theorem wellFormed_concat {a b : Text} (ha : a.WellFormed) (hb : b.WellFormed) :
    (a.concat b).WellFormed := by
  unfold concat
  split
  · exact ha
  · split
    · exact hb
    · split
      · exact wellFormed_ofString _
      · intro c hc
        rcases List.mem_append.1 hc with h | h
        · exact inRange_of_mem ha h
        · exact inRange_of_mem hb h

theorem mem_copies {α : Type} {n : Nat} {items : List α} {x : α} (h : x ∈ copies n items) :
    x ∈ items := by
  simp only [copies, List.mem_flatten, List.mem_replicate] at h
  obtain ⟨_, ⟨_, rfl⟩, hx⟩ := h
  exact hx

theorem copies_of_nil {α : Type} (n : Nat) : copies n ([] : List α) = [] := by
  simp [copies]

theorem codePoints_replicate {t u : Text} (ht : t.WellFormed) {n : Nat}
    (h : t.replicate n = .ok u) : u.codePoints = copies n t.codePoints := by
  unfold replicate at h
  split at h
  · next hn =>
    subst hn
    obtain rfl := Except.ok.inj h
    rfl
  · split at h
    · next hn =>
      obtain rfl := Except.ok.inj h
      rcases hn with rfl | he
      · simp [copies]
      · rw [(isEmpty_iff ht).1 he, copies_of_nil]
    · split at h
      · split at h
        · obtain rfl := Except.ok.inj h
          simp [copies, List.map_flatten]
        · obtain rfl := Except.ok.inj h
          rfl
      · cases h

end Text
end CodePointText
