import CodePointText.Proofs.Iteration
import CodePointText.Proofs.Method
import CodePointText.Proofs.Operand
import CodePointText.Proofs.Text.Storage

/-!
# Reachable texts

What a storage remembers is true of every text that constructions and operations can give, and of no
other text: the reachable texts are the well-formed ones.
-/

namespace CodePointText
namespace Text

/-- The texts that come of constructions and operations, in any number and order. -/
inductive Reachable : Text → Prop
  | ofString (s : String) : Reachable (.ofString s)
  | ofChars (cs : List Char) : Reachable (.ofChars cs)
  | ofStringIndexed (s : String) : Reachable (.ofStringIndexed s)
  | ofCodePoint {c : CodePoint} {t : Text} (h : ofCodePoint c = .ok t) : Reachable t
  | ofCodePoints {cs : List CodePoint} {t : Text} (h : ofCodePoints cs = .ok t) : Reachable t
  | empty : Reachable .empty
  | operand {word : String} {t : Text} (h : Operand.read word = .ok (.text t)) : Reachable t
  | textOperand {word : String} {t : Text} (h : Operand.readText word = .ok t) : Reachable t
  | item {t u : Text} {index : Int64} (ht : Reachable t) (h : t.item index = .ok u) : Reachable u
  | slice {t u : Text} {range : Slice} (ht : Reachable t) (h : t.slice range = .ok u) : Reachable u
  | concat {t u : Text} (ht : Reachable t) (hu : Reachable u) : Reachable (t.concat u)
  | replicate {t u : Text} {n : Nat} (ht : Reachable t) (h : t.replicate n = .ok u) : Reachable u
  | replace {t pattern substitute : Text} (limit : Option Nat) (ht : Reachable t)
      (hp : Reachable pattern) (hs : Reachable substitute) :
      Reachable (t.replace pattern substitute limit)
  | padRight {t u : Text} {memory : Allocator} {width : Int64} {fill : Option Text}
      (ht : Reachable t) (hf : ∀ f, fill = some f → Reachable f)
      (h : t.padRight memory width fill = .ok u) : Reachable u
  | zeroPad {t u : Text} {memory : Allocator} {width : Int64} (ht : Reachable t)
      (h : t.zeroPad memory width = .ok u) : Reachable u
  /-- A method is called with any values, of which the texts are reachable. -/
  | call {m : Method} {t u : Text} {args : List Value} (ht : Reachable t)
      (ha : ∀ v, .text v ∈ args → Reachable v)
      (h : (m.call t args).result = .ok (.value (.text u))) : Reachable u

theorem wellFormed_padRight {t u : Text} (ht : t.WellFormed) {memory : Allocator} {width : Int64}
    {fill : Option Text} (hf : ∀ f ∈ fill, f.WellFormed)
    (h : t.padRight memory width fill = .ok u) : u.WellFormed := by
  obtain ⟨_, _, hwf, _⟩ := exists_fill_of_padRight ht hf h
  exact hwf

/-- No construction and no operation breaks what a storage remembers. -/
theorem Reachable.wellFormed {t : Text} (h : t.Reachable) : t.WellFormed := by
  induction h with
  | ofString s => exact wellFormed_ofString s
  | ofChars cs => exact wellFormed_ofString _
  | ofStringIndexed s => exact wellFormed_ofStringIndexed s
  | ofCodePoint h => exact wellFormed_ofCodePoint h
  | ofCodePoints h => exact wellFormed_ofCodePoints h
  | empty => exact wellFormed_ofString ""
  | operand h => exact Operand.wellFormed_read h
  | textOperand h => exact Operand.wellFormed_read (Operand.readText_eq_ok.1 h)
  | item _ h _ => exact wellFormed_item h
  | slice _ h ht => exact wellFormed_slice ht h
  | concat _ _ ht hu => exact wellFormed_concat ht hu
  | replicate _ h ht => exact wellFormed_replicate ht h
  | replace limit _ _ _ ht _ hs => exact wellFormed_replace ht hs _ limit
  | padRight _ _ h ht hf => exact wellFormed_padRight ht hf h
  | zeroPad _ h ht => exact wellFormed_zeroPad ht h
  | @call m t u args _ _ h ht ha =>
    have hargs : ∀ v ∈ args, v.WellFormed := by
      intro v hv
      cases v with
      | text v => exact ha v hv
      | _ => trivial
    exact Method.wellFormed_call ht hargs h

theorem ofString_of_wellFormed {s : String} {n : Nat} {ascii : Bool}
    (h : (compact s n ascii).WellFormed) : ofString s = compact s n ascii :=
  eq_of_codePoints_eq (wellFormed_ofString s) h rfl rfl

/-- The invariant leaves nothing out: a text that has it is made by a constructor. -/
theorem reachable_iff_wellFormed {t : Text} : t.Reachable ↔ t.WellFormed := by
  refine ⟨Reachable.wellFormed, fun h => ?_⟩
  cases t with
  | compact s n ascii =>
    exact ofString_of_wellFormed h ▸ Reachable.ofString s
  | wide cs =>
    have hall : cs.all CodePoint.inRange := List.all_eq_true.2 h
    have hc : ofCodePoints cs = .ok (wide cs) := if_pos hall
    exact .ofCodePoints hc

/-- What holds of the storage of a reachable text, and what follows for the text: it is as long as
the number of code points that a cursor over it yields, the mark for ASCII tells whether all of them
are, and those that are no characters are surrogates. -/
theorem storage_of_reachable {t : Text} (h : t.Reachable) :
    (match t with
      | .compact s n ascii => n = s.toList.length ∧ (ascii ↔ ∀ x ∈ s.toList, x.toNat < 0x80)
      | .wide cs => ∀ c ∈ cs, c.toNat ≤ 0x10FFFF) ∧
    (∀ more, ((Cursor.ofText t).run (List.replicate (t.length + more) .front)).1 =
      t.codePoints.map (fun c => .codePoint (some c)) ++
        List.replicate more (.codePoint none)) ∧
    t.length = t.codePoints.length ∧
    (t.isAscii ↔ ∀ c ∈ t.codePoints, c.toNat < 0x80) ∧
    ∀ c ∈ t.codePoints, c.toChar? = none → 0xD800 ≤ c.toNat ∧ c.toNat ≤ 0xDFFF := by
  have hwf := h.wellFormed
  have hlen := length_eq hwf
  refine ⟨?_, fun more => ?_, hlen, ?_, fun c hc hnone => ?_⟩
  · cases t with
    | compact s n ascii =>
      refine ⟨hwf.1.trans String.length_toList.symm, ?_⟩
      rw [hwf.2, List.all_eq_true]
      exact forall₂_congr fun x _ => CodePoint.isAscii_iff
    | wide cs => exact fun c hc => CodePoint.inRange_iff.1 (hwf c hc)
  · rw [hlen]
    exact Cursor.run_front (Cursor.yields_ofText t) more
  · rw [isAscii_eq hwf, List.all_eq_true]
    exact forall₂_congr fun c _ => CodePoint.isAscii_iff
  · rcases CodePoint.toChar?_eq_none.1 hnone with hs | hr
    · exact CodePoint.isSurrogate_iff.1 hs
    · exact absurd (inRange_of_mem hwf hc) hr

/-- Compact text padded with lone surrogates becomes wide, and what it holds is counted and told
from characters. -/
theorem storage_of_padded_surrogates :
    (ofString "é").padRight .process 3 (some (wide [0xD800])) = .ok (wide [0xE9, 0xD800, 0xD800]) ∧
      (wide [0xE9, 0xD800, 0xD800]).Reachable ∧
      (wide [0xE9, 0xD800, 0xD800]).isAscii = false ∧
      CodePoint.toChar? 0xD800 = none ∧
      ((Cursor.ofText (wide [0xE9, 0xD800, 0xD800])).run [.front, .front, .front, .front]).1 =
        [.codePoint (some 0xE9), .codePoint (some 0xD800), .codePoint (some 0xD800),
          .codePoint none] := by
  have hpad : (ofString "é").padRight .process 3 (some (wide [0xD800])) =
      .ok (wide [0xE9, 0xD800, 0xD800]) := rfl
  have hfill : ofCodePoints [0xD800] = .ok (wide [0xD800]) := rfl
  have hr : (wide [0xE9, 0xD800, 0xD800]).Reachable :=
    .padRight (.ofString "é") (fun f hf => Option.some.inj hf ▸ .ofCodePoints hfill) hpad
  obtain ⟨_, hrun, _, hascii, _⟩ := storage_of_reachable hr
  refine ⟨hpad, hr, ?_, by decide, hrun 1⟩
  rw [Bool.eq_false_iff, ne_eq, hascii]
  intro hall
  have hfirst := hall 0xE9 List.mem_cons_self
  exact absurd hfirst (by decide)

end Text
end CodePointText
