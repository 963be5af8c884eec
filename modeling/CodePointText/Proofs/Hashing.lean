import CodePointText.Proofs.Comparison
import CodePointText.Text.Hash
import Mathlib.Data.List.Forall2

/-!
# Hashes and what is written for them

Equal texts have equal hashes. What a text writes into the state of a hasher begins with its length,
so it ends where its code points end, and texts written one after the other can be told apart.
-/

namespace CodePointText
namespace Text

theorem hashValue_congr {a b : Text} (ha : a.WellFormed) (hb : b.WellFormed)
    (h : a.codePoints = b.codePoints) : a.hashValue = b.hashValue := by
  have hl : a.length = b.length := by rw [length_eq ha, length_eq hb, h]
  rw [hashValue, hashValue, h, hl]

theorem hashWrites_congr {a b : Text} (ha : a.WellFormed) (hb : b.WellFormed)
    (h : a.codePoints = b.codePoints) : a.hashWrites = b.hashWrites := by
  rw [hashWrites, hashWrites, length_eq ha, length_eq hb, h]

theorem HashWrite.word_injective : Function.Injective HashWrite.word :=
  fun _ _ h => HashWrite.word.inj h

/-- The writes of a text end by themselves: whatever follows them, they are told from what
follows. -/
theorem hashWrites_append_inj {a b : Text} (ha : a.WellFormed) (hb : b.WellFormed)
    {as bs : List HashWrite} (h : a.hashWrites ++ as = b.hashWrites ++ bs) :
    a.codePoints = b.codePoints ∧ as = bs := by
  obtain ⟨hsize, hwords⟩ := List.cons_eq_cons.1 h
  have hlen : (a.codePoints.map HashWrite.word).length =
      (b.codePoints.map HashWrite.word).length := by
    rw [List.length_map, List.length_map, ← length_eq ha, ← length_eq hb]
    exact HashWrite.size.inj hsize
  obtain ⟨hcs, hrest⟩ := List.append_inj hwords hlen
  exact ⟨HashWrite.word_injective.list_map hcs, hrest⟩

theorem flatMap_hashWrites_eq_iff {as bs : List Text} (ha : ∀ a ∈ as, a.WellFormed)
    (hb : ∀ b ∈ bs, b.WellFormed) :
    as.flatMap hashWrites = bs.flatMap hashWrites ↔
      List.Forall₂ (fun a b => a.equal b = true) as bs := by
  induction as generalizing bs with
  | nil =>
    rw [List.forall₂_nil_left_iff]
    cases bs with
    | nil => exact ⟨fun _ => rfl, fun _ => rfl⟩
    | cons b bs => exact ⟨fun h => (nomatch h), fun h => (nomatch h)⟩
  | cons a as ih =>
    cases bs with
    | nil => exact ⟨fun h => (nomatch h), fun h => (nomatch h)⟩
    | cons b bs =>
      rw [List.forall_mem_cons] at ha hb
      rw [List.forall₂_cons, equal_iff ha.1 hb.1, ← ih ha.2 hb.2, List.flatMap_cons,
        List.flatMap_cons]
      constructor
      · exact hashWrites_append_inj ha.1 hb.1
      · rintro ⟨hcs, hrest⟩
        rw [hashWrites_congr ha.1 hb.1 hcs, hrest]

/-- Hashing is sound: equal texts have one hash, which is never the reserved value, and lists of
texts make the same writes if and only if they are as long as each other and equal text by text. -/
theorem hashing_sound {a b : Text} (ha : a.WellFormed) (hb : b.WellFormed) {as bs : List Text}
    (has : ∀ t ∈ as, t.WellFormed) (hbs : ∀ t ∈ bs, t.WellFormed) :
    (a.equal b → a.hashValue = b.hashValue) ∧ a.hashValue ≠ -1 ∧
      (as.flatMap hashWrites = bs.flatMap hashWrites ↔
        List.Forall₂ (fun t u => t.equal u = true) as bs) :=
  ⟨fun h => hashValue_congr ha hb ((equal_iff ha hb).1 h), hashValue_ne_neg_one a,
    flatMap_hashWrites_eq_iff has hbs⟩

/-- A string and its code points have one hash, and moving a character over from one text of a list
to the next changes the writes. -/
theorem hashing_of_moved_character :
    (ofString "é").hashValue = (wide [0xE9]).hashValue ∧
      [ofString "aé", wide [0x62]].flatMap hashWrites ≠
        [ofString "a", wide [0xE9, 0x62]].flatMap hashWrites := by
  have hs : ∀ s, (ofString s).WellFormed := wellFormed_ofString
  have has : ∀ t ∈ [ofString "aé", wide [0x62]], t.WellFormed := by decide +kernel
  have hbs : ∀ t ∈ [ofString "a", wide [0xE9, 0x62]], t.WellFormed := by decide +kernel
  obtain ⟨hhash, _, hwrites⟩ :=
    hashing_sound (hs "é") (b := wide [0xE9]) (by decide) has hbs
  refine ⟨hhash (by decide +kernel), fun h => ?_⟩
  have hfirst := (List.forall₂_cons.1 (hwrites.1 h)).1
  exact absurd hfirst (by decide +kernel)

end Text
end CodePointText
