import CodePointText.Proofs.Comparison
import CodePointText.Proofs.Hashing
import CodePointText.Proofs.Result
import CodePointText.Proofs.Text.Build
import CodePointText.Proofs.Text.Index
import CodePointText.Proofs.Text.Search
import CodePointText.Text.Display
import CodePointText.Text.Literal

/-!
# Texts that differ in storage at most

What a text shows of itself, and what is computed from it, is the same for a text with the same code
points in another storage. Only repetition and padding look at the room that a storage takes.
-/

namespace CodePointText
namespace Text

theorem display_eq (t : Text) :
    t.display = String.ofList (t.codePoints.map fun c => c.toChar?.getD replacementCharacter) := by
  cases t with
  | compact s n ascii =>
    have hc : (fun x => (CodePoint.ofChar x).toChar?.getD replacementCharacter) = id := by
      funext x
      rw [CodePoint.toChar?_ofChar]
      rfl
    rw [codePoints_compact, List.map_map, Function.comp_def, hc, List.map_id, String.ofList_toList]
    rfl
  | wide cs => rfl

theorem serial_eq (t : Text) :
    t.serial =
      if t.codePoints.all (·.toChar?.isSome) then .string t.display
      else .list (t.codePoints.map fun c => .int c.toNat) := by
  cases t with
  | compact s n ascii =>
    have hall : (s.toList.map CodePoint.ofChar).all (·.toChar?.isSome) = true := by
      simp [CodePoint.toChar?_ofChar]
    rw [codePoints_compact, if_pos hall]
    rfl
  | wide cs => rfl

/-- Well-formed texts with the same code points, in storages of any kind. -/
structure Same (t u : Text) : Prop where
  left : t.WellFormed
  right : u.WellFormed
  codePoints_eq : t.codePoints = u.codePoints

namespace Same

theorem refl {t : Text} (h : t.WellFormed) : t.Same t := ⟨h, h, rfl⟩

section

variable {t u : Text} (h : t.Same u)
include h

theorem length_eq : t.length = u.length := by
  rw [Text.length_eq h.left, Text.length_eq h.right, h.codePoints_eq]

theorem isEmpty_eq : t.isEmpty = u.isEmpty := by
  rw [isEmpty, isEmpty, h.length_eq]

theorem isAscii_eq : t.isAscii = u.isAscii := by
  rw [Text.isAscii_eq h.left, Text.isAscii_eq h.right, h.codePoints_eq]

theorem toSequence_eq : t.toSequence = u.toSequence := by
  rw [toSequence, toSequence, h.codePoints_eq, h.length_eq]

theorem hashValue_eq : t.hashValue = u.hashValue := hashValue_congr h.left h.right h.codePoints_eq

theorem literal_eq : t.literal = u.literal := by
  rw [literal, literal, h.codePoints_eq]

theorem display_eq : t.display = u.display := by
  rw [Text.display_eq, Text.display_eq, h.codePoints_eq]

theorem serial_eq : t.serial = u.serial := by
  rw [Text.serial_eq, Text.serial_eq, h.codePoints_eq, h.display_eq]

theorem get?_eq (i : Nat) : t.get? i = u.get? i := by
  rw [Text.get?_eq h.left, Text.get?_eq h.right, h.codePoints_eq]

theorem equalString_eq (s : String) : t.equalString s = u.equalString s := by
  have hs := wellFormed_ofString s
  rw [Text.equalString_eq h.left, Text.equalString_eq h.right, equal_eq h.left hs,
    equal_eq h.right hs, h.codePoints_eq]

theorem related_item (index : Int64) : Related Same (t.item index) (u.item index) := by
  have hi : t.item index = u.item index := by
    rw [item_eq h.left, item_eq h.right, h.codePoints_eq]
  rw [hi]
  exact Related.of_map_eq rfl fun a b ha hb he => ⟨wellFormed_item ha, wellFormed_item hb, he⟩

theorem related_slice (range : Slice) : Related Same (t.slice range) (u.slice range) := by
  have hs : (t.slice range).map codePoints = (u.slice range).map codePoints := by
    rw [codePoints_slice h.left, codePoints_slice h.right, h.codePoints_eq]
  exact Related.of_map_eq hs fun a b ha hb he =>
    ⟨wellFormed_slice h.left ha, wellFormed_slice h.right hb, he⟩

end

section

variable {t u t' u' : Text} (h : t.Same u) (h' : t'.Same u')
include h h'

theorem equal_eq : t.equal t' = u.equal u' := by
  rw [Text.equal_eq h.left h'.left, Text.equal_eq h.right h'.right, h.codePoints_eq,
    h'.codePoints_eq]

theorem order_eq : t.order t' = u.order u' := by
  rw [Text.order_eq, Text.order_eq, h.codePoints_eq, h'.codePoints_eq]

theorem holds_eq (c : Comparison) : c.holds t t' = c.holds u u' := by
  cases c with
  | eq => exact h.equal_eq h'
  | ne => exact congrArg (!·) (h.equal_eq h')
  | lt => exact congrArg Ordering.isLT (h.order_eq h')
  | le => exact congrArg Ordering.isLE (h.order_eq h')
  | gt => exact congrArg Ordering.isGT (h.order_eq h')
  | ge => exact congrArg Ordering.isGE (h.order_eq h')

theorem contains_eq : t.contains t' = u.contains u' := by
  rw [Text.contains_eq, Text.contains_eq, h.codePoints_eq, h'.codePoints_eq]

theorem find_eq (start stop : Option Int64) : t.find t' start stop = u.find u' start stop := by
  simp only [find, find?, h.codePoints_eq, h'.codePoints_eq]

theorem count_eq (start stop : Option Int64) : t.count t' start stop = u.count u' start stop := by
  simp only [count, h.codePoints_eq, h'.codePoints_eq]

theorem concat : (t.concat t').Same (u.concat u') where
  left := wellFormed_concat h.left h'.left
  right := wellFormed_concat h.right h'.right
  codePoints_eq := by
    rw [codePoints_concat h.left h'.left, codePoints_concat h.right h'.right, h.codePoints_eq,
      h'.codePoints_eq]

end

theorem replace {t u pattern pattern' substitute substitute' : Text} (h : t.Same u)
    (hp : pattern.Same pattern') (hs : substitute.Same substitute') (limit : Option Nat) :
    (t.replace pattern substitute limit).Same (u.replace pattern' substitute' limit) where
  left := wellFormed_replace h.left hs.left pattern limit
  right := wellFormed_replace h.right hs.right pattern' limit
  codePoints_eq := by
    rw [codePoints_replace, codePoints_replace, h.codePoints_eq, hp.codePoints_eq,
      hs.codePoints_eq]

theorem fillCodePoint_eq {fill fill' : Option Text} (h : Option.Rel Same fill fill') :
    fillCodePoint fill = fillCodePoint fill' := by
  cases h with
  | none => rfl
  | some h => rw [fillCodePoint_some h.left, fillCodePoint_some h.right, h.codePoints_eq]

/-- Whether there is room for a result is the one thing in which two storages may differ. -/
theorem comparable_of_cases {x y : Except TextError Text} {e : TextError} (he : e.Overflow)
    {cs : List CodePoint} (hx : x = .error e ∨ ∃ a, x = .ok a ∧ a.WellFormed ∧ a.codePoints = cs)
    (hy : y = .error e ∨ ∃ b, y = .ok b ∧ b.WellFormed ∧ b.codePoints = cs) :
    Comparable Same x y := by
  obtain hx | ⟨a, rfl, hwa, hca⟩ := hx
  · exact .left hx he
  · obtain hy | ⟨b, rfl, hwb, hcb⟩ := hy
    · exact .right hy he
    · have hab : a.Same b := ⟨hwa, hwb, hca.trans hcb.symm⟩
      exact .related hab

theorem comparable_replicate {t u : Text} (h : t.Same u) (n : Nat) :
    Comparable Same (t.replicate n) (u.replicate n) := by
  have hu := replicate_cases h.right n
  rw [← h.codePoints_eq] at hu
  exact comparable_of_cases (.inl rfl) (replicate_cases h.left n) hu

theorem comparable_zeroPad {t u : Text} (h : t.Same u) (memory memory' : Allocator)
    (width : Int64) : Comparable Same (t.zeroPad memory width) (u.zeroPad memory' width) := by
  have hu := zeroPad_cases h.right memory' width
  rw [← h.codePoints_eq] at hu
  exact comparable_of_cases (.inr rfl) (zeroPad_cases h.left memory width) hu

theorem comparable_padRight {t u : Text} (h : t.Same u) {fill fill' : Option Text}
    (hf : Option.Rel Same fill fill') (memory memory' : Allocator) (width : Int64) :
    Comparable Same (t.padRight memory width fill) (u.padRight memory' width fill') := by
  have hfill := fillCodePoint_eq hf
  cases hc : fillCodePoint fill with
  | error e =>
    rw [padRight_of_fill_error hc, padRight_of_fill_error (hfill ▸ hc)]
    exact .related rfl
  | ok c =>
    have hwf : ∀ f ∈ fill, f.WellFormed := by
      intro f hmem
      cases hf with
      | none => cases hmem
      | some hs => exact Option.some.inj hmem ▸ hs.left
    have hr := inRange_fillCodePoint hwf hc
    have hu := padRight_cases h.right memory' width (hfill ▸ hc) hr
    rw [← h.codePoints_eq] at hu
    exact comparable_of_cases (.inr rfl) (padRight_cases h.left memory width hc hr) hu

theorem firstEqual_eq {ts us : List Text} (hs : List.Forall₂ Same ts us) {t u : Text}
    (h : t.Same u) : firstEqual ts t = firstEqual us u := by
  induction hs with
  | nil => rfl
  | cons hx _ ih =>
    rw [firstEqual] at ih
    rw [firstEqual, firstEqual, List.findIdx_cons, List.findIdx_cons, h.equal_eq hx, ih]
    rfl

theorem forall₂_iff {ts us : List Text} :
    List.Forall₂ Same ts us ↔
      (∀ t ∈ ts, t.WellFormed) ∧ (∀ u ∈ us, u.WellFormed) ∧
        ts.map codePoints = us.map codePoints := by
  constructor
  · intro h
    induction h with
    | nil => exact ⟨by simp, by simp, rfl⟩
    | cons hx _ ih =>
      obtain ⟨hts, hus, hcs⟩ := ih
      exact ⟨List.forall_mem_cons.2 ⟨hx.left, hts⟩, List.forall_mem_cons.2 ⟨hx.right, hus⟩,
        List.cons_eq_cons.2 ⟨hx.codePoints_eq, hcs⟩⟩
  · rintro ⟨hts, hus, hcs⟩
    induction ts generalizing us with
    | nil =>
      obtain rfl := List.map_eq_nil_iff.1 hcs.symm
      exact List.Forall₂.nil
    | cons t ts ih =>
      cases us with
      | nil => cases hcs
      | cons u us =>
        obtain ⟨hx, hcs⟩ := List.cons_eq_cons.1 hcs
        rw [List.forall_mem_cons] at hts hus
        exact List.Forall₂.cons ⟨hts.1, hus.1, hx⟩ (ih hts.2 hus.2 hcs)

end Same

theorem map_codePoints_sort (ts : List Text) :
    (sort ts).map codePoints = (ts.map codePoints).mergeSort fun a b => (compare a b).isLE :=
  List.map_mergeSort fun a _ b _ => congrArg Ordering.isLE (order_eq a b)

theorem Same.forall₂_sort {ts us : List Text} (h : List.Forall₂ Same ts us) :
    List.Forall₂ Same (sort ts) (sort us) := by
  rw [Same.forall₂_iff] at h ⊢
  obtain ⟨hts, hus, hcs⟩ := h
  refine ⟨?_, ?_, ?_⟩
  · intro t ht
    exact hts t (List.mem_mergeSort.1 ht)
  · intro u hu
    exact hus u (List.mem_mergeSort.1 hu)
  · rw [map_codePoints_sort, map_codePoints_sort, hcs]

end Text
end CodePointText
