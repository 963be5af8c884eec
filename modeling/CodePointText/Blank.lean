/-!
# Blanks

The characters with the property White_Space of Unicode, and trimming them off both ends.
-/

namespace CodePointText

def isBlank (c : Char) : Bool :=
  let n := c.toNat
  (0x09 ≤ n && n ≤ 0x0D) || n == 0x20 || n == 0x85 || n == 0xA0 || n == 0x1680 ||
    (0x2000 ≤ n && n ≤ 0x200A) || n == 0x2028 || n == 0x2029 || n == 0x202F || n == 0x205F ||
    n == 0x3000

/-- The characters between the first and the last that is no blank. -/
def trim (cs : List Char) : List Char :=
  ((cs.dropWhile isBlank).reverse.dropWhile isBlank).reverse

@[simp] theorem trim_nil : trim [] = [] := rfl

theorem trim_append_left {bs : List Char} (h : ∀ c ∈ bs, isBlank c) (cs : List Char) :
    trim (bs ++ cs) = trim cs := by
  simp [trim, List.dropWhile_append_of_pos h]

theorem trim_append_right {bs : List Char} (h : ∀ c ∈ bs, isBlank c) (cs : List Char) :
    trim (cs ++ bs) = trim cs := by
  have hbs : (bs ++ []).dropWhile isBlank = [] := List.dropWhile_append_of_pos h
  rw [List.append_nil] at hbs
  have hreverse : ∀ c ∈ bs.reverse, isBlank c := fun c hc => h c (List.mem_reverse.1 hc)
  rw [trim, trim, List.dropWhile_append]
  split
  · next hempty => rw [hbs, List.isEmpty_iff.1 hempty]
  · rw [List.reverse_append, List.dropWhile_append_of_pos hreverse]

theorem trim_of_not_isBlank {cs : List Char} (h : ∀ c ∈ cs, ¬ isBlank c) : trim cs = cs := by
  have hdrop {ds : List Char} (hds : ∀ c ∈ ds, ¬ isBlank c) : ds.dropWhile isBlank = ds := by
    cases ds with
    | nil => rfl
    | cons d ds => exact List.dropWhile_cons_of_neg (hds d List.mem_cons_self)
  have hreverse : ∀ c ∈ cs.reverse, ¬ isBlank c := fun c hc => h c (List.mem_reverse.1 hc)
  rw [trim, hdrop h, hdrop hreverse, List.reverse_reverse]

end CodePointText
