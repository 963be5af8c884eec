import CodePointText.Occurrence
import CodePointText.Text.Basic

/-!
# Replacement in a text

When all operands are compact the replacement works on bytes, otherwise on code points. Either way
the leftmost occurrences that do not overlap are replaced, and the empty pattern matches before
every character and at the end.
-/

namespace CodePointText
namespace Text

def replaceString (s pattern substitute : String) (limit : Option Nat) : String :=
  if pattern.isEmpty then
    String.ofList
      (Occurrence.insertBetween substitute.toList (limit.getD (s.length + 1)) s.toList)
  else
    let bs := Utf8.bytes s
    Utf8.ofBytes
      (Occurrence.replace (Utf8.bytes pattern) (Utf8.bytes substitute) (limit.getD bs.length) bs)

def replaceCodePoints (cs pattern substitute : List CodePoint) (limit : Option Nat) :
    List CodePoint :=
  if pattern.isEmpty then
    Occurrence.insertBetween substitute (limit.getD (cs.length + 1)) cs
  else
    Occurrence.replace pattern substitute (limit.getD cs.length) cs

/-- The text with occurrences of the pattern replaced, at most `limit` of them. A limit of zero
leaves the text as it is stored. -/
def replace (t pattern substitute : Text) (limit : Option Nat) : Text :=
  if limit = some 0 then t
  else
    match t, pattern, substitute with
    | .compact s _ _, .compact p _ _, .compact r _ _ => ofString (replaceString s p r limit)
    | _, _, _ =>
      .wide (replaceCodePoints t.codePoints pattern.codePoints substitute.codePoints limit)

@[simp] theorem replace_limit_zero (t pattern substitute : Text) :
    t.replace pattern substitute (some 0) = t := rfl

end Text
end CodePointText
