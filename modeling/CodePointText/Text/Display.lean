import CodePointText.Serial
import CodePointText.Text.Basic

/-!
# Displayed and serialised texts

Displayed, a lone surrogate becomes the replacement character. Serialised, a text without surrogates
is a string, and any other the list of its code points, so that nothing is lost.
-/

namespace CodePointText
namespace Text

def replacementCharacter : Char := '\ufffd'

def display : Text → String
  | .compact s _ _ => s
  | .wide cs => String.ofList (cs.map fun c => c.toChar?.getD replacementCharacter)

def serial : Text → Serial
  | .compact s _ _ => .string s
  | .wide cs =>
    if cs.all (·.toChar?.isSome) then .string (display (.wide cs))
    else .list (cs.map fun c => .int c.toNat)

theorem length_display {t : Text} (h : t.WellFormed) : t.display.length = t.length := by
  cases t with
  | compact s n ascii => exact h.1.symm
  | wide cs => simp [display, length]

end Text
end CodePointText
