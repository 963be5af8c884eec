import CodePointText.Proofs.Method
import CodePointText.Proofs.Serial.Json

/-!
# Serialised forms lose nothing but the storage

A text without surrogates is serialised as a string and any other as a list of words, whichever
storage it is in, and its code points can be read off either form. So two values have the same form
if and only if they are equal. Displayed, a text keeps its length and loses its surrogates.
-/

namespace CodePointText

namespace Serial

def codePoint? : Serial → Option CodePoint
  | int i => some (UInt32.ofNat i.toNat)
  | _ => none

/-- The code points of a serialised text: the characters of a string, or the items of a list. -/
def codePoints? : Serial → Option (List CodePoint)
  | string s => some (s.toList.map CodePoint.ofChar)
  | list items => items.mapM codePoint?
  | _ => none

end Serial

namespace Text

def FreeOfSurrogates (t : Text) : Prop := ∀ c ∈ t.codePoints, ¬ c.isSurrogate

instance (t : Text) : Decidable t.FreeOfSurrogates := List.decidableBAll _ t.codePoints

section

variable {t : Text} (ht : t.WellFormed)
include ht

theorem all_isSome_toChar?_iff :
    t.codePoints.all (·.toChar?.isSome) ↔ t.FreeOfSurrogates := by
  rw [List.all_eq_true]
  exact forall₂_congr fun c hc => CodePoint.isSome_toChar?_iff (inRange_of_mem ht hc)

theorem serial_of_free (h : t.FreeOfSurrogates) : t.serial = .string t.display := by
  rw [serial_eq, if_pos ((all_isSome_toChar?_iff ht).2 h)]

theorem serial_of_not_free (h : ¬ t.FreeOfSurrogates) :
    t.serial = .list (t.codePoints.map fun c => .int c.toNat) := by
  rw [serial_eq, if_neg (mt (all_isSome_toChar?_iff ht).1 h)]

theorem serial_eq_string_iff : (∃ s, t.serial = .string s) ↔ t.FreeOfSurrogates := by
  constructor
  · rintro ⟨s, hs⟩
    by_contra h
    rw [serial_of_not_free ht h] at hs
    cases hs
  · exact fun h => ⟨_, serial_of_free ht h⟩

theorem codePoints_ofString_display :
    (ofString t.display).codePoints =
      t.codePoints.map fun c => if c.isSurrogate then CodePoint.ofChar replacementCharacter else c := by
  rw [codePoints_ofString, display_eq, String.toList_ofList, List.map_map]
  refine List.map_congr_left fun c hc => ?_
  have hchar := CodePoint.isSome_toChar?_iff (inRange_of_mem ht hc)
  by_cases hs : c.isSurrogate
  · have hnone : c.toChar? = none := by
      rw [← Option.isNone_iff_eq_none, ← Option.not_isSome]
      simpa [hs] using hchar
    simp [hs, hnone]
  · obtain ⟨x, hx⟩ := Option.isSome_iff_exists.1 (hchar.2 hs)
    have hofChar : CodePoint.ofChar x = c := (CodePoint.toChar?_eq_some.1 hx).symm
    simp [hs, hx, hofChar]

theorem codePoints_ofString_display_eq_iff :
    (ofString t.display).codePoints = t.codePoints ↔ t.FreeOfSurrogates := by
  have hreplacement : ¬ (CodePoint.ofChar replacementCharacter).isSurrogate := by decide
  have hid : t.codePoints = t.codePoints.map id := t.codePoints.map_id.symm
  rw [codePoints_ofString_display ht]
  nth_rewrite 2 [hid]
  rw [List.map_inj_left]
  refine forall₂_congr fun c _ => ?_
  by_cases hs : c.isSurrogate
  · have hne : CodePoint.ofChar replacementCharacter ≠ c := fun h => hreplacement (h ▸ hs)
    simp [hs, hne]
  · simp [hs]

theorem length_ofString_display : (ofString t.display).length = t.length := by
  rw [length_eq (wellFormed_ofString t.display), codePoints_ofString, List.length_map,
    String.length_toList, length_display ht]

theorem codePoints_of_serial_eq_string {s : String} (h : t.serial = .string s) :
    (ofString s).codePoints = t.codePoints := by
  have hfree := (serial_eq_string_iff ht).1 ⟨s, h⟩
  rw [serial_of_free ht hfree] at h
  rw [← Serial.string.inj h]
  exact (codePoints_ofString_display_eq_iff ht).2 hfree

theorem codePoints?_serial : t.serial.codePoints? = some t.codePoints := by
  by_cases hfree : t.FreeOfSurrogates
  · obtain ⟨s, hs⟩ := (serial_eq_string_iff ht).2 hfree
    rw [hs]
    exact congrArg some (codePoints_of_serial_eq_string ht hs)
  · rw [serial_of_not_free ht hfree, Serial.codePoints?, mapM_eq_some, List.forall₂_map_left_iff,
      List.forall₂_same]
    intro c _
    rw [Serial.codePoint?, Int.toNat_natCast, UInt32.ofNat_toNat]

end

theorem serial_eq_serial_iff {t u : Text} (ht : t.WellFormed) (hu : u.WellFormed) :
    t.serial = u.serial ↔ t.equal u := by
  rw [equal_iff ht hu]
  constructor
  · intro h
    have hread := codePoints?_serial ht
    rw [h, codePoints?_serial hu] at hread
    exact (Option.some.inj hread).symm
  · intro h
    exact Same.serial_eq ⟨ht, hu, h⟩

end Text

namespace Value

theorem boundSerial_inj {b b' : Option Int64} : boundSerial b = boundSerial b' ↔ b = b' := by
  cases b <;> cases b' <;> simp [boundSerial, Int64.toInt_inj]

theorem serial_eq_serial_iff {v w : Value} (hv : v.WellFormed) (hw : w.WellFormed) :
    v.serial = w.serial ↔ v.equal w := by
  cases v with
  | absent => cases w <;> simp [serial, equal]
  | bool b => cases w <;> simp [serial, equal]
  | int i => cases w <;> simp [serial, equal, Int64.toInt_inj]
  | text t =>
    cases w with
    | text u =>
      have htext := Text.serial_eq_serial_iff hv hw
      simp [serial, equal, htext]
    | _ => simp [serial, equal]
  | slice s =>
    cases w with
    | slice s' =>
      obtain ⟨start, stop, step⟩ := s
      obtain ⟨start', stop', step'⟩ := s'
      simp [serial, equal, boundSerial_inj]
    | _ => simp [serial, equal]

/-- The serialised form is canonical and loses nothing: one without surrogates is the string of its
code points, any other text is the list of them, and values have one form, or one JSON text, if and
only if they are equal. What a text displays is as long as the text and equal to it if and only if
there is no surrogate in it. -/
theorem serial_canonical {t : Text} {v w : Value} (ht : t.WellFormed) (hv : v.WellFormed)
    (hw : w.WellFormed) :
    ((∃ s, t.serial = .string s) ↔ t.FreeOfSurrogates) ∧
    (∀ s, t.serial = .string s →
      (Text.ofString s).codePoints = t.codePoints ∧ (Text.ofString s).equal t) ∧
    (¬ t.FreeOfSurrogates → t.serial = .list (t.codePoints.map fun c => .int c.toNat)) ∧
    (v.serial = w.serial ↔ v.equal w) ∧
    (v.serial.render = w.serial.render ↔ v.equal w) ∧
    (Text.ofString t.display).length = t.length ∧
    ((Text.ofString t.display).equal t ↔ t.FreeOfSurrogates) := by
  have hequal (s : String) :
      (Text.ofString s).equal t ↔ (Text.ofString s).codePoints = t.codePoints :=
    Text.equal_iff (Text.wellFormed_ofString s) ht
  have hforms := serial_eq_serial_iff hv hw
  refine ⟨Text.serial_eq_string_iff ht, fun s hs => ?_, Text.serial_of_not_free ht, hforms,
    Serial.render_inj.trans hforms, Text.length_ofString_display ht, ?_⟩
  · have hcs := Text.codePoints_of_serial_eq_string ht hs
    exact ⟨hcs, (hequal s).2 hcs⟩
  · rw [hequal]
    exact Text.codePoints_ofString_display_eq_iff ht

/-- One character in either storage has one JSON text. A surrogate is a list of words, whose display
is the replacement character and another text. -/
theorem serial_of_lone_surrogate :
    (text (.wide [0xE9])).serial.render = (text (.ofString "é")).serial.render ∧
      (Text.wide [0xD800]).serial = .list [.int 0xD800] ∧
      (text (.wide [0xD800])).serial ≠ (text (.ofString "\ufffd")).serial ∧
      (Text.ofString (Text.wide [0xD800]).display).equal (.wide [0xD800]) = false := by
  have hs : (Text.wide [0xD800]).WellFormed := by decide
  have hfree : ¬ (Text.wide [0xD800]).FreeOfSurrogates := by decide
  have hwide : (text (.wide [0xE9])).WellFormed := show (Text.wide [0xE9]).WellFormed by decide
  have hcompact : (text (.ofString "é")).WellFormed := Text.wellFormed_ofString "é"
  have hreplacement : (text (.ofString "\ufffd")).WellFormed := Text.wellFormed_ofString "\ufffd"
  obtain ⟨_, _, hlist, _, hrender, _, hdisplay⟩ := serial_canonical hs hwide hcompact
  obtain ⟨_, _, _, hforms, _⟩ :=
    serial_canonical hs (show (text (.wide [0xD800])).WellFormed from hs) hreplacement
  refine ⟨hrender.2 (by decide +kernel), hlist hfree, ?_, ?_⟩
  · rw [ne_eq, hforms]
    decide +kernel
  · rw [Bool.eq_false_iff, ne_eq, hdisplay]
    exact hfree

end Value
end CodePointText
