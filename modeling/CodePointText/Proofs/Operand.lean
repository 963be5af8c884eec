import CodePointText.Operand
import CodePointText.Proofs.Method

/-!
# Operands that are read

Every word that is read as a text gives a well-formed one.
-/

namespace CodePointText
namespace Operand

theorem wellFormed_wideText {cs : List CodePoint} {v : Value} (h : wideText cs = .ok v) :
    v.WellFormed := by
  unfold wideText at h
  split at h
  · next t ht =>
    obtain rfl := Except.ok.inj h
    exact Text.wellFormed_ofCodePoints ht
  · cases h

theorem wellFormed_readTagged? {tag content : List Char} {r : Except OperandError Value} {v : Value}
    (h : readTagged? tag content = some r) (hv : r = .ok v) : v.WellFormed := by
  unfold readTagged? at h
  subst hv
  split at h <;> try (have h := Option.some.inj h)
  · obtain rfl := Except.ok.inj h
    exact Text.wellFormed_ofString _
  · exact wellFormed_wideText h
  · obtain ⟨cs, _, hcs⟩ := bind_eq_ok.1 h
    exact wellFormed_wideText hcs
  · split at h
    · obtain rfl := Except.ok.inj h
      trivial
    · cases h
  · split at h
    · obtain rfl := Except.ok.inj h
      trivial
    · split at h
      · obtain rfl := Except.ok.inj h
        trivial
      · cases h
  · split at h
    · obtain rfl := Except.ok.inj h
      trivial
    · cases h
  · cases h

theorem wellFormed_read {word : String} {v : Value} (h : read word = .ok v) : v.WellFormed := by
  unfold read at h
  split at h
  · obtain rfl := Except.ok.inj h
    trivial
  · dsimp only at h
    cases hc : cutAtColon? word.toList with
    | none =>
      rw [hc] at h
      obtain rfl := Except.ok.inj h
      exact Text.wellFormed_ofString word
    | some p =>
      rw [hc] at h
      change (readTagged? p.1 p.2).getD _ = _ at h
      cases hr : readTagged? p.1 p.2 with
      | none =>
        rw [hr] at h
        obtain rfl := Except.ok.inj h
        exact Text.wellFormed_ofString word
      | some r =>
        rw [hr] at h
        exact wellFormed_readTagged? hr h

theorem readText_eq_ok {word : String} {t : Text} :
    readText word = .ok t ↔ read word = .ok (.text t) := by
  rw [readText, bind_eq_ok]
  constructor
  · rintro ⟨v, hv, ht⟩
    split at ht
    · obtain rfl := Except.ok.inj ht
      exact hv
    · cases ht
  · intro h
    exact ⟨_, h, rfl⟩

theorem readText_eq_error {word : String} {e : OperandError} :
    readText word = .error e ↔
      read word = .error e ∨
        ∃ v, read word = .ok v ∧ v.text? = none ∧ e = .notText v.typeName := by
  rw [readText, bind_eq_error]
  refine or_congr_right (exists_congr fun v => and_congr_right fun _ => ?_)
  cases v <;> simp [Value.text?, eq_comm]

end Operand

end CodePointText
