/-
The text of a type is a parameter that can be read back: it is not empty,
and all it is made of are identifiers, points and square brackets.
-/
import Nomenclator.Grammar.Type
import Nomenclator.Proofs.Name.RoundTrip
import Nomenclator.Proofs.Token.Names

namespace Nomenclator

/-- What the text of a type is made of: identifiers, points and square brackets. -/
def isTypeChar (c : Char) : Bool := Cut.isNameChar c || c == '.' || c == '[' || c == ']'

def IsTypeText (text : String) : Prop := text ≠ "" ∧ ∀ c ∈ text.toList, isTypeChar c = true

theorem toNat_of_isTypeChar {c : Char} (h : isTypeChar c = true) : 36 ≤ c.toNat ∧ c.toNat ≤ 122 := by
  unfold isTypeChar Cut.isNameChar Char.isAlphanum Char.isAlpha Char.isUpper Char.isLower Char.isDigit at h
  simp only [Bool.or_eq_true, Bool.and_eq_true, decide_eq_true_eq, beq_iff_eq, ge_iff_le,
    UInt32.le_iff_toNat_le] at h
  rcases h with (((((⟨⟨h, h'⟩ | ⟨h, h'⟩⟩ | ⟨h, h'⟩) | rfl) | rfl) | rfl) | rfl) | rfl
  all_goals first
    | decide
    | exact ⟨Nat.le_trans (by decide) h, Nat.le_trans h' (by decide)⟩

theorem toNat_of_isBlank {c : Char} (h : Text.isBlank c = true) : c.toNat ≤ 32 ∨ 133 ≤ c.toNat := by
  simp only [Text.isBlank, Text.blankRanges, List.any_cons, List.any_nil, Bool.or_eq_true,
    Bool.and_eq_true, decide_eq_true_eq, Bool.or_false] at h
  omega

/-- No white space, and nothing that separates parameters or ends their list. -/
theorem IsTypeText.not_separator {text : String} (h : IsTypeText text) :
    ∀ c ∈ text.toList, c ≠ ',' ∧ c ≠ ')' ∧ Text.isBlank c = false := by
  have hcomma : ',' ∉ text.toList := Text.not_mem_of_forall h.2 (by decide)
  have hparen : ')' ∉ text.toList := Text.not_mem_of_forall h.2 (by decide)
  refine fun c hc => ⟨fun he => hcomma (he ▸ hc), fun he => hparen (he ▸ hc), Bool.eq_false_iff.mpr fun hb => ?_⟩
  have h₁ := toNat_of_isTypeChar (h.2 c hc)
  have h₂ := toNat_of_isBlank hb
  omega

theorem IsTypeText.isParameter {text : String} (h : IsTypeText text) :
    Operation.isParameter text.toList = true := by
  have hblank : ∀ c ∈ text.toList, Text.isBlank c = false := fun c hc => (h.not_separator c hc).2.2
  refine Operation.isParameter_iff.mpr ⟨fun he => h.1 (String.toList_inj.mp he), fun c hc => ?_, ?_⟩
  · exact ⟨(h.not_separator c hc).1, (h.not_separator c hc).2.1⟩
  · rw [Text.isPadded, Bool.or_eq_false_iff]
    refine ⟨?_, ?_⟩
    · cases hh : text.toList.head? with
      | none => rfl
      | some c => exact hblank c (List.mem_of_head? hh)
    · cases hh : text.toList.getLast? with
      | none => rfl
      | some c => exact hblank c (List.mem_of_getLast? hh)

/-! ## Types as they are put together -/

theorem IsTypeText.append {a b : String} (ha : IsTypeText a) (hb : ∀ c ∈ b.toList, isTypeChar c = true) :
    IsTypeText (a ++ b) := by
  refine ⟨fun he => ha.1 (String.append_eq_empty_iff.mp he).1, fun c hc => ?_⟩
  rw [String.toList_append] at hc
  rcases List.mem_append.mp hc with hc | hc
  · exact ha.2 c hc
  · exact hb c hc

theorem isTypeChar_of_mem_dimensionText (count : Nat) :
    ∀ c ∈ (Grammar.dimensionText count).toList, isTypeChar c = true := by
  intro c hc
  rw [Grammar.dimensionText, String.toList_ofList, List.mem_flatten] at hc
  obtain ⟨pair, hpair, hc⟩ := hc
  rw [List.eq_of_mem_replicate hpair] at hc
  simp only [List.mem_cons, List.not_mem_nil, or_false] at hc
  rcases hc with rfl | rfl <;> decide

theorem isTypeChar_of_isNameChar {c : Char} (h : Cut.isNameChar c = true) : isTypeChar c = true := by
  rw [isTypeChar, h]
  rfl

/-- Names joined by points, then square brackets. -/
theorem IsTypeText.typeText {names : List String} (hne : names ≠ []) (h : ∀ name ∈ names, IsName name)
    (count : Nat) : IsTypeText (Grammar.typeText names count) := by
  refine IsTypeText.append ⟨fun he => ?_, fun c hc => ?_⟩ (isTypeChar_of_mem_dimensionText count)
  · obtain ⟨first, others, rfl⟩ := List.exists_cons_of_ne_nil hne
    have hnil : ".".toList.intercalate ((first :: others).map String.toList) = [] := by
      rw [← String.toList_intercalate, he]
      rfl
    have hfirst := (h first List.mem_cons_self).ne_empty
    cases others with
    | nil => exact hfirst (String.toList_inj.mp (by simpa using hnil))
    | cons next others =>
      rw [List.map_cons, List.intercalate_cons_of_ne_nil (by simp)] at hnil
      simp at hnil
  · rw [String.toList_intercalate] at hc
    rcases Text.mem_intercalate hc with hc | ⟨part, hpart, hc⟩
    · rw [List.mem_singleton.mp hc]
      decide
    · obtain ⟨name, hname, rfl⟩ := List.mem_map.mp hpart
      exact isTypeChar_of_isNameChar ((h name hname).isNameChar c hc)

end Nomenclator
