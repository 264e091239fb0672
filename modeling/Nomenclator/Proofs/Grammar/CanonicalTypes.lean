/-
The parts of a declaration that hold no other declarations are read as they
are written: modifiers, dotted names, types and parameter lists.

Most of these end where something comes that cannot continue them, so their
statements say what the tokens behind must not begin with. They are cases of
what is known of types and modifiers however they are written: here no more
is written than names keep.
-/
import Nomenclator.Proofs.Grammar.TypeErasure

namespace Nomenclator.Canonical

open Grammar

variable {rest : List Token}

/-! ## Modifiers -/

/-- No modifier begins with these tokens. -/
def NoModifier (tokens : List Token) : Prop :=
  ∀ lexemes : List Lexeme, lexemes.map Lexeme.token = tokens → modifier? lexemes = none

namespace NoModifier

variable {t : Token} {ts : List Token}

theorem iff_not_begins : NoModifier ts ↔ ¬ BeginsModifier ts := by
  constructor
  · intro h
    have hlexemes : (ts.map fun t => (⟨t, nowhere⟩ : Lexeme)).map Lexeme.token = ts := by simp [Function.comp_def]
    exact hlexemes ▸ (modifier?_eq_none_iff _).mp (h _ hlexemes)
  · rintro h lexemes rfl
    exact (modifier?_eq_none_iff lexemes).mpr h

theorem nil : NoModifier [] := iff_not_begins.mpr nofun

/-- Only a keyword, an annotation or a word begins one. -/
theorem of_ne (hk : ∀ k, t ≠ .keyword k) (ha : t ≠ .atSign) (hi : ∀ name, t ≠ .identifier name) :
    NoModifier (t :: ts) := by
  refine iff_not_begins.mpr fun h => ?_
  cases h with
  | keyword => exact hk _ rfl
  | nonSealed | sealed => exact hi _ rfl
  | annotated => exact ha rfl

theorem keyword {k : Keyword} (hk : k.isModifier = false) : NoModifier (.keyword k :: ts) := by
  refine iff_not_begins.mpr fun h => ?_
  cases h with
  | keyword hk' => exact Bool.false_ne_true (hk ▸ hk')

theorem annotationType : NoModifier (.atSign :: .keyword .interfaceKw :: ts) := by
  refine iff_not_begins.mpr fun h => ?_
  cases h with
  | annotated hhead => exact hhead rfl

/-- A word is a modifier only before a keyword, an annotation or the rest of `non-sealed`. -/
theorem identifier (name : String) (hk : ∀ k, t ≠ .keyword k) (ha : t ≠ .atSign)
    (ho : t ≠ .operator) : NoModifier (.identifier name :: t :: ts) :=
  iff_not_begins.mpr (not_beginsModifier_word hk ha ho)

end NoModifier

theorem reads_modifiers (isStatic : Bool) (h : NoModifier rest) :
    Reads modifiers (staticTokens isStatic) rest (· = isStatic) := by
  have hrest := NoModifier.iff_not_begins.mp h
  cases isStatic with
  | false =>
    have hwell : Modifier.AllWellFormed rest [] := trivial
    have hnone := consumes_modifierRounds hwell (by simp) hrest false
    exact (hnone.mono fun found hfound => by simpa using hfound).reads nofun
  | true =>
    have hwell : Modifier.AllWellFormed rest [.keyword .staticKw] := ⟨rfl, trivial⟩
    have hstatic := consumes_modifierRounds hwell (by simp) hrest false
    exact (hstatic.mono fun found hfound => by simpa using hfound).reads (by simp [Modifier.tokensOf, Modifier.tokens])

theorem reads_no_modifiers (h : NoModifier rest) : Reads modifiers [] rest (· = false) :=
  reads_modifiers false h

/-! ## Names -/

theorem getLast?_dotted (first : String) (others : List String) :
    ∃ name, (dotted first others).getLast? = some (.identifier name) := by
  rcases List.eq_nil_or_concat others with rfl | ⟨more, last, rfl⟩
  · exact ⟨first, rfl⟩
  · exact ⟨last, by simp [dotted, List.getLast?_cons]⟩

theorem reads_dottedName (anchor : Anchor) (first : String) (others : List String)
    (h : rest.head? ≠ some .dot) :
    Reads (dottedName anchor) (dotted first others) rest (· = first :: others) := by
  refine (consumes_dottedName anchor first others h).reads fun t ht => ?_
  obtain ⟨name, hname⟩ := getLast?_dotted first others
  obtain rfl : Token.identifier name = t := by simpa [hname] using ht
  simp

/-! ## Types -/

/-- These tokens do not continue a type. -/
def EndsType (tokens : List Token) : Prop :=
  tokens.head? ≠ some .less ∧ tokens.head? ≠ some .dot ∧ tokens.head? ≠ some (.opener .square)

theorem EndsType.not_continues (h : EndsType rest) : ¬ ContinuesType rest := by
  obtain ⟨hless, hdot, hsquare⟩ := h
  intro hcontinues
  cases hcontinues with
  | less => exact hless rfl
  | name => exact hdot rfl
  | dimension => exact hsquare rfl

theorem reads_skipAnyAngles (h : rest.head? ≠ some .less) :
    Reads skipAnyAngles [] rest fun _ => True := by
  have hnone : Consumes skipAnyAngles (argumentTokens none) rest fun _ => True := consumes_skipAnyAngles (by simp) h
  exact hnone.reads nofun

/-- A type without annotations and arguments. -/
def TypeName.argumented (type : TypeName) : ArgumentedType :=
  ⟨[], ⟨type.first, none⟩, type.others.map (⟨·, none⟩), type.dimensions⟩

namespace TypeName

variable (type : TypeName)

theorem tokens_argumented : type.argumented.nameTokens = type.tokens := by
  simp [argumented, ArgumentedType.nameTokens, ArgumentedType.otherTokens, ArgumentedType.dimensionTokens,
    argumentTokens, tokens, dotted, List.flatMap_map]

theorem erased_argumented : type.argumented.erased = type := by
  simp [argumented, ArgumentedType.erased, Function.comp_def]

/-- Its last token is a name or a closing bracket. -/
theorem getLast?_tokens {t : Token} (h : type.tokens.getLast? = some t) : t ≠ .dot ∧ t ≠ .colonColon := by
  obtain ⟨first, others, n⟩ := type
  cases n with
  | zero =>
    obtain ⟨name, hname⟩ := getLast?_dotted first others
    obtain rfl : Token.identifier name = t := by simpa [tokens, hname] using h
    simp
  | succ n =>
    obtain rfl : Token.closer .square = t := by
      simpa [tokens, List.replicate_succ', bracketed, List.getLast?_append, List.getLast?_cons] using h
    simp

theorem wellFormed_argumented : type.argumented.WellFormed := by
  refine ⟨by simp [argumented], fun n hn => ?_⟩
  have hnone : n.arguments = none := by
    simp only [argumented, List.mem_cons, List.mem_map] at hn
    rcases hn with rfl | ⟨name, -, rfl⟩ <;> rfl
  simp [hnone]

end TypeName

theorem reads_type (type : TypeName) (h : EndsType rest) :
    Reads type? type.tokens rest (· = some type.text) := by
  have hconsumes := consumes_argumentedType type.wellFormed_argumented h.not_continues
  rw [type.erased_argumented] at hconsumes
  have htokens : type.argumented.tokens = type.tokens := type.tokens_argumented
  rw [htokens] at hconsumes
  exact hconsumes.reads fun t ht => type.getLast?_tokens ht

/-! ## Parameters -/

/-- A type is no modifier, unless it is a word that is followed as one. -/
theorem noModifier_type (type : TypeName) (hk : ∀ k, rest.head? ≠ some (.keyword k))
    (ha : rest.head? ≠ some .atSign) (ho : rest.head? ≠ some .operator) (hne : rest ≠ []) :
    NoModifier (type.tokens ++ rest) := by
  obtain ⟨first, others, n⟩ := type
  match others, n with
  | _ :: _, _ => exact .identifier first nofun nofun nofun
  | [], _ + 1 => exact .identifier first nofun nofun nofun
  | [], 0 =>
    obtain ⟨t, ts, rfl⟩ := List.exists_cons_of_ne_nil hne
    exact .identifier first (fun k he => hk k (he ▸ rfl)) (fun he => ha (he ▸ rfl)) fun he => ho (he ▸ rfl)

/-- A parameter without modifiers, and without dimensions behind its name. -/
def Parameter.argumented (p : Parameter) : ArgumentedParameter := ⟨[], p.type.argumented, p.variadic, p.name, 0⟩

namespace Parameter

variable (p : Parameter)

theorem tokens_argumented : p.argumented.tokens = p.tokens := by
  show [] ++ (p.type.argumented.nameTokens ++ _) = _
  rw [p.type.tokens_argumented]
  rfl

theorem tree_argumented : p.argumented.tree = p.tree := by
  obtain ⟨type, variadic, name⟩ := p
  cases variadic <;> simp [argumented, ArgumentedParameter.tree, type.erased_argumented, tree, dimensionText]

theorem wellFormed_argumented : p.argumented.WellFormed := ⟨trivial, p.type.wellFormed_argumented⟩

end Parameter

theorem getLast?_listed (stop : Token) (parts : List (List Token)) :
    (listed stop parts).getLast? = some stop := by
  match parts with
  | [] => rfl
  | [part] => simp [listed]
  | part :: next :: parts =>
    have hnext := getLast?_listed stop (next :: parts)
    simp [listed, List.getLast?_append, List.getLast?_cons, hnext]

theorem reads_parameters (parameters : List Parameter) :
    Reads Grammar.parameters (parameterTokens parameters) rest (· = parameters.map Parameter.tree) := by
  have hwell : ∀ p ∈ parameters.map Parameter.argumented, p.WellFormed := by
    simp [Parameter.wellFormed_argumented]
  have hconsumes : Consumes _ _ rest _ := ArgumentedParameter.consumes_list hwell
  have htokens : ArgumentedParameter.listTokens (parameters.map Parameter.argumented) = parameterTokens parameters := by
    simp [ArgumentedParameter.listTokens, parameterTokens, Function.comp_def, Parameter.tokens_argumented]
  have htrees : (parameters.map Parameter.argumented).map ArgumentedParameter.tree = parameters.map Parameter.tree := by
    simp [Function.comp_def, Parameter.tree_argumented]
  rw [htokens, htrees] at hconsumes
  refine hconsumes.reads fun t ht => ?_
  obtain rfl : Token.closer .paren = t := by
    simpa [parameterTokens, List.getLast?_cons, getLast?_listed] using ht
  simp

end Nomenclator.Canonical
