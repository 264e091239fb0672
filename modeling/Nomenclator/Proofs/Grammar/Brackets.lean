/-
Brackets in what is left of a text.

From inside a pair of braces, what is left closes some parentheses and
square brackets, then the brace, and then comes what stands behind it
(`Within`). That stays so over every token that is no brace. At an opening
brace another pair begins, from which the same can be said of its own
closing brace.
-/
import Nomenclator.Proofs.Grammar.Loops
import Nomenclator.Grammar.Skip

namespace Nomenclator

def Token.isBracket : Token → Bool
  | .opener _ | .closer _ => true
  | _ => false

def Token.isBrace : Token → Bool
  | .opener .brace | .closer .brace => true
  | _ => false

/-- All brackets are properly nested. -/
inductive Balanced : List Token → Prop
  | nil : Balanced []
  | token {t ts} (ht : t.isBracket = false) (h : Balanced ts) : Balanced (t :: ts)
  | group {inner ts} (bracket : Bracket) (hinner : Balanced inner) (h : Balanced ts) :
    Balanced (.opener bracket :: (inner ++ .closer bracket :: ts))

namespace Grammar

/-! ## Open brackets -/

/-- What is left closes these open brackets, the innermost first, and right after the last of them
comes `tail`. -/
inductive Closes (tail : List Lexeme) : List Bracket → List Lexeme → Prop
  | nothing : Closes tail [] tail
  | opener {bracket span innermost outer rest} (h : Closes tail (bracket :: innermost :: outer) rest) :
    Closes tail (innermost :: outer) (⟨.opener bracket, span⟩ :: rest)
  | closer {bracket span outer rest} (h : Closes tail outer rest) :
    Closes tail (bracket :: outer) (⟨.closer bracket, span⟩ :: rest)
  | other {t span innermost outer rest} (ht : t.isBracket = false) (h : Closes tail (innermost :: outer) rest) :
    Closes tail (innermost :: outer) (⟨t, span⟩ :: rest)

namespace Closes

variable {tail rest : List Lexeme} {outer : List Bracket}

theorem eq_tail (h : Closes tail [] rest) : rest = tail := by
  cases h
  rfl

theorem length_le (h : Closes tail outer rest) : tail.length + outer.length ≤ rest.length := by
  induction h with
  | nothing => exact Nat.le_refl _
  | opener h ih | closer h ih | other ht h ih =>
    simp only [List.length_cons] at ih ⊢
    omega

/-- The inner brackets are closed before the outer ones. -/
theorem split {inner : List Bracket} (h : Closes tail (inner ++ outer) rest) :
    ∃ between, Closes between inner rest ∧ Closes tail outer between := by
  generalize hopen : inner ++ outer = open_ at h
  induction h generalizing inner with
  | nothing =>
    obtain ⟨rfl, rfl⟩ := List.append_eq_nil_iff.mp hopen
    exact ⟨tail, .nothing, .nothing⟩
  | @opener bracket span innermost further rest h ih =>
    cases inner with
    | nil =>
      obtain rfl : outer = innermost :: further := hopen
      exact ⟨_, .nothing, .opener h⟩
    | cons b inner =>
      obtain ⟨rfl, rfl⟩ := List.cons.inj hopen
      obtain ⟨between, hinner, houter⟩ := @ih (bracket :: b :: inner) rfl
      exact ⟨between, .opener hinner, houter⟩
  | @closer bracket span further rest h ih =>
    cases inner with
    | nil =>
      obtain rfl : outer = bracket :: further := hopen
      exact ⟨_, .nothing, .closer h⟩
    | cons b inner =>
      obtain ⟨rfl, rfl⟩ := List.cons.inj hopen
      obtain ⟨between, hinner, houter⟩ := @ih inner rfl
      exact ⟨between, .closer hinner, houter⟩
  | @other t span innermost further rest ht h ih =>
    cases inner with
    | nil =>
      obtain rfl : outer = innermost :: further := hopen
      exact ⟨_, .nothing, .other ht h⟩
    | cons b inner =>
      obtain ⟨rfl, rfl⟩ := List.cons.inj hopen
      obtain ⟨between, hinner, houter⟩ := @ih (b :: inner) rfl
      exact ⟨between, .other ht hinner, houter⟩

end Closes

/-- Balanced tokens leave the open brackets as they are. -/
theorem Closes.after_balanced {tail rest : List Lexeme} {innermost : Bracket} {outer : List Bracket}
    {ts : List Token} (hts : Balanced ts) {lexemes : List Lexeme}
    (htokens : lexemes.map Lexeme.token = ts) (h : Closes tail (innermost :: outer) rest) :
    Closes tail (innermost :: outer) (lexemes ++ rest) := by
  induction hts generalizing lexemes rest innermost outer with
  | nil =>
    obtain rfl := List.map_eq_nil_iff.mp htokens
    exact h
  | token ht _ ih =>
    obtain ⟨l, lexemes, rfl, rfl, hrest⟩ := List.map_eq_cons_iff.mp htokens
    exact .other ht (ih hrest h)
  | group bracket _ _ ihinner ih =>
    obtain ⟨⟨_, span⟩, lexemes, rfl, rfl, hrest⟩ := List.map_eq_cons_iff.mp htokens
    obtain ⟨inner, lexemes, rfl, hinner, hafter⟩ := List.map_eq_append_iff.mp hrest
    obtain ⟨⟨_, span'⟩, after, rfl, rfl, hts⟩ := List.map_eq_cons_iff.mp hafter
    rw [List.cons_append, List.append_assoc, List.cons_append]
    exact .opener (ihinner hinner (.closer (ih hts h)))

/-! ## Inside a pair of braces -/

/-- What is left closes the brace that the text is in, and right after that comes `tail`. -/
def Within (tail rest : List Lexeme) : Prop :=
  ∃ inner : List Bracket, .brace ∉ inner ∧ Closes tail (inner ++ [.brace]) rest

namespace Within

variable {tail rest : List Lexeme} {l : Lexeme} {span : Span}

theorem ne_nil (h : Within tail rest) : rest ≠ [] := by
  rintro rfl
  obtain ⟨inner, -, hcloses⟩ := h
  cases inner <;> cases hcloses

theorem length_lt (h : Within tail rest) : tail.length < rest.length := by
  obtain ⟨inner, -, hcloses⟩ := h
  have hle := hcloses.length_le
  rw [List.length_append, List.length_singleton] at hle
  omega

/-- Right behind an opening brace, at balanced tokens and its closing brace. -/
theorem of_balanced {ts : List Token} (hts : Balanced ts) {lexemes : List Lexeme}
    (htokens : lexemes.map Lexeme.token = ts) (span : Span) (tail : List Lexeme) :
    Within tail (lexemes ++ ⟨.closer .brace, span⟩ :: tail) :=
  ⟨[], List.not_mem_nil, .after_balanced hts htokens (.closer .nothing)⟩

theorem of_not_brace (h : Within tail (l :: rest)) (hl : l.token.isBrace = false) : Within tail rest := by
  obtain ⟨inner, hbrace, hcloses⟩ := h
  cases inner with
  | nil =>
    cases hcloses with
    | @opener bracket _ _ _ _ h =>
      refine ⟨[bracket], fun hmem => ?_, h⟩
      obtain rfl := List.mem_singleton.mp hmem
      exact absurd hl nofun
    | closer h => exact absurd hl nofun
    | other _ h => exact ⟨[], hbrace, h⟩
  | cons innermost inner =>
    cases hcloses with
    | @opener bracket _ _ _ _ h =>
      refine ⟨bracket :: innermost :: inner, fun hmem => ?_, h⟩
      rcases List.mem_cons.mp hmem with rfl | hmem
      · exact absurd hl nofun
      · exact hbrace hmem
    | closer h => exact ⟨inner, fun hmem => hbrace (List.mem_cons_of_mem _ hmem), h⟩
    | other _ h => exact ⟨innermost :: inner, hbrace, h⟩

/-- The next closing brace is the one that closes. -/
theorem eq_tail (h : Within tail (⟨.closer .brace, span⟩ :: rest)) : rest = tail := by
  obtain ⟨inner, hbrace, hcloses⟩ := h
  cases inner with
  | nil =>
    cases hcloses with
    | closer h => exact h.eq_tail
    | other ht => exact absurd ht nofun
  | cons innermost inner =>
    cases hcloses with
    | closer => exact absurd List.mem_cons_self hbrace
    | other ht => exact absurd ht nofun

/-- Behind an opening brace comes its closing one, and behind that the text is where it was. -/
theorem enter (h : Within tail (⟨.opener .brace, span⟩ :: rest)) :
    ∃ between, Within between rest ∧ Within tail between := by
  obtain ⟨inner, hbrace, hcloses⟩ := h
  have hopened : Closes tail ([.brace] ++ (inner ++ [.brace])) rest := by
    cases inner <;>
    · cases hcloses with
      | opener h => exact h
      | other ht => exact absurd ht nofun
  obtain ⟨between, hfirst, houter⟩ := hopened.split
  exact ⟨between, ⟨[], List.not_mem_nil, hfirst⟩, inner, hbrace, houter⟩

/-- A parenthesis is closed before the brace. -/
theorem open_paren (h : Within tail (⟨.opener .paren, span⟩ :: rest)) :
    ∃ inner : List Bracket, .brace ∉ inner ∧ Closes tail (.paren :: (inner ++ [.brace])) rest := by
  obtain ⟨inner, hbrace, hcloses⟩ := h
  refine ⟨inner, hbrace, ?_⟩
  cases inner <;>
  · cases hcloses with
    | opener h => exact h
    | other ht => exact absurd ht nofun

end Within

/-! ## Groups that are skipped -/

section

variable {s : State} {bracket : Bracket} {span : Span} {rest : List Lexeme} (openers : Openers)

theorem groupRound_opener (hs : s.rest = ⟨.opener bracket, span⟩ :: rest) :
    groupRound openers s = (.again ((bracket, span) :: openers), s.advance) := by
  obtain ⟨previous, _, nextId, reported⟩ := s
  obtain rfl := hs
  rfl

theorem groupRound_closer (hs : s.rest = ⟨.closer bracket, span⟩ :: rest) :
    groupRound openers s = ((openers.close bracket).turn, s.advance) := by
  obtain ⟨previous, _, nextId, reported⟩ := s
  obtain rfl := hs
  rfl

theorem groupRound_other {t : Token} (ht : t.isBracket = false) (hs : s.rest = ⟨t, span⟩ :: rest) :
    groupRound openers s = (openers.turn, s.advance) := by
  obtain ⟨previous, _, nextId, reported⟩ := s
  obtain rfl := hs
  cases t with
  | opener | closer => exact absurd ht nofun
  | _ => rfl

end

theorem State.advance_cons {s : State} {l : Lexeme} {rest : List Lexeme} (hs : s.rest = l :: rest) :
    s.advance.rest = rest ∧ s.advance.rest.length < s.rest.length := by
  rw [State.advance, hs]
  exact ⟨rfl, Nat.lt_succ_self _⟩

/-- A group ends with the bracket that closes the outermost one that was opened in it. -/
theorem closes_groupRound {tail : List Lexeme} {outer : List Bracket} {b : Bracket} {opener : Span}
    {others : Openers} {s : State} (h : Closes tail (b :: (others.map Prod.fst ++ outer)) s.rest) :
    Closes tail outer (iterate groupRound ((b, opener) :: others) s).2.rest := by
  generalize hopen : b :: (others.map Prod.fst ++ outer) = brackets at h
  generalize hrest : s.rest = rest at h
  induction h generalizing b opener others s with
  | nothing => exact absurd hopen nofun
  | opener h ih =>
    obtain ⟨hafter, hlt⟩ := State.advance_cons hrest
    rw [iterate_of_again (groupRound_opener _ hrest) hlt]
    exact ih (congrArg (_ :: ·) hopen) hafter
  | closer h ih =>
    obtain ⟨hafter, hlt⟩ := State.advance_cons hrest
    obtain ⟨rfl, hothers⟩ := List.cons.inj hopen
    have hround := groupRound_closer ((b, opener) :: others) hrest
    rw [show Openers.close b ((b, opener) :: others) = others from if_pos rfl] at hround
    cases others with
    | nil =>
      rw [iterate_of_done hround, hafter]
      obtain rfl : outer = _ := hothers
      exact h
    | cons next others =>
      rw [iterate_of_again hround hlt]
      exact ih hothers hafter
  | other ht h ih =>
    obtain ⟨hafter, hlt⟩ := State.advance_cons hrest
    rw [iterate_of_again (groupRound_other _ ht hrest) hlt]
    exact ih hopen hafter

/-- A group in parentheses does not leave the braces that it is in. -/
theorem within_skipGroup {tail rest : List Lexeme} {span : Span} {s : State}
    (hs : s.rest = ⟨.opener .paren, span⟩ :: rest) (h : Within tail s.rest) :
    Within tail (skipGroup s).2.rest := by
  rw [hs] at h
  obtain ⟨hafter, hlt⟩ := State.advance_cons hs
  obtain ⟨inner, hbrace, hcloses⟩ := h.open_paren
  rw [← hafter] at hcloses
  refine ⟨inner, hbrace, ?_⟩
  show Closes tail _ (iterate groupRound [] s).2.rest
  rw [iterate_of_again (groupRound_opener [] hs) hlt]
  exact closes_groupRound hcloses

end Grammar

end Nomenclator
