/-
What it means that a parser reads the tokens meant for it: it takes these
and no others, answers as it should and has nothing to report.

A statement of this kind is about every state in which the tokens come
next, wherever they stand in the text, so statements about parts of a
parser join to one about the whole. A parser that only looks ahead, or that
decides nothing to be there, reads no tokens.
-/
import Nomenclator.Proofs.Grammar.Loops

namespace Nomenclator.Grammar

variable {α β : Type}

/-! ## States by their tokens -/

def State.tokens (s : State) : List Token := s.rest.map Lexeme.token

/-- A word that was read last does not take its meaning away from the next one. -/
def State.Quiet (s : State) : Prop :=
  ∀ lexeme, s.previous = some lexeme → lexeme.token ≠ .dot ∧ lexeme.token ≠ .colonColon

theorem map_token_eq_cons {lexemes : List Lexeme} {t : Token} {ts : List Token}
    (h : lexemes.map Lexeme.token = t :: ts) :
    ∃ span after, lexemes = ⟨t, span⟩ :: after ∧ after.map Lexeme.token = ts := by
  obtain ⟨⟨_, span⟩, after, rfl, rfl, rfl⟩ := List.map_eq_cons_iff.mp h
  exact ⟨span, after, rfl, rfl⟩

theorem State.rest_eq_nil {s : State} (h : s.tokens = []) : s.rest = [] := List.map_eq_nil_iff.mp h

/-! ## The triple -/

/-- How a parser that has begun in state `s` leaves off. -/
structure Leaves (s : State) (rest : List Token) (answer : α → Prop) (result : α × State) : Prop where
  answer : answer result.1
  tokens : result.2.tokens = rest
  reported : result.2.reported = s.reported
  quiet : result.2.Quiet

/-- Before `rest`, the parser reads `tokens`. -/
def Reads (p : Parser α) (tokens rest : List Token) (answer : α → Prop) : Prop :=
  ∀ s : State, s.tokens = tokens ++ rest → s.Quiet → Leaves s rest answer (p s)

namespace Reads

variable {p : Parser α} {f : α → Parser β} {ts ts' rest : List Token} {t : Token}
  {P : α → Prop} {Q : β → Prop}

theorem pure {a : α} (h : P a) : Reads (Pure.pure a) [] rest P := fun _ hs hq => ⟨h, hs, rfl, hq⟩

theorem mono {P' : α → Prop} (h : Reads p ts rest P) (hP : ∀ a, P a → P' a) : Reads p ts rest P' :=
  fun s hs hq => { h s hs hq with answer := hP _ (h s hs hq).answer }

theorem bind (hp : Reads p ts (ts' ++ rest) P) (hf : ∀ a, P a → Reads (f a) ts' rest Q) :
    Reads (p >>= f) (ts ++ ts') rest Q := by
  intro s hs hq
  have h := hp s (by rw [hs, List.append_assoc]) hq
  have h' := hf _ h.answer _ h.tokens h.quiet
  exact { h' with reported := h'.reported.trans h.reported }

/-- The first parser only looks. -/
theorem look (hp : Reads p [] (ts ++ rest) P) (hf : ∀ a, P a → Reads (f a) ts rest Q) :
    Reads (p >>= f) ts rest Q := bind hp hf

/-- The first parser reads one token. -/
theorem token (hp : Reads p [t] (ts ++ rest) P) (hf : ∀ a, P a → Reads (f a) ts rest Q) :
    Reads (p >>= f) (t :: ts) rest Q := bind hp hf

/-- The second parser only answers. -/
theorem last (hp : Reads p ts rest P) (hf : ∀ a, P a → Reads (f a) [] rest Q) :
    Reads (p >>= f) ts rest Q := by
  have hp' : Reads p ts ([] ++ rest) P := hp
  have h := hp'.bind hf
  rwa [List.append_nil] at h

theorem map {f : α → β} (hp : Reads p ts rest P) (hf : ∀ a, P a → Q (f a)) :
    Reads (do return f (← p)) ts rest Q := last hp fun a ha => pure (hf a ha)

theorem get {f : State → Parser β}
    (h : ∀ s : State, s.tokens = ts ++ rest → s.Quiet → Reads (f s) ts rest Q) :
    Reads (MonadState.get >>= f) ts rest Q := fun s hs hq => h s hs hq s hs hq

/-- A parser that decides by the next token. -/
theorem next {f : State → Parser β}
    (h : ∀ s span after, s.rest = ⟨t, span⟩ :: after → after.map Lexeme.token = ts ++ rest → s.Quiet →
      Reads (f s) (t :: ts) rest Q) :
    Reads (MonadState.get >>= f) (t :: ts) rest Q := by
  refine get fun s hs hq => ?_
  obtain ⟨span, after, hr, ha⟩ := map_token_eq_cons hs
  exact h s span after hr ha hq

end Reads

/-! ## Single tokens -/

section Tokens

variable {rest : List Token} {t : Token}

theorem reads_advance (hd : t ≠ .dot) (hc : t ≠ .colonColon) :
    Reads advance [t] rest fun _ => True := by
  intro s hs hq
  obtain ⟨span, after, hr, ha⟩ := map_token_eq_cons hs
  have hs' : (advance s).2 = { s with previous := some ⟨t, span⟩, rest := after } := by
    show s.advance = _
    rw [State.advance, hr]
  refine ⟨trivial, by rw [hs']; exact ha, by rw [hs'], ?_⟩
  rw [hs']
  intro lexeme hl
  obtain rfl : ⟨t, span⟩ = lexeme := Option.some.inj hl
  exact ⟨hd, hc⟩

theorem reads_here : Reads here [] rest fun _ => True := fun _ hs hq => ⟨trivial, hs, rfl, hq⟩

theorem reads_fresh : Reads fresh [] rest fun _ => True := fun _ hs hq => ⟨trivial, hs, rfl, hq⟩

theorem reads_isAt : Reads (isAt t) [] rest (· = decide (rest.head? = some t)) := by
  intro s hs hq
  refine ⟨?_, hs, rfl, hq⟩
  show s.rest.head?.any (·.token = t) = _
  have hh : rest.head? = s.rest.head?.map Lexeme.token := by
    rw [← List.head?_map]
    exact congrArg List.head? hs.symm
  rw [hh]
  cases s.rest <;> simp

theorem reads_take (hd : t ≠ .dot) (hc : t ≠ .colonColon) :
    Reads (take? t) [t] rest fun r => ∃ span, r = some span := by
  refine .look reads_isAt fun b hb => ?_
  subst hb
  rw [if_pos (by simp)]
  refine .look reads_here fun span _ => ?_
  exact .last (reads_advance hd hc) fun _ _ => .pure ⟨span, rfl⟩

theorem reads_take_none (h : rest.head? ≠ some t) : Reads (take? t) [] rest (· = none) := by
  refine .look reads_isAt fun b hb => ?_
  subst hb
  rw [if_neg (by simpa using h)]
  exact .pure rfl

theorem reads_accept (hd : t ≠ .dot) (hc : t ≠ .colonColon) :
    Reads (accept t) [t] rest (· = true) :=
  .map (reads_take hd hc) fun r hr => by obtain ⟨span, rfl⟩ := hr; rfl

theorem reads_accept_none (h : rest.head? ≠ some t) : Reads (accept t) [] rest (· = false) :=
  .map (reads_take_none h) fun r hr => by rw [hr]; rfl

theorem reads_identifier (after : Anchor) (name : String) :
    Reads (identifier after) [.identifier name] rest (·.1 = name) := by
  refine .look reads_here fun span _ => ?_
  refine .next fun s _ _ hr _ _ => ?_
  rw [hr]
  exact .last (reads_advance nofun nofun) fun _ _ => .pure rfl

end Tokens

/-! ## Loops -/

section Loops

variable {ts ts' rest : List Token}

theorem length_lt_of_leaves {s : State} {P : α → Prop} {result : α × State}
    (h : Leaves s rest P result) (hs : s.tokens = ts ++ rest) (hts : ts ≠ []) :
    result.2.rest.length < s.rest.length := by
  have h₁ : result.2.rest.length = rest.length := by rw [← h.tokens, State.tokens, List.length_map]
  have h₂ : s.rest.length = ts.length + rest.length := by
    rw [← List.length_append, ← hs, State.tokens, List.length_map]
  have h₃ := List.length_pos_iff.mpr hts
  omega

theorem reads_iterate_done {round : α → Parser (Turn α)} {a : α} {Q : α → Prop}
    (hr : Reads (round a) ts rest fun turn => ∃ b, turn = .done b ∧ Q b) :
    Reads (iterate round a) ts rest Q := by
  intro s hs hq
  have h₁ := hr s hs hq
  obtain ⟨b, hb, hQb⟩ := h₁.answer
  rw [iterate_of_done (Prod.ext hb rfl)]
  exact { h₁ with answer := hQb }

theorem reads_skipWhile_done {round : Parser Bool} (hr : Reads round ts rest (· = false)) :
    Reads (skipWhile round) ts rest fun _ => True := by
  refine reads_iterate_done (.last hr fun b hb => ?_)
  rw [hb]
  exact .pure ⟨(), rfl, trivial⟩

theorem reads_collect_again {round : Parser (List α × Bool)} {P Q : List α → Prop}
    (hr : Reads round ts (ts' ++ rest) fun r => r.2 = true ∧ P r.1) (hts : ts ≠ [])
    (h : ∀ found, P found → Reads (collect round) ts' rest fun more => Q (found ++ more)) :
    Reads (collect round) (ts ++ ts') rest Q := by
  intro s hs hq
  have hs' : s.tokens = ts ++ (ts' ++ rest) := by rw [hs, List.append_assoc]
  have h₁ := hr s hs' hq
  obtain ⟨hb, hP⟩ := h₁.answer
  have h₂ := h _ hP _ h₁.tokens h₁.quiet
  have hround : round s = (((round s).1.1, true), (round s).2) := Prod.ext (Prod.ext rfl hb) rfl
  rw [collect_of_true hround (length_lt_of_leaves h₁ hs' hts)]
  exact { h₂ with reported := h₂.reported.trans h₁.reported }

theorem reads_collect_done {round : Parser (List α × Bool)} {Q : List α → Prop}
    (hr : Reads round ts rest fun r => r.2 = false ∧ Q r.1) : Reads (collect round) ts rest Q := by
  intro s hs hq
  have h₁ := hr s hs hq
  have hround : round s = (((round s).1.1, false), (round s).2) :=
    Prod.ext (Prod.ext rfl h₁.answer.1) rfl
  rw [collect_of_false hround]
  exact { h₁ with answer := h₁.answer.2 }

end Loops

end Nomenclator.Grammar
