/-
What it means that a parser reads exactly the tokens meant for it and does
nothing else: it takes these and no others, has nothing to report and hands
out no number.

`Reads` says less of the state behind the tokens and asks for a quiet one
before them. Here the state behind is known but for the answer, so that
every token may come last, a point among them, and nothing need be known of
the one that was read before.
-/
import Nomenclator.Proofs.Grammar.Reads

namespace Nomenclator.Grammar

variable {α β : Type}

/-! ## States behind tokens -/

/-- The state once `read` is read and `rest` is left. -/
def State.behind (s : State) (read rest : List Lexeme) : State :=
  { s with previous := read.getLast?.or s.previous, rest }

namespace State

variable {s : State} {read more rest : List Lexeme} {l : Lexeme}

theorem behind_nil (h : s.rest = rest) : s.behind [] rest = s := by
  subst h
  rfl

@[simp] theorem behind_behind (s : State) (read more rest rest' : List Lexeme) :
    (s.behind read rest').behind more rest = s.behind (read ++ more) rest := by
  simp [behind, List.getLast?_append, Option.or_assoc]

@[simp] theorem behind_rest (s : State) (read rest : List Lexeme) : (s.behind read rest).rest = rest := rfl

theorem advance_eq_behind (h : s.rest = l :: rest) : s.advance = s.behind [l] rest := by
  simp [advance, behind, h]

end State

/-! ## The triple -/

/-- Wherever `tokens` come next, and `rest` behind them, the parser reads exactly these tokens. It
reports nothing, hands out no number, and answers as it should. -/
def Consumes (p : Parser α) (tokens rest : List Token) (answer : α → Prop) : Prop :=
  ∀ (s : State) (read after : List Lexeme), s.rest = read ++ after → read.map Lexeme.token = tokens →
    after.map Lexeme.token = rest → answer (p s).1 ∧ (p s).2 = s.behind read after

namespace Consumes

variable {p : Parser α} {f : α → Parser β} {ts ts' rest : List Token} {t : Token}
  {P : α → Prop} {Q : β → Prop}

theorem pure {a : α} (h : P a) : Consumes (Pure.pure a) [] rest P := by
  intro s read after hs hread _
  rw [List.map_eq_nil_iff] at hread
  subst hread
  exact ⟨h, (State.behind_nil hs).symm⟩

theorem mono {P' : α → Prop} (h : Consumes p ts rest P) (hP : ∀ a, P a → P' a) : Consumes p ts rest P' := by
  intro s read after hs hread hafter
  obtain ⟨hanswer, hstate⟩ := h s read after hs hread hafter
  exact ⟨hP _ hanswer, hstate⟩

theorem bind (hp : Consumes p ts (ts' ++ rest) P) (hf : ∀ a, P a → Consumes (f a) ts' rest Q) :
    Consumes (p >>= f) (ts ++ ts') rest Q := by
  intro s read after hs hread hafter
  obtain ⟨first, more, rfl, hfirst, hmore⟩ := List.map_eq_append_iff.mp hread
  have hfirst := hp s first (more ++ after) (by simp [hs]) hfirst (by simp [hmore, hafter])
  have hmore := hf _ hfirst.1 (p s).2 more after (by rw [hfirst.2]; rfl) hmore hafter
  refine ⟨hmore.1, hmore.2.trans ?_⟩
  rw [hfirst.2, State.behind_behind]

/-- The first parser only looks. -/
theorem look (hp : Consumes p [] (ts ++ rest) P) (hf : ∀ a, P a → Consumes (f a) ts rest Q) :
    Consumes (p >>= f) ts rest Q := bind hp hf

/-- The first parser reads one token. -/
theorem token (hp : Consumes p [t] (ts ++ rest) P) (hf : ∀ a, P a → Consumes (f a) ts rest Q) :
    Consumes (p >>= f) (t :: ts) rest Q := bind hp hf

/-- The second parser only answers. -/
theorem last (hp : Consumes p ts rest P) (hf : ∀ a, P a → Consumes (f a) [] rest Q) :
    Consumes (p >>= f) ts rest Q := by
  have h : Consumes p ts ([] ++ rest) P := hp
  have hboth := h.bind hf
  rwa [List.append_nil] at hboth

theorem map {f : α → β} (hp : Consumes p ts rest P) (hf : ∀ a, P a → Q (f a)) :
    Consumes (do return f (← p)) ts rest Q := last hp fun a ha => pure (hf a ha)

/-- What is read exactly is read, if no point and no `::` comes last. -/
theorem reads (h : Consumes p ts rest P) (hlast : ∀ t, ts.getLast? = some t → t ≠ .dot ∧ t ≠ .colonColon) :
    Reads p ts rest P := by
  intro s hs hquiet
  obtain ⟨read, after, hsplit, hread, hafter⟩ := List.map_eq_append_iff.mp hs
  obtain ⟨hanswer, hstate⟩ := h s read after hsplit hread hafter
  refine ⟨hanswer, by rw [hstate]; exact hafter, by rw [hstate]; rfl, ?_⟩
  rw [hstate]
  intro lexeme hl
  cases hend : read.getLast? with
  | none => exact hquiet lexeme (by simpa [State.behind, hend] using hl)
  | some l =>
    obtain rfl : l = lexeme := by simpa [State.behind, hend] using hl
    exact hlast l.token (by rw [← hread, List.getLast?_map, hend]; rfl)

/-- A parser that decides by the tokens that come next. -/
theorem get {f : State → Parser β}
    (h : ∀ s : State, s.tokens = ts ++ rest → Consumes (f s) ts rest Q) :
    Consumes (MonadState.get >>= f) ts rest Q := by
  intro s read after hs hread hafter
  have htokens : s.tokens = ts ++ rest := by rw [State.tokens, hs, List.map_append, hread, hafter]
  exact h s htokens s read after hs hread hafter

theorem next {f : State → Parser β}
    (h : ∀ s span after, s.rest = ⟨t, span⟩ :: after → after.map Lexeme.token = ts ++ rest →
      Consumes (f s) (t :: ts) rest Q) :
    Consumes (MonadState.get >>= f) (t :: ts) rest Q := by
  refine get fun s hs => ?_
  obtain ⟨span, after, hr, ha⟩ := map_token_eq_cons hs
  exact h s span after hr ha

end Consumes

/-! ## Single tokens -/

section Tokens

variable {rest : List Token} {t : Token}

theorem consumes_advance : Consumes advance [t] rest fun _ => True := by
  intro s read after hs hread _
  obtain ⟨span, _, rfl, hnil⟩ := map_token_eq_cons hread
  rw [List.map_eq_nil_iff] at hnil
  subst hnil
  exact ⟨trivial, State.advance_eq_behind hs⟩

theorem consumes_here : Consumes here [] rest fun _ => True := by
  intro s read after hs hread _
  rw [List.map_eq_nil_iff] at hread
  subst hread
  exact ⟨trivial, (State.behind_nil hs).symm⟩

theorem consumes_isAt : Consumes (isAt t) [] rest (· = decide (rest.head? = some t)) := by
  intro s read after hs hread hafter
  rw [List.map_eq_nil_iff] at hread
  subst hread
  refine ⟨?_, (State.behind_nil hs).symm⟩
  show s.rest.head?.any (·.token = t) = _
  rw [hs, ← hafter]
  cases after <;> simp

theorem consumes_take : Consumes (take? t) [t] rest fun r => ∃ span, r = some span := by
  refine .look consumes_isAt fun b hb => ?_
  subst hb
  simp only [List.cons_append, List.nil_append, List.head?_cons, decide_true, if_true]
  refine .look consumes_here fun span _ => ?_
  exact .last consumes_advance fun _ _ => .pure ⟨span, rfl⟩

theorem consumes_take_none (h : rest.head? ≠ some t) : Consumes (take? t) [] rest (· = none) := by
  refine .look consumes_isAt fun b hb => ?_
  subst hb
  simp only [List.nil_append, h, decide_false, Bool.false_eq_true, if_false]
  exact .pure rfl

theorem consumes_accept : Consumes (accept t) [t] rest (· = true) := by
  refine .map consumes_take fun r hr => ?_
  obtain ⟨span, rfl⟩ := hr
  rfl

theorem consumes_accept_none (h : rest.head? ≠ some t) : Consumes (accept t) [] rest (· = false) := by
  refine .map (consumes_take_none h) fun r hr => ?_
  subst hr
  rfl

theorem consumes_identifier (after : Anchor) (name : String) :
    Consumes (identifier after) [.identifier name] rest (·.1 = name) := by
  refine .look consumes_here fun span _ => .next fun s _ _ hr _ => ?_
  rw [hr]
  exact .last consumes_advance fun _ _ => .pure rfl

end Tokens

/-! ## Loops -/

section Loops

variable {ts ts' rest : List Token}

theorem length_lt_of_behind {s s' : State} {read after : List Lexeme} (hs : s.rest = read ++ after)
    (hstate : s' = s.behind read after) (hread : read ≠ []) : s'.rest.length < s.rest.length := by
  have hpos := List.length_pos_iff.mpr hread
  simp only [hstate, hs, State.behind_rest, List.length_append]
  omega

theorem consumes_iterate_again {round : α → Parser (Turn α)} {a : α} {P Q : α → Prop}
    (hr : Consumes (round a) ts (ts' ++ rest) fun turn => ∃ b, turn = .again b ∧ P b) (hts : ts ≠ [])
    (h : ∀ b, P b → Consumes (iterate round b) ts' rest Q) :
    Consumes (iterate round a) (ts ++ ts') rest Q := by
  intro s read after hs hread hafter
  obtain ⟨first, more, rfl, hfirst, hmore⟩ := List.map_eq_append_iff.mp hread
  have hne : first ≠ [] := by
    rintro rfl
    exact hts hfirst.symm
  have hsplit : s.rest = first ++ (more ++ after) := by rw [hs, List.append_assoc]
  obtain ⟨⟨b, hb, hPb⟩, hstate⟩ := hr s first (more ++ after) hsplit hfirst (by simp [hmore, hafter])
  rw [iterate_of_again (Prod.ext hb rfl) (length_lt_of_behind hsplit hstate hne)]
  obtain ⟨hanswer, hlast⟩ := h b hPb (round a s).2 more after (by rw [hstate]; rfl) hmore hafter
  refine ⟨hanswer, hlast.trans ?_⟩
  rw [hstate, State.behind_behind]

theorem consumes_iterate_next {round : α → Parser (Turn α)} {a b : α} {Q : α → Prop}
    (hr : Consumes (round a) ts (ts' ++ rest) (· = .again b)) (hts : ts ≠ [])
    (h : Consumes (iterate round b) ts' rest Q) : Consumes (iterate round a) (ts ++ ts') rest Q := by
  refine consumes_iterate_again (P := (· = b)) (hr.mono fun turn hturn => ⟨b, hturn, rfl⟩) hts fun b' hb' => ?_
  subst hb'
  exact h

/-- The round reads one token. -/
theorem consumes_iterate_token {round : α → Parser (Turn α)} {a b : α} {t : Token} {Q : α → Prop}
    (hr : Consumes (round a) [t] (ts' ++ rest) (· = .again b)) (h : Consumes (iterate round b) ts' rest Q) :
    Consumes (iterate round a) (t :: ts') rest Q := consumes_iterate_next hr (by simp) h

theorem consumes_iterate_done {round : α → Parser (Turn α)} {a b : α} {Q : α → Prop}
    (hr : Consumes (round a) ts rest (· = .done b)) (hQ : Q b) : Consumes (iterate round a) ts rest Q := by
  intro s read after hs hread hafter
  obtain ⟨hb, hstate⟩ := hr s read after hs hread hafter
  rw [iterate_of_done (Prod.ext hb rfl)]
  exact ⟨hQ, hstate⟩

theorem consumes_skipWhile_again {round : Parser Bool} (hr : Consumes round ts (ts' ++ rest) (· = true))
    (hts : ts ≠ []) (h : Consumes (skipWhile round) ts' rest fun _ => True) :
    Consumes (skipWhile round) (ts ++ ts') rest fun _ => True := by
  refine consumes_iterate_next (b := ()) (.last hr fun b hb => ?_) hts h
  subst hb
  exact .pure rfl

theorem consumes_skipWhile_done {round : Parser Bool} (hr : Consumes round ts rest (· = false)) :
    Consumes (skipWhile round) ts rest fun _ => True := by
  refine consumes_iterate_done (b := ()) (.last hr fun b hb => ?_) trivial
  subst hb
  exact .pure rfl

theorem consumes_collect_again {round : Parser (List α × Bool)} {found : List α} {Q : List α → Prop}
    (hr : Consumes round ts (ts' ++ rest) (· = (found, true))) (hts : ts ≠ [])
    (h : Consumes (collect round) ts' rest fun more => Q (found ++ more)) :
    Consumes (collect round) (ts ++ ts') rest Q := by
  intro s read after hs hread hafter
  obtain ⟨first, more, rfl, hfirst, hmore⟩ := List.map_eq_append_iff.mp hread
  have hne : first ≠ [] := by
    rintro rfl
    exact hts hfirst.symm
  have hsplit : s.rest = first ++ (more ++ after) := by rw [hs, List.append_assoc]
  obtain ⟨hfound, hstate⟩ := hr s first (more ++ after) hsplit hfirst (by simp [hmore, hafter])
  rw [collect_of_true (Prod.ext hfound rfl) (length_lt_of_behind hsplit hstate hne)]
  obtain ⟨hanswer, hlast⟩ := h (round s).2 more after (by rw [hstate]; rfl) hmore hafter
  refine ⟨hanswer, hlast.trans ?_⟩
  rw [hstate, State.behind_behind]

theorem consumes_collect_done {round : Parser (List α × Bool)} {found : List α} {Q : List α → Prop}
    (hr : Consumes round ts rest (· = (found, false))) (hQ : Q found) : Consumes (collect round) ts rest Q := by
  intro s read after hs hread hafter
  obtain ⟨hfound, hstate⟩ := hr s read after hs hread hafter
  rw [collect_of_false (Prod.ext hfound rfl)]
  exact ⟨hQ, hstate⟩

end Loops

end Nomenclator.Grammar
