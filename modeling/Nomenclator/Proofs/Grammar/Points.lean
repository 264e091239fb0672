/-
Every place that reading comes by is that of tokens of the text.

Where a parser stands is the place of a token, at the end of the text that
of the last one, and it only goes forward. So between any two places on its
way a node reaches over whole tokens, and every report points to some.
-/
import Nomenclator.Proofs.Declaration.Placement
import Nomenclator.Proofs.Grammar.Moves
import Nomenclator.Proofs.Token.Partition

namespace Nomenclator.Grammar

variable {α β : Type}

/-! ## States on the way -/

/-- The tokens of a text that has any. -/
structure Lexemes where
  list : List Lexeme
  nonempty : list ≠ []
  inOrder : Lexeme.InOrder list

namespace Lexemes

variable {all : Lexemes} {l l' : Lexeme} {v v' : List Lexeme}

theorem onTokens (h : l ∈ all.list) : l.span.OnTokens all.list :=
  ⟨⟨l, h, rfl⟩, ⟨l, h, rfl⟩, all.inOrder.nonempty l h⟩

/-- With less behind it a token is further on. -/
theorem le_of_suffix (h : l :: v <:+ all.list) (h' : l' :: v' <:+ all.list) (hle : v'.length ≤ v.length) :
    l.span.start ≤ l'.span.start ∧ l.span.stop ≤ l'.span.stop := by
  have hsuffix := List.suffix_of_suffix_length_le h' h (Nat.succ_le_succ hle)
  rcases List.suffix_cons_iff.mp hsuffix with he | hbehind
  · obtain ⟨rfl, -⟩ := List.cons.inj he
    exact ⟨Nat.le_refl _, Nat.le_refl _⟩
  · have happart := List.rel_of_pairwise_cons (all.inOrder.apart.sublist h.sublist)
      (hbehind.subset List.mem_cons_self)
    have hlt := all.inOrder.nonempty l (h.subset List.mem_cons_self)
    have hlt' := all.inOrder.nonempty l' (h'.subset List.mem_cons_self)
    omega

end Lexemes

/-- Some of the tokens have been read, the last of them just now, and what was reported is about
places of tokens. -/
structure State.Within (all : Lexemes) (s : State) : Prop where
  tokens : ∃ done, all.list = done ++ s.rest ∧ s.previous = done.getLast?
  reports : ∀ d ∈ s.reported, d.span.OnTokens all.list ∧ d.problem.notes = []

/-- From the place of the one state to that of the other. -/
def State.upTo (s s' : State) : Span := ⟨s.here.start, s'.here.stop⟩

namespace State.Within

variable {all : Lexemes} {s : State}

/-- Reading starts before the first token. -/
theorem start (all : Lexemes) : State.Within all { rest := all.list } :=
  ⟨⟨[], rfl, rfl⟩, fun _ h => absurd h List.not_mem_nil⟩

theorem suffix (h : s.Within all) : s.rest <:+ all.list :=
  have ⟨done, hall, _⟩ := h.tokens
  ⟨done, hall.symm⟩

/-- There is always a token to point to, and at most the rest of them is behind it. -/
theorem here_eq (h : s.Within all) : ∃ l v, l :: v <:+ all.list ∧ s.here = l.span ∧
    (s.rest = l :: v ∨ s.rest = [] ∧ v = []) := by
  obtain ⟨done, hall, hprevious⟩ := h.tokens
  cases hr : s.rest with
  | cons l v =>
    refine ⟨l, v, hr ▸ h.suffix, ?_, .inl rfl⟩
    simp only [State.here, hr]
  | nil =>
    rw [hr, List.append_nil] at hall
    obtain ⟨front, l, rfl⟩ := List.eq_nil_or_concat done |>.resolve_left (hall ▸ all.nonempty)
    rw [List.concat_eq_append] at hall hprevious
    rw [List.getLast?_concat] at hprevious
    refine ⟨l, [], ⟨front, hall.symm⟩, ?_, .inr ⟨rfl, rfl⟩⟩
    simp only [State.here, hr, hprevious]

theorem here_onTokens (h : s.Within all) : s.here.OnTokens all.list := by
  obtain ⟨l, v, hsuffix, hhere, -⟩ := h.here_eq
  exact hhere ▸ Lexemes.onTokens (hsuffix.subset List.mem_cons_self)

/-- The tokens that are left are tokens of the text. -/
theorem onTokens (h : s.Within all) {l : Lexeme} (hl : l ∈ s.rest) : l.span.OnTokens all.list :=
  Lexemes.onTokens (h.suffix.subset hl)

end State.Within

/-- Reading comes from the first state to the second. -/
structure Reaches (all : Lexemes) (s s' : State) : Prop extends s.Leads s' where
  before : s.Within all
  after : s'.Within all

namespace Reaches

variable {all : Lexemes} {s s' s'' s₁ : State}

theorem refl (h : s.Within all) : Reaches all s s := ⟨.refl s, h, h⟩

theorem trans (h : Reaches all s s') (h' : Reaches all s' s'') : Reaches all s s'' :=
  ⟨h.toLeads.trans h'.toLeads, h.before, h'.after⟩

theorem here_le (h : Reaches all s s') : s.here.start ≤ s'.here.start ∧ s.here.stop ≤ s'.here.stop := by
  obtain ⟨l, v, hsuffix, hhere, hrest⟩ := h.before.here_eq
  obtain ⟨l', v', hsuffix', hhere', hrest'⟩ := h.after.here_eq
  rw [hhere, hhere']
  refine Lexemes.le_of_suffix hsuffix hsuffix' ?_
  have hle := h.rest.length_le
  rcases hrest' with hrest' | ⟨-, rfl⟩
  · rcases hrest with hrest | ⟨hrest, -⟩
    · rw [hrest, hrest'] at hle
      exact Nat.le_of_succ_le_succ hle
    · rw [hrest, hrest'] at hle
      exact absurd hle (Nat.not_succ_le_zero _)
  · exact Nat.zero_le _

/-- What a node takes as its place when it is complete. -/
theorem join (h : Reaches all s s') : s.here.join s'.here = s.upTo s' := by
  rw [Span.join, Nat.min_eq_left h.here_le.1, Nat.max_eq_right h.here_le.2, State.upTo]

theorem onTokens (h : Reaches all s s') : (s.upTo s').OnTokens all.list :=
  ⟨h.before.here_onTokens.start, h.after.here_onTokens.stop,
    Nat.lt_of_lt_of_le h.before.here_onTokens.lt h.here_le.2⟩

/-- More is covered by what is begun earlier. -/
theorem covers_after (h : Reaches all s s₁) (s' : State) : (s.upTo s').Covers (s₁.upTo s') :=
  ⟨h.here_le.1, Nat.le_refl _⟩

/-- More is covered by what is completed later. -/
theorem covers_before (h : Reaches all s' s'') (s : State) : (s.upTo s'').Covers (s.upTo s') :=
  ⟨Nat.le_refl _, h.here_le.2⟩

end Reaches

/-! ## The triple -/

/-- From `s` the parser goes on within the tokens, and its answer is as required. -/
def Points (all : Lexemes) (s : State) (p : Parser α) (answer : α → State → Prop) : Prop :=
  s.Within all → Reaches all s (p s).2 ∧ answer (p s).1 (p s).2

/-- It goes on within the tokens wherever it begins. -/
def Keeps (all : Lexemes) (p : Parser α) : Prop := ∀ s, Points all s p fun _ _ => True

namespace Points

variable {all : Lexemes} {s : State} {p : Parser α} {f : α → Parser β} {P P' : α → State → Prop}
  {Q : β → State → Prop}

theorem pure {a : α} (h : s.Within all → P a s) : Points all s (Pure.pure a) P := fun hs =>
  ⟨.refl hs, h hs⟩

/-- What is answered has to be as required, if anything is. -/
theorem pure_some {a : α} (h : P a s) : Points all s (Pure.pure (some a)) fun r s' => ∀ x ∈ r, P x s' :=
  pure fun _ _ hx => Option.mem_some_iff.mp hx ▸ h

theorem pure_none : Points all s (Pure.pure none) fun (r : Option α) s' => ∀ x ∈ r, P x s' :=
  pure fun _ _ hx => absurd hx (Option.not_mem_none _)

theorem bind (hp : Points all s p P) (hf : ∀ a s', Reaches all s s' → P a s' → Points all s' (f a) Q) :
    Points all s (p >>= f) Q := by
  intro hs
  obtain ⟨hreaches, hanswer⟩ := hp hs
  obtain ⟨hreaches', hanswer'⟩ := hf _ _ hreaches hanswer hreaches.after
  exact ⟨hreaches.trans hreaches', hanswer'⟩

theorem get {f : State → Parser β} (h : Points all s (f s) Q) : Points all s (MonadState.get >>= f) Q := h

theorem here {f : Span → Parser β} (h : Points all s (f s.here) Q) : Points all s (Grammar.here >>= f) Q := h

/-- The state where it begins is known to be one on the way. -/
theorem within (h : s.Within all → Points all s p P) : Points all s p P := fun hs => h hs hs

theorem mono (hp : Points all s p P) (h : ∀ a s', Reaches all s s' → P a s' → P' a s') : Points all s p P' :=
  fun hs => ⟨(hp hs).1, h _ _ (hp hs).1 (hp hs).2⟩

/-- A step that only leads on. -/
theorem step (hp : Keeps all p) (hf : ∀ a s', Reaches all s s' → Points all s' (f a) Q) :
    Points all s (p >>= f) Q := (hp s).bind fun a s' h _ => hf a s' h

/-- The rounds of a loop keep up a condition on what they pass on. -/
theorem iterate {I : α → Prop} {round : α → Parser (Turn α)}
    (h : ∀ a s, I a → Points all s (round a) fun turn _ => ∀ b, turn = .again b → I b) {a : α} (ha : I a) :
    Points all s (iterate round a) fun _ _ => True := by
  intro hs
  refine ⟨?_, trivial⟩
  fun_induction Grammar.iterate round a s with
  | case1 a s b s' he =>
    have hround := (h a s ha hs).1
    rwa [he] at hround
  | case2 a s b s' he hlt ih =>
    obtain ⟨hround, hturn⟩ := h a s ha hs
    rw [he] at hround hturn
    exact hround.trans (ih (hturn b rfl) hround.after)
  | case3 a s b s' he hge =>
    have hround := (h a s ha hs).1
    rwa [he] at hround

/-- What the rounds have found is joined. -/
theorem collect {G : State → List α → State → Prop} {round : Parser (List α × Bool)}
    (happend : ∀ {s s' s'' found more}, Reaches all s s' → Reaches all s' s'' → G s found s' →
      G s' more s'' → G s (found ++ more) s'')
    (h : ∀ s, Points all s round fun r s' => G s r.1 s') (s : State) : Points all s (collect round) (G s) := by
  intro hs
  fun_induction Grammar.collect round s with
  | case1 s found s' he =>
    have hround := h s hs
    rwa [he] at hround
  | case2 s found s' he hlt more s'' hmore ih =>
    obtain ⟨hround, hfound⟩ := h s hs
    rw [he] at hround hfound
    obtain ⟨hrounds, hrest⟩ := ih hround.after
    rw [hmore] at hrounds hrest
    exact ⟨hround.trans hrounds, happend hround hrounds hfound hrest⟩
  | case3 s found s' he hge =>
    have hround := h s hs
    rwa [he] at hround

end Points

namespace Keeps

variable {all : Lexemes} {p q : Parser α} {f : α → Parser β}

theorem of_points {P : State → α → State → Prop} (h : ∀ s, Points all s p (P s)) : Keeps all p :=
  fun s => (h s).mono fun _ _ _ _ => trivial

theorem pure (a : α) : Keeps all (Pure.pure a : Parser α) := fun _ => .pure fun _ => trivial

theorem bind (hp : Keeps all p) (hf : ∀ a, Keeps all (f a)) : Keeps all (p >>= f) := fun s =>
  (hp s).bind fun a s' _ _ => hf a s'

/-- What follows may rest on what is known of every answer. -/
theorem through {I : α → Prop} (hp : ∀ s, Points all s p fun a _ => I a) (hf : ∀ a, I a → Keeps all (f a)) :
    Keeps all (p >>= f) := fun s => (hp s).bind fun a s' _ ha => hf a ha s'

theorem get {f : State → Parser β} (h : ∀ s, s.Within all → Keeps all (f s)) :
    Keeps all (MonadState.get >>= f) := fun s => .get (.within fun hs => h s hs s)

/-- The second parser only answers. -/
theorem map {f : α → β} (hp : Keeps all p) : Keeps all (do return f (← p)) := hp.bind fun _ => pure _

theorem ite {c : Prop} [Decidable c] (hp : Keeps all p) (hq : Keeps all q) :
    Keeps all (if c then p else q) := by
  split
  · exact hp
  · exact hq

theorem iterate {round : α → Parser (Turn α)} (h : ∀ a, Keeps all (round a)) (a : α) :
    Keeps all (iterate round a) := fun _ =>
  Points.iterate (I := fun _ => True) (fun a s _ => (h a s).mono fun _ _ _ _ _ _ => trivial) trivial

theorem skipWhile {round : Parser Bool} (h : Keeps all round) : Keeps all (skipWhile round) :=
  iterate (fun _ => h.bind fun _ => pure _) ()

theorem collect {round : Parser (List α × Bool)} (h : Keeps all round) : Keeps all (collect round) :=
  Points.collect (G := fun _ _ _ => True) (fun _ _ _ _ => trivial) h

end Keeps

/-! ## Single tokens -/

section

variable {all : Lexemes} {s : State}

theorem State.Within.advance (h : s.Within all) : s.advance.Within all := by
  obtain ⟨done, hall, hprevious⟩ := h.tokens
  rw [State.advance]
  cases hr : s.rest with
  | nil => exact ⟨⟨done, hall, hprevious⟩, h.reports⟩
  | cons l rest =>
    refine ⟨⟨done ++ [l], ?_, List.getLast?_concat.symm⟩, h.reports⟩
    rw [hall, hr, List.append_assoc]
    rfl

theorem keeps_advance : Keeps all advance := fun s hs =>
  ⟨⟨moves_advance s, hs, hs.advance⟩, trivial⟩

theorem points_here : Points all s here fun span _ => span.OnTokens all.list := fun hs =>
  ⟨.refl hs, hs.here_onTokens⟩

theorem keeps_fresh : Keeps all fresh := fun s hs =>
  ⟨⟨moves_fresh s, hs, hs.tokens, hs.reports⟩, trivial⟩

/-- A report has to point to tokens, and to nothing else. -/
theorem keeps_report {problem : Problem} {span : Span} (hspan : span.OnTokens all.list)
    (hnotes : problem.notes = []) : Keeps all (report problem span) := fun s hs =>
  ⟨⟨moves_report problem span s, hs, hs.tokens, List.forall_mem_cons.mpr ⟨⟨hspan, hnotes⟩, hs.reports⟩⟩, trivial⟩

theorem keeps_isAt (t : Token) : Keeps all (isAt t) := fun _ hs => ⟨.refl hs, trivial⟩

theorem points_take (t : Token) : Points all s (take? t) fun r _ => ∀ span ∈ r, span.OnTokens all.list := by
  refine .step (keeps_isAt _) fun b s₁ h₁ => ?_
  split
  · refine .bind points_here fun span s₂ h₂ hspan => ?_
    exact .step keeps_advance fun _ _ _ => .pure_some hspan
  · exact .pure_none

theorem keeps_take (t : Token) : Keeps all (take? t) := .of_points fun _ => points_take t

theorem keeps_accept (t : Token) : Keeps all (accept t) := (keeps_take t).map

theorem points_identifier (after : Anchor) :
    Points all s (identifier after) fun r _ => r.2.OnTokens all.list := by
  refine .bind points_here fun span s₁ h₁ hspan => .get ?_
  split
  · exact .step keeps_advance fun _ _ _ => .pure fun _ => hspan
  · exact .step (keeps_report hspan rfl) fun _ _ _ => .pure fun _ => hspan

theorem keeps_identifier (after : Anchor) : Keeps all (identifier after) :=
  .of_points fun _ => points_identifier after

theorem keeps_reportUnclosed (bracket : Bracket) {opener : Span} (h : opener.OnTokens all.list) :
    Keeps all (reportUnclosed bracket opener) := by
  cases bracket <;> exact keeps_report h rfl

/-! ## Skipping -/

/-- The brackets that are open were read. -/
theorem points_groupRound {openers : Openers} (h : ∀ o ∈ openers, o.2.OnTokens all.list) :
    Points all s (groupRound openers) fun turn _ => ∀ next, turn = .again next →
      ∀ o ∈ next, o.2.OnTokens all.list := by
  have hturn {openers : Openers} (h : ∀ o ∈ openers, o.2.OnTokens all.list) (next : Openers)
      (he : openers.turn = .again next) : ∀ o ∈ next, o.2.OnTokens all.list := by
    rw [Openers.turn] at he
    split at he
    · cases he
    · obtain rfl := Turn.again.inj he
      exact h
  refine .within fun hs => .get ?_
  split
  · cases openers with
    | nil => exact .pure fun _ => nofun
    | cons innermost outer =>
      have hopener := h innermost List.mem_cons_self
      exact .step (keeps_reportUnclosed _ hopener) fun _ _ _ => .pure fun _ => nofun
  next bracket span rest hr =>
    refine .step keeps_advance fun _ _ _ => .pure fun _ next he => ?_
    obtain rfl := Turn.again.inj he
    exact List.forall_mem_cons.mpr ⟨hs.onTokens (hr ▸ List.mem_cons_self), h⟩
  next bracket span rest hr =>
    refine .step keeps_advance fun _ _ _ => .pure fun _ => hturn ?_
    cases openers with
    | nil => exact h
    | cons innermost outer =>
      rw [Openers.close]
      split
      · exact (List.forall_mem_cons.mp h).2
      · exact h
  · exact .step keeps_advance fun _ _ _ => .pure fun _ => hturn h

theorem keeps_skipGroup : Keeps all skipGroup := by
  refine .bind (fun s => ?_) fun _ => .pure _
  exact .iterate (I := fun openers => ∀ o ∈ openers, o.2.OnTokens all.list)
    (fun _ _ h => points_groupRound h) nofun

theorem keeps_dottedName (after : Anchor) : Keeps all (dottedName after) := by
  refine (keeps_identifier after).bind fun _ => .bind (.collect ?_) fun _ => .pure _
  exact (keeps_accept _).bind fun _ => .ite ((keeps_identifier _).bind fun _ => .pure _) (.pure _)

theorem keeps_skipAnnotation : Keeps all skipAnnotation := by
  refine (keeps_accept _).bind fun _ => .ite ?_ (.pure _)
  refine (keeps_dottedName _).bind fun _ => ?_
  exact (keeps_isAt _).bind fun _ => .ite keeps_skipGroup (.pure _)

theorem keeps_angleRound {opener : Span} (h : opener.OnTokens all.list) (depth : Nat) :
    Keeps all (angleRound opener depth) := by
  refine .get fun s _ => ?_
  split
  · exact keeps_advance.bind fun _ => .pure _
  · exact keeps_advance.bind fun _ => .pure _
  · exact keeps_skipAnnotation.bind fun _ => .pure _
  iterate 6 exact (keeps_report h rfl).bind fun _ => .pure _
  · exact keeps_advance.bind fun _ => .pure _

theorem keeps_skipAngles : Keeps all skipAngles := by
  refine .through (fun _ => points_take _) fun opener hopener => ?_
  cases opener with
  | none => exact .pure _
  | some opener => exact .bind (.iterate (keeps_angleRound (hopener opener rfl)) 1) fun _ => .pure _

theorem keeps_skipAnyAngles : Keeps all skipAnyAngles :=
  (keeps_isAt _).bind fun _ => .ite keeps_skipAngles (.pure _)

theorem keeps_modifiers : Keeps all modifiers := by
  refine .iterate (fun isStatic => .get fun s _ => ?_) false
  split
  · exact keeps_advance.bind fun _ => .pure _
  · exact keeps_advance.bind fun _ => .pure _
  · exact keeps_advance.bind fun _ => keeps_advance.bind fun _ => keeps_advance.bind fun _ => .pure _
  · exact keeps_skipAnnotation.bind fun _ => .pure _
  · exact .pure _

theorem keeps_dimensions : Keeps all dimensions := by
  refine .iterate (fun count => .get fun s _ => ?_) 0
  split
  · exact keeps_advance.bind fun _ => keeps_advance.bind fun _ => .pure _
  · exact .pure _

theorem keeps_type : Keeps all type? := by
  have hannotation : Keeps all annotationRound :=
    (keeps_isAt _).bind fun _ => .ite (.bind keeps_skipAnnotation fun _ => .pure _) (.pure _)
  have hname : Keeps all typeNameRound := by
    refine keeps_skipAnyAngles.bind fun _ => .get fun s _ => ?_
    split
    · exact keeps_advance.bind fun _ => keeps_advance.bind fun _ => .pure _
    · exact .pure _
  refine .bind (.skipWhile hannotation) fun _ => .get fun s _ => ?_
  split
  · refine keeps_advance.bind fun _ => .bind (.collect hname) fun names => ?_
    exact keeps_dimensions.bind fun count => .pure _
  · refine .through (fun _ => points_here) fun span hspan => ?_
    exact (keeps_report hspan rfl).bind fun _ => .pure _

theorem keeps_skipParameters : Keeps all skipParameters := by
  refine .skipWhile (.get fun s _ => ?_)
  split
  · exact keeps_advance.bind fun _ => .pure _
  iterate 4 exact .pure _
  · exact keeps_skipGroup.bind fun _ => .pure _
  · exact keeps_advance.bind fun _ => .pure _

theorem keeps_parameter : Keeps all parameter? := by
  refine keeps_modifiers.bind fun _ => keeps_type.bind fun r => ?_
  cases r with
  | none => exact .pure _
  | some text =>
    refine (keeps_accept _).bind fun variadic => (keeps_identifier _).bind fun name => ?_
    exact keeps_dimensions.bind fun count => .pure _

theorem keeps_parameters : Keeps all parameters := by
  refine .through (fun _ => points_take _) fun opener hopener => ?_
  cases opener with
  | none => exact .pure _
  | some opener =>
    have hround : Keeps all (parameterRound opener) := by
      refine keeps_parameter.bind fun found => (keeps_accept _).bind fun b => .ite (.pure _) ?_
      refine (keeps_accept _).bind fun b => .ite (.pure _) ?_
      refine (keeps_report (hopener opener rfl) rfl).bind fun _ => ?_
      exact keeps_skipParameters.bind fun _ => .pure _
    exact (keeps_accept _).bind fun b => .ite (.pure _) (.collect hround)

theorem keeps_skipHeader : Keeps all skipHeader := by
  refine .skipWhile (.get fun s hs => ?_)
  split
  · exact .pure _
  · exact .pure _
  next span rest hr =>
    have hspan := hs.onTokens (hr ▸ List.mem_cons_self)
    exact (keeps_report hspan rfl).bind fun _ => .pure _
  next span rest hr =>
    have hspan := hs.onTokens (hr ▸ List.mem_cons_self)
    exact (keeps_report hspan rfl).bind fun _ => .pure _
  · exact keeps_skipAngles.bind fun _ => .pure _
  · exact keeps_skipGroup.bind fun _ => .pure _
  · exact keeps_advance.bind fun _ => .pure _

theorem keeps_components (kind : TypeKind) : Keeps all (components kind) :=
  .ite (keeps_skipAnyAngles.bind fun _ => keeps_parameters.map) (.pure _)

theorem keeps_declaredName (written : String) {span : Span} (h : span.OnTokens all.list) :
    Keeps all (declaredName written span) :=
  .ite ((keeps_report h rfl).bind fun _ => .pure _) (.pure _)

theorem keeps_skipLabel : Keeps all skipLabel := by
  refine keeps_advance.bind fun _ => .skipWhile (.get fun s _ => ?_)
  split
  · exact keeps_advance.bind fun _ => .pure _
  · exact keeps_advance.bind fun _ => .pure _
  · exact keeps_skipGroup.bind fun _ => .pure _
  iterate 4 exact .pure _
  · exact keeps_advance.bind fun _ => .pure _

theorem keeps_arrowRound : Keeps all arrowRound := by
  refine .get fun s _ => ?_
  split
  · exact .pure _
  · exact keeps_advance.bind fun _ => .pure _
  · exact keeps_advance.bind fun _ => .pure _

theorem keeps_skipThrows : Keeps all skipThrows := by
  refine (keeps_accept _).bind fun _ => .ite (.skipWhile (.get fun s _ => ?_)) (.pure _)
  split
  iterate 3 exact .pure _
  · exact keeps_advance.bind fun _ => .pure _

theorem keeps_squareRound : Keeps all squareRound :=
  (keeps_accept _).bind fun _ => .ite ((keeps_accept _).bind fun _ => .pure _) (.pure _)

theorem keeps_package : Keeps all package := by
  refine keeps_modifiers.bind fun _ => (keeps_accept _).bind fun _ => .ite ?_ (.pure _)
  exact (keeps_dottedName _).bind fun _ => (keeps_accept _).bind fun _ => .pure _

theorem keeps_skipImports : Keeps all skipImports := by
  refine .skipWhile ((keeps_accept _).bind fun _ => .ite (.bind (.skipWhile ?_) fun _ => .pure _) (.pure _))
  refine .get fun s _ => .ite (.pure _) ((keeps_accept _).bind fun _ => ?_)
  exact .ite (.pure _) (keeps_advance.bind fun _ => .pure _)

end

end Nomenclator.Grammar
