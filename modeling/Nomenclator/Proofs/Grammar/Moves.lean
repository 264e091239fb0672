/-
Reading only goes forward: no parser gives a token back, none takes a
report back, and none takes back a number that it has handed out.

That holds of every parser, from every state, whatever comes next. So a
report that is missing at the end was made nowhere on the way, and what
holds of all tokens of the text holds of the tokens that any part of the
grammar gets to see.
-/
import Nomenclator.Grammar.Unit
import Nomenclator.Proofs.Grammar.Loops

namespace Nomenclator.Grammar

variable {α β : Type}

theorem State.here_of_rest {s : State} {l : Lexeme} {rest : List Lexeme} (hr : s.rest = l :: rest) :
    s.here = l.span := by
  simp only [State.here, hr]

/-- Reading can come from the first state to the second. -/
structure State.Leads (s s' : State) : Prop where
  rest : s'.rest <:+ s.rest
  reported : s.reported <:+ s'.reported
  nextId : s.nextId ≤ s'.nextId

namespace State.Leads

variable {s s' s'' : State}

theorem refl (s : State) : s.Leads s := ⟨List.suffix_refl _, List.suffix_refl _, Nat.le_refl _⟩

theorem trans (h : s.Leads s') (h' : s'.Leads s'') : s.Leads s'' :=
  ⟨h'.rest.trans h.rest, h.reported.trans h'.reported, Nat.le_trans h.nextId h'.nextId⟩

theorem length_le (h : s.Leads s') : s'.rest.length ≤ s.rest.length := h.rest.length_le

end State.Leads

/-- The parser goes forward wherever it begins. -/
def Moves (p : Parser α) : Prop := ∀ s : State, s.Leads (p s).2

namespace Moves

variable {p q : Parser α} {f : α → Parser β}

theorem pure (a : α) : Moves (Pure.pure a) := State.Leads.refl

theorem bind (hp : Moves p) (hf : ∀ a, Moves (f a)) : Moves (p >>= f) := fun s =>
  (hp s).trans (hf _ _)

theorem get {f : State → Parser β} (h : ∀ s, Moves (f s)) : Moves (MonadState.get >>= f) := fun s => h s s

/-- The second parser only answers. -/
theorem map {f : α → β} (hp : Moves p) : Moves (do return f (← p)) := hp.bind fun _ => pure _

theorem ite {c : Prop} [Decidable c] (hp : Moves p) (hq : Moves q) : Moves (if c then p else q) := by
  split
  · exact hp
  · exact hq

theorem iterate {round : α → Parser (Turn α)} (h : ∀ a, Moves (round a)) (a : α) :
    Moves (iterate round a) := by
  intro s
  fun_induction Grammar.iterate round a s with
  | case1 a s b s' he => exact (congrArg Prod.snd he : (round a s).2 = s') ▸ h a s
  | case2 a s b s' he hlt ih => exact ((congrArg Prod.snd he : (round a s).2 = s') ▸ h a s).trans ih
  | case3 a s b s' he hge => exact (congrArg Prod.snd he : (round a s).2 = s') ▸ h a s

theorem skipWhile {round : Parser Bool} (h : Moves round) : Moves (skipWhile round) :=
  iterate (fun _ => h.bind fun _ => pure _) ()

theorem collect {round : Parser (List α × Bool)} (h : Moves round) : Moves (collect round) := by
  intro s
  fun_induction Grammar.collect round s with
  | case1 s found s' he => exact (congrArg Prod.snd he : (round s).2 = s') ▸ h s
  | case2 s found s' he hlt more s'' hmore ih =>
    rw [hmore] at ih
    exact ((congrArg Prod.snd he : (round s).2 = s') ▸ h s).trans ih
  | case3 s found s' he hge => exact (congrArg Prod.snd he : (round s).2 = s') ▸ h s

end Moves

/-! ## Single tokens -/

theorem State.advance_eq (s : State) :
    s.advance.rest = s.rest.tail ∧ s.advance.reported = s.reported ∧ s.advance.nextId = s.nextId := by
  rw [State.advance]
  cases hr : s.rest with
  | nil => exact ⟨hr, rfl, rfl⟩
  | cons => exact ⟨rfl, rfl, rfl⟩

theorem moves_advance : Moves advance := by
  intro s
  obtain ⟨hrest, hreported, hnextId⟩ := s.advance_eq
  have htail : s.advance.rest <:+ s.rest := hrest ▸ List.tail_suffix _
  have hsame : s.reported <:+ s.advance.reported := hreported ▸ List.suffix_refl _
  exact ⟨htail, hsame, Nat.le_of_eq hnextId.symm⟩

theorem moves_here : Moves here := State.Leads.refl

theorem moves_fresh : Moves fresh := fun _ =>
  ⟨List.suffix_refl _, List.suffix_refl _, Nat.le_succ _⟩

theorem moves_report (problem : Problem) (span : Span) : Moves (report problem span) := fun _ =>
  ⟨List.suffix_refl _, List.suffix_cons _ _, Nat.le_refl _⟩

theorem moves_isAt (t : Token) : Moves (isAt t) := State.Leads.refl

theorem moves_take (t : Token) : Moves (take? t) :=
  (moves_isAt t).bind fun _ =>
    .ite (moves_here.bind fun _ => moves_advance.bind fun _ => .pure _) (.pure _)

theorem moves_accept (t : Token) : Moves (accept t) := (moves_take t).map

theorem moves_identifier (after : Anchor) : Moves (identifier after) := by
  refine moves_here.bind fun span => .get fun s => ?_
  split
  · exact moves_advance.bind fun _ => .pure _
  · exact (moves_report _ _).bind fun _ => .pure _

theorem moves_reportUnclosed (bracket : Bracket) (opener : Span) :
    Moves (reportUnclosed bracket opener) := by
  cases bracket <;> exact moves_report _ _

/-! ## Skipping -/

theorem moves_groupRound (openers : Openers) : Moves (groupRound openers) := by
  refine .get fun s => ?_
  split
  · split
    · exact (moves_reportUnclosed _ _).bind fun _ => .pure _
    · exact .pure _
  · exact moves_advance.bind fun _ => .pure _
  · exact moves_advance.bind fun _ => .pure _
  · exact moves_advance.bind fun _ => .pure _

theorem moves_skipGroup : Moves skipGroup := (Moves.iterate moves_groupRound []).bind fun _ => .pure _

theorem moves_dottedRound : Moves dottedRound :=
  (moves_accept _).bind fun _ => .ite ((moves_identifier _).bind fun _ => .pure _) (.pure _)

theorem moves_dottedName (after : Anchor) : Moves (dottedName after) :=
  (moves_identifier after).bind fun _ => moves_dottedRound.collect.bind fun _ => .pure _

theorem moves_skipAnnotation : Moves skipAnnotation := by
  refine (moves_accept _).bind fun _ => .ite ?_ (.pure _)
  refine (moves_dottedName _).bind fun _ => ?_
  exact (moves_isAt _).bind fun _ => .ite moves_skipGroup (.pure _)

theorem moves_angleRound (opener : Span) (depth : Nat) : Moves (angleRound opener depth) := by
  refine .get fun s => ?_
  split
  · exact moves_advance.bind fun _ => .pure _
  · exact moves_advance.bind fun _ => .pure _
  · exact moves_skipAnnotation.bind fun _ => .pure _
  iterate 6 exact (moves_report _ _).bind fun _ => .pure _
  · exact moves_advance.bind fun _ => .pure _

theorem moves_skipAngles : Moves skipAngles := by
  refine (moves_take _).bind fun opener => ?_
  cases opener with
  | none => exact .pure _
  | some opener => exact (Moves.iterate (moves_angleRound opener) 1).bind fun _ => .pure _

theorem moves_skipAnyAngles : Moves skipAnyAngles :=
  (moves_isAt _).bind fun _ => .ite moves_skipAngles (.pure _)

theorem moves_modifierRound (isStatic : Bool) : Moves (modifierRound isStatic) := by
  refine .get fun s => ?_
  split
  · exact moves_advance.bind fun _ => .pure _
  · exact moves_advance.bind fun _ => .pure _
  · exact moves_advance.bind fun _ => moves_advance.bind fun _ => moves_advance.bind fun _ => .pure _
  · exact moves_skipAnnotation.bind fun _ => .pure _
  · exact .pure _

theorem moves_modifiers : Moves modifiers := .iterate moves_modifierRound false

theorem moves_dimensionRound (count : Nat) : Moves (dimensionRound count) := by
  refine .get fun s => ?_
  split
  · exact moves_advance.bind fun _ => moves_advance.bind fun _ => .pure _
  · exact .pure _

theorem moves_dimensions : Moves dimensions := .iterate moves_dimensionRound 0

theorem moves_annotationRound : Moves annotationRound :=
  (moves_isAt _).bind fun _ => .ite (.bind moves_skipAnnotation fun _ => .pure _) (.pure _)

theorem moves_skipParameters : Moves skipParameters := by
  refine .skipWhile (.get fun s => ?_)
  split
  · exact moves_advance.bind fun _ => .pure _
  iterate 4 exact .pure _
  · exact moves_skipGroup.bind fun _ => .pure _
  · exact moves_advance.bind fun _ => .pure _

theorem moves_skipHeader : Moves skipHeader := by
  refine .skipWhile (.get fun s => ?_)
  split
  · exact .pure _
  · exact .pure _
  · exact (moves_report _ _).bind fun _ => .pure _
  · exact (moves_report _ _).bind fun _ => .pure _
  · exact moves_skipAngles.bind fun _ => .pure _
  · exact moves_skipGroup.bind fun _ => .pure _
  · exact moves_advance.bind fun _ => .pure _

theorem moves_labelRound : Moves labelRound := by
  refine .get fun s => ?_
  split
  · exact moves_advance.bind fun _ => .pure _
  · exact moves_advance.bind fun _ => .pure _
  · exact moves_skipGroup.bind fun _ => .pure _
  iterate 4 exact .pure _
  · exact moves_advance.bind fun _ => .pure _

theorem moves_skipLabel : Moves skipLabel := moves_advance.bind fun _ => .skipWhile moves_labelRound

theorem moves_arrowRound : Moves arrowRound := by
  refine .get fun s => ?_
  split
  · exact .pure _
  · exact moves_advance.bind fun _ => .pure _
  · exact moves_advance.bind fun _ => .pure _

theorem arrowRound_cons {s : State} {l : Lexeme} {rest : List Lexeme} (hs : s.rest = l :: rest) :
    arrowRound s = (decide (l.token ≠ .arrow), s.advance) := by
  obtain ⟨previous, _, nextId, reported⟩ := s
  obtain rfl := hs
  obtain ⟨t, span⟩ := l
  cases t <;> rfl

/-- Up to an arrow at least one token is read, if there is any. -/
theorem skipWhile_arrowRound_suffix (s : State) : (skipWhile arrowRound s).2.rest <:+ s.rest.tail := by
  have hmoves := Moves.skipWhile moves_arrowRound
  have htail := s.advance_eq.1
  cases hr : s.rest with
  | nil =>
    have h := (hmoves s).rest
    rwa [hr] at h
  | cons l after =>
    have hround := arrowRound_cons hr
    rw [hr] at htail
    by_cases harrow : l.token = .arrow
    · have hstop : arrowRound s = (false, s.advance) := by
        rw [hround, harrow]
        rfl
      rw [skipWhile_of_false hstop]
      exact htail ▸ List.suffix_refl _
    · have hlt : s.advance.rest.length < s.rest.length := by
        rw [htail, hr]
        exact Nat.lt_succ_self _
      rw [skipWhile_of_true (by rw [hround]; simp [harrow]) hlt, ← htail]
      exact (hmoves s.advance).rest

theorem moves_throwsRound : Moves throwsRound := by
  refine .get fun s => ?_
  split
  iterate 3 exact .pure _
  · exact moves_advance.bind fun _ => .pure _

theorem moves_skipThrows : Moves skipThrows :=
  (moves_accept _).bind fun _ => .ite (.skipWhile moves_throwsRound) (.pure _)

theorem moves_squareRound : Moves squareRound :=
  (moves_accept _).bind fun _ => .ite ((moves_accept _).bind fun _ => .pure _) (.pure _)

theorem moves_importRound : Moves importRound :=
  .get fun _ => .ite (.pure _) ((moves_accept _).bind fun _ =>
    .ite (.pure _) (moves_advance.bind fun _ => .pure _))

theorem moves_skipImports : Moves skipImports :=
  .skipWhile ((moves_accept _).bind fun _ =>
    .ite (Moves.bind (.skipWhile moves_importRound) fun _ => .pure _) (.pure _))

end Nomenclator.Grammar
