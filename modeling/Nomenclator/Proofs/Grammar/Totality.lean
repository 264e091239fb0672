/-
The grammar on all token lists, with nothing that bounds it.

`rules` counts how often class bodies and code contain each other, and a
loop stops once a round has read nothing. Neither ever decides anything: a
class body is asked for only behind a token that was read, and a round that
asks for another one has read a token. So the grammar without a bound is the
only solution of its own equation, and the rules of any depth that the text
could need answer what it answers.
-/
import Nomenclator.Proofs.Grammar.AlongsideRules

namespace Nomenclator

namespace Grammar

variable {α β : Type} {f : Relocation} {n : Nat} {s : State}

/-! ## Rules without a bound -/

theorem Rules.alongside_of_eq (f : Relocation) {rules rules' : Rules}
    (h : rules = ⟨Grammar.classBody rules, Grammar.code rules⟩)
    (h' : rules' = ⟨Grammar.classBody rules', Grammar.code rules'⟩) : ∀ n, rules.Alongside f n rules'
  | 0 => .zero
  | n + 1 => by
    have hsucc := (Rules.alongside_of_eq f h h' n).succ
    rwa [← h, ← h'] at hsucc

theorem State.relocate_identity (s : State) : s.relocate .identity = s := by
  obtain ⟨previous, rest, nextId, reported⟩ := s
  have hlexeme : Lexeme.relocate .identity = id := rfl
  have hdiagnostic : Diagnostic.relocate .identity = id := funext Diagnostic.relocate_identity
  rw [State.relocate, hlexeme, hdiagnostic, Option.map_id, List.map_id, List.map_id]
  rfl

/-- Parsers that go alongside in place come to the same. -/
theorem Alongside.eq {p p' : Parser α} {g : α → α} (h : Maps .identity n s g p p') (hg : ∀ a, g a = a)
    (hn : s.rest.length < n) : p' s = p s := by
  obtain ⟨-, hanswer, hstate⟩ := h hn
  rw [s.relocate_identity] at hanswer hstate
  rw [State.relocate_identity] at hstate
  exact Prod.ext (hanswer.trans (hg _)) hstate

theorem Alongside.leads {p p' : Parser α} {P : α → α → State → Prop} (h : Alongside f n s p p' P)
    (hn : s.rest.length < n) : s.Leads (p s).2 := (h hn).leads

section

variable {rules rules' : Rules}

theorem Rules.Alongside.classBody_eq (h : rules.Alongside .identity n rules') (heading : Heading)
    (hn : s.rest.length < n) : rules'.classBody heading s = rules.classBody heading s :=
  (h.classBody heading s).eq Member.relocateAll_identity hn

theorem Rules.Alongside.code_eq (h : rules.Alongside .identity n rules') (stop : CodeEnd)
    (hn : s.rest.length < n) : rules'.code stop s = rules.code stop s := by
  have heq := (h.code stop s).eq CodeItem.relocateAll_identity hn
  cases stop <;> exact heq

end

/-- Rules deep enough for the tokens that are left. -/
def grammar : Rules where
  classBody heading s := (rules (s.rest.length + 1)).classBody heading s
  code stop s := (rules (s.rest.length + 1)).code stop s

theorem rules_alongside_grammar (n k : Nat) : (rules (n + k)).Alongside .identity n grammar := by
  have hdeep {s : State} (hn : s.rest.length < n) :
      (rules (n + k)).Alongside .identity (s.rest.length + 1) (rules ((s.relocate .identity).rest.length + 1)) := by
    obtain ⟨j, hj⟩ : ∃ j, n + k = s.rest.length + 1 + j := ⟨n + k - (s.rest.length + 1), by omega⟩
    rw [hj, State.length_relocate]
    exact rules_alongside .identity j 0 _
  exact ⟨fun heading s hn => (hdeep hn).classBody heading s (Nat.lt_succ_self _),
    fun stop s hn => (hdeep hn).code stop s (Nat.lt_succ_self _)⟩

theorem grammar_eq : grammar = ⟨classBody grammar, code grammar⟩ := by
  have hsucc (s : State) := (rules_alongside_grammar s.rest.length 0).succ
  refine congrArg₂ Rules.mk (funext₂ fun heading s => Eq.symm ?_) (funext₂ fun stop s => Eq.symm ?_)
  · exact (hsucc s).classBody_eq heading (Nat.lt_succ_self _)
  · exact (hsucc s).code_eq stop (Nat.lt_succ_self _)

/-- Class bodies and code are determined by what they say about each other. -/
theorem rules_eq_iff (rules : Rules) : rules = ⟨classBody rules, code rules⟩ ↔ rules = grammar := by
  refine ⟨fun h => Eq.symm ?_, fun h => h ▸ grammar_eq⟩
  have halongside := Rules.alongside_of_eq .identity h grammar_eq
  refine congrArg₂ Rules.mk (funext₂ fun heading s => ?_) (funext₂ fun stop s => ?_)
  · exact (halongside _).classBody_eq heading (Nat.lt_succ_self _)
  · exact (halongside _).code_eq stop (Nat.lt_succ_self _)

/-! ## Reading a token, if there is one -/

theorem rest_of_head? {t : Token} (h : s.rest.head?.any (·.token = t)) :
    ∃ span rest, s.rest = ⟨t, span⟩ :: rest := by
  cases hs : s.rest with
  | nil =>
    rw [hs] at h
    exact absurd h nofun
  | cons l rest =>
    rw [hs] at h
    obtain ⟨t', span⟩ := l
    obtain rfl : t' = t := of_decide_eq_true h
    exact ⟨span, rest, rfl⟩

theorem take?_none {t : Token} (h : (take? t s).1 = none) : (take? t s).2 = s := by
  rw [take?_apply] at h ⊢
  by_cases hat : s.rest.head?.any (·.token = t)
  · rw [if_pos hat] at h
    exact absurd h nofun
  · rw [if_neg hat]

/-- The parser goes forward from here, and does not stay where it is if there is a token. -/
structure Takes (s : State) (p : Parser α) : Prop where
  leads : s.Leads (p s).2
  length_le : (p s).2.rest.length ≤ s.rest.length - 1

namespace Takes

variable {p : Parser α} {k : α → Parser β} {t : Token} {span : Span} {rest : List Lexeme}

theorem of_nil (hs : s.rest = []) (hp : Moves p) : Takes s p := by
  have hle := (hp s).length_le
  rw [hs] at hle
  exact ⟨hp s, Nat.le_trans hle (Nat.zero_le _)⟩

/-- The first parser reads the token. -/
theorem bind (hp : Takes s p) (hk : ∀ a, Moves (k a)) : Takes s (p >>= k) :=
  ⟨hp.leads.trans (hk _ _), Nat.le_trans (hk _ _).length_le hp.length_le⟩

/-- A later parser reads the token, if the first one has not. -/
theorem after (hp : Moves p) (hk : ∀ a s', Takes s' (k a)) : Takes s (p >>= k) :=
  have h := hk (p s).1 (p s).2
  ⟨(hp s).trans h.leads, Nat.le_trans h.length_le (Nat.sub_le_sub_right (hp s).length_le 1)⟩

theorem get {k : State → Parser β} (h : Takes s (k s)) : Takes s (MonadState.get >>= k) := ⟨h.leads, h.length_le⟩

theorem advance : Takes s advance := by
  refine ⟨moves_advance s, ?_⟩
  rw [← List.length_tail, ← s.advance_eq.1]
  exact Nat.le_refl _

theorem read {k : Unit → Parser β} (hk : ∀ a, Moves (k a)) : Takes s (Grammar.advance >>= k) := advance.bind hk

theorem take (hs : s.rest = ⟨t, span⟩ :: rest) : Takes s (take? t) := by
  have hlt : (take? t s).2.rest.length < s.rest.length := take?_lt (by rw [take?_apply, hs]; simp)
  exact ⟨moves_take t s, Nat.le_sub_one_of_lt hlt⟩

theorem accept (hs : s.rest = ⟨t, span⟩ :: rest) : Takes s (accept t) := (take hs).bind fun _ => .pure _

theorem iterate {round : α → Parser (Turn α)} (hmoves : ∀ a, Moves (round a)) {a : α}
    (h : Takes s (round a)) : Takes s (iterate round a) := by
  refine ⟨Moves.iterate hmoves a s, ?_⟩
  have h := h.length_le
  rw [Grammar.iterate]
  split
  next b s' he =>
    rw [he] at h
    exact h
  next b s' he =>
    rw [he] at h
    split
    · exact Nat.le_trans (Moves.iterate hmoves b s').length_le h
    · exact h

theorem type {k : Option String → Parser β} (hnone : ∀ s, Takes s (k none))
    (hsome : ∀ text, Moves (k (some text))) : Takes s (type? >>= k) := by
  have hlt := ((alongside_type (f := .identity)) (Nat.lt_succ_self s.rest.length)).post.2
  have hfirst : (type? >>= k) s = k (type? s).1 (type? s).2 := rfl
  cases htype : (type? s).1 with
  | none =>
    rw [htype] at hfirst
    have h := hnone (type? s).2
    refine ⟨hfirst ▸ (moves_type s).trans h.leads, hfirst ▸ Nat.le_trans h.length_le ?_⟩
    exact Nat.sub_le_sub_right (moves_type s).length_le 1
  | some text =>
    rw [htype] at hfirst
    have h := hsome text (type? s).2
    refine ⟨hfirst ▸ (moves_type s).trans h, hfirst ▸ Nat.le_trans h.length_le ?_⟩
    exact Nat.le_sub_one_of_lt (hlt (htype ▸ nofun))

end Takes

theorem takes_groupRound (openers : Openers) (s : State) : Takes s (groupRound openers) := by
  by_cases hs : s.rest = []
  · exact .of_nil hs (moves_groupRound openers)
  refine .get ?_
  split
  next hnil => exact absurd hnil hs
  iterate 3 exact .read fun _ => .pure _

theorem takes_skipGroup (s : State) : Takes s skipGroup :=
  (Takes.iterate moves_groupRound (takes_groupRound [] s)).bind fun _ => .pure _

/-- From `@` on. -/
theorem takes_annotated {span : Span} {rest : List Lexeme} (hs : s.rest = ⟨.atSign, span⟩ :: rest) :
    Takes s skipAnnotation := by
  refine (Takes.accept hs).bind fun _ => .ite ?_ (.pure _)
  refine (moves_dottedName _).bind fun _ => ?_
  exact (moves_isAt _).bind fun _ => .ite moves_skipGroup (.pure _)

theorem takes_skipAngles {span : Span} {rest : List Lexeme} (hs : s.rest = ⟨.less, span⟩ :: rest) :
    Takes s skipAngles := by
  refine (Takes.take hs).bind fun opener => ?_
  cases opener with
  | none => exact .pure _
  | some opener => exact (Moves.iterate (moves_angleRound opener) 1).bind fun _ => .pure _

/-! ## Rounds that go on -/

def Turn.isAgain : Turn α → Bool
  | again _ => true
  | done _ => false

/-- Whenever the answer asks for another round, a token has been read. -/
def ProgressFrom (again : α → Bool) (s : State) (round : Parser α) : Prop :=
  again (round s).1 = true → (round s).2.rest.length < s.rest.length

def Progress (again : α → Bool) (round : Parser α) : Prop := ∀ s, ProgressFrom again s round

namespace ProgressFrom

variable {again : β → Bool} {p : Parser α} {q : Parser β} {k : α → Parser β} {t : Token}

theorem of_takes (hs : s.rest ≠ []) (hq : Takes s q) : ProgressFrom again s q := fun _ =>
  Nat.lt_of_le_of_lt hq.length_le (Nat.sub_one_lt (mt List.length_eq_zero_iff.mp hs))

theorem ended {b : β} (hb : again b = false) : ProgressFrom again s (Pure.pure b) :=
  fun h => absurd (hb.symm.trans h) nofun

theorem after (hp : Moves p) (hk : ∀ a s', ProgressFrom again s' (k a)) : ProgressFrom again s (p >>= k) :=
  fun h => Nat.lt_of_lt_of_le (hk _ _ h) (hp s).length_le

theorem get {k : State → Parser β} (h : ProgressFrom again s (k s)) :
    ProgressFrom again s (MonadState.get >>= k) := h

theorem ite {c : Prop} [Decidable c] {q' : Parser β} (hq : ProgressFrom again s q)
    (hq' : ProgressFrom again s q') : ProgressFrom again s (if c then q else q') := by
  split
  · exact hq
  · exact hq'

/-- The round may go on behind the token that is accepted, and else is where it was. -/
theorem accept {k : Bool → Parser β} (hyes : Moves (k true)) (hno : ProgressFrom again s (k false)) :
    ProgressFrom again s (Grammar.accept t >>= k) := by
  have hfirst : (Grammar.accept t >>= k) s = k (take? t s).1.isSome (take? t s).2 := rfl
  intro hagain
  rw [hfirst] at hagain ⊢
  cases htake : (take? t s).1 with
  | none =>
    have hsame : (take? t s).2 = s := take?_none htake
    rw [htake, hsame] at hagain
    exact hsame.symm ▸ hno hagain
  | some span => exact Nat.lt_of_le_of_lt (hyes _).length_le (take?_lt (htake ▸ nofun))

theorem isAt {k : Bool → Parser β}
    (hyes : ∀ span rest, s.rest = ⟨t, span⟩ :: rest → Takes s (k true)) (hno : ProgressFrom again s (k false)) :
    ProgressFrom again s (Grammar.isAt t >>= k) := by
  have hlook : (Grammar.isAt t >>= k) s = k (s.rest.head?.any (·.token = t)) s := rfl
  intro hagain
  rw [hlook] at hagain ⊢
  by_cases hat : s.rest.head?.any (·.token = t)
  · obtain ⟨span, rest, hs⟩ := rest_of_head? hat
    rw [hat] at hagain ⊢
    exact of_takes (hs ▸ nofun) (hyes span rest hs) hagain
  · rw [Bool.eq_false_iff.mpr hat] at hagain ⊢
    exact hno hagain

end ProgressFrom

/-! ## All loops

Rounds that depend on no rules come first. -/

theorem progress_groupRound (openers : Openers) : Progress Turn.isAgain (groupRound openers) := by
  refine fun s => .get ?_
  split
  next =>
    split
    · exact .after (moves_reportUnclosed _ _) fun _ _ => .ended rfl
    · exact .ended rfl
  next hs => exact .of_takes (hs ▸ nofun) (.read fun _ => .pure _)
  next hs => exact .of_takes (hs ▸ nofun) (.read fun _ => .pure _)
  next => exact .of_takes ‹s.rest = [] → False› (.read fun _ => .pure _)

theorem progress_dottedRound : Progress Prod.snd dottedRound := fun _ =>
  .accept ((moves_identifier _).bind fun _ => .pure _) (.ended rfl)

theorem progress_angleRound (opener : Span) (depth : Nat) :
    Progress Turn.isAgain (angleRound opener depth) := by
  refine fun s => .get ?_
  split
  next hs => exact .of_takes (hs ▸ nofun) (.read fun _ => .pure _)
  next hs => exact .of_takes (hs ▸ nofun) (.read fun _ => .pure _)
  next hs => exact .of_takes (hs ▸ nofun) ((takes_annotated hs).bind fun _ => .pure _)
  iterate 6 exact .after (moves_report _ _) fun _ _ => .ended rfl
  next => exact .of_takes ‹s.rest = [] → False› (.read fun _ => .pure _)

theorem atSign_of_modifier? {lexemes : List Lexeme} (h : modifier? lexemes = some .annotated) :
    ∃ span rest, lexemes = ⟨.atSign, span⟩ :: rest := by
  rw [modifier?.eq_def] at h
  split at h
  next => split at h <;> cases h
  next => cases h
  next span rest _ => exact ⟨span, rest, rfl⟩
  next =>
    split at h
    · cases h
    · split at h
      · split at h <;> cases h
      · cases h
  next => cases h

theorem progress_modifierRound (isStatic : Bool) : Progress Turn.isAgain (modifierRound isStatic) := by
  refine fun s => .get ?_
  have hne {m : Modifier} (h : modifier? s.rest = some m) : s.rest ≠ [] := fun hs => by
    rw [hs] at h
    exact absurd h nofun
  split
  next h => exact .of_takes (hne h) (.read fun _ => .pure _)
  next h => exact .of_takes (hne h) (.read fun _ => .pure _)
  next h =>
    exact .of_takes (hne h) (.read fun _ => moves_advance.bind fun _ => moves_advance.bind fun _ => .pure _)
  next h =>
    obtain ⟨span, rest, hs⟩ := atSign_of_modifier? h
    exact .of_takes (hne h) ((takes_annotated hs).bind fun _ => .pure _)
  next => exact .ended rfl

theorem progress_dimensionRound (count : Nat) : Progress Turn.isAgain (dimensionRound count) := by
  refine fun s => .get ?_
  split
  next hs => exact .of_takes (hs ▸ nofun) (.read fun _ => moves_advance.bind fun _ => .pure _)
  next => exact .ended rfl

theorem progress_typeNameRound : Progress Prod.snd typeNameRound := by
  refine fun s => .after moves_skipAnyAngles fun _ s => .get ?_
  split
  next hs => exact .of_takes (hs ▸ nofun) (.read fun _ => moves_advance.bind fun _ => .pure _)
  next => exact .ended rfl

theorem progress_annotationRound : Progress id annotationRound := fun _ =>
  .isAt (fun _ _ hs => (takes_annotated hs).bind fun _ => .pure _) (.ended rfl)

theorem progress_skipParametersRound : Progress id skipParametersRound := by
  refine fun s => .get ?_
  split
  next hs => exact .of_takes (hs ▸ nofun) (.read fun _ => .pure _)
  iterate 4 exact .ended rfl
  next hs => exact .of_takes (hs ▸ nofun) ((takes_skipGroup s).bind fun _ => .pure _)
  next => exact .of_takes ‹s.rest = [] → False› (.read fun _ => .pure _)

theorem moves_parameter : Moves parameter? := Ensures.moves fun _ => ensures_parameter (c := True)

theorem progress_parameterRound (opener : Span) : Progress Prod.snd (parameterRound opener) := by
  refine fun s => .after moves_parameter fun _ _ => .accept (.pure _) ?_
  refine .after (moves_accept _) fun _ _ => .ite (.ended rfl) ?_
  exact .after (moves_report _ _) fun _ _ => .after moves_skipParameters fun _ _ => .ended rfl

theorem progress_headerRound : Progress id headerRound := by
  refine fun s => .get ?_
  split
  iterate 2 exact .ended rfl
  iterate 2 exact .after (moves_report _ _) fun _ _ => .ended rfl
  next hs => exact .of_takes (hs ▸ nofun) ((takes_skipAngles hs).bind fun _ => .pure _)
  next hs => exact .of_takes (hs ▸ nofun) ((takes_skipGroup s).bind fun _ => .pure _)
  next => exact .of_takes ‹s.rest = [] → False› (.read fun _ => .pure _)

theorem progress_arrowRound : Progress id arrowRound := by
  refine fun s => .get ?_
  split
  next => exact .ended rfl
  next hs => exact .of_takes (hs ▸ nofun) (.read fun _ => .pure _)
  next => exact .of_takes ‹s.rest = [] → False› (.read fun _ => .pure _)

theorem progress_labelRound : Progress id labelRound := by
  refine fun s => .get ?_
  split
  iterate 2
    next hs => exact .of_takes (hs ▸ nofun) (.read fun _ => .pure _)
  next hs => exact .of_takes (hs ▸ nofun) ((takes_skipGroup s).bind fun _ => .pure _)
  iterate 4 exact .ended rfl
  next => exact .of_takes ‹s.rest = [] → False› (.read fun _ => .pure _)

theorem progress_throwsRound : Progress id throwsRound := by
  refine fun s => .get ?_
  split
  iterate 3 exact .ended rfl
  next => exact .of_takes ‹s.rest = [] → False› (.read fun _ => .pure _)

theorem progress_squareRound : Progress id squareRound := fun _ =>
  .accept ((moves_accept _).bind fun _ => .pure _) (.ended rfl)

theorem progress_importRound : Progress id importRound := by
  refine fun s => .get ?_
  split
  next => exact .ended rfl
  next hs =>
    exact .accept (.pure _) (.of_takes (fun he => hs (List.isEmpty_iff.mpr he)) (.read fun _ => .pure _))

theorem progress_importsRound : Progress id importsRound := fun _ =>
  .accept (.bind (.skipWhile moves_importRound) fun _ => .pure _) (.ended rfl)

theorem takes_pass (s : State) : Takes s pass := .read fun _ => .pure _

theorem progress_closing (stop : CodeEnd) (bracket : Bracket) (hs : s.rest ≠ []) :
    ProgressFrom Prod.snd s (closing stop bracket) := by
  have hpass : ProgressFrom Prod.snd s pass := .of_takes hs (takes_pass s)
  cases stop with
  | close =>
    refine .ite (.of_takes hs (.read fun _ => .pure _)) (.ite hpass ?_)
    exact .after (moves_report _ _) fun _ _ => .ended rfl
  | semicolon => exact .ite (.ended rfl) hpass
  | expression => exact .ended rfl

theorem progress_semicolon (stop : CodeEnd) (hs : s.rest ≠ []) : ProgressFrom Prod.snd s (semicolon stop) := by
  cases stop with
  | close => exact .of_takes hs (takes_pass s)
  | semicolon => exact .of_takes hs (.read fun _ => .pure _)
  | expression => exact .ended rfl

/-! Rules that go alongside themselves go forward, and so does all that is written over them. -/

section Rules

variable {rules : Rules} (hr : ∀ n, rules.Alongside .identity n rules)

include hr

theorem moves_typeDecl : Moves (typeDecl? rules) := fun _ => (hr _).typeDecl.leads (Nat.lt_succ_self _)

theorem moves_anonymousBody : Moves (anonymousBody? rules) := fun _ =>
  (hr _).anonymousBody.leads (Nat.lt_succ_self _)

theorem moves_block : Moves (block rules) := fun _ => (hr _).block.leads (Nat.lt_succ_self _)

theorem moves_code (stop : CodeEnd) : Moves (rules.code stop) := fun s =>
  ((hr _).code stop s).leads (Nat.lt_succ_self _)

theorem moves_classBody (heading : Heading) : Moves (rules.classBody heading) := fun s =>
  ((hr _).classBody heading s).leads (Nat.lt_succ_self _)

theorem moves_operationBody : Moves (operationBody? rules) := fun _ =>
  (hr _).operationBody.leads (Nat.lt_succ_self _)

theorem moves_methodDecl (written : String) (span : Span) : Moves (methodDecl rules written span) := fun _ =>
  ((hr _).methodDecl written span).leads (Nat.lt_succ_self _)

theorem takes_typeDecl {kind : TypeKind} (hs : typeStart? s.rest = some kind) : Takes s (typeDecl? rules) := by
  refine .get ?_
  rw [hs]
  refine .after moves_here fun start s' => ?_
  extract_lets fromKeyword
  have hkeyword (s : State) : Takes s (fromKeyword ()) := by
    refine .read fun _ => moves_fresh.bind fun _ => (moves_identifier _).bind fun _ => ?_
    refine (moves_declaredName _ _).bind fun _ => (moves_components _).bind fun _ => ?_
    exact moves_skipHeader.bind fun _ => (moves_classBody hr _).bind fun _ => moves_here.bind fun _ => .pure _
  split
  · exact .after moves_advance fun _ s => hkeyword s
  · exact hkeyword s'

theorem takes_block {span : Span} {rest : List Lexeme} (hs : s.rest = ⟨.opener .brace, span⟩ :: rest) :
    Takes s (block rules) := by
  refine (Takes.take hs).bind fun opener => ?_
  cases opener with
  | none => exact moves_here.bind fun _ => (moves_report _ _).bind fun _ => .pure _
  | some opener => exact moves_code hr _

theorem takes_lambda (s : State) : Takes s (lambda rules) := by
  have harrow (s : State) : Takes s (skipWhile arrowRound) := by
    have hle := (skipWhile_arrowRound_suffix s).length_le
    rw [List.length_tail] at hle
    exact ⟨Moves.skipWhile moves_arrowRound s, hle⟩
  refine .after moves_here fun _ _ => .after moves_fresh fun _ s => (harrow s).bind fun _ => ?_
  refine (moves_isAt _).bind fun _ => .ite ?_ ?_
  · exact (moves_block hr).bind fun _ => moves_here.bind fun _ => .pure _
  · exact (moves_code hr _).bind fun _ => moves_here.bind fun _ => .pure _

theorem takes_allocation (s : State) : Takes s (allocation? rules) := by
  refine .after moves_here fun _ _ => .read fun _ => moves_skipAnyAngles.bind fun _ => moves_type.bind fun type => ?_
  cases type with
  | none => exact .pure _
  | some type =>
    refine (moves_take _).bind fun opener => ?_
    cases opener with
    | none => exact .pure _
    | some opener =>
      refine moves_fresh.bind fun _ => (moves_code hr _).bind fun _ => ?_
      exact (moves_anonymousBody hr).bind fun _ => moves_here.bind fun _ => .pure _

theorem takes_operationOrField (heading : Heading) (isStatic : Bool) (s : State) :
    Takes s (operationOrField? rules heading isStatic) := by
  refine .after moves_skipAnyAngles fun _ s => .get ?_
  split
  next start _ =>
    refine Takes.bind (.read fun _ => ?_) fun _ => .pure _
    cases start with
    | ownParameters =>
      exact moves_parameters.bind fun _ => moves_fresh.bind fun _ => (moves_operationBody hr).bind fun _ => .pure _
    | components =>
      exact (Moves.pure _).bind fun _ => moves_fresh.bind fun _ => (moves_operationBody hr).bind fun _ => .pure _
  next =>
    refine .type (fun _ => .read fun _ => .pure _) fun text => (moves_identifier _).bind fun _ => ?_
    refine (moves_isAt _).bind fun _ => .ite ?_ ?_
    · exact (moves_methodDecl hr _ _).bind fun _ => .pure _
    · exact (moves_code hr _).bind fun _ => .pure _

theorem takes_memberNode (heading : Heading) (isStatic : Bool) (s : State) :
    Takes s (memberNode? rules heading isStatic) := by
  refine .get ?_
  split
  next hs => exact .of_nil hs (.pure _)
  next hs => exact Takes.bind (takes_block hr hs) fun _ => .pure _
  next =>
    split
    next h =>
      obtain ⟨kind, hkind⟩ := Option.isSome_iff_exists.mp h
      exact (takes_typeDecl hr hkind).bind fun _ => .pure _
    next => exact takes_operationOrField hr heading isStatic s

theorem progress_keyword {k : Keyword} {span : Span} {rest : List Lexeme} (hs : s.rest = ⟨.keyword k, span⟩ :: rest) :
    ProgressFrom Prod.snd s (keyword rules k) := by
  refine .of_takes (hs ▸ nofun) (.get ?_)
  extract_lets previous
  split
  next => exact Takes.bind (.read fun _ => .skipWhile moves_labelRound) fun _ => .pure _
  next =>
    split
    next => exact (takes_allocation hr s).bind fun _ => .pure _
    next =>
      split
      next hkeyword =>
        obtain ⟨kind, hkind⟩ : ∃ kind, typeStart? s.rest = some kind := by
          have htype : k.isTypeKeyword = true := (Bool.and_eq_true _ _ ▸ hkeyword).1
          rw [hs]
          cases k <;> first | exact ⟨_, rfl⟩ | exact absurd htype nofun
        exact Takes.bind ((takes_typeDecl hr hkind).bind fun _ => .pure _) fun _ => .pure _
      next => exact takes_pass s

theorem progress_codeRound (stop : CodeEnd) : Progress Prod.snd (codeRound rules stop) := by
  refine fun s => .get ?_
  split
  next =>
    cases stop with
    | close => exact .after (moves_reportUnclosed _ _) fun _ _ => .ended rfl
    | semicolon | expression => exact .ended rfl
  next hs => exact progress_closing stop _ (hs ▸ nofun)
  next hs => exact progress_semicolon stop (hs ▸ nofun)
  next hs => exact .ite (.ended rfl) (.of_takes (hs ▸ nofun) (takes_pass s))
  next hs => exact progress_keyword hr hs
  next lexeme after _ _ _ _ hs =>
    refine .of_takes (hs ▸ nofun) ?_
    split
    next => exact (takes_lambda hr s).bind fun _ => .pure _
    split
    next hrecord =>
      have hkind := typeStart?_of_startsRecord hrecord
      rw [← hs] at hkind
      exact Takes.bind ((takes_typeDecl hr hkind).bind fun _ => .pure _) fun _ => .pure _
    split
    next => exact .read fun _ => (moves_code hr _).bind fun _ => .pure _
    next => exact takes_pass s

theorem progress_constantRound : Progress Prod.snd (constantRound rules) := by
  refine fun s => .after moves_modifiers fun _ s => .get ?_
  split
  next name start rest hs =>
    refine .after moves_advance fun _ s => .after moves_fresh fun number s => .after (moves_take _) fun opener s => ?_
    extract_lets fromBody
    have hbody (arguments : List CodeItem) (s : State) : ProgressFrom Prod.snd s (fromBody arguments) := by
      refine .after (moves_anonymousBody hr) fun body s => .after moves_here fun stop s => ?_
      exact .accept (.pure _) (.after (moves_accept _) fun _ _ => .ended rfl)
    cases opener with
    | none => exact hbody [] s
    | some opener => exact .after (moves_code hr _) fun arguments s => hbody arguments s
  next => exact .after (moves_accept _) fun _ _ => .ended rfl

theorem progress_memberRound (heading : Heading) (opener : Span) :
    Progress Prod.snd (memberRound rules heading opener) := by
  refine fun s => .get ?_
  split
  next => exact .of_takes (‹s.rest = _› ▸ nofun) (.read fun _ => .pure _)
  next => exact .of_takes (‹s.rest = _› ▸ nofun) (.read fun _ => .pure _)
  next => exact .after (moves_report _ _) fun _ _ => .ended rfl
  next =>
    refine .of_takes ‹s.rest = [] → False› (Takes.bind ?_ fun _ => .pure _)
    refine .after moves_here fun start s => .after moves_modifiers fun isStatic s => ?_
    exact (takes_memberNode hr heading isStatic s).bind fun node => moves_here.bind fun _ => .pure _

theorem progress_topLevelRound : Progress Prod.snd (topLevelRound rules) := by
  refine fun s => .get ?_
  split
  next => exact .ended rfl
  next hs =>
    refine .accept (.pure _) (.of_takes (fun he => hs (List.isEmpty_iff.mpr he)) ?_)
    refine .after moves_modifiers fun _ s => .get ?_
    split
    next hnil => exact .of_nil hnil (.pure _)
    next hcons =>
      split
      next h =>
        obtain ⟨kind, hkind⟩ := Option.isSome_iff_exists.mp h
        exact (takes_typeDecl hr (hcons ▸ hkind)).bind fun _ => .pure _
      next => exact .read fun _ => (moves_report _ _).bind fun _ => .pure _

/-! ## Whole units -/

omit hr in
theorem again_bind {p : Parser α} {k : α → Parser (β × Bool)} (hk : ∀ a s', (k a s').1.2 = true) :
    ((p >>= k) s).1.2 = true := hk _ _

omit hr in
/-- The top level goes on while there are tokens. -/
theorem topLevelRound_last (h : (topLevelRound rules s).1.2 = false) : (topLevelRound rules s).2.rest = [] := by
  by_cases hs : s.rest.isEmpty
  · have hround : topLevelRound rules s = (([], false), s) := by
      show (if s.rest.isEmpty then _ else _ : Parser (List TypeDecl × Bool)) s = _
      rw [if_pos hs]
      rfl
    rw [hround]
    exact List.isEmpty_iff.mp hs
  · have hround : (topLevelRound rules s).1.2 = true := by
      show ((if s.rest.isEmpty then _ else _ : Parser (List TypeDecl × Bool)) s).1.2 = true
      rw [if_neg hs]
      refine again_bind fun taken s => ?_
      split
      · rfl
      refine again_bind fun _ s => again_bind fun s' s => ?_
      cases s'.rest with
      | nil => rfl
      | cons lexeme after =>
        dsimp only
        split
        · exact again_bind fun _ _ => rfl
        · exact again_bind fun _ _ => again_bind fun _ _ => rfl
    exact absurd (h.symm.trans hround) nofun

omit hr in
/-- A loop that makes progress stops where its last round stops. -/
theorem collect_rest {round : Parser (List α × Bool)} (hprogress : Progress Prod.snd round)
    (hlast : ∀ s, (round s).1.2 = false → (round s).2.rest = []) (s : State) : (collect round s).2.rest = [] := by
  fun_induction collect round s with
  | case1 s found s' he =>
    have hend := hlast s
    rw [he] at hend
    exact hend rfl
  | case2 s found s' he hlt more s'' hmore ih =>
    rw [hmore] at ih
    exact ih
  | case3 s found s' he hge =>
    have hlt := hprogress s
    rw [ProgressFrom, he] at hlt
    exact absurd (hlt rfl) hge

theorem compilationUnit_rest (lexemes : List Lexeme) :
    (compilationUnit rules { rest := lexemes }).2.rest = [] :=
  collect_rest (progress_topLevelRound hr) (fun _ => topLevelRound_last) _

end Rules

/-! ## The main theorem -/

/-- No part of the grammar gives a token back. -/
structure Rules.Forward (rules : Rules) : Prop where
  take (t : Token) : Moves (take? t)
  accept (t : Token) : Moves (accept t)
  identifier (after : Anchor) : Moves (identifier after)
  skipGroup : Moves skipGroup
  dottedName (after : Anchor) : Moves (dottedName after)
  skipAnnotation : Moves skipAnnotation
  skipAngles : Moves skipAngles
  modifiers : Moves modifiers
  dimensions : Moves dimensions
  type : Moves type?
  parameter : Moves parameter?
  parameters : Moves parameters
  skipParameters : Moves skipParameters
  skipHeader : Moves skipHeader
  skipLabel : Moves skipLabel
  skipThrows : Moves skipThrows
  package : Moves package
  skipImports : Moves skipImports
  typeDecl : Moves (typeDecl? rules)
  anonymousBody : Moves (anonymousBody? rules)
  block : Moves (block rules)
  lambda : Moves (lambda rules)
  allocation : Moves (allocation? rules)
  code (stop : CodeEnd) : Moves (rules.code stop)
  operationBody : Moves (operationBody? rules)
  methodDecl (written : String) (span : Span) : Moves (methodDecl rules written span)
  operationOrField (heading : Heading) (isStatic : Bool) : Moves (operationOrField? rules heading isStatic)
  member (heading : Heading) : Moves (member? rules heading)
  classBody (heading : Heading) : Moves (rules.classBody heading)
  compilationUnit : Moves (compilationUnit rules)

/-- Every round of every loop that asks for another one has read a token. -/
structure Rules.Productive (rules : Rules) : Prop where
  group (openers : Openers) : Progress Turn.isAgain (groupRound openers)
  dotted : Progress Prod.snd dottedRound
  angle (opener : Span) (depth : Nat) : Progress Turn.isAgain (angleRound opener depth)
  modifier (isStatic : Bool) : Progress Turn.isAgain (modifierRound isStatic)
  dimension (count : Nat) : Progress Turn.isAgain (dimensionRound count)
  typeName : Progress Prod.snd typeNameRound
  annotation : Progress id annotationRound
  skipParameters : Progress id skipParametersRound
  parameter (opener : Span) : Progress Prod.snd (parameterRound opener)
  header : Progress id headerRound
  arrow : Progress id arrowRound
  label : Progress id labelRound
  throws : Progress id throwsRound
  square : Progress id squareRound
  imported : Progress id importRound
  imports : Progress id importsRound
  code (stop : CodeEnd) : Progress Prod.snd (codeRound rules stop)
  constant : Progress Prod.snd (constantRound rules)
  member (heading : Heading) (opener : Span) : Progress Prod.snd (memberRound rules heading opener)
  topLevel : Progress Prod.snd (topLevelRound rules)

theorem Rules.forward {rules : Rules} (hr : ∀ n, rules.Alongside .identity n rules) : rules.Forward where
  take := moves_take
  accept := moves_accept
  identifier := moves_identifier
  skipGroup := moves_skipGroup
  dottedName := moves_dottedName
  skipAnnotation := moves_skipAnnotation
  skipAngles := moves_skipAngles
  modifiers := moves_modifiers
  dimensions := moves_dimensions
  type := moves_type
  parameter := moves_parameter
  parameters := moves_parameters
  skipParameters := moves_skipParameters
  skipHeader := moves_skipHeader
  skipLabel := moves_skipLabel
  skipThrows := moves_skipThrows
  package := fun _ => (echoes_package (f := .identity)).leads (Nat.lt_succ_self _)
  skipImports := moves_skipImports
  typeDecl := moves_typeDecl hr
  anonymousBody := moves_anonymousBody hr
  block := moves_block hr
  lambda := fun s => (takes_lambda hr s).leads
  allocation := fun s => (takes_allocation hr s).leads
  code := moves_code hr
  operationBody := moves_operationBody hr
  methodDecl := moves_methodDecl hr
  operationOrField := fun heading isStatic _ => ((hr _).operationOrField heading isStatic).leads (Nat.lt_succ_self _)
  member := fun heading _ => ((hr _).member heading).leads (Nat.lt_succ_self _)
  classBody := moves_classBody hr
  compilationUnit := fun _ => (hr _).compilationUnit.leads (Nat.lt_succ_self _)

theorem Rules.productive {rules : Rules} (hr : ∀ n, rules.Alongside .identity n rules) : rules.Productive where
  group := progress_groupRound
  dotted := progress_dottedRound
  angle := progress_angleRound
  modifier := progress_modifierRound
  dimension := progress_dimensionRound
  typeName := progress_typeNameRound
  annotation := progress_annotationRound
  skipParameters := progress_skipParametersRound
  parameter := progress_parameterRound
  header := progress_headerRound
  arrow := progress_arrowRound
  label := progress_labelRound
  throws := progress_throwsRound
  square := progress_squareRound
  imported := progress_importRound
  imports := progress_importsRound
  code := progress_codeRound hr
  constant := progress_constantRound hr
  member := progress_memberRound hr
  topLevel := progress_topLevelRound hr

end Grammar

open Grammar

/-- The grammar is a total program, and reads every token list to its end: class bodies and code
are the only functions that say about each other what the grammar says, no part of it gives a token
back, and every round of a loop that asks for another one has read a token. The bound that
`ofLexemes` sets is never felt. -/
theorem CompilationUnit.ofLexemes_total :
    (∀ rules : Rules, rules = ⟨classBody rules, code rules⟩ ↔ rules = grammar) ∧
    grammar.Forward ∧ grammar.Productive ∧
    ∀ lexemes : List Lexeme,
      (compilationUnit grammar { rest := lexemes }).2.rest = [] ∧
      (∀ more, compilationUnit (rules (lexemes.length + more)) { rest := lexemes } =
        compilationUnit grammar { rest := lexemes }) ∧
      ofLexemes lexemes = ((compilationUnit grammar { rest := lexemes }).1,
        (compilationUnit grammar { rest := lexemes }).2.reported.reverse) := by
  have hself := Rules.alongside_of_eq .identity grammar_eq grammar_eq
  refine ⟨rules_eq_iff, Rules.forward hself, Rules.productive hself, fun lexemes => ?_⟩
  have hdepth (more : Nat) : compilationUnit (rules (lexemes.length + more)) { rest := lexemes } =
      compilationUnit grammar { rest := lexemes } := by
    have halongside := (rules_alongside_grammar lexemes.length more).compilationUnit (s := { rest := lexemes })
    refine (halongside.eq CompilationUnit.relocate_identity (Nat.lt_succ_self _)).symm
  refine ⟨compilationUnit_rest hself lexemes, hdepth, ?_⟩
  have hunit : compilationUnit (rules lexemes.length) { rest := lexemes } = _ := hdepth 0
  rw [ofLexemes, hunit]
  rfl

end Nomenclator
