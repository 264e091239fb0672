/-
No diagnostic is reported twice, apart from those that are known to be.

A body or a member is missed at a token that is not read. So what counts is
where the next rule begins that may miss something at the same token. The
header of a type comes to an end before its body, code and headers come to an
end where the next member may begin, and at each such place it is said which
reports can be about the token that comes next. The rules keep that, by induction
over the depth, and two reports that are told alike are the same one.
-/
import Nomenclator.Proofs.Grammar.Placed
import Nomenclator.Proofs.Grammar.Reports
import Nomenclator.Proofs.Grammar.Shape

namespace Nomenclator

namespace Grammar

variable {α β : Type} {all : Lexemes} {s s' s'' : State} {n : Nat} {own : List Span} {p : Problem}

/-! ## Headers of types -/

/-- A name that was read is not known to be any wrong. -/
theorem NameRead.unreported {after : Anchor} {r : String × Span} (h : NameRead all after s r s')
    (hdollar : '$' ∈ r.1.toList) :
    (∀ l ∈ s'.rest, l.span ≠ r.2) ∧ ⟨.dollarInName r.1, r.2⟩ ∉ s'.reported := by
  cases h with
  | found hread =>
    refine ⟨hread.opened.read, fun hmem => ?_⟩
    rw [hread.reported] at hmem
    exact hread.before.next _ hread.head? _ hmem
  | missing hname =>
    rw [hname] at hdollar
    exact absurd hdollar List.not_mem_nil

theorem reports_declaredName {written : String} {span : Span} (h : s.Steady all)
    (hname : '$' ∈ written.toList →
      (∀ l ∈ s.rest, l.span ≠ span) ∧ ⟨.dollarInName written, span⟩ ∉ s.reported) :
    Reports 1 [] s (declaredName written span) fun _ s' => s'.Steady all ∧ s'.rest = s.rest := by
  rw [declaredName]
  split
  next hdollar =>
    obtain ⟨hread, hnew⟩ := hname hdollar
    have hname (after : Anchor) : Problem.dollarInName written ≠ .expectedIdentifier after := Problem.noConfusion
    exact (reports_past h hread hnew hname fun hu => absurd hu Bool.false_ne_true).bind fun _ _ _ hpost => .pure hpost
  next => exact .pure ⟨h, rfl⟩

/-- Between two members, and wherever the next one may begin. -/
structure State.Between (all : Lexemes) (s : State) : Prop extends s.Steady all where
  settled : s.Settled

theorem State.Fresh.between (h : s.Fresh all) : s.Between all := ⟨h.toSteady, (h.silent _).settled⟩

/-- Text that is skipped does not matter there. -/
theorem State.Between.skip (h : s.Between all) (h' : s'.Steady all) (hs : s.Since 0 own s') : s'.Between all :=
  ⟨h', h.toOnce.settled hs (by decide) h.settled⟩

/-- Where the header of a type has come to an end. -/
structure State.BeforeBody (all : Lexemes) (s : State) : Prop extends s.Between all where
  ready : s.Ready all .expectedClassBody
  body : ∀ l, s.rest.head? = some l →
    l.token = .opener .brace ∨ l.token = .semicolon ∨ l.token = .closer .brace

/-- Where the header of a type goes on. A name that was missing at a keyword is forgotten with that. -/
structure State.InHeader (all : Lexemes) (s : State) : Prop extends s.Once all where
  steady : (∀ k span rest, s.rest ≠ ⟨.keyword k, span⟩ :: rest) → s.Steady all
  settled : s.Settled
  ready : s.Ready all .expectedClassBody

theorem State.Between.inHeader (h : s.Between all) (hready : s.Ready all .expectedClassBody) : s.InHeader all :=
  ⟨h.toOnce, fun _ => h.toSteady, h.settled, hready⟩

/-- At the end of the header, unless a body begins there. -/
theorem reports_noBody {l : Lexeme} {rest : List Lexeme} (h : s.InHeader all) (hs : s.rest = l :: rest)
    (hl : l.token = .semicolon ∨ l.token = .closer .brace) :
    Reports 3 [] s (report .expectedClassBody l.span) fun _ => State.BeforeBody all := by
  have hsteady : s.Steady all := h.steady fun k span rest he => by
    rw [hs] at he
    obtain ⟨rfl, -⟩ := List.cons.inj he
    exact hl.elim nofun nofun
  have hhead {l' : Lexeme} (hl' : s.rest.head? = some l') : l' = l := by
    rw [hs] at hl'
    exact (Option.some.inj hl').symm
  have hreport := reports_missing hsteady h.ready rfl nofun fun l' hl' => hhead hl' ▸ hl
  rw [State.here_of_rest hs] at hreport
  refine hreport.mono fun _ s' _ hpost => ?_
  obtain ⟨hs', hrest, -⟩ := hpost
  rw [hs] at hrest
  have hsettled : s'.Settled := .of_head hrest (hl.elim (fun hl => .inr (.inr (.inl hl))) fun hl => .inr (.inl hl))
  refine ⟨⟨hs', hsettled⟩, hs'.ready_classBody hrest, fun l' hl' => ?_⟩
  rw [hrest] at hl'
  obtain rfl := Option.some.inj hl'
  exact .inr hl

theorem reports_headerRound (h : s.InHeader all) :
    Reports 3 [] s headerRound (Passes (State.InHeader all) (State.BeforeBody all)) := by
  have hsteady {l : Lexeme} {rest : List Lexeme} (hs : s.rest = l :: rest) (hl : ∀ k, l.token ≠ .keyword k) :
      s.Steady all := h.steady fun k span rest he => by
    rw [hs] at he
    exact hl k (congrArg Lexeme.token (List.cons.inj he).1)
  refine .get ?_
  split
  next hs =>
    refine .pure ⟨⟨hsteady hs nofun, h.settled⟩, h.ready, fun l hl => ?_⟩
    rw [hs] at hl
    exact Option.some.inj hl ▸ .inl rfl
  next hs =>
    have hnil : s.Steady all := h.steady fun k span rest he => absurd (hs.symm.trans he) nofun
    exact .pure ⟨⟨hnil, h.settled⟩, h.ready, fun l hl => by rw [hs] at hl; cases hl⟩
  next hs => exact (reports_noBody h hs (.inl rfl)).bind fun _ _ _ hpost => .pure hpost
  next hs => exact (reports_noBody h hs (.inr rfl)).bind fun _ _ _ hpost => .pure hpost
  next hs =>
    refine .step (reports_skipAngles (hsteady hs nofun)) (by decide) fun _ s₁ h₁ hs₁ => .pure ?_
    exact State.Between.inHeader (State.Between.skip ⟨hsteady hs nofun, h.settled⟩ hs₁ h₁)
      (h.toOnce.ready hs₁.toOnce h₁ (by decide) h.ready)
  next hs =>
    refine .step (reports_skipGroup (hsteady hs nofun)) (by decide) fun _ s₁ h₁ hs₁ => .pure ?_
    exact State.Between.inHeader (State.Between.skip ⟨hsteady hs nofun, h.settled⟩ hs₁ h₁)
      (h.toOnce.ready hs₁.toOnce h₁ (by decide) h.ready)
  · refine .step (reports_advance (n := 0) h.toOnce) (by decide) fun _ s₁ h₁ hpost => .pure ?_
    exact hpost.1.between.inHeader (h.toOnce.ready hpost.1.toOnce h₁ (by decide) h.ready)

theorem reports_skipHeader (h : s.InHeader all) : Reports 3 [] s skipHeader fun _ => State.BeforeBody all :=
  .skipWhile progress_headerRound (fun _ => reports_headerRound) h

theorem reports_components (h : s.Steady all) (hsilent : s.Silent .expectedType) (kind : TypeKind) :
    Reports 2 [] s (components kind) fun _ => State.Between all := by
  rw [components]
  split
  · refine .step (reports_skipAnyAngles h) (by decide) fun _ s₁ h₁ hs₁ => ?_
    have hsilent₁ := h.toOnce.silent h₁ (by decide) hsilent
    exact (reports_parameters hs₁ hsilent₁).bind fun _ _ _ hpost => .pure ⟨hpost.1, hpost.2⟩
  · exact .pure ⟨h, hsilent.settled⟩

/-! ## The grammar -/

/-- The bracket that is reported where code is not closed. -/
def CodeEnd.openers : CodeEnd → List Span
  | .close _ opener => [opener]
  | .semicolon | .expression => []

/-- Members may come behind such code. -/
def CodeEnd.BeforeMembers : CodeEnd → Prop
  | .close .paren _ | .close .brace _ | .semicolon => True
  | .close .square _ | .expression => False

/-- In code that has not come to its end. -/
structure State.InCode (all : Lexemes) (stop : CodeEnd) (s : State) : Prop extends s.Steady all where
  opened : ∀ opener ∈ stop.openers, s.Open opener

/-- Where code has come to its end. -/
structure State.BehindCode (all : Lexemes) (stop : CodeEnd) (s : State) : Prop extends s.Steady all where
  settled : stop.BeforeMembers → s.Settled

/-- What is said here of repeated reports is true of the rules. -/
structure Rules.Sparing (all : Lexemes) (rules : Rules) : Prop where
  alongside : ∀ n, rules.Alongside .identity n rules
  classBody : ∀ {s : State} (heading : Heading), s.BeforeBody all →
    Reports 3 [] s (rules.classBody heading) fun _ => State.Between all
  code : ∀ {s : State} {stop : CodeEnd}, s.InCode all stop → (stop.BeforeMembers → s.Settled) →
    Reports 3 stop.openers s (rules.code stop) fun _ => State.BehindCode all stop

section Rules

variable {rules : Rules}

/-- Behind a name that is missing the header goes on. -/
theorem State.InHeader.of_missing (hs : s.Steady all) (hsilent : s.Silent .expectedType)
    (hsince : s.Since 1 [] s') (hrest : s'.rest = s.rest)
    (hreported : s'.reported = ⟨.expectedIdentifier .typeKeyword, s.here⟩ :: s.reported) (honce : s'.Once all)
    (hnext : ∀ l, s.rest.head? = some l → ∀ name, l.token ≠ .identifier name)
    (hready : s'.Ready all .expectedClassBody) : s'.InHeader all := by
  refine ⟨honce, fun hkeyword => ⟨honce, fun l hl p hmem => ?_⟩, ?_, hready⟩
  · rw [hreported] at hmem
    rw [hrest] at hl
    rcases List.mem_cons.mp hmem with he | hmem
    · rw [(Diagnostic.mk.inj he).1]
      refine ⟨hnext l hl, fun _ k hk => absurd ?_ (hkeyword k l.span s.rest.tail)⟩
      obtain ⟨rest, hs⟩ := List.head?_eq_some_iff.mp hl
      rw [hrest, hs, ← hk, List.tail_cons]
    · exact hs.next l hl p hmem
  · exact (hs.toOnce.silent hsince (by decide) hsilent).settled

/-- From the header of a type on, behind its name and its components. -/
theorem Rules.Sparing.fromHeader (hr : rules.Sparing all) {kind : TypeKind} {start : Span} {id : Nat}
    {written name : String} {components : Option (List Parameter)} (h : s.InHeader all) :
    Reports 3 [] s (do
      skipHeader
      let members ← rules.classBody ⟨kind, written, components⟩
      return some (TypeDecl.mk id kind name members (start.join (← here)))) fun _ => State.Between all := by
  refine .step (reports_skipHeader h) (Nat.le_refl _) fun _ s₁ _ h₁ => ?_
  exact (hr.classBody _ h₁).bind fun _ _ _ h₂ => .here (.pure h₂)

/-- From the name of a type on, right behind its keyword. A record has a name. -/
theorem Rules.Sparing.fromName (hr : rules.Sparing all) {kind : TypeKind} {start : Span} {id : Nat}
    (h : s.Steady all) (hready : s.Ready all (.expectedIdentifier .typeKeyword))
    (hend : s.rest = [] → ∀ l ∈ all.list, l.span = s.here → ∀ name, l.token ≠ .identifier name)
    (hkind : kind = .recordType → ∃ name place rest, s.rest = ⟨.identifier name, place⟩ :: rest)
    (hsilent : s.Silent .expectedType) (hbody : s.Ready all .expectedClassBody) :
    Reports 3 [] s (do
      let (written, span) ← identifier .typeKeyword
      let name ← declaredName written span
      let components ← components kind
      skipHeader
      let members ← rules.classBody ⟨kind, written, components⟩
      return some (TypeDecl.mk id kind name members (start.join (← here)))) fun _ => State.Between all := by
  refine .step (reports_identifier h hready fun _ => hend) (by decide) fun r s₁ h₁ hname => ?_
  obtain ⟨written, span⟩ := r
  have hplain : '$' ∈ written.toList →
      (∀ l ∈ s₁.rest, l.span ≠ span) ∧ ⟨.dollarInName written, span⟩ ∉ s₁.reported := hname.unreported
  cases hname with
  | found hread =>
    have hs₁ := hread.fresh.toSteady
    refine .step (reports_declaredName hs₁ hplain) (by decide) fun name s₂ h₂ hpost => ?_
    have hsilent₂ := hs₁.toOnce.silent h₂ (by decide) (hread.fresh.silent .expectedType)
    refine .step (reports_components hpost.1 hsilent₂ kind) (by decide) fun comps s₃ h₃ hs₃ => ?_
    have hsince := (h₁.mono (by decide)).trans ((h₂.mono (by decide)).trans h₃)
    exact hr.fromHeader (hs₃.inHeader (h.toOnce.ready hs₃.toOnce hsince (by decide) hbody))
  | missing hname hspan hrest hreported honce hnext =>
    obtain rfl : written = "" := hname
    have hother : kind ≠ .recordType := fun he => by
      obtain ⟨name, place, rest, hs⟩ := hkind he
      exact hnext _ (by rw [hs]; rfl) name rfl
    have hbody₁ := h.toOnce.ready honce h₁ (by decide) hbody
    have hname : declaredName "" span = Pure.pure (plainName "") := by
      rw [declaredName]
      exact if_neg List.not_mem_nil
    have hcomps : components kind = Pure.pure none := if_neg hother
    simp only [hname, hcomps, pure_bind]
    exact hr.fromHeader (.of_missing h hsilent h₁ hrest hreported honce hnext hbody₁)

/-- From the keyword of a type on: a reserved word, or `record`, which is a word like others, with a name behind it. -/
theorem Rules.Sparing.fromKeyword (hr : rules.Sparing all) {kind : TypeKind} {start : Span} {l : Lexeme}
    {rest : List Lexeme} (h : s.Steady all) (hs : s.rest = l :: rest)
    (hl : (∃ k, l.token = .keyword k ∧ k.isTypeKeyword = true ∧ kind ≠ .recordType) ∨
      ∃ word name place rest', l.token = .identifier word ∧ rest = ⟨.identifier name, place⟩ :: rest') :
    Reports 3 [] s (do
      advance
      let id ← fresh
      let (written, span) ← identifier .typeKeyword
      let name ← declaredName written span
      let components ← components kind
      skipHeader
      let members ← rules.classBody ⟨kind, written, components⟩
      return some (TypeDecl.mk id kind name members (start.join (← here)))) fun _ => State.Between all := by
  refine .read h hs fun s₁ hread => ?_
  refine .step (reports_fresh hread.fresh.toSteady) (Nat.zero_le 3) fun id s₂ h₂ hpost => ?_
  obtain ⟨hs₂, hrest₂, hhere₂⟩ := hpost
  have hrest : s₂.rest = rest := hrest₂.trans (List.cons.inj (hs.symm.trans hread.rest)).2.symm
  have hready : s₁.Ready all (.expectedIdentifier .typeKeyword) := hread.ready fun _ hstand => by
    rcases hl with ⟨k, hk, htype, -⟩ | ⟨word, -, -, -, hword, -⟩
    · exact absurd (htype.symm.trans (hstand.2 rfl k hk)) nofun
    · exact absurd hword (hstand.1 word)
  have hbody := h.toOnce.ready hread.fresh.toOnce hread.since (by decide) (h.ready_classBody hs)
  refine (hr.fromName hs₂ ?_ ?_ ?_ ?_ ?_).release nofun
  · exact hread.fresh.toOnce.ready hs₂.toOnce h₂ (by decide) hready
  · intro hnil l' hl' hspan name ht
    rcases hl with ⟨k, hk, -⟩ | ⟨word, name, place, rest', -, hname⟩
    · rw [hhere₂, hread.here_of_nil (hrest₂ ▸ hnil)] at hspan
      obtain rfl := Lexemes.eq_of_span hl' (hread.suffix.subset List.mem_cons_self) hspan
      exact absurd (hk.symm.trans ht) nofun
    · rw [hrest, hname] at hnil
      cases hnil
  · intro hrecord
    rcases hl with ⟨k, -, -, hother⟩ | ⟨word, name, place, rest', -, hname⟩
    · exact absurd hrecord hother
    · exact ⟨name, place, rest', hrest.trans hname⟩
  · exact hread.fresh.toOnce.silent h₂ (by decide) (hread.fresh.silent _)
  · exact hread.fresh.toOnce.ready hs₂.toOnce h₂ (by decide) hbody

theorem Rules.Sparing.typeDecl (hr : rules.Sparing all) (h : s.Steady all) :
    Reports 3 [] s (typeDecl? rules) fun _ s' => s'.Steady all ∧ (typeStart? s.rest ≠ none → s'.Settled) := by
  refine .get ?_
  split
  next hstart => exact .pure ⟨h, fun hne => absurd hstart hne⟩
  next kind hstart =>
    refine .here (.mono (P := fun _ => State.Between all) ?_ fun _ _ _ h => ⟨h.toSteady, fun _ => h.settled⟩)
    rcases typeStart?_cases hstart with ⟨span, place, rest, hkind, hs⟩ | ⟨k, span, rest, hkind, hrecord, htype, hs⟩ |
      ⟨word, span, name, place, rest, hkind, hs⟩
    · rw [if_pos hkind]
      refine .read h hs fun s₁ hread => ?_
      have hs₁ := (List.cons.inj (hs.symm.trans hread.rest)).2.symm
      exact (hr.fromKeyword hread.fresh.toSteady hs₁ (.inl ⟨_, rfl, rfl, hkind ▸ nofun⟩)).release nofun
    · rw [if_neg hkind]
      exact hr.fromKeyword h hs (.inl ⟨k, rfl, htype, hrecord⟩)
    · rw [if_neg (hkind ▸ nofun)]
      exact hr.fromKeyword h hs (.inr ⟨word, name, place, rest, rfl, rfl⟩)

theorem Rules.Sparing.anonymousBody (hr : rules.Sparing all) (h : s.Steady all) :
    Reports 3 [] s (anonymousBody? rules) fun _ s' => s'.Steady all ∧ (s.Settled → s'.Settled) := by
  refine .isAt (fun span rest hs => ?_) fun _ => .pure ⟨h, id⟩
  have hbody : s.BeforeBody all := by
    refine ⟨⟨h, .of_head hs (.inl rfl)⟩, h.ready_classBody hs, fun l hl => ?_⟩
    rw [hs] at hl
    exact .inl (Option.some.inj hl ▸ rfl)
  exact (hr.classBody .anonymous hbody).bind fun _ _ _ hpost => .pure ⟨hpost.toSteady, fun _ => hpost.settled⟩

/-! ### Code -/

theorem State.InCode.skip {stop : CodeEnd} (h : s.InCode all stop) (h' : s'.Steady all) (hs : s.Since n [] s') :
    s'.InCode all stop := ⟨h', fun opener ho => (h.opened opener ho).since hs List.not_mem_nil⟩

theorem State.Between.behindCode (h : s.Between all) (stop : CodeEnd) : s.BehindCode all stop :=
  ⟨h.toSteady, fun _ => h.settled⟩

/-- Code in brackets, behind the opening one. -/
theorem Rules.Sparing.closed (hr : rules.Sparing all) {opener : Span} (bracket : Bracket) (h : s.Between all)
    (hopen : s.Open opener) :
    Reports 3 (opener :: own) s (rules.code (.close bracket opener))
      fun _ => State.BehindCode all (.close bracket opener) := by
  have hcode : s.InCode all (.close bracket opener) :=
    ⟨h.toSteady, fun _ ho => List.mem_singleton.mp ho ▸ hopen⟩
  refine (hr.code hcode fun _ => h.settled).release fun o ho => .inl ?_
  exact List.mem_singleton.mp ho ▸ List.mem_cons_self

/-- Code up to a semicolon, behind which members may come. -/
theorem Rules.Sparing.toSemicolon (hr : rules.Sparing all) (h : s.Between all) :
    Reports 3 [] s (rules.code .semicolon) fun _ => State.Between all := by
  have hcode : s.InCode all .semicolon := ⟨h.toSteady, nofun⟩
  exact (hr.code hcode fun _ => h.settled).mono fun _ _ _ hpost => ⟨hpost.toSteady, hpost.settled trivial⟩

theorem Rules.Sparing.block (hr : rules.Sparing all) (h : s.Steady all) {span : Span} {rest : List Lexeme}
    (hs : s.rest = ⟨.opener .brace, span⟩ :: rest) : Reports 3 [] s (block rules) fun _ => State.Between all := by
  refine .take h (fun opener s₁ hread => ?_) fun hno => absurd hs (hno span rest)
  exact (hr.closed .brace hread.fresh.between hread.opened).mono fun _ _ _ hpost =>
    ⟨hpost.toSteady, hpost.settled trivial⟩

theorem reports_arrowRound (h : s.Steady all) :
    Reports 0 [] s arrowRound (Passes (State.Steady all) (State.Steady all)) := by
  refine .get ?_
  split
  · exact .pure h
  · exact (reports_advance h.toOnce).bind fun _ _ _ hpost => .pure hpost.1.toSteady
  · exact (reports_advance h.toOnce).bind fun _ _ _ hpost => .pure hpost.1.toSteady

theorem Rules.Sparing.lambda (hr : rules.Sparing all) (h : s.Steady all) :
    Reports 3 [] s (lambda rules) fun _ => State.Steady all := by
  refine .here (.step (reports_fresh h) (Nat.zero_le 3) fun id s₁ _ hpost => ?_)
  refine .step (.skipWhile progress_arrowRound (fun _ => reports_arrowRound) hpost.1) (Nat.zero_le 3) ?_
  intro _ s₂ _ hs₂
  refine .isAt (fun span rest hs => ?_) fun _ => ?_
  · exact (hr.block hs₂ hs).bind fun _ _ _ hpost => .here (.pure hpost.toSteady)
  · have hcode : s₂.InCode all .expression := ⟨hs₂, nofun⟩
    exact (hr.code hcode nofun).bind fun _ _ _ hpost => .here (.pure hpost.toSteady)

theorem Rules.Sparing.allocation (hr : rules.Sparing all) (h : s.Steady all) {span : Span} {rest : List Lexeme}
    (hs : s.rest = ⟨.keyword .newKw, span⟩ :: rest) :
    Reports 3 [] s (allocation? rules) fun _ => State.Steady all := by
  refine .here (.next h hs fun s₁ hread => ?_)
  have hready : s₁.Ready all .expectedType := hread.ready fun hs _ => .lastType (.inr rfl) (hread.last hs)
  refine .step (reports_skipAnyAngles hread.fresh.toSteady) (Nat.zero_le 3) fun _ s₂ h₂ hs₂ => ?_
  have hready₂ := hread.fresh.toOnce.ready hs₂.toOnce h₂ (by decide) hready
  refine .step (reports_type hs₂ hready₂) (by decide) fun type s₃ _ hpost => ?_
  cases type with
  | none => exact .pure hpost.1
  | some type =>
    refine .take hpost.1 (fun opener s₄ hopen => ?_) fun _ => .pure hpost.1
    refine .step (reports_fresh hopen.fresh.toSteady) (Nat.zero_le 3) fun id s₅ h₅ hpost => ?_
    have hbetween := hopen.fresh.between.skip hpost.1 h₅
    refine .bind (hr.closed .paren hbetween (hopen.opened.since h₅ List.not_mem_nil)) fun arguments s₆ _ hs₆ => ?_
    exact .step (hr.anonymousBody hs₆.toSteady) (Nat.le_refl 3) fun body s₇ _ hpost => .here (.pure hpost.1)

theorem Rules.Sparing.localType (hr : rules.Sparing all) (h : s.Steady all) :
    Reports 3 [] s (localType? rules) fun _ => State.Steady all :=
  (hr.typeDecl h).bind fun _ _ _ hpost => .pure hpost.1

/-- What a round of code leaves: it goes on, or the code has come to its end. -/
abbrev Scans (all : Lexemes) (stop : CodeEnd) (s : State) (round : Parser (α × Bool)) : Prop :=
  Reports 3 stop.openers s round fun r => Passes (State.InCode all stop) (State.BehindCode all stop) r.2

variable {stop : CodeEnd}

theorem reports_pass (h : s.InCode all stop) : Scans all stop s pass :=
  .step (reports_advance h.toOnce) (Nat.zero_le 3) fun _ _ h₁ hpost => .pure (h.skip hpost.1.toSteady h₁)

theorem reports_last (h : s.InCode all stop) :
    Scans all stop s (do advance; return (([] : List α), false)) :=
  .step (reports_advance h.toOnce) (Nat.zero_le 3) fun _ _ _ hpost => .pure (hpost.1.between.behindCode stop)

theorem reports_closing (h : s.InCode all stop) {bracket : Bracket} {span : Span} {rest : List Lexeme}
    (hs : s.rest = ⟨.closer bracket, span⟩ :: rest) : Scans all stop s (closing stop bracket) := by
  cases stop with
  | close expected opener =>
    rw [closing]
    split
    · exact reports_last h
    split
    · exact reports_pass h
    next hother hbrace =>
      have hopen := h.opened opener (List.mem_singleton_self opener)
      have hreport := reports_unclosed (p := .unclosedParen) h.toSteady hopen rfl (List.mem_singleton_self opener)
      refine .bind (hreport.level (by decide)) fun _ s₁ _ hpost => .pure ⟨hpost.1, fun hmembers => ?_⟩
      refine .of_head (hpost.2.trans hs) ?_
      cases expected with
      | paren => cases bracket <;> simp_all
      | square => exact hmembers.elim
      | brace => exact absurd rfl hbrace
  | semicolon =>
    rw [closing]
    split
    next hbrace => exact .pure ⟨h.toSteady, fun _ => .of_head hs (.inr (.inl (congrArg Token.closer hbrace)))⟩
    next => exact reports_pass h
  | expression => exact .pure ⟨h.toSteady, False.elim⟩

theorem reports_semicolon (h : s.InCode all stop) : Scans all stop s (semicolon stop) := by
  cases stop with
  | close => exact reports_pass h
  | semicolon => exact reports_last h
  | expression => exact .pure ⟨h.toSteady, False.elim⟩

theorem reports_labelRound (h : s.Steady all) :
    Reports 0 [] s labelRound (Passes (State.Steady all) (State.Steady all)) := by
  refine .get ?_
  split
  · exact (reports_advance h.toOnce).bind fun _ _ _ hpost => .pure hpost.1.toSteady
  · exact (reports_advance h.toOnce).bind fun _ _ _ hpost => .pure hpost.1.toSteady
  · exact (reports_skipGroup h).bind fun _ _ _ hpost => .pure hpost
  iterate 4 exact .pure h
  · exact (reports_advance h.toOnce).bind fun _ _ _ hpost => .pure hpost.1.toSteady

theorem reports_skipLabel (h : s.Steady all) : Reports 0 [] s skipLabel fun _ => State.Steady all :=
  (reports_advance h.toOnce).bind fun _ _ _ hpost =>
    .skipWhile progress_labelRound (fun _ => reports_labelRound) hpost.1.toSteady

theorem Rules.Sparing.keyword (hr : rules.Sparing all) (h : s.InCode all stop) {k : Keyword} {span : Span}
    {rest : List Lexeme} (hs : s.rest = ⟨.keyword k, span⟩ :: rest) : Scans all stop s (keyword rules k) := by
  refine .get ?_
  dsimp only
  split
  · exact .step (reports_skipLabel h.toSteady) (Nat.zero_le 3) fun _ _ h₁ hpost => .pure (h.skip hpost h₁)
  split
  next hnew =>
    obtain rfl : k = .newKw := of_decide_eq_true (Bool.and_eq_true_iff.mp hnew).1
    exact .step (hr.allocation h.toSteady hs) (Nat.le_refl 3) fun _ _ h₁ hpost => .pure (h.skip hpost h₁)
  split
  · exact .step (hr.localType h.toSteady) (Nat.le_refl 3) fun _ _ h₁ hpost => .pure (h.skip hpost h₁)
  · exact reports_pass h

theorem Rules.Sparing.codeRound (hr : rules.Sparing all) (h : s.InCode all stop) :
    Scans all stop s (codeRound rules stop) := by
  refine .get ?_
  split
  next hnil =>
    cases stop with
    | close bracket opener =>
      have hopen := h.opened opener (List.mem_singleton_self opener)
      have hreport := reports_reportUnclosed h.toSteady hopen bracket (List.mem_singleton_self opener)
      exact .bind (hreport.level (Nat.zero_le 3)) fun _ _ _ hpost =>
        .pure ⟨hpost.1, fun _ => .of_nil (hpost.2.trans hnil)⟩
    | semicolon | expression => exact .pure ⟨h.toSteady, fun _ => .of_nil hnil⟩
  next hs => exact reports_closing h hs
  next hs => exact reports_semicolon h
  next hs =>
    split
    next hstop => exact .pure ⟨h.toSteady, fun hmembers => (hstop ▸ hmembers : CodeEnd.expression.BeforeMembers).elim⟩
    next => exact reports_pass h
  next hs => exact hr.keyword h hs
  next lexeme after _ _ _ _ hs =>
    split
    · exact .step (hr.lambda h.toSteady) (Nat.le_refl 3) fun _ _ h₁ hpost => .pure (h.skip hpost h₁)
    split
    · exact .step (hr.localType h.toSteady) (Nat.le_refl 3) fun _ _ h₁ hpost => .pure (h.skip hpost h₁)
    split
    next bracket hopener =>
      refine .read h.toSteady hs fun s₁ hread => ?_
      have hcode : Reports 3 [lexeme.span] s₁ (rules.code (.close bracket lexeme.span))
          fun _ => State.BehindCode all (.close bracket lexeme.span) :=
        hr.closed bracket hread.fresh.between hread.opened
      have hown := List.cons_subset_cons lexeme.span (List.nil_subset stop.openers)
      refine .part hcode (Nat.le_refl 3) hown fun code s₂ h₂ hpost => .pure ?_
      have hgroup : s.Since 3 [lexeme.span] s₂ := ((hread.since.mono (Nat.zero_le 3)).release nofun).trans h₂
      have hsince : s.Since 3 [] s₂ := hgroup.release fun o ho =>
        .inr ⟨lexeme, hread.mem, (List.mem_singleton.mp ho).symm⟩
      exact h.skip hpost.toSteady hsince
    next => exact reports_pass h

theorem Rules.Sparing.readCode (hr : rules.Sparing all) (h : s.InCode all stop) :
    Reports 3 stop.openers s (Grammar.code rules stop) fun _ => State.BehindCode all stop :=
  .collect (progress_codeRound hr.alongside stop) (fun _ => hr.codeRound) h

/-! ### Enum constants -/

theorem Rules.Sparing.constantRound (hr : rules.Sparing all) (h : s.Between all) :
    Reports 3 [] s (constantRound rules) fun r => Passes (State.Between all) (State.Between all) r.2 := by
  refine .step (reports_modifiers h.toSteady) (Nat.zero_le 3) fun _ s₁ h₁ hs₁ => .get ?_
  have hbetween₁ := h.skip hs₁ h₁
  have hsemicolon {own : List Span} {found : List Member} {s' : State} (h' : s'.Between all) :
      Reports 3 own s' (do let _ ← accept .semicolon; return (found, false))
        fun r => Passes (State.Between all) (State.Between all) r.2 :=
    .accept h'.toSteady (fun _ _ hread => .pure hread.fresh.between) fun _ => .pure h'
  split
  next name start rest hs =>
    refine .step (reports_advance hs₁.toOnce) (Nat.zero_le 3) fun _ s₂ _ hpost₂ => ?_
    refine .step (reports_fresh hpost₂.1.toSteady) (Nat.zero_le 3) fun id s₃ h₃ hpost₃ => ?_
    have hbetween₃ := hpost₂.1.between.skip hpost₃.1 h₃
    refine .take hpost₃.1 (fun opener s₄ hopen => ?_) fun _ => ?_
    all_goals
      extract_lets fromBody
      have hbody (arguments : List CodeItem) (s₅ : State) (h₅ : s₅.Between all) :
          Reports 3 [] s₅ (fromBody arguments) fun r => Passes (State.Between all) (State.Between all) r.2 := by
        refine .bind (hr.anonymousBody h₅.toSteady) fun body s₆ _ hpost => .here ?_
        have h₆ : s₆.Between all := ⟨hpost.1, hpost.2 h₅.settled⟩
        refine .accept h₆.toSteady (fun _ _ hread => .pure hread.fresh.between) fun _ => ?_
        exact hsemicolon h₆
    · refine .bind (hr.closed .paren hopen.fresh.between hopen.opened) fun arguments s₅ _ hpost => ?_
      exact (hbody arguments s₅ ⟨hpost.toSteady, hpost.settled trivial⟩).release nofun
    · exact hbody [] s₃ hbetween₃
  next => exact hsemicolon hbetween₁

/-! ### Operations and fields -/

theorem reports_skipThrows (h : s.Steady all) : Reports 0 [] s skipThrows fun _ => State.Steady all := by
  have hround (s : State) (h : s.Steady all) :
      Reports 0 [] s throwsRound (Passes (State.Steady all) (State.Steady all)) := by
    refine .get ?_
    split
    iterate 3 exact .pure h
    · exact (reports_advance h.toOnce).bind fun _ _ _ hpost => .pure hpost.1.toSteady
  exact .accept h (fun _ _ hread => .skipWhile progress_throwsRound hround hread.fresh.toSteady) fun _ => .pure h

theorem Rules.Sparing.operationBody (hr : rules.Sparing all) (h : s.Between all) (hsilent : s.Silent .expectedMethodBody) :
    Reports 3 [] s (operationBody? rules) fun _ => State.Between all := by
  refine .step (reports_skipThrows h.toSteady) (Nat.zero_le 3) fun _ s₁ h₁ hs₁ => .get ?_
  have hbetween₁ := h.skip hs₁ h₁
  split
  next hs => exact (hr.block hs₁ hs).bind fun _ _ _ hpost => .pure hpost
  next hs => exact .step (reports_advance hs₁.toOnce) (Nat.zero_le 3) fun _ _ _ hpost => .pure hpost.1.between
  next hs =>
    refine .step (reports_advance hs₁.toOnce) (Nat.zero_le 3) fun _ s₂ _ hpost => ?_
    exact (hr.toSemicolon hpost.1.between).bind fun _ _ _ hpost => .pure hpost
  next l span rest _ _ _ hs =>
    have hready : s₁.Ready all .expectedMethodBody := (h.toOnce.silent h₁ (by decide) hsilent).ready hs
    have hreport := reports_missing hs₁ hready rfl nofun fun _ _ => trivial
    rw [State.here_of_rest hs] at hreport
    refine hreport.bind fun _ s₂ _ hpost => .pure ⟨hpost.1, fun l' hl' hmem => ?_⟩
    rw [hpost.2.1] at hl'
    rw [hpost.2.2] at hmem
    exact hbetween₁.settled l' hl' ((List.mem_cons.mp hmem).resolve_left nofun)
  next => exact .pure hbetween₁

theorem Rules.Sparing.constructor (hr : rules.Sparing all) (h : s.Steady all) (heading : Heading)
    (start : ConstructorStart) :
    Reports 3 [] s (constructorDecl rules heading start) fun _ => State.Between all := by
  refine .step (reports_advance h.toOnce) (Nat.zero_le 3) fun _ s₁ _ hpost => ?_
  have hs₁ := hpost.1
  extract_lets fromBody
  have hbody (ps : List Parameter) (s₂ : State) (hs₂ : s₂.Between all) (hsilent : s₂.Silent .expectedMethodBody) :
      Reports 3 [] s₂ (fromBody ps) fun _ => State.Between all := by
    refine .step (reports_fresh hs₂.toSteady) (Nat.zero_le 3) fun id s₃ h₃ hpost => ?_
    have hsilent₃ := hs₂.toOnce.silent h₃ (by decide) hsilent
    exact (hr.operationBody (hs₂.skip hpost.1 h₃) hsilent₃).bind fun _ _ _ hpost => .pure hpost
  cases start with
  | ownParameters =>
    refine .step (reports_parameters hs₁.toSteady (hs₁.silent _)) (by decide) fun ps s₂ h₂ hpost => ?_
    exact hbody ps s₂ ⟨hpost.1, hpost.2⟩ (hs₁.toOnce.silent h₂ (by decide) (hs₁.silent _))
  | components ps => exact hbody ps s₁ hs₁.between (hs₁.silent _)

theorem reports_squareRound (h : s.Steady all) :
    Reports 0 [] s squareRound (Passes (State.Steady all) (State.Steady all)) := by
  refine .accept h (fun _ s₁ hread => ?_) fun _ => .pure h
  exact (reports_accept hread.fresh.toSteady _).bind fun _ _ _ hs₂ => .pure hs₂

theorem Rules.Sparing.method (hr : rules.Sparing all) {written : String} {span : Span} (h : s.Steady all)
    (hname : '$' ∈ written.toList →
      (∀ l ∈ s.rest, l.span ≠ span) ∧ ⟨.dollarInName written, span⟩ ∉ s.reported)
    (htype : s.Silent .expectedType) (hbody : s.Silent .expectedMethodBody) :
    Reports 3 [] s (methodDecl rules written span) fun _ => State.Between all := by
  refine .step (reports_declaredName h hname) (by decide) fun name s₁ h₁ hpost₁ => ?_
  refine .step (reports_fresh hpost₁.1) (Nat.zero_le 3) fun id s₂ h₂ hpost₂ => ?_
  have hto₂ : s.Since 1 [] s₂ := h₁.trans (h₂.mono (by decide))
  have hsilent₂ := h.toOnce.silent hto₂ (by decide) htype
  refine .step (reports_parameters hpost₂.1 hsilent₂) (by decide) fun ps s₃ h₃ hpost₃ => ?_
  refine .step (.skipWhile progress_squareRound (fun _ => reports_squareRound) hpost₃.1) (Nat.zero_le 3) ?_
  intro _ s₄ h₄ hs₄
  have hbetween₄ : s₄.Between all := State.Between.skip ⟨hpost₃.1, hpost₃.2⟩ hs₄ h₄
  have hto₄ : s.Since 2 [] s₄ := (hto₂.mono (by decide)).trans (h₃.trans (h₄.mono (by decide)))
  have hsilent₄ := h.toOnce.silent hto₄ (by decide) hbody
  exact (hr.operationBody hbetween₄ hsilent₄).bind fun _ _ _ hpost => .pure hpost

theorem Rules.Sparing.operationOrField (hr : rules.Sparing all) (h : s.Steady all)
    (hready : s.Ready all .expectedType) (heading : Heading) (isStatic : Bool) :
    Reports 3 [] s (operationOrField? rules heading isStatic) fun _ => State.Between all := by
  refine .step (reports_skipAnyAngles h) (Nat.zero_le 3) fun _ s₁ h₁ hs₁ => .get ?_
  split
  next start _ => exact (hr.constructor hs₁ heading start).bind fun _ _ _ hpost => .pure hpost
  next =>
    have hready₁ := h.toOnce.ready hs₁.toOnce h₁ (by decide) hready
    refine .step (reports_type hs₁ hready₁) (by decide) fun r s₂ _ hpost => ?_
    obtain ⟨hs₂, hbehind⟩ := hpost
    cases r with
    | none => exact .step (reports_advance hs₂.toOnce) (Nat.zero_le 3) fun _ _ _ hpost => .pure hpost.1.between
    | some text =>
      have hbehind := hbehind rfl
      refine .step (reports_name hs₂ (hbehind.ready .type (by decide)) nofun) (by decide) fun r s₃ h₃ hpost => ?_
      obtain ⟨hs₃, hname⟩ := hpost
      have htype := hs₂.toOnce.silent h₃ (by decide) (hbehind.silent .expectedType (by decide))
      have hbody := hs₂.toOnce.silent h₃ (by decide) (hbehind.silent .expectedMethodBody (by decide))
      refine .isAt (fun span rest hs => ?_) fun _ => ?_
      · exact (hr.method hs₃ hname.unreported htype hbody).bind fun _ _ _ hpost => .pure hpost
      · exact (hr.toSemicolon ⟨hs₃, htype.settled⟩).bind fun _ _ _ hpost => .pure hpost

/-! ### Members -/

theorem Rules.Sparing.memberNode (hr : rules.Sparing all) (h : s.Between all)
    (hready : ∀ l, s.rest.head? = some l → l.token ≠ .opener .brace → s.Ready all .expectedType)
    (heading : Heading) (isStatic : Bool) :
    Reports 3 [] s (memberNode? rules heading isStatic) fun _ => State.Between all := by
  refine .get ?_
  split
  · exact .pure h
  next hs => exact (hr.block h.toSteady hs).bind fun _ _ _ hpost => .pure hpost
  next hnil hbrace =>
    split
    next hstart =>
      refine .bind (hr.typeDecl h.toSteady) fun _ _ _ hpost => .pure ⟨hpost.1, hpost.2 fun he => ?_⟩
      rw [he] at hstart
      cases hstart
    next =>
      obtain ⟨⟨t, span⟩, rest, hs⟩ := List.exists_cons_of_ne_nil hnil
      refine hr.operationOrField h.toSteady (hready ⟨t, span⟩ (by rw [hs]; rfl) fun ht => ?_) heading isStatic
      obtain rfl : t = .opener .brace := ht
      exact hbrace span rest hs

theorem Rules.Sparing.member (hr : rules.Sparing all) (h : s.Between all)
    (hhead : ∀ l, s.rest.head? = some l → l.token ≠ .closer .brace ∧ l.token ≠ .semicolon) (heading : Heading) :
    Reports 3 [] s (member? rules heading) fun _ => State.Between all := by
  refine .here (.step (reports_modifiers h.toSteady) (Nat.zero_le 3) fun isStatic s₁ h₁ hs₁ => ?_)
  refine .bind (hr.memberNode (h.skip hs₁ h₁) (fun l hl hbrace hmem => ?_) heading isStatic) ?_
  · obtain ⟨rest, hs⟩ := List.head?_eq_some_iff.mp hl
    rw [State.here_of_rest hs] at hmem ⊢
    have hmem := (h₁.layer _ hmem).resolve_right (Nat.not_succ_le_zero 1)
    rcases h₁.head? hl with hl | hbehind
    · obtain ⟨hcloser, hsemicolon⟩ := hhead l hl
      have hsquare := ((h.settled l hl hmem).resolve_left hbrace).resolve_left hcloser |>.resolve_left hsemicolon
      obtain ⟨t, span⟩ := l
      obtain rfl : t = .closer .square := hsquare
      exact .square (hs₁.suffix.subset (hs ▸ List.mem_cons_self))
    · exact absurd rfl (h.behind _ hmem l hbehind)
  · exact fun _ _ _ hpost => .here (.pure hpost)

theorem Rules.Sparing.memberRound (hr : rules.Sparing all) (h : s.Between all) (heading : Heading) {opener : Span}
    (hopen : s.Open opener) :
    Reports 3 [opener] s (memberRound rules heading opener) fun r =>
      Passes (fun s' => s'.Between all ∧ s'.Open opener) (State.Between all) r.2 := by
  refine .get ?_
  split
  · exact .step (reports_advance h.toOnce) (Nat.zero_le 3) fun _ _ _ hpost => .pure hpost.1.between
  · refine .step (reports_advance h.toOnce) (Nat.zero_le 3) fun _ s₁ h₁ hpost => .pure ?_
    exact ⟨hpost.1.between, hopen.since h₁ List.not_mem_nil⟩
  next hnil =>
    have hreport := reports_unclosed (p := .unclosedBrace) h.toSteady hopen rfl (List.mem_singleton_self opener)
    refine .bind (hreport.level (Nat.zero_le 3)) fun _ s₁ _ hpost => .pure ⟨hpost.1, .of_nil (hpost.2.trans hnil)⟩
  next hcloser hsemicolon _ =>
    refine .step (hr.member h (fun l hl => ?_) heading) (Nat.le_refl 3) fun node s₁ h₁ hpost => .pure ?_
    · obtain ⟨rest, hs⟩ := List.head?_eq_some_iff.mp hl
      obtain ⟨t, span⟩ := l
      refine ⟨fun ht => ?_, fun ht => ?_⟩
      · obtain rfl : t = .closer .brace := ht
        exact hcloser span rest hs
      · obtain rfl : t = .semicolon := ht
        exact hsemicolon span rest hs
    · exact ⟨hpost, hopen.since h₁ List.not_mem_nil⟩

theorem Rules.Sparing.readClassBody (hr : rules.Sparing all) (h : s.BeforeBody all) (heading : Heading) :
    Reports 3 [] s (Grammar.classBody rules heading) fun _ => State.Between all := by
  refine .take h.toSteady (fun opener s₁ hread => ?_) fun hno => ?_
  · dsimp -zeta only
    extract_lets fromMembers
    have hmembers (constants : List Member) (s₂ : State) (h₂ : s₂.Between all) (hopen : s₂.Open opener) :
        Reports 3 [opener] s₂ (fromMembers constants) fun _ => State.Between all := by
      have hround (s : State) (hs : s.Between all ∧ s.Open opener) := hr.memberRound hs.1 heading hs.2
      exact .bind (.collect (progress_memberRound hr.alongside heading opener) hround ⟨h₂, hopen⟩)
        fun _ _ _ hpost => .pure hpost
    split
    · have hconstants : Reports 3 [] s₁ (collect (Grammar.constantRound rules)) fun _ => State.Between all :=
        .collect (progress_constantRound hr.alongside) (fun _ => hr.constantRound) hread.fresh.between
      refine .step hconstants (Nat.le_refl 3) fun constants s₂ h₂ hs₂ => ?_
      exact hmembers constants s₂ hs₂ (hread.opened.since h₂ List.not_mem_nil)
    · exact hmembers [] s₁ hread.fresh.between hread.opened
  · have hstand (l : Lexeme) (hl : s.rest.head? = some l) : Problem.expectedClassBody.MayStand l.token := by
      refine (h.body l hl).resolve_left fun ht => ?_
      obtain ⟨rest, hs⟩ := List.head?_eq_some_iff.mp hl
      obtain ⟨t, span⟩ := l
      obtain rfl : t = .opener .brace := ht
      exact hno span rest hs
    refine .here (.bind (reports_missing h.toSteady h.ready rfl nofun hstand) fun _ s₁ _ hpost => .pure ⟨hpost.1, ?_⟩)
    intro l hl hmem
    rw [hpost.2.1] at hl
    exact (h.body l hl).imp_right fun hl => hl.symm.imp_right .inl

theorem Rules.Sparing.succ (hr : rules.Sparing all) :
    Rules.Sparing all ⟨fun heading => Grammar.classBody rules heading, fun stop => Grammar.code rules stop⟩ where
  alongside n := by
    cases n with
    | zero => exact .zero
    | succ n => exact (hr.alongside n).succ
  classBody heading h := hr.readClassBody h heading
  code h _ := hr.readCode h

/-- Rules of every depth are. -/
theorem sparing_rules (all : Lexemes) : ∀ n, (Grammar.rules n).Sparing all
  | 0 =>
    { alongside := fun _ => ⟨fun _ _ => .pure rfl, fun _ _ => .pure rfl⟩
      classBody := fun _ h => .pure h.toBetween
      code := fun h hsettled => .pure ⟨h.toSteady, hsettled⟩ }
  | n + 1 => (sparing_rules all n).succ

/-! ## Units -/

theorem reports_package (h : State.Once all { rest := all.list }) :
    Reports 3 [] { rest := all.list } package fun _ => State.Steady all := by
  have hsteady : State.Steady all { rest := all.list } := ⟨h, fun _ _ _ hmem => absurd hmem List.not_mem_nil⟩
  refine .step (reports_modifiers hsteady) (Nat.zero_le 3) fun _ s₁ h₁ hs₁ => ?_
  refine .accept hs₁ (fun span s₂ hread => ?_) fun _ => .pure hs₁
  have hready : s₂.Ready all (.expectedIdentifier .packageWord) := by
    intro hmem
    rw [hread.reported] at hmem
    rcases h₁.layer _ hmem with hmem | hlayer
    · exact absurd hmem List.not_mem_nil
    · exact absurd hlayer (Nat.not_succ_le_zero 0)
  refine .step (reports_dottedName hread.fresh.toSteady hready nofun) (by decide) fun names s₃ _ hs₃ => ?_
  exact .step (reports_accept hs₃ _) (Nat.zero_le 3) fun _ _ _ hs₄ => .pure hs₄

theorem reports_importRound (h : s.Steady all) :
    Reports 0 [] s importRound (Passes (State.Steady all) (State.Steady all)) := by
  refine .get ?_
  split
  · exact .pure h
  · refine .accept h (fun _ _ hread => .pure hread.fresh.toSteady) fun _ => ?_
    exact (reports_advance h.toOnce).bind fun _ _ _ hpost => .pure hpost.1.toSteady

theorem reports_skipImports (h : s.Steady all) : Reports 0 [] s skipImports fun _ => State.Steady all := by
  have hround (s : State) (h : s.Steady all) :
      Reports 0 [] s importsRound (Passes (State.Steady all) (State.Steady all)) := by
    refine .accept h (fun _ s₁ hread => ?_) fun _ => .pure h
    exact (Reports.skipWhile progress_importRound (fun _ => reports_importRound) hread.fresh.toSteady).bind
      fun _ _ _ hpost => .pure hpost
  exact .skipWhile progress_importsRound hround h

theorem Rules.Sparing.topLevelRound (hr : rules.Sparing all) (h : s.Steady all) :
    Reports 3 [] s (topLevelRound rules) fun r => Passes (State.Steady all) (State.Steady all) r.2 := by
  refine .get ?_
  split
  · exact .pure h
  refine .accept h (fun _ _ hread => .pure hread.fresh.toSteady) fun _ => ?_
  refine .step (reports_modifiers h) (Nat.zero_le 3) fun _ s₁ _ hs₁ => .get ?_
  split
  · exact .pure hs₁
  next lexeme after hs =>
    split
    · exact (hr.typeDecl hs₁).bind fun _ _ _ hpost => .pure hpost.1
    · refine .next hs₁ hs fun s₂ hread => ?_
      have hnew : ⟨.expectedDeclaration, lexeme.span⟩ ∉ s₂.reported := fun hmem =>
        hs₁.next lexeme hread.head? .expectedDeclaration (hread.reported ▸ hmem)
      exact (reports_past hread.fresh.toSteady hread.opened.read hnew nofun nofun).bind fun _ _ _ hpost => .pure hpost.1

theorem Rules.Sparing.compilationUnit (hr : rules.Sparing all) :
    Reports 3 [] { rest := all.list } (compilationUnit rules) fun _ => State.Steady all := by
  refine .bind (reports_package (State.Once.start all)) fun package s₁ _ hs₁ => ?_
  refine .step (reports_skipImports hs₁) (Nat.zero_le 3) fun _ s₂ _ hs₂ => ?_
  exact .bind (.collect (progress_topLevelRound hr.alongside) (fun _ => hr.topLevelRound) hs₂)
    fun _ _ _ hpost => .pure hpost

end Rules

end Grammar

/-! ## Diagnostics as they are told -/

/-- All there is to say of a diagnostic. -/
def Diagnostic.told (d : Diagnostic) : Level × String × String × List Label :=
  (d.problem.level, d.problem.code, d.problem.message, d.labels)

theorem Anchor.eq_of_phrase {a b : Anchor} (h : a.phrase = b.phrase) : a = b := by
  cases a <;> cases b <;> first | rfl | exact absurd h (by decide)

/-- The problems that the grammar reports are told apart by their codes, messages and hints. -/
theorem Problem.eq_of_told {p q : Problem} (hp : p.layer ≤ 3) (hcode : p.code = q.code)
    (hmessage : p.message = q.message) (hhint : p.hint = q.hint) : p = q := by
  cases p
  case duplicateName => exact absurd hp (Nat.not_succ_le_self 3)
  case expectedIdentifier after =>
    cases q with
    | expectedIdentifier after' =>
      have hphrase := (String.append_right_inj _).mp (Option.some.inj hhint)
      exact congrArg expectedIdentifier (Anchor.eq_of_phrase hphrase)
    | _ =>
      dsimp only [code] at hcode
      exact absurd hcode (by decide)
  case dollarInName name =>
    cases q with
    | dollarInName name' =>
      exact congrArg dollarInName ((String.append_right_inj _).mp ((String.append_left_inj _).mp hmessage))
    | _ =>
      dsimp only [code] at hcode
      exact absurd hcode (by decide)
  -- the bodies that are missing share a code, but no message
  all_goals
    cases q <;> first
      | rfl
      | (dsimp only [code] at hcode; exact absurd hcode (by decide))
      | (dsimp only [message] at hmessage; exact absurd hmessage (by decide))

theorem Diagnostic.eq_of_told {d d' : Diagnostic} (hd : d.problem.layer ≤ 3) (h : d.told = d'.told) : d = d' := by
  obtain ⟨-, hcode, hmessage, hlabels⟩ := by simpa only [told, Prod.mk.injEq] using h
  obtain ⟨hlabel, -⟩ := List.cons.inj hlabels
  obtain ⟨-, hspan, hhint⟩ := Label.mk.inj hlabel
  have hproblem := Problem.eq_of_told hd hcode hmessage hhint
  obtain ⟨problem, span⟩ := d
  obtain ⟨problem', span'⟩ := d'
  exact congrArg₂ Diagnostic.mk hproblem hspan

namespace CompilationUnit

open Grammar

variable {lexemes : List Lexeme}

/-- What the grammar reports about the tokens of a text that has any. -/
theorem reports_ofLexemes (all : Lexemes) :
    (∀ d ∈ (ofLexemes all.list).2, d.problem.layer ≤ 3) ∧
      (ofLexemes all.list).2.Pairwise (fun d d' => d = d' → d.Repeats all.list) ∧
      ∀ after, ∀ l ∈ all.list, ⟨.expectedIdentifier after, l.span⟩ ∈ (ofLexemes all.list).2 →
        ∀ name, l.token = .identifier name → after ≠ .typeKeyword ∧ all.list.getLast? = some l := by
  obtain ⟨hsince, hsteady⟩ := (sparing_rules all all.list.length).compilationUnit
  refine ⟨fun d hd => ?_, List.pairwise_reverse.mpr (hsteady.once.imp fun {d d'} h he => ?_), ?_⟩
  · exact (hsince.layer d (List.mem_reverse.mp hd)).resolve_left List.not_mem_nil
  · exact he ▸ h he.symm
  · exact fun after l hl hd => hsteady.unnamed after l hl (List.mem_reverse.mp hd)

/-- **Nothing is reported twice**, apart from the few problems that two rules find at one token. Whatever
the text, two of its messages are alike in all they say only if they are one of these. -/
theorem parse_told (text : String) :
    (parse text).2.Pairwise fun d d' => d.told = d'.told → d.Repeats (lex text) := by
  rw [parse]
  by_cases hnil : lex text = []
  · rw [hnil, ofLexemes_nil]
    exact .nil
  · obtain ⟨hlayer, honce, -⟩ := reports_ofLexemes ⟨lex text, hnil, (lex_isPartition text).inOrder⟩
    exact honce.imp_of_mem fun {d d'} hd _ h htold => h (Diagnostic.eq_of_told (hlayer d hd) htold)

/-- The body of a class is missed by its header, and again behind that. -/
theorem parse_missingBody : ¬ ((parse "class A ;").2.map Diagnostic.told).Nodup := by
  have hreported : (parse "class A ;").2 = [⟨.expectedClassBody, ⟨8, 9⟩⟩, ⟨.expectedClassBody, ⟨8, 9⟩⟩] := by cbv
  rw [hreported]
  decide

/-- So are the other problems that may repeat, each where its two rules meet. -/
example : ["@ @", "@..", "class A \x7b void f(,", "enum E \x7b A(new ]"].map
    (fun text => decide (parse text).2.Nodup) = [false, false, false, false] := by cbv

end CompilationUnit

end Nomenclator
