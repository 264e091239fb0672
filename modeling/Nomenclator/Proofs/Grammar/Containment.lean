/-
Errors are contained: whatever stands between the braces of a class, reading
its body ends with its closing brace.

The parser enters a pair of braces only through a block or a class body, and
the loop of either ends at a closing brace or with the text. What these loops
run through stays inside the braces, so the closing brace that they end at is
their own. At the top level, one class after the other is then read.

All this is so for careful recovery only: where the type of a member is
missing, and among exceptions, the grammar itself reads braces, too.
-/
import Mathlib
import Nomenclator.Proofs.Grammar.Recovery
import Nomenclator.Proofs.Grammar.Shape
import Nomenclator.Proofs.Grammar.Stays

namespace Nomenclator

namespace Grammar

variable {α β : Type} {n : Nat} {s : State}

/-! ## Pairs of braces -/

/-- Right before an opening brace, the parser reads up to its closing brace and this one, too. -/
structure Enters (n : Nat) (s : State) (p : Parser α) : Prop where
  leads : s.Leads (p s).2
  post : s.rest.length ≤ n → ∀ between, Within between s.rest.tail → (p s).2.rest = between

theorem Enters.congr {p q : Parser α} (hq : Enters n s q) (he : p s = q s) : Enters n s p := by
  obtain ⟨hleads, hpost⟩ := hq
  rw [← he] at hleads hpost
  exact ⟨hleads, hpost⟩

/-- What reads a pair of braces stays inside those around it. -/
theorem Enters.advances {p : Parser α} (h : Enters n s p) {span : Span} {rest : List Lexeme}
    (hs : s.rest = ⟨.opener .brace, span⟩ :: rest) : Advances n s p := by
  refine ⟨h.leads, fun hn tail hw => ?_⟩
  rw [hs] at hw
  obtain ⟨between, hinner, houter⟩ := hw.enter
  have hrest := h.post hn between (by rwa [hs])
  rw [hrest, hs]
  exact ⟨houter, Nat.lt_succ_of_lt hinner.length_lt⟩

theorem Carries.enters {f : Unit → Parser β} {span : Span} {rest : List Lexeme}
    (hs : s.rest = ⟨.opener .brace, span⟩ :: rest) (hf : ∀ s', Exits n s' (f ())) :
    Enters (n + 1) s (Grammar.advance >>= f) := by
  obtain ⟨hrest, hlt⟩ := State.advance_cons hs
  have h := hf s.advance
  have hleads := moves_advance s
  refine ⟨hleads.trans h.leads, fun hn between hw => ?_⟩
  rw [hs, List.tail_cons, ← hrest] at hw
  exact h.post (by omega) between hw

/-! ## Code -/

/-- How code ends inside braces that `tail` comes behind: a block ends with them, other code does not. -/
def CodeEnd.Ends (stop : CodeEnd) (tail rest : List Lexeme) : Prop :=
  match stop with
  | .close .brace _ => rest = tail
  | _ => Within tail rest

/-- What the rules read is contained, if at most `n` tokens are left. -/
structure Rules.Contained (n : Nat) (rules : Rules) : Prop where
  classBody : ∀ heading s, Stays n s (rules.classBody heading)
  code : ∀ stop s, Carries n s (rules.code stop) fun tail _ s' => stop.Ends tail s'.rest

section

variable {rules : Rules}

/-! ### Type declarations -/

theorem typeStart?_eq_some {lexemes : List Lexeme} {kind : TypeKind} (h : typeStart? lexemes = some kind) :
    ∃ l rest, lexemes = l :: rest ∧ l.token.isBrace = false ∧
      (kind = .annotationType → ∃ l' rest', rest = l' :: rest' ∧ l'.token.isBrace = false) := by
  rcases typeStart?_cases h with ⟨_, _, _, -, rfl⟩ | ⟨_, _, _, hkind, -, -, rfl⟩ | ⟨_, _, _, _, _, rfl, rfl⟩
  · exact ⟨_, _, rfl, rfl, fun _ => ⟨_, _, rfl, rfl⟩⟩
  · exact ⟨_, _, rfl, rfl, fun hk => absurd hk hkind⟩
  · exact ⟨_, _, rfl, rfl, nofun⟩

theorem isSome_typeStart?_of_isTypeKeyword {k : Keyword} (hk : k.isTypeKeyword = true) (span : Span)
    (rest : List Lexeme) : (typeStart? (⟨.keyword k, span⟩ :: rest)).isSome = true := by
  cases k with
  | classKw | interfaceKw | enumKw => rfl
  | _ => exact absurd hk nofun

theorem isSome_typeStart?_of_startsRecord {lexemes : List Lexeme} (h : startsRecord lexemes = true) :
    (typeStart? lexemes).isSome = true := by
  rw [typeStart?.eq_def]
  split
  iterate 4 rfl
  · rw [if_pos h]
    rfl

theorem Rules.Contained.typeDecl (h : rules.Contained n) (hs : (typeStart? s.rest).isSome = true) :
    Advances (n + 1) s (typeDecl? rules) := by
  obtain ⟨kind, hkind⟩ := Option.isSome_iff_exists.mp hs
  obtain ⟨l, rest, hrest, hl, hannotation⟩ := typeStart?_eq_some hkind
  refine .get ?_
  rw [hkind]
  refine .here ?_
  extract_lets fromKeyword
  have hkeyword {s' : State} {l : Lexeme} {rest : List Lexeme} (hs : s'.rest = l :: rest)
      (hl : l.token.isBrace = false) : Advances (n + 1) s' (fromKeyword ()) := by
    refine .advance hs hl fun s₁ _ => .bind stays_fresh fun id s₂ _ => ?_
    refine .bind (stays_identifier _) fun r s₃ _ => .bind (stays_declaredName _ _) fun name s₄ _ => ?_
    refine .bind (stays_components kind) fun comps s₅ _ => .bind stays_skipHeader fun _ s₆ _ => ?_
    exact .bind (h.classBody _ s₆) fun ms s₇ _ => .bind stays_here fun _ _ _ => .pure
  split
  next hk =>
    obtain ⟨l', rest', hrest', hl'⟩ := hannotation hk
    refine .advance hrest hl fun s₁ h₁ => ?_
    exact ((hkeyword (h₁.trans hrest') hl').level (Nat.le_succ n)).stays
  next => exact hkeyword hrest hl

theorem Rules.Contained.anonymousBody (h : rules.Contained n) :
    Stays n s (anonymousBody? rules) :=
  .isAt (fun _ _ _ => .bind (h.classBody _ s) fun _ _ _ => .pure) fun _ => .pure

/-! ### Blocks, lambdas and allocations -/

theorem Rules.Contained.advances_block (h : rules.Contained n) {span : Span} {rest : List Lexeme}
    (hs : s.rest = ⟨.opener .brace, span⟩ :: rest) : Advances (n + 1) s (block rules) := by
  refine .take (fun span' rest' hs' => ?_) fun hno => absurd hs (hno span rest)
  have hread := Carries.enters (f := fun _ => rules.code (.close .brace span')) hs' fun s' => h.code _ s'
  exact hread.advances hs'

theorem Rules.Contained.block (h : rules.Contained n) (s : State) :
    Stays n s (block rules) := by
  refine .take (fun span rest hs => ?_) fun _ => ?_
  · have hread := Carries.enters (f := fun _ => rules.code (.close .brace span)) hs fun s' => h.code _ s'
    exact ((hread.advances hs).level (Nat.le_succ n)).stays
  · exact .bind stays_here fun _ _ _ => .bind (stays_report _ _) fun _ _ _ => .pure

theorem Rules.Contained.lambda (h : rules.Contained n) (hs : startsLambda s.rest = true) :
    Advances (n + 1) s (lambda rules) := by
  refine .here (.fresh fun s₁ h₁ => ?_)
  rw [← h₁] at hs ⊢
  refine .lower (Nat.le_refl _) (advances_toArrow hs) fun _ s₂ => ?_
  refine .bind (.of_rest_eq (moves_isAt _) rfl) fun b s₃ _ => ?_
  extract_lets fromBody
  have hbody (code : List CodeItem) (s' : State) : Stays n s' (fromBody code) :=
    .bind stays_here fun _ _ _ => .pure
  split
  · exact .bind (h.block s₃) fun code s₄ _ => hbody code s₄
  · exact .bind (h.code .expression s₃) fun code s₄ _ => hbody code s₄

theorem Rules.Contained.allocation (h : rules.Contained n) {k : Keyword} {span : Span}
    {rest : List Lexeme} (hs : s.rest = ⟨.keyword k, span⟩ :: rest) :
    Advances (n + 1) s (allocation? rules) := by
  refine .here (.advance hs rfl fun s₁ _ => ?_)
  refine .bind stays_skipAnyAngles fun _ s₂ _ => .bind stays_type fun type s₃ _ => ?_
  cases type with
  | none => exact .pure
  | some type =>
    refine .bind (stays_take rfl) fun opener s₄ _ => ?_
    cases opener with
    | none => exact .pure
    | some opener =>
      refine .bind stays_fresh fun id s₅ _ => .bind (h.code (.close .paren opener) s₅) fun _ s₆ _ => ?_
      refine .bind h.anonymousBody fun body s₇ _ => .bind stays_here fun _ _ _ => .pure

/-! ### Stretches of code -/

theorem Rules.Contained.localType (h : rules.Contained n) (hs : (typeStart? s.rest).isSome = true) :
    Advances (n + 1) s (localType? rules) := .lower (Nat.le_refl _) (h.typeDecl hs) fun _ _ => .pure

theorem rounds_pass {ends : List Lexeme → List Lexeme → Prop}
    (hopener : ∀ span rest, s.rest = ⟨.opener .brace, span⟩ :: rest → False)
    (hcloser : ∀ span rest, s.rest = ⟨.closer .brace, span⟩ :: rest → False) :
    Rounds (n + 1) s pass ends :=
  .again ((Carries.next (f := Pure.pure) hopener hcloser fun _ => .pure).congr rfl)

theorem CodeEnd.ends_of_within {stop : CodeEnd} (h : ∀ opener, stop ≠ .close .brace opener)
    {tail rest : List Lexeme} (hw : Within tail rest) : stop.Ends tail rest := by
  cases stop with
  | close bracket opener =>
    cases bracket with
    | brace => exact absurd rfl (h opener)
    | paren | square => exact hw
  | semicolon | expression => exact hw

/-- A closing bracket ends the code that it is meant for. -/
theorem exits_closing {bracket : Bracket} {opener span : Span} {rest : List Lexeme}
    (hs : s.rest = ⟨.closer bracket, span⟩ :: rest) :
    Carries n s advance fun tail _ s' => (CodeEnd.close bracket opener).Ends tail s'.rest := by
  refine ⟨moves_advance s, fun _ tail hw => ?_⟩
  rw [hs] at hw
  show CodeEnd.Ends _ tail s.advance.rest
  rw [(State.advance_cons hs).1]
  cases bracket with
  | brace => exact hw.eq_tail
  | paren | square => exact hw.of_not_brace rfl

theorem rounds_closing (stop : CodeEnd) {bracket : Bracket} {span : Span} {rest : List Lexeme}
    (hs : s.rest = ⟨.closer bracket, span⟩ :: rest) :
    Rounds (n + 1) s (closing stop bracket) stop.Ends := by
  have hpass (hb : bracket ≠ .brace) :
      Rounds (n + 1) s pass stop.Ends := by
    refine rounds_pass (fun _ _ he => absurd (hs.symm.trans he) nofun) fun _ _ he => hb ?_
    cases hs.symm.trans he
    rfl
  cases stop with
  | close expected opener =>
    rw [closing]
    split
    next heq =>
      subst heq
      exact .last (exits_closing hs)
    split
    next hne hbrace => exact hpass fun he => hne (he.trans hbrace.symm)
    next hbrace =>
      have hends (opener' : Span) : CodeEnd.close expected opener ≠ .close .brace opener' :=
        fun he => hbrace (CodeEnd.close.inj he).1
      exact .last ((stays_report _ _).mono fun _ _ _ _ hw => CodeEnd.ends_of_within hends hw)
  | semicolon =>
    rw [closing]
    split
    · exact .ended fun _ hw => hw
    next hb => exact hpass hb
  | expression => exact .ended fun _ hw => hw

theorem rounds_semicolon (stop : CodeEnd) {span : Span} {rest : List Lexeme}
    (hs : s.rest = ⟨.semicolon, span⟩ :: rest) :
    Rounds (n + 1) s (semicolon stop) stop.Ends := by
  cases stop with
  | close => exact .again (advances_advance hs rfl)
  | semicolon => exact .last (advances_advance hs rfl).stays
  | expression => exact .ended fun _ hw => hw

theorem Rules.Contained.keyword (h : rules.Contained n) {ends : List Lexeme → List Lexeme → Prop}
    {k : Keyword} {span : Span} {rest : List Lexeme} (hs : s.rest = ⟨.keyword k, span⟩ :: rest) :
    Rounds (n + 1) s (keyword rules k) ends := by
  refine .get ?_
  dsimp only
  split
  · exact .again (advances_skipLabel hs)
  split
  · exact .again (h.allocation hs)
  split
  next htype =>
    refine .again (h.localType ?_)
    rw [hs]
    rw [Bool.and_eq_true] at htype
    exact isSome_typeStart?_of_isTypeKeyword htype.1 span rest
  · exact .again (advances_advance hs rfl)

/-- A group, with what it holds. -/
theorem Rules.Contained.advances_group (h : rules.Contained n) {bracket : Bracket} {span : Span}
    {rest : List Lexeme} (hs : s.rest = ⟨.opener bracket, span⟩ :: rest) :
    Advances (n + 1) s (do advance; rules.code (.close bracket span)) := by
  cases bracket with
  | brace => exact (Carries.enters hs fun s' => h.code (.close .brace span) s').advances hs
  | paren => exact .advance hs rfl fun s' _ => h.code (.close .paren span) s'
  | square => exact .advance hs rfl fun s' _ => h.code (.close .square span) s'

theorem Rules.Contained.codeRound (h : rules.Contained n) (stop : CodeEnd) (s : State) :
    Rounds (n + 1) s (codeRound rules stop) stop.Ends := by
  refine .get ?_
  split
  next hs =>
    refine .of_nil ?_ hs
    cases stop with
    | close bracket opener => exact ((moves_reportUnclosed _ _).bind fun _ => Moves.pure _) s
    | semicolon | expression => exact .refl s
  next hs => exact rounds_closing stop hs
  next hs => exact rounds_semicolon stop hs
  next hs =>
    split
    next hstop =>
      subst hstop
      exact .ended fun _ hw => hw
    next => exact .again (advances_advance hs rfl)
  next hs => exact h.keyword hs
  next lexeme after hcloser hsemicolon hcomma hkeyword hs =>
    split
    next hlambda =>
      rw [← hs] at hlambda
      exact .again (h.lambda hlambda)
    split
    next hrecord =>
      rw [← hs] at hrecord
      exact .again (h.localType (isSome_typeStart?_of_startsRecord hrecord))
    split
    next bracket hopener =>
      have hgroup : s.rest = ⟨.opener bracket, lexeme.span⟩ :: after := by rw [hs, ← hopener]
      have hread : Rounds (n + 1) s
          (do return (← (do advance; rules.code (.close bracket lexeme.span)), true)) stop.Ends :=
        .again (h.advances_group hgroup)
      exact hread.congr rfl
    next hopener =>
      refine rounds_pass (fun span rest he => ?_) fun span rest he => ?_
      · exact hopener .brace (congrArg Lexeme.token (List.cons.inj (hs.symm.trans he)).1)
      · exact hcloser .brace span (List.cons.inj (hs.symm.trans he)).1

theorem Rules.Contained.readCode (h : rules.Contained n) (stop : CodeEnd) (s : State) :
    Carries (n + 1) s (Grammar.code rules stop) fun tail _ s' => stop.Ends tail s'.rest :=
  .collectTo (h.codeRound stop) s

/-! ### Enum constants -/

theorem Rules.Contained.constantRound (h : rules.Contained n) (s : State) :
    Stays n s (constantRound rules) := by
  refine .bind stays_modifiers fun _ s₁ _ => .get ?_
  split
  next name start rest hs =>
    refine .step hs rfl fun s₂ _ => .bind stays_fresh fun id s₃ _ => ?_
    refine .bind (stays_take rfl) fun opener s₄ _ => ?_
    extract_lets fromBody
    have hbody (arguments : List CodeItem) (s' : State) : Stays n s' (fromBody arguments) := by
      refine .bind h.anonymousBody fun body s₅ _ => .bind stays_here fun stop s₆ _ => ?_
      refine .bind (stays_accept rfl) fun b s₇ _ => ?_
      split
      · exact .pure
      · exact .bind (stays_accept rfl) fun _ _ _ => .pure
    cases opener with
    | none => exact hbody [] s₄
    | some opener =>
      exact .bind (h.code (.close .paren opener) s₄) fun arguments s₅ _ => hbody arguments s₅
  next => exact .bind (stays_accept rfl) fun _ _ _ => .pure

/-! ### Operations and fields -/

theorem stays_exceptions (s : State) : Stays n s Recovery.careful.exceptions := by
  refine .get ?_
  split
  · exact .pure
  next hcloser =>
    refine .get ?_
    split
    iterate 3 exact .pure
    next hopener _ _ => exact .skip hopener hcloser fun _ => .pure

theorem stays_skipThrows : Stays n s Recovery.careful.skipThrows :=
  .accept (fun _ _ hs => .step hs rfl fun s₁ _ => .skipWhile stays_exceptions s₁) fun _ => .pure

/-- For a missing type a token is read unless a brace comes next. -/
theorem advances_missingType :
    AdvancesUnless [.opener .brace, .closer .brace] n s Recovery.careful.missingType := by
  have hstop {l : Lexeme} {rest : List Lexeme} (hs : s.rest = l :: rest)
      (hl : l.token ∈ [Token.opener .brace, .closer .brace]) :
      AdvancesUnless [.opener .brace, .closer .brace] n s (pure ()) :=
    ⟨.refl s, fun _ _ hw => ⟨hw, fun hnext => absurd hl (hnext l (by rw [hs]; rfl))⟩⟩
  refine .get ?_
  split
  next hs => exact hstop hs (List.mem_cons_self ..)
  next hs => exact hstop hs (List.mem_cons_of_mem _ (List.mem_cons_self ..))
  next hopener hcloser =>
    have hread := Carries.next (n := n) (f := Pure.pure) hopener hcloser fun _ => .pure
    have hadvance : Advances (n + 1) s advance := hread.congr rfl
    exact (hadvance.level (Nat.le_succ n)).advancesUnless _

theorem Rules.Contained.operationBody (h : rules.Contained n) (s : State) :
    Stays n s (Recovery.careful.operationBody? rules) := by
  refine .bind stays_skipThrows fun _ s₁ _ => .get ?_
  split
  · exact .bind (h.block s₁) fun _ _ _ => .pure
  next hs => exact .step hs rfl fun _ _ => .pure
  next hs => exact .step hs rfl fun s₂ _ => .bind (h.code .semicolon s₂) fun _ _ _ => .pure
  · exact .bind (stays_report _ _) fun _ _ _ => .pure
  · exact .pure

theorem Rules.Contained.method (h : rules.Contained n) (written : String) (span : Span) (s : State) :
    Stays n s (Recovery.careful.methodDecl rules written span) := by
  refine .bind (stays_declaredName _ _) fun name s₁ _ => .bind stays_fresh fun id s₂ _ => ?_
  refine .bind stays_parameters fun ps s₃ _ => ?_
  refine .bind (.skipWhile (fun _ => stays_squareRound) s₃) fun _ s₄ _ => ?_
  exact .bind (h.operationBody s₄) fun _ _ _ => .pure

theorem constructorStart?_cons {heading : Heading} {lexemes : List Lexeme} {start : ConstructorStart}
    (h : constructorStart? heading lexemes = some start) :
    ∃ l rest, lexemes = l :: rest ∧ l.token.isBrace = false := by
  rw [constructorStart?.eq_def] at h
  split at h
  · exact ⟨_, _, rfl, rfl⟩
  · cases h

theorem Rules.Contained.constructor (h : rules.Contained n) {heading : Heading}
    {start : ConstructorStart} (hstart : constructorStart? heading s.rest = some start) :
    Advances n s (Recovery.careful.constructorDecl rules heading start) := by
  obtain ⟨l, rest, hs, hl⟩ := constructorStart?_cons hstart
  refine Carries.level (.advance hs hl fun s₁ _ => ?_) (Nat.le_succ n)
  extract_lets fromParameters
  have hparameters (ps : List Parameter) (s' : State) : Stays n s' (fromParameters ps) :=
    .bind stays_fresh fun id s₂ _ => .bind (h.operationBody s₂) fun _ _ _ => .pure
  cases start with
  | ownParameters => exact .bind stays_parameters fun ps s₂ _ => hparameters ps s₂
  | components ps => exact hparameters ps s₁

theorem Rules.Contained.operationOrField (h : rules.Contained n) (heading : Heading) (isStatic : Bool)
    (s : State) :
    AdvancesUnless [.opener .brace, .closer .brace] n s
      (Recovery.careful.operationOrField? rules heading isStatic) := by
  refine .later stays_skipAnyAngles fun _ s₁ => .get ?_
  split
  next start hstart => exact (Carries.first (h.constructor hstart) fun _ _ => .pure).advancesUnless _
  next =>
    refine .unlessFound carries_type (fun type s₂ hfound => ?_) fun type s₂ hnot => ?_
    · obtain ⟨text, rfl⟩ := Option.isSome_iff_exists.mp hfound
      refine .bind (stays_identifier _) fun r s₃ _ => .bind (.of_rest_eq (moves_isAt _) rfl) fun b s₄ _ => ?_
      split
      · exact .bind (h.method _ _ s₄) fun _ _ _ => .pure
      · exact .bind (h.code .semicolon s₄) fun _ _ _ => .pure
    · obtain rfl := Option.not_isSome_iff_eq_none.mp hnot
      have hread := advances_missingType (n := n) (s := s₂)
      exact ⟨hread.leads, hread.post⟩

/-! ### Members -/

theorem head_token_ne {t : Token} {rest : List Lexeme} (h : ∀ span after, rest = ⟨t, span⟩ :: after → False) :
    ∀ l ∈ rest.head?, l.token ≠ t := by
  rintro l hl rfl
  obtain ⟨after, hrest⟩ := List.head?_eq_some_iff.mp hl
  exact h l.span after hrest

/-- A member that does not begin with the closing brace of its class reads a token: at an opening brace its
block, otherwise what it begins with. -/
theorem Rules.Contained.memberNode (h : rules.Contained n) (heading : Heading) (isStatic : Bool) (s : State) :
    AdvancesUnless [.closer .brace] n s (Recovery.careful.memberNode? rules heading isStatic) := by
  refine .get ?_
  split
  next hs => exact .of_nil (.refl s) hs
  next hs =>
    exact (Carries.first ((h.advances_block hs).level (Nat.le_succ n)) fun _ _ => .pure).advancesUnless _
  next hopener =>
    split
    next hstart =>
      exact (Carries.first ((h.typeDecl hstart).level (Nat.le_succ n)) fun _ _ => .pure).advancesUnless _
    next =>
      refine (h.operationOrField heading isStatic s).mono fun _ _ _ _ hread => ?_
      refine ⟨hread.1, fun hnext => hread.2 fun l hl hmem => ?_⟩
      rcases List.mem_cons.mp hmem with ht | hmem
      · exact head_token_ne hopener l hl ht
      · exact hnext l hl hmem

theorem Rules.Contained.member (h : rules.Contained n) (heading : Heading) (s : State) :
    AdvancesUnless [.closer .brace] n s (Recovery.careful.member? rules heading) := by
  refine .later stays_here fun start s₁ => .later stays_modifiers fun isStatic s₂ => ?_
  have hread := h.memberNode heading isStatic s₂
  exact ⟨hread.leads, hread.post⟩

theorem Rules.Contained.memberRound (h : rules.Contained n) (heading : Heading) (opener : Span)
    (s : State) :
    Rounds n s (Recovery.careful.memberRound rules heading opener) (CodeEnd.close .brace opener).Ends := by
  refine .get ?_
  split
  next hs => exact .last (exits_closing hs)
  next hs => exact .again (advances_advance hs rfl)
  next hs => exact .of_nil ((moves_report _ _).bind (fun _ => Moves.pure _) s) hs
  next hcloser _ _ =>
    refine .again ((h.member heading s).mono fun _ _ _ _ hread => ⟨hread.1, hread.2 fun l hl hmem => ?_⟩)
    exact head_token_ne hcloser l hl (List.mem_singleton.mp hmem)

theorem Rules.Contained.enters_classBody (h : rules.Contained n) (heading : Heading) {span : Span}
    {rest : List Lexeme} (hs : s.rest = ⟨.opener .brace, span⟩ :: rest) :
    Enters (n + 1) s (Recovery.careful.classBody rules heading) := by
  refine (Carries.enters hs fun s₁ => ?_).congr (take?_bind_of_cons hs)
  dsimp -zeta only
  extract_lets fromMembers
  have hmembers (constants : List Member) (s' : State) : Exits n s' (fromMembers constants) :=
    .map (.collectTo (h.memberRound heading span) s')
  split
  · exact .bind (.collect h.constantRound s₁) fun constants s₂ _ => hmembers constants s₂
  · exact hmembers [] s₁

theorem Rules.Contained.readClassBody (h : rules.Contained n) (heading : Heading) (s : State) :
    Stays (n + 1) s (Recovery.careful.classBody rules heading) := by
  by_cases hbrace : ∃ span rest, s.rest = ⟨.opener .brace, span⟩ :: rest
  · obtain ⟨span, rest, hs⟩ := hbrace
    exact ((h.enters_classBody heading hs).advances hs).stays
  · refine .take (fun span rest hs => absurd ⟨span, rest, hs⟩ hbrace) fun _ => ?_
    exact .bind stays_here fun _ _ _ => .bind (stays_report _ _) fun _ _ _ => .pure

/-- Rules of some depth are contained in what has no more tokens. -/
theorem contained_rules : ∀ n : Nat, (Recovery.careful.rules n).Contained n
  | 0 => ⟨fun _ _ => .pure, fun _ s => ⟨.refl s, fun hn _ hw =>
      absurd (List.length_eq_zero_iff.mp (Nat.le_zero.mp hn)) hw.ne_nil⟩⟩
  | n + 1 =>
    have h := contained_rules n
    ⟨fun heading s => h.readClassBody heading s, fun stop s => h.readCode stop s⟩

end

/-! ## Units -/

section

variable {rules : Rules} {start : Span} {rest : List Lexeme}
  (hs : s.rest = ⟨.keyword .classKw, start⟩ :: rest)
include hs

theorem modifiers_of_class : modifiers s = (false, s) := by
  obtain ⟨previous, _, nextId, reported⟩ := s
  obtain rfl := hs
  exact iterate_of_done rfl

theorem package_of_class : package s = ([], s) := by
  rw [package, bind_of_eq (modifiers_of_class hs)]
  obtain ⟨previous, _, nextId, reported⟩ := s
  obtain rfl := hs
  rfl

theorem skipImports_of_class : skipImports s = ((), s) := by
  obtain ⟨previous, _, nextId, reported⟩ := s
  obtain rfl := hs
  exact skipWhile_of_false rfl

theorem topLevelRound_of_class {decl : TypeDecl} {s' : State} (h : typeDecl? rules s = (some decl, s')) :
    topLevelRound rules s = (([decl], true), s') := by
  have hget : (get : Parser State) s = (s, s) := rfl
  have hempty : s.rest.isEmpty ≠ true := by rw [hs]; exact Bool.false_ne_true
  have haccept : accept .semicolon s = (false, s) := by
    obtain ⟨previous, _, nextId, reported⟩ := s
    obtain rfl := hs
    rfl
  rw [topLevelRound, bind_of_eq hget, if_neg hempty, bind_of_eq haccept, if_neg Bool.false_ne_true,
    bind_of_eq (modifiers_of_class hs), bind_of_eq hget, hs]
  exact bind_of_eq (f := fun found => pure (found.toList, true)) h

end

theorem declaredName_eq (written : String) (span : Span) (s : State) :
    ∃ reported, declaredName written span s = (plainName written, { s with reported }) := by
  rw [declaredName]
  split <;> exact ⟨_, rfl⟩

/-- A class is read up to its body, whose members are its own. -/
theorem typeDecl?_of_class (rules : Rules) {name : String} {start place opener : Span} {after : List Lexeme}
    (hs : s.rest =
      ⟨.keyword .classKw, start⟩ :: ⟨.identifier name, place⟩ :: ⟨.opener .brace, opener⟩ :: after) :
    ∃ s' id span, s'.rest = ⟨.opener .brace, opener⟩ :: after ∧ typeDecl? rules s =
        (some (.mk id .classType (plainName name) (rules.classBody ⟨.classType, name, none⟩ s').1 span),
          (rules.classBody ⟨.classType, name, none⟩ s').2) := by
  obtain ⟨previous, _, nextId, reported⟩ := s
  obtain rfl := hs
  let atName : State :=
    ⟨some ⟨.identifier name, place⟩, ⟨.opener .brace, opener⟩ :: after, nextId + 1, reported⟩
  obtain ⟨reported', hname⟩ := declaredName_eq name place atName
  let atBody : State := { atName with reported := reported' }
  have hsteps : typeDecl? rules
      ⟨previous, ⟨.keyword .classKw, start⟩ :: ⟨.identifier name, place⟩ :: ⟨.opener .brace, opener⟩ :: after,
        nextId, reported⟩ =
      (do
        let plain ← declaredName name place
        skipHeader
        let members ← rules.classBody ⟨.classType, name, none⟩
        return some (TypeDecl.mk nextId .classType plain members (start.join (← here)))) atName := rfl
  have hheader : skipHeader atBody = ((), atBody) := skipWhile_of_false rfl
  refine ⟨atBody, nextId, start.join (rules.classBody ⟨.classType, name, none⟩ atBody).2.here, rfl, ?_⟩
  rw [hsteps, bind_of_eq hname, bind_of_eq hheader]
  rfl

/-- A class at the top level is read up to its own closing brace. -/
theorem contained_class (n : Nat) {name : String} {start place opener : Span} {after : List Lexeme}
    (hs : s.rest =
      ⟨.keyword .classKw, start⟩ :: ⟨.identifier name, place⟩ :: ⟨.opener .brace, opener⟩ :: after)
    (hn : s.rest.length ≤ n + 1) {tail : List Lexeme} (hw : Within tail after) :
    ∃ decl s', topLevelRound (Recovery.careful.rules (n + 1)) s = (([decl], true), s') ∧
      (decl.kind, decl.name) = (.classType, plainName name) ∧ s'.rest = tail := by
  obtain ⟨s₁, id, span, hs₁, hdecl⟩ := typeDecl?_of_class (Recovery.careful.rules (n + 1)) hs
  have hrules : (Recovery.careful.rules n).Contained n := contained_rules n
  have hbody := hrules.enters_classBody ⟨.classType, name, none⟩ hs₁
  refine ⟨_, _, topLevelRound_of_class hs hdecl, rfl, hbody.post ?_ tail (by rwa [hs₁])⟩
  rw [hs, List.length_cons, List.length_cons] at hn
  rw [hs₁]
  omega

/-- Classes of these names one after the other, each of whose bodies ends right before the next one. -/
inductive Classes : List String → List Lexeme → Prop
  | nil : Classes [] []
  | cons {name start place opener body tail names} (hbody : Within tail body) (h : Classes names tail) :
    Classes (name :: names)
      (⟨.keyword .classKw, start⟩ :: ⟨.identifier name, place⟩ :: ⟨.opener .brace, opener⟩ :: body)

theorem Classes.of_tokens {name : String} {names : List String} {lexemes : List Lexeme} {m ts : List Token}
    (hm : Balanced m)
    (htokens : lexemes.map Lexeme.token =
      .keyword .classKw :: .identifier name :: .opener .brace :: (m ++ .closer .brace :: ts))
    (h : ∀ tail : List Lexeme, tail.map Lexeme.token = ts → Classes names tail) :
    Classes (name :: names) lexemes := by
  obtain ⟨⟨_, start⟩, lexemes, rfl, rfl, hname⟩ := List.map_eq_cons_iff.mp htokens
  obtain ⟨⟨_, place⟩, lexemes, rfl, rfl, hopener⟩ := List.map_eq_cons_iff.mp hname
  obtain ⟨⟨_, opener⟩, lexemes, rfl, rfl, hbody⟩ := List.map_eq_cons_iff.mp hopener
  obtain ⟨body, lexemes, rfl, hinner, hcloser⟩ := List.map_eq_append_iff.mp hbody
  obtain ⟨⟨_, closer⟩, tail, rfl, rfl, htail⟩ := List.map_eq_cons_iff.mp hcloser
  exact .cons (.of_balanced hm hinner closer tail) (h tail htail)

theorem collect_classes {names : List String} {lexemes : List Lexeme} (h : Classes names lexemes)
    (hs : s.rest = lexemes) (hn : s.rest.length ≤ n + 1) :
    (collect (topLevelRound (Recovery.careful.rules (n + 1))) s).1.map (fun decl => (decl.kind, decl.name)) =
      names.map fun name => (.classType, plainName name) := by
  induction h generalizing s with
  | nil =>
    obtain ⟨previous, _, nextId, reported⟩ := s
    obtain rfl := hs
    have hround : topLevelRound (Recovery.careful.rules (n + 1)) ⟨previous, [], nextId, reported⟩ =
        (([], false), ⟨previous, [], nextId, reported⟩) := rfl
    rw [collect_of_false hround]
    rfl
  | cons hbody h ih =>
    obtain ⟨decl, s', hround, hdecl, hs'⟩ := contained_class n hs hn hbody
    have hlt : s'.rest.length < s.rest.length := by
      have hshorter := hbody.length_lt
      rw [hs', hs, List.length_cons, List.length_cons, List.length_cons]
      omega
    rw [collect_of_true hround hlt, List.map_append, List.map_cons, List.map_cons, hdecl]
    exact congrArg (_ :: ·) (ih hs' (Nat.le_trans (Nat.le_of_lt hlt) hn))

end Grammar

namespace CompilationUnit

open Grammar

theorem careful_classes {name : String} {names : List String} {lexemes : List Lexeme}
    (h : Classes (name :: names) lexemes) :
    (Recovery.careful.ofLexemes lexemes).1.types.map (fun decl => (decl.kind, decl.name)) =
      (name :: names).map fun name => (.classType, plainName name) := by
  obtain ⟨n, hn⟩ : ∃ n, lexemes.length = n + 1 := by
    cases h
    exact ⟨_, rfl⟩
  have hunit : (Recovery.careful.ofLexemes lexemes).1 =
      ⟨[], (collect (topLevelRound (Recovery.careful.rules (n + 1))) { rest := lexemes }).1⟩ := by
    rw [Recovery.ofLexemes, hn, compilationUnit]
    cases h with
    | cons =>
      rw [bind_of_eq (package_of_class rfl), bind_of_eq (skipImports_of_class rfl)]
      rfl
  rw [hunit]
  exact collect_classes h rfl (Nat.le_of_eq hn)

/-- A class with these tokens for its body, and an empty class behind it. -/
def twoClasses (a b : String) (m : List Token) : List Token :=
  .keyword .classKw :: .identifier a :: .opener .brace ::
    (m ++ [.closer .brace, .keyword .classKw, .identifier b, .opener .brace, .closer .brace])

/-- **Errors are contained**, but for two places. The grammar is what it is with blind recovery. With careful
recovery in its place, whatever stands in the body of a class, if its brackets are properly nested, the class
ends with its closing brace, and the class behind it is read as one of its own. So an error gets out of a
class only where a brace is read for a missing type or among exceptions, and that gives another tree. -/
theorem ofLexemes_contained {lexemes : List Lexeme} {a b : String} {m : List Token} (hm : Balanced m)
    (htokens : lexemes.map Lexeme.token = twoClasses a b m) :
    Recovery.blind.ofLexemes lexemes = ofLexemes lexemes ∧
      (Recovery.careful.ofLexemes lexemes).1.types.map (fun decl => (decl.kind, decl.name)) =
        [(.classType, plainName a), (.classType, plainName b)] ∧
      ((Recovery.careful.ofLexemes lexemes).1 = (ofLexemes lexemes).1 →
        (ofLexemes lexemes).1.types.map (fun decl => (decl.kind, decl.name)) =
          [(.classType, plainName a), (.classType, plainName b)]) := by
  have hclasses : Classes [a, b] lexemes := by
    refine .of_tokens hm htokens fun tail htail => .of_tokens .nil htail fun tail htail => ?_
    rw [List.map_eq_nil_iff.mp htail]
    exact .nil
  have hcareful := careful_classes hclasses
  exact ⟨congrFun Recovery.ofLexemes_blind lexemes, hcareful, fun hsame => hsame ▸ hcareful⟩

/-- A parameter list, an allocation and what follows a name of a class run into braces, and exceptions are
announced where there is no operation. -/
def brokenText : String := "class A { void f({ }) { Foo x = new } void g() { throws } class } class B { }"

def brokenBody : List Token :=
  [.identifier "void", .identifier "f", .opener .paren, .opener .brace, .closer .brace, .closer .paren,
    .opener .brace, .identifier "Foo", .identifier "x", .equal, .keyword .newKw, .closer .brace,
    .identifier "void", .identifier "g", .opener .paren, .closer .paren,
    .opener .brace, .keyword .throwsKw, .closer .brace, .keyword .classKw]

theorem parse_brokenText :
    Balanced brokenBody ∧
      (lex brokenText).map Lexeme.token = twoClasses "A" "B" brokenBody ∧
      (Recovery.careful.ofLexemes (lex brokenText)).1 = (parse brokenText).1 ∧
      (parse brokenText).1.types.map (fun decl => (decl.kind, decl.name)) =
        [(.classType, plainName "A"), (.classType, plainName "B")] := by
  have hcode : Balanced [.identifier "Foo", .identifier "x", .equal, .keyword .newKw] :=
    .token rfl (.token rfl (.token rfl (.token rfl .nil)))
  have hrest : Balanced [.identifier "void", .identifier "g", .opener .paren, .closer .paren, .opener .brace,
      .keyword .throwsKw, .closer .brace, .keyword .classKw] :=
    .token rfl (.token rfl (.group .paren .nil (.group .brace (.token rfl .nil) (.token rfl .nil))))
  have hbody : Balanced brokenBody :=
    .token rfl (.token rfl (.group .paren (.group .brace .nil .nil) (.group .brace hcode hrest)))
  have htokens : (lex brokenText).map Lexeme.token = twoClasses "A" "B" brokenBody := by cbv
  have hsame : (Recovery.careful.ofLexemes (lex brokenText)).1 = (parse brokenText).1 := by cbv
  obtain ⟨-, -, hread⟩ := ofLexemes_contained hbody htokens
  exact ⟨hbody, htokens, hsame, hread hsame⟩

/-- **Limit.** Where the type of a member is missing, the next token is read, whatever it is. So if no member
follows its modifiers, the class does not end with its closing brace. -/
theorem parse_static :
    Balanced [.keyword .staticKw] ∧
      (lex "class A { static } class B { }").map Lexeme.token = twoClasses "A" "B" [.keyword .staticKw] ∧
      (parse "class A { static } class B { }").1.types.map TypeDecl.name = ["A"] :=
  ⟨.token rfl .nil, by cbv, by cbv⟩

/-- Nor does it if no exception follows. -/
example : (parse "class A { void f() throws } class B { }").1.types.map TypeDecl.name = ["A"] := by cbv

end CompilationUnit

end Nomenclator
