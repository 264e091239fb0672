/-
The parsers of the grammar, each alongside itself.

What is skipped, types and parameters depend on no rules. The rest is about
two meanings of the rules that go alongside as long as fewer than `n` tokens
are left. A part of the grammar that reads a token before it asks a rule
goes alongside for one token more, and so class bodies and code do.
-/
import Nomenclator.Proofs.Grammar.Alongside

namespace Nomenclator.Grammar

variable {f : Relocation} {n : Nat} {s : State}

/-! ## Skipping -/

/-- The answer does not depend on the token that is read. -/
theorem echoes_read {α : Type} (a : α) : Echoes f n s (do advance; return a) (do advance; return a) :=
  .same echoes_advance fun _ _ _ => .pure rfl

def Openers.relocate (f : Relocation) (openers : Openers) : Openers :=
  openers.map fun (bracket, opener) => (bracket, f.map opener)

theorem Openers.close_relocate (bracket : Bracket) (openers : Openers) :
    (openers.relocate f).close bracket = (openers.close bracket).relocate f := by
  cases openers with
  | nil => rfl
  | cons innermost outer =>
    simp only [relocate, List.map_cons, close]
    split <;> rfl

theorem Openers.turn_relocate (openers : Openers) :
    openers.turn.Rel (fun o o' => o' = o.relocate f) (openers.relocate f).turn := by
  cases openers with
  | nil => exact .done rfl
  | cons => exact .again rfl

theorem alongside_groupRound (openers : Openers) :
    Alongside f n s (groupRound openers) (groupRound (openers.relocate f)) fun t t' _ =>
      t.Rel (fun o o' => o' = o.relocate f) t' := by
  obtain ⟨previous, rest, nextId, reported⟩ := s
  refine .get ?_
  cases rest with
  | nil =>
    cases openers with
    | nil => exact .pure (.done rfl)
    | cons innermost outer =>
      exact .same (echoes_reportUnclosed innermost.1 innermost.2) fun _ _ _ => .pure (.done rfl)
  | cons l rest =>
    obtain ⟨t, span⟩ := l
    cases t with
    | opener b => exact .same echoes_advance fun _ _ _ => .pure (.again rfl)
    | closer b =>
      refine .same echoes_advance fun _ _ _ => .pure ?_
      rw [Openers.close_relocate]
      exact (openers.close b).turn_relocate
    | _ => exact .same echoes_advance fun _ _ _ => .pure openers.turn_relocate

theorem echoes_skipGroup : Echoes f n s skipGroup skipGroup :=
  .bind (Alongside.iterate (R := fun o o' => o' = o.relocate f)
    (fun _ _ _ h => h ▸ alongside_groupRound _) rfl s) fun _ _ _ _ _ => .pure rfl

theorem echoes_dottedRound : Echoes f n s dottedRound dottedRound :=
  .same (echoes_accept _) fun _ _ _ => .ite
    (fun _ => .mapped (maps_identifier _) fun _ _ _ => .pure rfl)
    fun _ => .pure rfl

theorem echoes_dottedName (after : Anchor) : Echoes f n s (dottedName after) (dottedName after) :=
  .mapped (maps_identifier after) fun _ s' _ =>
    .same (.list (fun _ => echoes_dottedRound) s') fun _ _ _ => .pure rfl

theorem echoes_skipAnnotation : Echoes f n s skipAnnotation skipAnnotation :=
  .same (echoes_accept _) fun _ _ _ => .ite
    (fun _ => .same (echoes_dottedName _) fun _ _ _ => .same (echoes_isAt _) fun _ _ _ =>
      .ite (fun _ => echoes_skipGroup) fun _ => .pure rfl)
    fun _ => .pure rfl

theorem echoes_angleRound (opener : Span) (depth : Nat) :
    Echoes f n s (angleRound opener depth) (angleRound (f.map opener) depth) := by
  obtain ⟨previous, rest, nextId, reported⟩ := s
  refine .get ?_
  have hunclosed {s : State} : Echoes f n s
      (do report .unclosedAngle opener; return Turn.done depth)
      (do report .unclosedAngle (f.map opener); return Turn.done depth) :=
    .same (echoes_report .unclosedAngle opener) fun _ _ _ => .pure rfl
  cases rest with
  | nil => exact hunclosed
  | cons l rest =>
    obtain ⟨t, span⟩ := l
    cases t with
    | less | greater => exact echoes_read _
    | atSign => exact .same echoes_skipAnnotation fun _ _ _ => .pure rfl
    | semicolon => exact hunclosed
    | opener b =>
      cases b with
      | square => exact echoes_read _
      | _ => exact hunclosed
    | closer b =>
      cases b with
      | square => exact echoes_read _
      | _ => exact hunclosed
    | _ => exact echoes_read _

theorem echoes_skipAngles : Echoes f n s skipAngles skipAngles := by
  refine .mapped (maps_take _) fun opener s' _ => ?_
  cases opener with
  | none => exact .pure rfl
  | some opener => exact .same (.loop (fun _ _ => echoes_angleRound opener _) 1 s') fun _ _ _ => .pure rfl

theorem echoes_skipAnyAngles : Echoes f n s skipAnyAngles skipAnyAngles :=
  .same (echoes_isAt _) fun _ _ _ => .ite (fun _ => echoes_skipAngles) fun _ => .pure rfl

theorem echoes_modifierRound (isStatic : Bool) :
    Echoes f n s (modifierRound isStatic) (modifierRound isStatic) := by
  refine .get ?_
  rw [State.relocate, modifier?_relocate]
  rcases modifier? s.rest with - | m
  · exact .pure rfl
  cases m with
  | keyword | sealed => exact echoes_read _
  | nonSealed =>
    exact .same echoes_advance fun _ _ _ => .same echoes_advance fun _ _ _ => echoes_read _
  | annotated => exact .same echoes_skipAnnotation fun _ _ _ => .pure rfl

theorem echoes_modifiers : Echoes f n s modifiers modifiers :=
  .loop (fun _ _ => echoes_modifierRound _) false s

/-! ## Types and parameters -/

theorem echoes_dimensionRound (count : Nat) :
    Echoes f n s (dimensionRound count) (dimensionRound count) := by
  obtain ⟨previous, rest, nextId, reported⟩ := s
  refine .get ?_
  cases rest with
  | nil => exact .pure rfl
  | cons l rest =>
    obtain ⟨t, span⟩ := l
    cases t with
    | opener b =>
      cases b with
      | square =>
        cases rest with
        | nil => exact .pure rfl
        | cons l rest =>
          obtain ⟨t, span⟩ := l
          cases t with
          | closer b =>
            cases b with
            | square =>
              exact .same echoes_advance fun _ _ _ => echoes_read _
            | _ => exact .pure rfl
          | _ => exact .pure rfl
      | _ => exact .pure rfl
    | _ => exact .pure rfl

theorem echoes_dimensions : Echoes f n s dimensions dimensions :=
  .loop (fun _ _ => echoes_dimensionRound _) 0 s

theorem echoes_typeNameRound : Echoes f n s typeNameRound typeNameRound := by
  refine .same echoes_skipAnyAngles fun _ s _ => ?_
  obtain ⟨previous, rest, nextId, reported⟩ := s
  refine .get ?_
  cases rest with
  | nil => exact .pure rfl
  | cons l rest =>
    obtain ⟨t, span⟩ := l
    cases t with
    | dot =>
      cases rest with
      | nil => exact .pure rfl
      | cons l rest =>
        obtain ⟨t, span⟩ := l
        cases t with
        | identifier => exact .same echoes_advance fun _ _ _ => echoes_read _
        | _ => exact .pure rfl
    | _ => exact .pure rfl

theorem echoes_annotationRound : Echoes f n s annotationRound annotationRound :=
  .same (echoes_isAt _) fun _ _ _ =>
    .ite (fun _ => .same echoes_skipAnnotation fun _ _ _ => .pure rfl) fun _ => .pure rfl

/-- A type takes at least one token. -/
theorem alongside_type : Alongside f n s type? type? fun r r' s' =>
    r' = r ∧ (r ≠ none → s'.rest.length < s.rest.length) := by
  refine .same (.skipWhile (fun _ => echoes_annotationRound) s) fun _ s₁ h₁ => ?_
  have hle := h₁.length_le
  obtain ⟨previous, rest, nextId, reported⟩ := s₁
  refine .get ?_
  have hmissing {s₁ : State} : Alongside f n s₁
      (do report .expectedType (← here); return (none : Option String))
      (do report .expectedType (← here); return none)
      fun r r' s' => r' = r ∧ (r ≠ none → s'.rest.length < s.rest.length) :=
    .mapped maps_here fun span _ _ => .same (echoes_report .expectedType span) fun _ _ _ =>
      .pure ⟨rfl, (absurd rfl ·)⟩
  cases rest with
  | nil => exact hmissing
  | cons l rest =>
    obtain ⟨t, span⟩ := l
    cases t with
    | identifier first =>
      refine .bind alongside_advance fun _ _ s₂ _ h₂ => ?_
      refine .same (.list (fun _ => echoes_typeNameRound) s₂) fun names s₃ h₃ => ?_
      refine .same echoes_dimensions fun count s₄ h₄ => .pure ⟨rfl, fun _ => ?_⟩
      have hrest : s₂.rest.length = rest.length := by rw [h₂]; rfl
      have hlast := (h₃.trans h₄).length_le
      simp only [List.length_cons] at hle
      omega
    | _ => exact hmissing

theorem echoes_type : Echoes f n s type? type? := alongside_type.mono fun _ _ _ _ h => h.1

theorem echoes_skipParameters : Echoes f n s skipParameters skipParameters := by
  refine .skipWhile (fun s => ?_) s
  obtain ⟨previous, rest, nextId, reported⟩ := s
  refine .get ?_
  cases rest with
  | nil => exact .pure rfl
  | cons l rest =>
    obtain ⟨t, span⟩ := l
    cases t with
    | closer b =>
      cases b with
      | paren => exact echoes_read _
      | brace => exact .pure rfl
      | square => exact echoes_read _
    | opener b =>
      cases b with
      | paren => exact .same echoes_skipGroup fun _ _ _ => .pure rfl
      | brace => exact .pure rfl
      | square => exact echoes_read _
    | semicolon => exact .pure rfl
    | _ => exact echoes_read _

theorem echoes_parameter : Echoes f n s parameter? parameter? := by
  refine .same echoes_modifiers fun _ _ _ => .same echoes_type fun r _ _ => ?_
  cases r with
  | none => exact .pure rfl
  | some text =>
    exact .same (echoes_accept _) fun _ _ _ => .mapped (maps_identifier _) fun _ _ _ =>
      .same echoes_dimensions fun _ _ _ => .pure rfl

theorem echoes_parameterRound (opener : Span) :
    Echoes f n s (parameterRound opener) (parameterRound (f.map opener)) :=
  .same echoes_parameter fun _ _ _ => .same (echoes_accept _) fun _ _ _ => .ite (fun _ => .pure rfl)
    fun _ => .same (echoes_accept _) fun _ _ _ => .ite (fun _ => .pure rfl)
      fun _ => .same (echoes_report .unclosedParen opener) fun _ _ _ =>
        .same echoes_skipParameters fun _ _ _ => .pure rfl

theorem echoes_parameters : Echoes f n s parameters parameters := by
  refine .mapped (maps_take _) fun opener s₁ _ => ?_
  cases opener with
  | none => exact .pure rfl
  | some opener =>
    exact .same (echoes_accept _) fun _ s₂ _ => .ite (fun _ => .pure rfl)
      fun _ => .list (fun _ => echoes_parameterRound opener) s₂

/-! ## Declarations without bodies -/

theorem echoes_declaredName (written : String) (span : Span) :
    Echoes f n s (declaredName written span) (declaredName written (f.map span)) :=
  .ite (fun _ => .same (echoes_report (.dollarInName written) span) fun _ _ _ => .pure rfl)
    fun _ => .pure rfl

theorem echoes_skipHeader : Echoes f n s skipHeader skipHeader := by
  refine .skipWhile (fun s => ?_) s
  obtain ⟨previous, rest, nextId, reported⟩ := s
  refine .get ?_
  have hmissing {s : State} (span : Span) : Echoes f n s
      (do report .expectedClassBody span; return false)
      (do report .expectedClassBody (f.map span); return false) :=
    .same (echoes_report .expectedClassBody span) fun _ _ _ => .pure rfl
  cases rest with
  | nil => exact .pure rfl
  | cons l rest =>
    obtain ⟨t, span⟩ := l
    cases t with
    | opener b =>
      cases b with
      | brace => exact .pure rfl
      | paren => exact .same echoes_skipGroup fun _ _ _ => .pure rfl
      | square => exact echoes_read _
    | closer b =>
      cases b with
      | brace => exact hmissing span
      | _ => exact echoes_read _
    | semicolon => exact hmissing span
    | less => exact .same echoes_skipAngles fun _ _ _ => .pure rfl
    | _ => exact echoes_read _

theorem echoes_components (kind : TypeKind) : Echoes f n s (components kind) (components kind) :=
  .ite (fun _ => .same echoes_skipAnyAngles fun _ _ _ => .same echoes_parameters fun _ _ _ => .pure rfl)
    fun _ => .pure rfl

theorem echoes_arrowRound : Echoes f n s arrowRound arrowRound := by
  obtain ⟨previous, rest, nextId, reported⟩ := s
  refine .get ?_
  cases rest with
  | nil => exact .pure rfl
  | cons l rest =>
    obtain ⟨t, span⟩ := l
    cases t <;> exact echoes_read _

theorem echoes_skipLabel : Echoes f n s skipLabel skipLabel := by
  refine .same echoes_advance fun _ s _ => .skipWhile (fun s => ?_) s
  obtain ⟨previous, rest, nextId, reported⟩ := s
  refine .get ?_
  cases rest with
  | nil => exact .pure rfl
  | cons l rest =>
    obtain ⟨t, span⟩ := l
    cases t with
    | colon | arrow => exact echoes_read _
    | opener b =>
      cases b with
      | paren => exact .same echoes_skipGroup fun _ _ _ => .pure rfl
      | brace => exact .pure rfl
      | square => exact echoes_read _
    | closer b =>
      cases b with
      | brace => exact .pure rfl
      | _ => exact echoes_read _
    | semicolon => exact .pure rfl
    | _ => exact echoes_read _

theorem echoes_skipThrows : Echoes f n s skipThrows skipThrows := by
  refine .same (echoes_accept _) fun _ s _ => .ite (fun _ => .skipWhile (fun s => ?_) s) fun _ => .pure rfl
  obtain ⟨previous, rest, nextId, reported⟩ := s
  refine .get ?_
  cases rest with
  | nil => exact .pure rfl
  | cons l rest =>
    obtain ⟨t, span⟩ := l
    cases t with
    | opener b =>
      cases b with
      | brace => exact .pure rfl
      | _ => exact echoes_read _
    | semicolon => exact .pure rfl
    | _ => exact echoes_read _

theorem echoes_squareRound : Echoes f n s squareRound squareRound :=
  .same (echoes_accept _) fun _ _ _ => .ite
    (fun _ => .same (echoes_accept _) fun _ _ _ => .pure rfl)
    fun _ => .pure rfl

theorem echoes_package : Echoes f n s package package :=
  .same echoes_modifiers fun _ _ _ => .same (echoes_accept _) fun _ _ _ => .ite
    (fun _ => .same (echoes_dottedName _) fun _ _ _ => .same (echoes_accept _) fun _ _ _ => .pure rfl)
    fun _ => .pure rfl

theorem echoes_skipImports : Echoes f n s skipImports skipImports := by
  have hround (s : State) : Echoes f n s importRound importRound := by
    obtain ⟨previous, rest, nextId, reported⟩ := s
    refine .get ?_
    cases rest with
    | nil => exact .pure rfl
    | cons l rest =>
      exact .same (echoes_accept _) fun _ _ _ => .ite (fun _ => .pure rfl)
        fun _ => echoes_read _
  exact .skipWhile (fun _ => .same (echoes_accept _) fun _ s _ => .ite
    (fun _ => .same (.skipWhile hround s) fun _ _ _ => .pure rfl)
    fun _ => .pure rfl) s

/-! ## Rules -/

def CodeEnd.relocate (f : Relocation) : CodeEnd → CodeEnd
  | close bracket opener => close bracket (f.map opener)
  | stop => stop

/-- Two meanings of the rules, as long as fewer than `n` tokens are left. -/
structure Rules.Alongside (f : Relocation) (n : Nat) (rules rules' : Rules) : Prop where
  classBody (heading : Heading) (s : State) :
    Maps f n s (Member.relocateAll f) (rules.classBody heading) (rules'.classBody heading)
  code (stop : CodeEnd) (s : State) :
    Maps f n s (CodeItem.relocateAll f) (rules.code stop) (rules'.code (stop.relocate f))

section Rules

variable {rules rules' : Rules}

theorem Rules.Alongside.typeDecl (hr : rules.Alongside f n rules') :
    Maps f (n + 1) s (Option.map (TypeDecl.relocate f)) (typeDecl? rules) (typeDecl? rules') := by
  refine .get ?_
  rw [State.relocate, typeStart?_relocate]
  cases hstart : typeStart? s.rest with
  | none => exact .pure rfl
  | some kind =>
    have hne : s.rest ≠ [] := fun he => by rw [he] at hstart; exact absurd hstart nofun
    refine .bind alongside_here fun start start' s₁ _ h₁ => ?_
    obtain ⟨rfl, rfl⟩ := h₁
    -- an annotation has one token more before the rest is read
    extract_lets fromKeyword fromKeyword'
    have hkeyword {m : Nat} {s₂ : State} (hadvance : ∀ {k k' : Unit → Parser (Option TypeDecl)},
        (∀ s₃, Maps f n s₃ (Option.map (TypeDecl.relocate f)) (k ()) (k' ())) →
        Maps f m s₂ (Option.map (TypeDecl.relocate f)) (advance >>= k) (advance >>= k')) :
        Maps f m s₂ (Option.map (TypeDecl.relocate f)) (fromKeyword ()) (fromKeyword' ()) := by
      refine hadvance fun s₃ => .same echoes_fresh fun id _ _ => ?_
      refine .mapped (maps_identifier _) fun written _ _ => ?_
      refine .same (echoes_declaredName written.1 written.2) fun name _ _ => ?_
      refine .same (echoes_components kind) fun comps _ _ => .same echoes_skipHeader fun _ s₄ _ => ?_
      refine .mapped (hr.classBody ⟨kind, written.1, comps⟩ s₄) fun members _ _ => ?_
      refine .mapped maps_here fun stop _ _ => .pure ?_
      rw [Option.map_some, TypeDecl.relocate, f.map_join]
    refine .ite (fun _ => .step hne fun s₂ _ _ => ?_) fun _ => ?_
    · exact hkeyword fun h => .same echoes_advance fun _ s₃ _ => h s₃
    · exact hkeyword fun h => .step hne fun s₃ _ _ => h s₃

theorem Rules.Alongside.anonymousBody (hr : rules.Alongside f n rules') :
    Maps f n s (Option.map (Member.relocateAll f)) (anonymousBody? rules) (anonymousBody? rules') :=
  .same (echoes_isAt _) fun _ s _ => .ite
    (fun _ => .mapped (hr.classBody .anonymous s) fun _ _ _ => .pure rfl)
    fun _ => .pure rfl

/-! ## Code -/

theorem Rules.Alongside.block (hr : rules.Alongside f n rules') :
    Maps f (n + 1) s (CodeItem.relocateAll f) (block rules) (block rules') := by
  refine (alongside_take _).lower fun opener opener' s' hl h => ?_
  obtain ⟨rfl, hlt⟩ := h
  cases opener with
  | some opener => exact .inl ⟨hlt nofun, hr.code (.close .brace opener) s'⟩
  | none =>
    refine .inr (.mapped maps_here fun span s₂ _ => ?_)
    exact .same (echoes_report .expectedClassBody span) fun _ _ _ => .pure rfl

theorem Rules.Alongside.lambda (hr : rules.Alongside f n rules') (hs : s.rest ≠ []) :
    Maps f (n + 1) s (CodeItem.relocate f) (lambda rules) (lambda rules') := by
  refine .bind alongside_here fun start start' s₁ _ h₁ => ?_
  obtain ⟨rfl, rfl⟩ := h₁
  refine .bind alongside_fresh fun id id' s₂ _ h₂ => ?_
  obtain ⟨rfl, hrest⟩ := h₂
  have harrow : (skipWhile arrowRound s₂).2.rest.length < s₁.rest.length := by
    have hle := (skipWhile_arrowRound_suffix s₂).length_le
    have hpos := List.length_pos_iff.mpr hs
    rw [hrest, List.length_tail] at hle
    omega
  refine .lower (.known (K := fun _ s' => s'.rest.length < s₁.rest.length)
    (.skipWhile (fun _ => echoes_arrowRound) s₂) harrow) fun _ _ s₃ _ h₃ => .inl ⟨hrest ▸ h₃.2, ?_⟩
  refine .same (echoes_isAt _) fun _ _ _ => ?_
  extract_lets fromBody fromBody'
  have hbody (body : List CodeItem) (s : State) : Maps f n s (CodeItem.relocate f) (fromBody body)
      (fromBody' (CodeItem.relocateAll f body)) := by
    refine .mapped maps_here fun stop _ _ => .pure ?_
    rw [CodeItem.relocate, f.map_join]
  exact .ite (fun _ => .mapped (hr.block.level n.le_succ) fun body s _ => hbody body s)
    fun _ => .mapped (hr.code .expression _) fun body s _ => hbody body s

theorem Rules.Alongside.allocation (hr : rules.Alongside f n rules') (hs : s.rest ≠ []) :
    Maps f (n + 1) s (Option.map (CodeItem.relocate f)) (allocation? rules) (allocation? rules') := by
  refine .bind alongside_here fun start start' s₁ _ h₁ => ?_
  obtain ⟨rfl, rfl⟩ := h₁
  refine .step hs fun s₁ _ _ => .same echoes_skipAnyAngles fun _ _ _ => .same echoes_type fun type _ _ => ?_
  cases type with
  | none => exact .pure rfl
  | some type =>
    refine .mapped (maps_take _) fun opener _ _ => ?_
    cases opener with
    | none => exact .pure rfl
    | some opener =>
      refine .same echoes_fresh fun id s₂ _ => ?_
      refine .mapped (hr.code (.close .paren opener) s₂) fun arguments _ _ => ?_
      refine .mapped hr.anonymousBody fun body _ _ => .mapped maps_here fun stop _ _ => .pure ?_
      rw [Option.map_some, CodeItem.relocate_allocation, f.map_join]

theorem Rules.Alongside.localType (hr : rules.Alongside f n rules') :
    Maps f (n + 1) s (Option.map (CodeItem.relocate f)) (localType? rules) (localType? rules') :=
  .mapped hr.typeDecl fun decl _ _ => .pure (by cases decl <;> rfl)

theorem maps_pass : Maps f n s (Prod.map (CodeItem.relocateAll f) id) pass pass :=
  .same echoes_advance fun _ _ _ => .pure rfl

theorem maps_closing (stop : CodeEnd) (bracket : Bracket) :
    Maps f n s (Prod.map (CodeItem.relocateAll f) id) (closing stop bracket)
      (closing (stop.relocate f) bracket) := by
  cases stop with
  | close expected opener =>
    exact .ite (fun _ => .same echoes_advance fun _ _ _ => .pure rfl) fun _ => .ite (fun _ => maps_pass) fun _ =>
      .same (echoes_report .unclosedParen opener) fun _ _ _ => .pure rfl
  | semicolon => exact .ite (fun _ => .pure rfl) fun _ => maps_pass
  | expression => exact .pure rfl

theorem maps_semicolon (stop : CodeEnd) :
    Maps f n s (Prod.map (CodeItem.relocateAll f) id) (semicolon stop) (semicolon (stop.relocate f)) := by
  cases stop with
  | close => exact maps_pass
  | semicolon => exact .same echoes_advance fun _ _ _ => .pure rfl
  | expression => exact .pure rfl

theorem toList_map_relocate (item : Option CodeItem) :
    (item.map (CodeItem.relocate f)).toList = CodeItem.relocateAll f item.toList := by
  cases item <;> rfl

theorem Rules.Alongside.keyword (hr : rules.Alongside f n rules') (hs : s.rest ≠ []) (k : Keyword) :
    Maps f (n + 1) s (Prod.map (CodeItem.relocateAll f) id) (keyword rules k) (keyword rules' k) := by
  refine .get ?_
  have hprevious : (s.relocate f).previous.map (·.token) = s.previous.map (·.token) := Option.map_map ..
  rw [hprevious]
  refine .ite (fun _ => .same echoes_skipLabel fun _ _ _ => .pure rfl) fun _ => ?_
  refine .ite (fun _ => .mapped (hr.allocation hs) fun item _ _ => .pure ?_) fun _ => ?_
  · rw [toList_map_relocate]
    rfl
  refine .ite (fun _ => .mapped hr.localType fun item _ _ => .pure ?_) fun _ => maps_pass
  rw [toList_map_relocate]
  rfl

/-- A token in code that is no keyword and ends nothing. -/
theorem Rules.Alongside.codeOther (hr : rules.Alongside f n rules') (hs : s.rest ≠ [])
    {isLambda isLambda' isRecord isRecord' : Bool} (hl : isLambda' = isLambda) (hrecord : isRecord' = isRecord)
    {p p' : Parser (List CodeItem × Bool)} (hp : Maps f (n + 1) s (Prod.map (CodeItem.relocateAll f) id) p p') :
    Maps f (n + 1) s (Prod.map (CodeItem.relocateAll f) id)
      (if isLambda then do return ([← Grammar.lambda rules], true)
       else if isRecord then do return ((← localType? rules).toList, true) else p)
      (if isLambda' then do return ([← Grammar.lambda rules'], true)
       else if isRecord' then do return ((← localType? rules').toList, true) else p') := by
  refine .cond hl (fun _ => .mapped (hr.lambda hs) fun _ _ _ => .pure rfl) fun _ => ?_
  refine .cond hrecord (fun _ => .mapped hr.localType fun item _ _ => .pure ?_) fun _ => hp
  rw [toList_map_relocate]
  rfl

theorem Rules.Alongside.codeRound (hr : rules.Alongside f n rules') (stop : CodeEnd) (s : State) :
    Maps f (n + 1) s (Prod.map (CodeItem.relocateAll f) id) (codeRound rules stop)
      (codeRound rules' (stop.relocate f)) := by
  obtain ⟨previous, rest, nextId, reported⟩ := s
  refine .get ?_
  cases rest with
  | nil => 
    cases stop with
    | close bracket opener => exact .same (echoes_reportUnclosed bracket opener) fun _ _ _ => .pure rfl
    | semicolon | expression => exact .pure rfl
  | cons l rest =>
    obtain ⟨t, span⟩ := l
    cases t with
    | closer b => exact maps_closing stop b
    | semicolon => exact maps_semicolon stop
    | comma =>
      cases stop with
      | expression => exact .pure rfl
      | close | semicolon => exact maps_pass
    | keyword k => exact hr.keyword (List.cons_ne_nil _ _) k
    | opener b =>
      exact hr.codeOther (List.cons_ne_nil _ _) (startsLambda_relocate (_ :: _)) (startsRecord_relocate (_ :: _))
        (.step (List.cons_ne_nil _ _) fun s _ _ => .mapped (hr.code (.close b span) s) fun _ _ _ => .pure rfl)
    | _ =>
      exact hr.codeOther (List.cons_ne_nil _ _) (startsLambda_relocate (_ :: _)) (startsRecord_relocate (_ :: _))
        maps_pass

theorem Rules.Alongside.readCode (hr : rules.Alongside f n rules') (stop : CodeEnd) (s : State) :
    Maps f (n + 1) s (CodeItem.relocateAll f) (Grammar.code rules stop)
      (Grammar.code rules' (stop.relocate f)) :=
  .collect (CodeItem.relocateAll_append f) (hr.codeRound stop) s

/-! ## Members -/

theorem Rules.Alongside.constantRound (hr : rules.Alongside f n rules') (s : State) :
    Maps f (n + 1) s (Prod.map (Member.relocateAll f) id) (constantRound rules) (constantRound rules') := by
  refine .same echoes_modifiers fun _ s _ => ?_
  obtain ⟨previous, rest, nextId, reported⟩ := s
  refine .get ?_
  have hnone {s : State} : Maps f (n + 1) s (Prod.map (Member.relocateAll f) id)
      (do let _ ← accept .semicolon; return ([], false)) (do let _ ← accept .semicolon; return ([], false)) :=
    .same (echoes_accept _) fun _ _ _ => .pure rfl
  cases rest with
  | nil => exact hnone
  | cons l rest =>
    obtain ⟨t, start⟩ := l
    cases t with
    | identifier name =>
      refine .step (List.cons_ne_nil _ _) fun _ _ _ => .same echoes_fresh fun number _ _ => ?_
      refine .mapped (maps_take _) fun opener s _ => ?_
      extract_lets fromBody fromBody'
      have hbody (arguments : List CodeItem) (s : State) : Maps f n s (Prod.map (Member.relocateAll f) id)
          (fromBody arguments) (fromBody' (CodeItem.relocateAll f arguments)) := by
        refine .mapped hr.anonymousBody fun body _ _ => .mapped maps_here fun stop _ _ => ?_
        have hconstant (again : Bool) :
            ([Member.constant number name (CodeItem.relocateAll f arguments)
              (body.map (Member.relocateAll f)) ((f.map start).join (f.map stop))], again) =
            Prod.map (Member.relocateAll f) (fun again => again)
              ([Member.constant number name arguments body (start.join stop)], again) := by
          rw [Prod.map_apply, Member.relocateAll, Member.relocateAll, Member.relocate_constant, f.map_join]
        exact .same (echoes_accept _) fun _ _ _ => .ite (fun _ => .pure (hconstant true)) fun _ =>
          .same (echoes_accept _) fun _ _ _ => .pure (hconstant false)
      cases opener with
      | none => exact hbody [] s
      | some opener => exact .mapped (hr.code (.close .paren opener) s) fun arguments s _ => hbody arguments s
    | _ => exact hnone

theorem Rules.Alongside.operationBody (hr : rules.Alongside f n rules') :
    Maps f (n + 1) s (Option.map (CodeItem.relocateAll f)) (operationBody? rules) (operationBody? rules') := by
  refine .same echoes_skipThrows fun _ s _ => ?_
  obtain ⟨previous, rest, nextId, reported⟩ := s
  refine .get ?_
  have hmissing {s : State} (span : Span) : Maps f (n + 1) s (Option.map (CodeItem.relocateAll f))
      (do report .expectedMethodBody span; return none)
      (do report .expectedMethodBody (f.map span); return none) :=
    .same (echoes_report .expectedMethodBody span) fun _ _ _ => .pure rfl
  cases rest with
  | nil => exact .pure rfl
  | cons l rest =>
    obtain ⟨t, span⟩ := l
    cases t with
    | opener b =>
      cases b with
      | brace => exact .mapped hr.block fun _ _ _ => .pure rfl
      | _ => exact hmissing span
    | semicolon => exact .same echoes_advance fun _ _ _ => .pure rfl
    | keyword k =>
      cases k with
      | defaultKw =>
        exact .step (List.cons_ne_nil _ _) fun s _ _ => .mapped (hr.code .semicolon s) fun _ _ _ => .pure rfl
      | _ => exact hmissing span
    | _ => exact hmissing span

/-- A member that lacks only its place. -/
abbrev Places (f : Relocation) (n : Nat) (s : State) (p p' : Parser (Span → Member)) : Prop :=
  Alongside f n s p p' fun m m' _ => ∀ span, m' (f.map span) = (m span).relocate f

theorem Rules.Alongside.constructorDecl (hr : rules.Alongside f n rules') (hs : s.rest ≠ [])
    (heading : Heading) (start : ConstructorStart) :
    Places f (n + 1) s (constructorDecl rules heading start) (constructorDecl rules' heading start) := by
  refine .step hs fun _ _ _ => ?_
  extract_lets fromId fromId'
  have hbody (parameters : List Parameter) (s : State) :
      Places f n s (fromId parameters) (fromId' parameters) :=
    .same echoes_fresh fun _ _ _ => .mapped (hr.operationBody.level n.le_succ) fun _ _ _ =>
      .pure fun _ => (Member.relocate_operation ..).symm
  cases start with
  | ownParameters => exact .same echoes_parameters fun parameters s _ => hbody parameters s
  | components parameters => exact hbody parameters _

theorem Rules.Alongside.methodDecl (hr : rules.Alongside f n rules') (written : String) (span : Span) :
    Places f (n + 1) s (methodDecl rules written span) (methodDecl rules' written (f.map span)) :=
  .same (echoes_declaredName written span) fun _ _ _ => .same echoes_fresh fun _ _ _ =>
    .same echoes_parameters fun _ s _ => .same (.skipWhile (fun _ => echoes_squareRound) s) fun _ _ _ =>
      .mapped hr.operationBody fun _ _ _ => .pure fun _ => (Member.relocate_operation ..).symm

/-- Both find a member, or none. -/
abbrev PlacesIfAny (f : Relocation) (n : Nat) (s : State) (p p' : Parser (Option (Span → Member))) : Prop :=
  Alongside f n s p p' fun m m' _ => ∀ span, m'.map (· (f.map span)) = (m.map (· span)).map (Member.relocate f)

theorem Rules.Alongside.operationOrField (hr : rules.Alongside f n rules') (heading : Heading)
    (isStatic : Bool) :
    PlacesIfAny f (n + 1) s (operationOrField? rules heading isStatic)
      (operationOrField? rules' heading isStatic) := by
  refine .same echoes_skipAnyAngles fun _ s₁ _ => .get ?_
  rw [State.relocate, constructorStart?_relocate]
  cases hstart : constructorStart? heading s₁.rest with
  | some start =>
    have hne : s₁.rest ≠ [] := fun he => by rw [he] at hstart; exact absurd hstart nofun
    exact .bind (hr.constructorDecl hne heading start) fun _ _ _ _ h => .pure fun span => congrArg some (h span)
  | none =>
    refine .lower alongside_type fun _ type s₂ _ h => ?_
    obtain ⟨rfl, hlt⟩ := h
    cases type with
    | none => exact .inr (.same echoes_advance fun _ _ _ => .pure fun _ => rfl)
    | some type =>
      refine .inl ⟨hlt nofun, .mapped (maps_identifier _) fun name _ _ => ?_⟩
      refine .same (echoes_isAt _) fun _ s _ => .ite (fun _ => ?_) fun _ => ?_
      · exact .bind ((hr.methodDecl name.1 name.2).level n.le_succ) fun _ _ _ _ h =>
          .pure fun span => congrArg some (h span)
      · exact .mapped (hr.code .semicolon s) fun _ _ _ => .pure fun _ => rfl

theorem Rules.Alongside.memberNode (hr : rules.Alongside f n rules') (heading : Heading) (isStatic : Bool) :
    PlacesIfAny f (n + 1) s (memberNode? rules heading isStatic) (memberNode? rules' heading isStatic) := by
  obtain ⟨previous, rest, nextId, reported⟩ := s
  refine .get ?_
  have hother {s : State} {isType isType' : Bool} (h : isType' = isType) : PlacesIfAny f (n + 1) s
      (if isType then do return (← typeDecl? rules).map .type else operationOrField? rules heading isStatic)
      (if isType' then do return (← typeDecl? rules').map .type
       else operationOrField? rules' heading isStatic) := by
    refine .cond h (fun _ => .mapped hr.typeDecl fun decl _ _ => .pure fun _ => ?_) fun _ =>
      hr.operationOrField heading isStatic
    cases decl <;> rfl
  cases rest with
  | nil => exact .pure fun _ => rfl
  | cons l rest =>
    obtain ⟨t, span⟩ := l
    cases t with
    | opener b =>
      cases b with
      | brace => exact .mapped hr.block fun _ _ _ => .pure fun _ => rfl
      | _ => exact hother (congrArg Option.isSome (typeStart?_relocate (⟨_, span⟩ :: rest)))
    | _ => exact hother (congrArg Option.isSome (typeStart?_relocate (⟨_, span⟩ :: rest)))

theorem Rules.Alongside.member (hr : rules.Alongside f n rules') (heading : Heading) :
    Maps f (n + 1) s (Option.map (Member.relocate f)) (member? rules heading) (member? rules' heading) := by
  refine .mapped maps_here fun start _ _ => .same echoes_modifiers fun isStatic _ _ => ?_
  refine .bind (hr.memberNode heading isStatic) fun node node' _ _ h => ?_
  refine .mapped maps_here fun stop _ _ => .pure ?_
  rw [← f.map_join]
  exact h _

theorem Rules.Alongside.memberRound (hr : rules.Alongside f n rules') (heading : Heading) (opener : Span)
    (s : State) :
    Maps f (n + 1) s (Prod.map (Member.relocateAll f) id) (memberRound rules heading opener)
      (memberRound rules' heading (f.map opener)) := by
  obtain ⟨previous, rest, nextId, reported⟩ := s
  refine .get ?_
  have hmember {s : State} : Maps f (n + 1) s (Prod.map (Member.relocateAll f) id)
      (do return ((← member? rules heading).toList, true))
      (do return ((← member? rules' heading).toList, true)) :=
    .mapped (hr.member heading) fun m _ _ => .pure (by cases m <;> rfl)
  cases rest with
  | nil => exact .same (echoes_report .unclosedBrace opener) fun _ _ _ => .pure rfl
  | cons l rest =>
    obtain ⟨t, span⟩ := l
    cases t with
    | closer b =>
      cases b with
      | brace => exact .same echoes_advance fun _ _ _ => .pure rfl
      | _ => exact hmember
    | semicolon => exact .same echoes_advance fun _ _ _ => .pure rfl
    | _ => exact hmember

theorem Rules.Alongside.readClassBody (hr : rules.Alongside f n rules') (heading : Heading) (s : State) :
    Maps f (n + 1) s (Member.relocateAll f) (Grammar.classBody rules heading)
      (Grammar.classBody rules' heading) := by
  refine .mapped (maps_take _) fun opener s₁ _ => ?_
  cases opener with
  | none =>
    exact .mapped maps_here fun span _ _ => .same (echoes_report .expectedClassBody span) fun _ _ _ => .pure rfl
  | some opener =>
    dsimp -zeta only [Option.map_some]
    extract_lets fromMembers fromMembers'
    have hmembers (constants : List Member) (s : State) : Maps f (n + 1) s (Member.relocateAll f)
        (fromMembers constants) (fromMembers' (Member.relocateAll f constants)) :=
      .mapped (.collect (Member.relocateAll_append f) (hr.memberRound heading opener) s) fun members _ _ =>
        .pure (Member.relocateAll_append f constants members).symm
    exact .ite
      (fun _ => .mapped (.collect (Member.relocateAll_append f) hr.constantRound s₁) fun constants s _ =>
        hmembers constants s)
      fun _ => hmembers [] s₁

/-- Rules that go alongside make class bodies and code that go alongside for one token more. -/
theorem Rules.Alongside.succ (hr : rules.Alongside f n rules') :
    Rules.Alongside f (n + 1) ⟨Grammar.classBody rules, Grammar.code rules⟩
      ⟨Grammar.classBody rules', Grammar.code rules'⟩ :=
  ⟨hr.readClassBody, hr.readCode⟩

/-! ## Compilation units -/

theorem Rules.Alongside.topLevelRound (hr : rules.Alongside f n rules') (s : State) :
    Maps f (n + 1) s (Prod.map (List.map (TypeDecl.relocate f)) id) (topLevelRound rules)
      (topLevelRound rules') := by
  have hempty : (s.relocate f).rest.isEmpty = s.rest.isEmpty := List.isEmpty_map
  refine .get ?_
  rw [hempty]
  refine .ite (fun _ => .pure rfl) fun _ => ?_
  refine .same (echoes_accept _) fun _ _ _ => .ite (fun _ => .pure rfl) fun _ => ?_
  refine .same echoes_modifiers fun _ s _ => ?_
  obtain ⟨previous, rest, nextId, reported⟩ := s
  refine .get ?_
  cases rest with
  | nil => exact .pure rfl
  | cons l rest =>
    refine .cond (congrArg Option.isSome (typeStart?_relocate (l :: rest))) (fun _ =>
      .mapped hr.typeDecl fun decl _ _ => .pure (by cases decl <;> rfl)) fun _ => ?_
    exact .same echoes_advance fun _ _ _ => .same (echoes_report .expectedDeclaration l.span) fun _ _ _ => .pure rfl

theorem Rules.Alongside.compilationUnit (hr : rules.Alongside f n rules') :
    Maps f (n + 1) s (CompilationUnit.relocate f) (compilationUnit rules) (compilationUnit rules') :=
  .same echoes_package fun _ _ _ => .same echoes_skipImports fun _ s _ =>
    .mapped (.collect (fun _ _ => List.map_append) hr.topLevelRound s) fun _ _ _ => .pure rfl

end Rules

/-! ## Rules at any depth -/

theorem Rules.Alongside.zero {rules rules' : Rules} : Rules.Alongside f 0 rules rules' :=
  ⟨fun _ _ hn => absurd hn (Nat.not_lt_zero _), fun _ _ hn => absurd hn (Nat.not_lt_zero _)⟩

/-- Where fewer than `n` tokens are left, all depths from `n` on answer the same. -/
theorem rules_alongside (f : Relocation) (k k' : Nat) : ∀ n, (rules (n + k)).Alongside f n (rules (n + k'))
  | 0 => .zero
  | n + 1 => by
    rw [Nat.add_right_comm, Nat.add_right_comm n 1 k']
    exact (rules_alongside f k k' n).succ

end Nomenclator.Grammar
