/-
The shape of every tree that is read: if no identifier was missing, the
tree can be named, and it has no more numbered nodes than the text has
tokens.

A node gets its number where at least one token is read for it alone, so
the tokens that are left and the nodes so far never weigh more than the
tokens there were.
-/
import Nomenclator.Proofs.Declaration.Shape
import Nomenclator.Proofs.Grammar.Ensures

namespace Nomenclator.Grammar

/-- The components of a record, which a constructor may take over, have types. -/
def Heading.Typed (heading : Heading) : Prop :=
  ∀ parameters, heading.components = some parameters → ∀ p ∈ parameters, p.IsTyped

abbrev CodeGain (s : State) (found : List CodeItem) (s' : State) : Prop :=
  Gain CodeItem.nodes CodeItem.Named s found s'

abbrev MemberGain (inType : Prop) (s : State) (found : List Member) (s' : State) : Prop :=
  Gain Member.nodes (Member.Named inType) s found s'

/-- What the rules read has the shape that is claimed here. -/
structure Rules.Shaped (rules : Rules) : Prop where
  classBody : ∀ {c : Prop} {s : State} (heading : Heading), Ensures c s (rules.classBody heading)
    fun ms s' => heading.Typed → MemberGain (heading.written ≠ "") s ms s'
  code : ∀ {c : Prop} {s : State} (stop : CodeEnd), Ensures c s (rules.code stop) (CodeGain s)

section

variable {rules : Rules} {c : Prop} {s : State}

/-! ## Type declarations -/

theorem ensures_declaredName (written : String) (span : Span) :
    Ensures c s (declaredName written span) fun name _ => name = plainName written := by
  rw [declaredName]
  split
  · exact .step (moves_report _ _) fun _ _ _ => .pure fun _ _ => rfl
  · exact .pure fun _ _ => rfl

theorem ensures_components (kind : TypeKind) :
    Ensures c s (components kind) fun r _ =>
      ∀ parameters, r = some parameters → ∀ p ∈ parameters, p.IsTyped := by
  rw [components]
  split
  · refine .step moves_skipAnyAngles fun _ s₁ h₁ => ?_
    refine .bind ensures_parameters fun ps s₂ h₂ => .pure fun h _ => ?_
    intro parameters he
    obtain rfl := Option.some.inj he
    exact h.2
  · exact .pure fun _ _ _ => nofun

/-- A type declaration begins with a keyword, if it is no record, and a record has a name. -/
theorem typeStart?_cases {lexemes : List Lexeme} {kind : TypeKind} (h : typeStart? lexemes = some kind) :
    (∃ span place rest, kind = .annotationType ∧
      lexemes = ⟨.atSign, span⟩ :: ⟨.keyword .interfaceKw, place⟩ :: rest) ∨
    (∃ k span rest, kind ≠ .annotationType ∧ kind ≠ .recordType ∧ k.isTypeKeyword = true ∧
      lexemes = ⟨.keyword k, span⟩ :: rest) ∨
    ∃ word span name place rest, kind = .recordType ∧
      lexemes = ⟨.identifier word, span⟩ :: ⟨.identifier name, place⟩ :: rest := by
  rw [typeStart?.eq_def] at h
  split at h
  iterate 3
    next =>
      cases h
      exact .inr (.inl ⟨_, _, _, nofun, nofun, rfl, rfl⟩)
  next =>
    cases h
    exact .inl ⟨_, _, _, rfl, rfl⟩
  next =>
    split at h
    next hrecord =>
      cases h
      rw [startsRecord.eq_def] at hrecord
      split at hrecord
      iterate 2 exact .inr (.inr ⟨_, _, _, _, _, rfl, rfl⟩)
      cases hrecord
    next => cases h

theorem Rules.Shaped.typeDecl (hr : rules.Shaped) :
    Ensures c s (typeDecl? rules) fun r s' => Gain TypeDecl.nodes TypeDecl.Named s r.toList s' := by
  refine .get ?_
  split
  next => exact .pure fun _ _ => .nil (.refl s)
  next kind hkind =>
    have hne : s.rest ≠ [] := fun he => by rw [he] at hkind; exact absurd hkind nofun
    have hpos := List.length_pos_iff.mpr hne
    refine .bind ensures_here fun start s₁ h₁ => ?_
    -- an annotation has one token more before the rest is read
    extract_lets fromKeyword
    have hkeyword {d : Prop} (s₂ : State) (h₂ : d → s₂.rest.tail.length < s.rest.length) :
        Ensures d s₂ (fromKeyword ()) fun r s' => Gain TypeDecl.nodes TypeDecl.Named s r.toList s' := by
      refine .bind ensures_advance fun _ s₃ h₃ => ?_
      refine .step moves_fresh fun id s₄ h₄ => ?_
      refine .bind (ensures_identifier _) fun r s₅ h₅ => ?_
      refine .bind (ensures_declaredName _ _) fun name s₆ h₆ => ?_
      refine .bind (ensures_components kind) fun comps s₇ h₇ => ?_
      refine .step moves_skipHeader fun _ s₈ h₈ => ?_
      refine .bind (hr.classBody _) fun ms s₉ h₉ => ?_
      refine .step moves_here fun stop s₁₀ h₁₀ => .pure fun h _ => ?_
      obtain ⟨⟨⟨⟨⟨hd, hrest⟩, hwritten⟩, hname⟩, hcomps⟩, hms⟩ := h
      have hgain := hms hcomps
      have hle := (h₄.trans (h₅.trans (h₆.trans (h₇.trans h₈)))).length_le
      have hlt := h₂ hd
      rw [← hrest] at hlt
      refine .single ?_ ⟨hname ▸ hwritten.plainName, ?_⟩
      · have hweight := hgain.weight
        have hle' := h₁₀.length_le
        rw [TypeDecl.nodes, Member.nodesOf_eq_sum]
        omega
      · have htrue : (r.1 ≠ "") = True := eq_true hwritten.ne_empty
        rw [← htrue]
        exact Member.allNamed_iff.mpr hgain.good
    split
    · refine .bind ensures_advance fun _ s₂ h₂ => hkeyword s₂ fun h => ?_
      rw [h.2, h.1.2, List.length_tail, List.length_tail]
      omega
    · refine hkeyword s₁ fun h => ?_
      rw [h.2, List.length_tail]
      omega

theorem Rules.Shaped.anonymousBody (hr : rules.Shaped) :
    Ensures c s (anonymousBody? rules) fun r s' => MemberGain False s (r.getD []) s' := by
  refine .step (moves_isAt _) fun b s₁ h₁ => ?_
  split
  · refine .bind (hr.classBody .anonymous) fun ms s₂ h₂ => .pure fun h _ => ?_
    have hgain := h.2 nofun
    have hfalse : (Heading.anonymous.written ≠ "") = False := eq_false fun hne => hne rfl
    rw [hfalse] at hgain
    exact hgain.after h₁
  · exact .pure fun _ _ => .nil h₁

/-! ## Code -/

theorem Rules.Shaped.block (hr : rules.Shaped) : Ensures c s (block rules) (CodeGain s) := by
  refine .step (moves_take _) fun opener s₁ h₁ => ?_
  cases opener with
  | none =>
    refine .step moves_here fun _ s₂ h₂ => .step (moves_report _ _) fun _ s₃ h₃ => .pure fun _ _ => ?_
    exact .nil (h₁.trans (h₂.trans h₃))
  | some opener => exact (hr.code _).mono id fun _ _ _ _ _ h => h.after h₁

theorem Rules.Shaped.lambda (hr : rules.Shaped) (hne : s.rest ≠ []) :
    Ensures c s (lambda rules) fun i s' => CodeGain s [i] s' := by
  have hpos := List.length_pos_iff.mpr hne
  refine .bind ensures_here fun start s₁ h₁ => .bind ensures_fresh fun id s₂ h₂ => ?_
  refine .bind (P := fun _ s' => s'.rest.length < s.rest.length) ?_ fun _ s₃ h₃ => ?_
  · refine ⟨Moves.skipWhile moves_arrowRound s₂, fun h _ _ => ?_⟩
    have hle := (skipWhile_arrowRound_suffix s₂).length_le
    rw [h.2, h.1.2, List.length_tail] at hle
    omega
  refine .step (moves_isAt _) fun b s₄ h₄ => ?_
  extract_lets fromBody
  have hbody {code : List CodeItem} {s₅ : State} {d : Prop} (h : d → CodeGain s₄ code s₅)
      (hlt : d → s₃.rest.length < s.rest.length) :
      Ensures d s₅ (fromBody code) fun i s' => CodeGain s [i] s' := by
    refine .step moves_here fun stop s₆ h₆ => .pure fun hd _ => ?_
    have hgain := ((h hd).after h₄).before h₆
    have hweight := hgain.weight
    have hlength := hlt hd
    refine .single ?_ (CodeItem.allNamed_iff.mpr hgain.good)
    rw [CodeItem.nodes, CodeItem.nodesOf_eq_sum]
    omega
  split
  · exact .bind hr.block fun code s₅ h₅ => hbody And.right fun h => h.1.2
  · exact .bind (hr.code _) fun code s₅ h₅ => hbody And.right fun h => h.1.2

theorem Rules.Shaped.allocation (hr : rules.Shaped) (hne : s.rest ≠ []) :
    Ensures c s (allocation? rules) fun r s' => CodeGain s r.toList s' := by
  have hpos := List.length_pos_iff.mpr hne
  refine .bind ensures_here fun start s₁ h₁ => .bind ensures_advance fun _ s₂ h₂ => ?_
  refine .step moves_skipAnyAngles fun _ s₃ h₃ => .bind ensures_type fun type s₄ h₄ => ?_
  have hnil {s' : State} (h : s₄.Leads s') : CodeGain s [] s' :=
    .nil (h₁.trans (h₂.trans (h₃.trans (h₄.trans h))))
  cases type with
  | none => exact .pure fun _ _ => hnil (.refl _)
  | some type =>
    refine .step (moves_take _) fun opener s₅ h₅ => ?_
    cases opener with
    | none => exact .pure fun _ _ => hnil h₅
    | some opener =>
      refine .step moves_fresh fun id s₆ h₆ => .bind (hr.code _) fun arguments s₇ h₇ => ?_
      refine .bind hr.anonymousBody fun body s₈ h₈ => .step moves_here fun stop s₉ h₉ => ?_
      refine .pure fun h _ => ?_
      obtain ⟨⟨⟨⟨⟨-, hstart⟩, hadvance⟩, -⟩, harguments⟩, hbody⟩ := h
      have hlength : s₂.rest.length + 1 = s.rest.length := by
        rw [hadvance, hstart, List.length_tail]
        omega
      have hle := (h₃.trans (h₄.trans (h₅.trans h₆))).length_le
      have hle' := h₉.length_le
      have hweight := harguments.weight
      have hweight' := hbody.weight
      refine .single ?_ (CodeItem.named_allocation harguments.good hbody.good)
      rw [CodeItem.nodes_allocation, CodeItem.nodesOf_eq_sum, Member.nodesOf_eq_sum]
      omega

theorem Rules.Shaped.localType (hr : rules.Shaped) :
    Ensures c s (localType? rules) fun r s' => CodeGain s r.toList s' := by
  refine .bind hr.typeDecl fun r s₁ h₁ => .pure fun h _ => ?_
  cases r with
  | none => exact .nil h₁
  | some decl =>
    have hweight := h.2.weight
    exact .single (by simpa [CodeItem.nodes] using hweight) (h.2.good decl (by simp))

theorem ensures_pass : Ensures c s pass fun r s' => CodeGain s r.1 s' :=
  .step moves_advance fun _ _ h => .pure fun _ _ => .nil h

theorem ensures_closing (stop : CodeEnd) (bracket : Bracket) :
    Ensures c s (closing stop bracket) fun r s' => CodeGain s r.1 s' := by
  cases stop with
  | close expected opener =>
    rw [closing]
    split
    · exact .step moves_advance fun _ _ h => .pure fun _ _ => .nil h
    split
    · exact ensures_pass
    · exact .step (moves_report _ _) fun _ _ h => .pure fun _ _ => .nil h
  | semicolon =>
    rw [closing]
    split
    · exact .pure fun _ _ => .nil (.refl s)
    · exact ensures_pass
  | expression => exact .pure fun _ _ => .nil (.refl s)

theorem ensures_semicolon (stop : CodeEnd) :
    Ensures c s (semicolon stop) fun r s' => CodeGain s r.1 s' := by
  cases stop with
  | close => exact ensures_pass
  | semicolon => exact .step moves_advance fun _ _ h => .pure fun _ _ => .nil h
  | expression => exact .pure fun _ _ => .nil (.refl s)

theorem Rules.Shaped.keyword (hr : rules.Shaped) (hne : s.rest ≠ []) (k : Keyword) :
    Ensures c s (keyword rules k) fun r s' => CodeGain s r.1 s' := by
  refine .get ?_
  dsimp only
  split
  · exact .step moves_skipLabel fun _ _ h => .pure fun _ _ => .nil h
  split
  · exact .bind (hr.allocation hne) fun _ _ _ => .pure fun h _ => h.2
  split
  · exact .bind hr.localType fun _ _ _ => .pure fun h _ => h.2
  · exact ensures_pass

theorem Rules.Shaped.codeRound (hr : rules.Shaped) (stop : CodeEnd) (s : State) :
    Ensures c s (codeRound rules stop) fun r s' => CodeGain s r.1 s' := by
  refine .get ?_
  split
  next =>
    cases stop with
    | close bracket opener =>
      exact .step (moves_reportUnclosed _ _) fun _ _ h => .pure fun _ _ => .nil h
    | semicolon | expression => exact .pure fun _ _ => .nil (.refl s)
  next => exact ensures_closing stop _
  next => exact ensures_semicolon stop
  next =>
    split
    · exact .pure fun _ _ => .nil (.refl s)
    · exact ensures_pass
  next hrest => exact hr.keyword (hrest ▸ nofun) _
  next lexeme after _ _ _ _ hrest =>
    have hne : s.rest ≠ [] := hrest ▸ nofun
    split
    · exact .bind (hr.lambda hne) fun _ _ _ => .pure fun h _ => h.2
    split
    · exact .bind hr.localType fun _ _ _ => .pure fun h _ => h.2
    split
    · refine .step moves_advance fun _ s₁ h₁ => .bind (hr.code _) fun _ _ _ => .pure fun h _ => ?_
      exact h.2.after h₁
    · exact ensures_pass

theorem Rules.Shaped.readCode (hr : rules.Shaped) (stop : CodeEnd) :
    Ensures c s (Grammar.code rules stop) (CodeGain s) := Ensures.collect (hr.codeRound stop) s

/-! ## Enum constants -/

theorem Rules.Shaped.constantRound (hr : rules.Shaped) (inType : Prop) (s : State) :
    Ensures c s (constantRound rules) fun r s' => MemberGain inType s r.1 s' := by
  refine .step moves_modifiers fun _ s₁ h₁ => .get ?_
  split
  next name start tail hrest =>
    refine .bind ensures_advance fun _ s₂ h₂ => .step moves_fresh fun id s₃ h₃ => ?_
    have hlength : s₁.rest.tail.length + 1 = s₁.rest.length := by rw [hrest]; rfl
    refine .step (moves_take _) fun opener s₄ h₄ => ?_
    extract_lets fromBody
    have hbody {d : Prop} {s₅ : State} (arguments : List CodeItem) (hd : d → s₂.rest = s₁.rest.tail)
        (harguments : d → CodeGain s₄ arguments s₅) :
        Ensures d s₅ (fromBody arguments) fun r s' => MemberGain inType s r.1 s' := by
      refine .bind hr.anonymousBody fun body s₆ h₆ => .step moves_here fun stop s₇ h₇ => ?_
      have hgain {s' : State} (hl : s₇.Leads s') (h : d ∧ MemberGain False s₅ (body.getD []) s₆) :
          MemberGain inType s [.constant id name arguments body (start.join stop)] s' := by
        have hweight := ((harguments h.1).after (h₃.trans h₄)).weight
        have hweight' := (h.2.before (h₇.trans hl)).weight
        have hle := h₁.length_le
        rw [hd h.1] at hweight
        refine .single ?_ (Member.named_constant (harguments h.1).good h.2.good)
        rw [Member.nodes_constant, CodeItem.nodesOf_eq_sum, Member.nodesOf_eq_sum]
        omega
      refine .step (moves_accept _) fun b s₈ h₈ => ?_
      split
      · exact .pure fun h _ => hgain h₈ h
      · exact .step (moves_accept _) fun _ s₉ h₉ => .pure fun h _ => hgain (h₈.trans h₉) h
    cases opener with
    | none => exact hbody [] And.right fun _ => .nil (.refl s₄)
    | some opener =>
      exact .bind (hr.code _) fun arguments s₅ h₅ => hbody arguments (fun h => h.1.2) And.right
  next => exact .step (moves_accept _) fun _ s₂ h₂ => .pure fun _ _ => .nil (h₁.trans h₂)

/-! ## Operations and fields -/

theorem Rules.Shaped.operationBody (hr : rules.Shaped) :
    Ensures c s (operationBody? rules) fun r s' => CodeGain s (r.getD []) s' := by
  refine .step moves_skipThrows fun _ s₁ h₁ => .get ?_
  split
  · exact .bind hr.block fun _ _ _ => .pure fun h _ => h.2.after h₁
  · exact .step moves_advance fun _ _ h₂ => .pure fun _ _ => .nil (h₁.trans h₂)
  · refine .step moves_advance fun _ _ h₂ => .bind (hr.code _) fun _ _ h₃ => .pure fun _ _ => ?_
    exact .nil (h₁.trans (h₂.trans h₃))
  · exact .step (moves_report _ _) fun _ _ h₂ => .pure fun _ _ => .nil (h₁.trans h₂)
  · exact .pure fun _ _ => .nil h₁

/-- The token for a method's number was read before its parameters. -/
theorem Rules.Shaped.method (hr : rules.Shaped) (inType : Prop) {written : String} (span : Span)
    (hw : c → IsName written) :
    Ensures c s (methodDecl rules written span) fun f s' => ∀ span,
      (f span).nodes + s'.rest.length ≤ s.rest.length + 1 ∧ (f span).Named inType := by
  refine .bind (ensures_declaredName _ _) fun name s₁ h₁ => .step moves_fresh fun id s₂ h₂ => ?_
  refine .bind ensures_parameters fun ps s₃ h₃ => ?_
  refine .step (.skipWhile moves_squareRound) fun _ s₄ h₄ => ?_
  refine .bind hr.operationBody fun body s₅ h₅ => .pure fun h _ span => ?_
  obtain ⟨⟨⟨hc, hname⟩, hps⟩, hbody⟩ := h
  have hle := (h₁.trans (h₂.trans (h₃.trans h₄))).length_le
  have hweight := hbody.weight
  refine ⟨?_, Member.named_operation ?_ hps hbody.good⟩
  · rw [Member.nodes_operation, CodeItem.nodesOf_eq_sum]
    omega
  · rw [hname]
    exact (hw hc).plainName

theorem constructorStart?_eq_some {heading : Heading} {lexemes : List Lexeme} {start : ConstructorStart}
    (h : constructorStart? heading lexemes = some start) :
    lexemes ≠ [] ∧ heading.written ≠ "" ∧
      ∀ parameters, start = .components parameters → heading.components = some parameters := by
  rw [constructorStart?.eq_def] at h
  split at h
  next =>
    split at h
    next hname =>
      refine ⟨nofun, hname.1, fun parameters he => ?_⟩
      subst he
      split at h
      next => exact absurd h nofun
      next hcomponents => rw [hcomponents, ConstructorStart.components.inj (Option.some.inj h)]
      next => exact absurd h nofun
    next => exact absurd h nofun
  next => exact absurd h nofun

theorem Rules.Shaped.constructor (hr : rules.Shaped) {heading : Heading} {start : ConstructorStart}
    (hstart : constructorStart? heading s.rest = some start) (hc : c → heading.Typed) :
    Ensures c s (constructorDecl rules heading start) fun f s' => ∀ span,
      MemberGain (heading.written ≠ "") s [f span] s' := by
  obtain ⟨hne, hwritten, hcomponents⟩ := constructorStart?_eq_some hstart
  have hpos := List.length_pos_iff.mpr hne
  refine .bind ensures_advance fun _ s₁ h₁ => ?_
  extract_lets fromParameters
  have hparameters {d : Prop} {s₂ : State} (ps : List Parameter) (hl : s₁.Leads s₂)
      (hd : d → s₁.rest = s.rest.tail ∧ ∀ p ∈ ps, p.IsTyped) :
      Ensures d s₂ (fromParameters ps) fun f s' => ∀ span,
        MemberGain (heading.written ≠ "") s [f span] s' := by
    refine .step moves_fresh fun id s₃ h₃ => .bind hr.operationBody fun body s₄ h₄ => ?_
    refine .pure fun h _ span => ?_
    obtain ⟨hrest, hps⟩ := hd h.1
    have hle := (hl.trans h₃).length_le
    have hweight := h.2.weight
    rw [hrest, List.length_tail] at hle
    refine .single ?_ (Member.named_operation hwritten hps h.2.good)
    rw [Member.nodes_operation, CodeItem.nodesOf_eq_sum]
    omega
  cases start with
  | ownParameters =>
    exact .bind ensures_parameters fun ps s₂ h₂ => hparameters ps h₂ fun h => ⟨h.1.2, h.2⟩
  | components ps =>
    exact hparameters ps (.refl _) fun h => ⟨h.2, hc h.1 ps (hcomponents ps rfl)⟩

theorem Rules.Shaped.operationOrField (hr : rules.Shaped) {heading : Heading} (isStatic : Bool)
    (hc : c → heading.Typed) :
    Ensures c s (operationOrField? rules heading isStatic) fun r s' => ∀ span,
      MemberGain (heading.written ≠ "") s (r.map (· span)).toList s' := by
  refine .step moves_skipAnyAngles fun _ s₁ h₁ => .get ?_
  split
  next start hstart =>
    exact .bind (hr.constructor hstart hc) fun f s₂ h₂ => .pure fun h _ span => (h.2 span).after h₁
  next =>
    refine .bind ensures_type fun type s₂ h₂ => ?_
    cases type with
    | none =>
      exact .step moves_advance fun _ s₃ h₃ => .pure fun _ _ _ => .nil (h₁.trans (h₂.trans h₃))
    | some type =>
      refine .bind (ensures_identifier _) fun r s₃ h₃ => .step (moves_isAt _) fun b s₄ h₄ => ?_
      have hle := (h₃.trans h₄).length_le
      have hle' := h₁.length_le
      split
      · refine .bind (hr.method (heading.written ≠ "") _ fun h => h.2) fun f s₅ h₅ => ?_
        refine .pure fun h _ span => ?_
        obtain ⟨hweight, hnamed⟩ := h.2 span
        have hlt := (h.1.1.2 type rfl).2
        have hall : (f span).nodes + s₅.rest.length ≤ s.rest.length := by omega
        exact .single hall hnamed
      · refine .bind (hr.code _) fun code s₅ h₅ => .pure fun h _ span => ?_
        have hweight := h.2.weight
        have hle'' := h₂.length_le
        refine .single ?_ (CodeItem.allNamed_iff.mpr h.2.good)
        rw [Member.nodes, CodeItem.nodesOf_eq_sum]
        omega

/-! ## Members -/

theorem Rules.Shaped.memberNode (hr : rules.Shaped) {heading : Heading} (isStatic : Bool)
    (hc : c → heading.Typed) :
    Ensures c s (memberNode? rules heading isStatic) fun r s' => ∀ span,
      MemberGain (heading.written ≠ "") s (r.map (· span)).toList s' := by
  refine .get ?_
  split
  · exact .pure fun _ _ _ => .nil (.refl s)
  · refine .bind hr.block fun code s₁ h₁ => .pure fun h _ span => ?_
    have hweight := h.2.weight
    refine .single ?_ (CodeItem.allNamed_iff.mpr h.2.good)
    rw [Member.nodes, CodeItem.nodesOf_eq_sum]
    omega
  · split
    · refine .bind hr.typeDecl fun r s₁ h₁ => .pure fun h _ span => ?_
      cases r with
      | none => exact .nil h₁
      | some decl =>
        have hweight := h.2.weight
        exact .single (by simpa [Member.nodes] using hweight) (h.2.good decl (by simp))
    · exact hr.operationOrField isStatic hc

theorem Rules.Shaped.memberRound (hr : rules.Shaped) {heading : Heading} (opener : Span)
    (hc : c → heading.Typed) (s : State) :
    Ensures c s (memberRound rules heading opener) fun r s' =>
      MemberGain (heading.written ≠ "") s r.1 s' := by
  refine .get ?_
  split
  · exact .step moves_advance fun _ _ h => .pure fun _ _ => .nil h
  · exact .step moves_advance fun _ _ h => .pure fun _ _ => .nil h
  · exact .step (moves_report _ _) fun _ _ h => .pure fun _ _ => .nil h
  · refine .bind (P := fun r s' => MemberGain (heading.written ≠ "") s r.toList s') ?_
      fun _ _ _ => .pure fun h _ => h.2
    refine .step moves_here fun start s₁ h₁ => .step moves_modifiers fun isStatic s₂ h₂ => ?_
    refine .bind (hr.memberNode isStatic hc) fun f s₃ h₃ => .step moves_here fun stop s₄ h₄ => ?_
    exact .pure fun h _ => ((h.2 _).after (h₁.trans h₂)).before h₄

theorem Rules.Shaped.readClassBody (hr : rules.Shaped) (heading : Heading) :
    Ensures c s (Grammar.classBody rules heading) fun ms s' =>
      heading.Typed → MemberGain (heading.written ≠ "") s ms s' := by
  refine .given (.step (moves_take _) fun opener s₁ h₁ => ?_)
  cases opener with
  | none =>
    refine .step moves_here fun _ s₂ h₂ => .step (moves_report _ _) fun _ s₃ h₃ => .pure fun _ _ => ?_
    exact .nil (h₁.trans (h₂.trans h₃))
  | some opener =>
    dsimp -zeta only
    extract_lets fromMembers
    have hmembers {d : Prop} {s₂ : State} (constants : List Member) (hd : d → heading.Typed)
        (hconstants : d → MemberGain (heading.written ≠ "") s₁ constants s₂) :
        Ensures d s₂ (fromMembers constants) fun ms s' => MemberGain (heading.written ≠ "") s ms s' := by
      refine .bind (.collect (hr.memberRound opener hd) s₂) fun ms s₃ h₃ => .pure fun h _ => ?_
      exact ((hconstants h.1).append h.2).after h₁
    split
    · refine .bind (.collect (hr.constantRound (heading.written ≠ "")) s₁) fun constants s₂ h₂ => ?_
      exact hmembers constants (fun h => h.1.2) And.right
    · exact hmembers [] And.right fun _ => .nil (.refl s₁)

theorem shaped_rules : ∀ depth : Nat, (Grammar.rules depth).Shaped
  | 0 => ⟨fun _ => .pure fun _ _ _ => .nil (.refl _), fun _ => .pure fun _ _ => .nil (.refl _)⟩
  | depth + 1 =>
    have h := shaped_rules depth
    ⟨fun heading => h.readClassBody heading, fun stop => h.readCode stop⟩

/-! ## Units -/

theorem ensures_package : Ensures c s package fun names _ => ∀ name ∈ names, IsName name := by
  refine .step moves_modifiers fun _ s₁ h₁ => .step (moves_accept _) fun b s₂ h₂ => ?_
  split
  · refine .bind (ensures_dottedName _) fun names s₃ h₃ => .step (moves_accept _) fun _ _ _ => ?_
    exact .pure fun h _ => h.2
  · exact .pure fun _ _ => nofun

theorem Rules.Shaped.topLevelRound (hr : rules.Shaped) (s : State) :
    Ensures c s (topLevelRound rules) fun r s' => Gain TypeDecl.nodes TypeDecl.Named s r.1 s' := by
  refine .get ?_
  split
  · exact .pure fun _ _ => .nil (.refl s)
  refine .step (moves_accept _) fun b s₁ h₁ => ?_
  split
  · exact .pure fun _ _ => .nil h₁
  refine .step moves_modifiers fun _ s₂ h₂ => .get ?_
  split
  · exact .pure fun _ _ => .nil (h₁.trans h₂)
  · split
    · exact .bind hr.typeDecl fun _ _ _ => .pure fun h _ => h.2.after (h₁.trans h₂)
    · refine .step moves_advance fun _ _ h₃ => .step (moves_report _ _) fun _ _ h₄ => .pure fun _ _ => ?_
      exact .nil (h₁.trans (h₂.trans (h₃.trans h₄)))

theorem Rules.Shaped.compilationUnit (hr : rules.Shaped) :
    Ensures c s (compilationUnit rules) fun unit s' =>
      (∀ name ∈ unit.package, IsName name) ∧ Gain TypeDecl.nodes TypeDecl.Named s unit.types s' := by
  refine .bind ensures_package fun names s₁ h₁ => .step moves_skipImports fun _ s₂ h₂ => ?_
  refine .bind (.collect hr.topLevelRound s₂) fun types s₃ h₃ => .pure fun h _ => ?_
  exact ⟨h.1.2, h.2.after (h₁.trans h₂)⟩

end

end Nomenclator.Grammar
