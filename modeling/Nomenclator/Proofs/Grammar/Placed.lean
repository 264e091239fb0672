/-
The nodes of every tree that is read stand on whole tokens, each within the
one above it, whatever the text.

A node takes its place from where its first token begins to where reading
has got to. So what was found between two states has its places between
these two, and the node around it is begun before and completed behind.
-/
import Nomenclator.Proofs.Grammar.Points

namespace Nomenclator

namespace Grammar

open Outline

variable {α : Type} {all : Lexemes} {s s' s'' s₁ : State}

/-! ## What was found on the way -/

/-- What was found between two states stands between them, at whatever depth it is put. -/
def LaidOut (all : Lexemes) (outlines : Nat → α → Outline) (s : State) (found : α) (s' : State) : Prop :=
  ∀ depth, Laid all.list (s.upTo s') depth (outlines depth found)

abbrev CodeLaid (all : Lexemes) : State → List CodeItem → State → Prop := LaidOut all CodeItem.outlines

abbrev MembersLaid (all : Lexemes) : State → List Member → State → Prop := LaidOut all Member.outlines

namespace LaidOut

variable {outlines : Nat → α → Outline} {found : α}

/-- Nothing was found on the way to the first state. -/
theorem after (h : LaidOut all outlines s₁ found s') (h₁ : Reaches all s s₁) :
    LaidOut all outlines s found s' := fun depth => (h depth).mono (h₁.covers_after s')

/-- Nothing was found on the way from the second state. -/
theorem before (h : LaidOut all outlines s found s') (h' : Reaches all s' s'') :
    LaidOut all outlines s found s'' := fun depth => (h depth).mono (h'.covers_before s)

theorem append {outlines : Nat → List α → Outline} {found more : List α}
    (houtlines : ∀ depth, outlines depth (found ++ more) = outlines depth found ++ outlines depth more)
    (h : Reaches all s s') (h' : Reaches all s' s'') (hfound : LaidOut all outlines s found s')
    (hmore : LaidOut all outlines s' more s'') : LaidOut all outlines s (found ++ more) s'' := fun depth =>
  houtlines depth ▸ (hfound.before h' depth).append (hmore.after h depth)

end LaidOut

theorem CodeLaid.nil : CodeLaid all s [] s' := fun _ => .nil

theorem MembersLaid.nil : MembersLaid all s [] s' := fun _ => .nil

theorem CodeLaid.append {code more : List CodeItem} (h : Reaches all s s') (h' : Reaches all s' s'')
    (hcode : CodeLaid all s code s') (hmore : CodeLaid all s' more s'') : CodeLaid all s (code ++ more) s'' :=
  LaidOut.append (fun depth => CodeItem.outlines_append depth code more) h h' hcode hmore

theorem MembersLaid.append {members more : List Member} (h : Reaches all s s') (h' : Reaches all s' s'')
    (hmembers : MembersLaid all s members s') (hmore : MembersLaid all s' more s'') :
    MembersLaid all s (members ++ more) s'' :=
  LaidOut.append (fun depth => Member.outlines_append depth members more) h h' hmembers hmore

theorem CodeLaid.single {i : CodeItem} (h : ∀ depth, Laid all.list (s.upTo s') depth (i.outline depth)) :
    CodeLaid all s [i] s' := fun depth => (CodeItem.outlines_singleton depth i).symm ▸ h depth

/-- Where a type declaration stands that was read between two states. -/
structure DeclLaid (all : Lexemes) (s : State) (decl : TypeDecl) (s' : State) : Prop where
  onTokens : decl.span.OnTokens all.list
  covers : (s.upTo s').Covers decl.span
  laid : ∀ depth, Laid all.list decl.span depth (decl.outline depth)

/-- A member that was read between two states is laid out within each place that covers them. The
place itself is known last. -/
def MemberLaid (all : Lexemes) (s : State) (node : Span → Member) (s' : State) : Prop :=
  ∀ place : Span, place.OnTokens all.list → place.Covers (s.upTo s') →
    ∀ depth, Laid all.list place depth ((node place).outline depth)

/-- It is so with what is below it. -/
theorem MemberLaid.of_below {node : Span → Member} {top : Span → Node} {o : Nat → Outline}
    (h : ∀ depth, Laid all.list (s.upTo s') depth (o depth)) (hspan : ∀ place, (top place).span? = some place)
    (houtline : ∀ place depth, (node place).outline depth = (depth, top place) :: o (depth + 1)) :
    MemberLaid all s node s' := fun place hplace hcovers depth =>
  houtline place depth ▸ .node (hspan place) hplace ((h (depth + 1)).mono hcovers)

theorem MemberLaid.after {node : Span → Member} (h : MemberLaid all s₁ node s') (h₁ : Reaches all s s₁) :
    MemberLaid all s node s' := fun place hplace hcovers =>
  h place hplace (hcovers.trans (h₁.covers_after s'))

theorem MembersLaid.single {node : Span → Member} (h : Reaches all s s') (hnode : MemberLaid all s node s') :
    MembersLaid all s [node (s.here.join s'.here)] s' := by
  intro depth
  rw [h.join, Member.outlines_singleton]
  exact hnode _ h.onTokens (.refl _) depth

/-- Arguments, and behind them the body of an anonymous class. -/
theorem CodeLaid.withBody {arguments : List CodeItem} {members : List Member} (h : CodeLaid all s arguments s')
    (hbody : MembersLaid all s members s') (depth : Nat) : Laid all.list (s.upTo s') depth
      (CodeItem.outlines depth arguments ++ (depth, .body) :: Member.outlines (depth + 1) members) :=
  (h depth).append (hbody (depth + 1)).body

/-! ## The grammar -/

/-- A closing bracket is missed at the opening one. -/
def CodeEnd.OnTokens (all : List Lexeme) : CodeEnd → Prop
  | .close _ opener => opener.OnTokens all
  | .semicolon | .expression => True

/-- What the rules read stands where it was read. -/
structure Rules.Placed (all : Lexemes) (rules : Rules) : Prop where
  classBody : ∀ {s : State} (heading : Heading), Points all s (rules.classBody heading) (MembersLaid all s)
  code : ∀ {s : State} {stop : CodeEnd}, stop.OnTokens all.list → Points all s (rules.code stop) (CodeLaid all s)

section

variable {rules : Rules}

/-! ### Type declarations -/

theorem Rules.Placed.typeDecl (hr : rules.Placed all) :
    Points all s (typeDecl? rules) fun r s' => ∀ decl ∈ r, DeclLaid all s decl s' := by
  refine .get ?_
  split
  next => exact .pure_none
  next kind hkind =>
    refine .here ?_
    extract_lets fromKeyword
    have hkeyword {s₁ : State} (h₁ : Reaches all s s₁) :
        Points all s₁ (fromKeyword ()) fun r s' => ∀ decl ∈ r, DeclLaid all s decl s' := by
      refine .step keeps_advance fun _ s₂ h₂ => .step keeps_fresh fun id s₃ h₃ => ?_
      refine .bind (points_identifier _) fun r s₄ h₄ hname => ?_
      refine .step (keeps_declaredName _ hname) fun name s₅ h₅ => ?_
      refine .step (keeps_components kind) fun comps s₆ h₆ => .step keeps_skipHeader fun _ s₇ h₇ => ?_
      refine .bind (hr.classBody _) fun ms s₈ h₈ hms => .here (.pure_some ?_)
      have hheader : Reaches all s s₇ :=
        h₁.trans (h₂.trans (h₃.trans (h₄.trans (h₅.trans (h₆.trans h₇)))))
      have hall := hheader.trans h₈
      rw [hall.join]
      exact ⟨hall.onTokens, .refl _, fun depth => .node rfl hall.onTokens (hms.after hheader (depth + 1))⟩
    split
    · exact .step keeps_advance fun _ s₁ h₁ => hkeyword h₁
    · exact .within fun hs => hkeyword (.refl hs)

theorem Rules.Placed.anonymousBody (hr : rules.Placed all) :
    Points all s (anonymousBody? rules) fun r s' => ∀ ms ∈ r, MembersLaid all s ms s' := by
  refine .step (keeps_isAt _) fun b s₁ h₁ => ?_
  split
  · exact .bind (hr.classBody .anonymous) fun ms s₂ h₂ hms => .pure_some (hms.after h₁)
  · exact .pure_none

/-! ### Code -/

theorem Rules.Placed.block (hr : rules.Placed all) : Points all s (block rules) (CodeLaid all s) := by
  refine .bind (points_take _) fun opener s₁ h₁ hopener => ?_
  cases opener with
  | none =>
    refine .bind points_here fun span s₂ h₂ hspan => ?_
    exact .step (keeps_report hspan rfl) fun _ _ _ => .pure fun _ => .nil
  | some opener => exact .mono (hr.code (hopener opener rfl)) fun code s₂ h₂ hcode => hcode.after h₁

theorem Rules.Placed.lambda (hr : rules.Placed all) :
    Points all s (lambda rules) fun i s' => CodeLaid all s [i] s' := by
  refine .here (.step keeps_fresh fun id s₁ h₁ => ?_)
  refine .step (.skipWhile keeps_arrowRound) fun _ s₂ h₂ => .step (keeps_isAt _) fun b s₃ h₃ => ?_
  extract_lets fromBody
  have hbody (code : List CodeItem) (s₄ : State) (h₄ : Reaches all s₃ s₄) (hcode : CodeLaid all s₃ code s₄) :
      Points all s₄ (fromBody code) fun i s' => CodeLaid all s [i] s' := by
    refine .here (.pure fun _ => ?_)
    have harrow := h₁.trans (h₂.trans h₃)
    have hall := harrow.trans h₄
    rw [hall.join]
    exact .single fun depth => .node rfl hall.onTokens (hcode.after harrow (depth + 1))
  split
  · exact .bind hr.block hbody
  · exact .bind (hr.code trivial) hbody

theorem Rules.Placed.allocation (hr : rules.Placed all) :
    Points all s (allocation? rules) fun r s' => CodeLaid all s r.toList s' := by
  refine .here (.step keeps_advance fun _ s₁ h₁ => .step keeps_skipAnyAngles fun _ s₂ h₂ => ?_)
  refine .step keeps_type fun type s₃ h₃ => ?_
  cases type with
  | none => exact .pure fun _ => .nil
  | some type =>
    refine .bind (points_take _) fun opener s₄ h₄ hopener => ?_
    cases opener with
    | none => exact .pure fun _ => .nil
    | some opener =>
      refine .step keeps_fresh fun id s₅ h₅ => ?_
      refine .bind (hr.code (hopener opener rfl)) fun arguments s₆ h₆ harguments => ?_
      refine .bind hr.anonymousBody fun body s₇ h₇ hbody => .here (.pure fun _ => ?_)
      have hopen := h₁.trans (h₂.trans (h₃.trans (h₄.trans h₅)))
      have hall := hopen.trans (h₆.trans h₇)
      have harguments := (harguments.after hopen).before h₇
      rw [hall.join]
      refine .single fun depth => ?_
      cases body with
      | none => exact .node rfl hall.onTokens (harguments (depth + 1))
      | some members =>
        have hmembers := (hbody members rfl).after (hopen.trans h₆)
        exact .node rfl hall.onTokens (CodeLaid.withBody harguments hmembers (depth + 1))

theorem Rules.Placed.localType (hr : rules.Placed all) :
    Points all s (localType? rules) fun r s' => CodeLaid all s r.toList s' := by
  refine .bind hr.typeDecl fun r s₁ h₁ hdecl => .pure fun _ => ?_
  cases r with
  | none => exact .nil
  | some decl =>
    have hdecl := hdecl decl rfl
    exact .single fun depth => (Laid.node rfl hdecl.onTokens (hdecl.laid (depth + 1))).mono hdecl.covers

theorem points_pass : Points all s pass fun r s' => CodeLaid all s r.1 s' :=
  .step keeps_advance fun _ _ _ => .pure fun _ => .nil

theorem points_closing {stop : CodeEnd} (hstop : stop.OnTokens all.list) (bracket : Bracket) :
    Points all s (closing stop bracket) fun r s' => CodeLaid all s r.1 s' := by
  cases stop with
  | close expected opener =>
    rw [closing]
    split
    · exact points_pass
    split
    · exact points_pass
    · exact .step (keeps_report hstop rfl) fun _ _ _ => .pure fun _ => .nil
  | semicolon =>
    rw [closing]
    split
    · exact .pure fun _ => .nil
    · exact points_pass
  | expression => exact .pure fun _ => .nil

theorem points_semicolon (stop : CodeEnd) :
    Points all s (semicolon stop) fun r s' => CodeLaid all s r.1 s' := by
  cases stop with
  | close => exact points_pass
  | semicolon => exact .step keeps_advance fun _ _ _ => .pure fun _ => .nil
  | expression => exact .pure fun _ => .nil

theorem Rules.Placed.keyword (hr : rules.Placed all) (k : Keyword) :
    Points all s (keyword rules k) fun r s' => CodeLaid all s r.1 s' := by
  refine .get ?_
  dsimp only
  split
  · exact .step keeps_skipLabel fun _ _ _ => .pure fun _ => .nil
  split
  · exact .bind hr.allocation fun _ _ _ h => .pure fun _ => h
  split
  · exact .bind hr.localType fun _ _ _ h => .pure fun _ => h
  · exact points_pass

theorem Rules.Placed.codeRound (hr : rules.Placed all) {stop : CodeEnd} (hstop : stop.OnTokens all.list) :
    Points all s (codeRound rules stop) fun r s' => CodeLaid all s r.1 s' := by
  refine .within fun hs => .get ?_
  split
  · cases stop with
    | close bracket opener =>
      exact .step (keeps_reportUnclosed bracket hstop) fun _ _ _ => .pure fun _ => .nil
    | semicolon | expression => exact .pure fun _ => .nil
  · exact points_closing hstop _
  · exact points_semicolon stop
  · split
    · exact .pure fun _ => .nil
    · exact points_pass
  · exact hr.keyword _
  next lexeme after _ _ _ _ hrest =>
    split
    · exact .bind hr.lambda fun _ _ _ h => .pure fun _ => h
    split
    · exact .bind hr.localType fun _ _ _ h => .pure fun _ => h
    split
    · have hopener := hs.onTokens (hrest ▸ List.mem_cons_self)
      exact .step keeps_advance fun _ s₁ h₁ => .bind (hr.code hopener) fun code s₂ h₂ hcode =>
        .pure fun _ => hcode.after h₁
    · exact points_pass

theorem Rules.Placed.readCode (hr : rules.Placed all) {stop : CodeEnd} (hstop : stop.OnTokens all.list) :
    Points all s (Grammar.code rules stop) (CodeLaid all s) :=
  .collect CodeLaid.append (fun _ => hr.codeRound hstop) s

/-! ### Enum constants -/

theorem Rules.Placed.constantRound (hr : rules.Placed all) :
    Points all s (constantRound rules) fun r s' => MembersLaid all s r.1 s' := by
  refine .step keeps_modifiers fun _ s₁ h₁ => .get ?_
  split
  next name start tail hrest =>
    have hstart : start = s₁.here := (State.here_of_rest hrest).symm
    refine .step keeps_advance fun _ s₂ h₂ => .step keeps_fresh fun id s₃ h₃ => ?_
    refine .bind (points_take _) fun opener s₄ h₄ hopener => ?_
    extract_lets fromBody
    have hbody (arguments : List CodeItem) (s₅ : State) (h₅ : Reaches all s₄ s₅)
        (harguments : CodeLaid all s₄ arguments s₅) :
        Points all s₅ (fromBody arguments) fun r s' => MembersLaid all s r.1 s' := by
      refine .bind hr.anonymousBody fun body s₆ h₆ hbody => .here ?_
      have hopen := h₂.trans (h₃.trans h₄)
      have hall := hopen.trans (h₅.trans h₆)
      have harguments := (harguments.after hopen).before h₆
      have hnode : MemberLaid all s₁ (.constant id name arguments body) s₆ := by
        cases body with
        | none => exact .of_below harguments (fun _ => rfl) fun _ _ => rfl
        | some members =>
          have hmembers := (hbody members rfl).after (hopen.trans h₅)
          exact .of_below (CodeLaid.withBody harguments hmembers) (fun _ => rfl) fun _ _ => rfl
      have hconstant : MembersLaid all s [.constant id name arguments body (start.join s₆.here)] s₆ := by
        rw [hstart]
        exact (MembersLaid.single hall hnode).after h₁
      refine .step (keeps_accept _) fun b s₇ h₇ => ?_
      split
      · exact .pure fun _ => hconstant.before h₇
      · exact .step (keeps_accept _) fun _ s₈ h₈ => .pure fun _ => hconstant.before (h₇.trans h₈)
    cases opener with
    | none => exact .within fun hs => hbody [] s₄ (.refl hs) .nil
    | some opener => exact .bind (hr.code (hopener opener rfl)) hbody
  next => exact .step (keeps_accept _) fun _ _ _ => .pure fun _ => .nil

/-! ### Operations and fields -/

theorem Rules.Placed.operationBody (hr : rules.Placed all) :
    Points all s (operationBody? rules) fun r s' => ∀ code ∈ r, CodeLaid all s code s' := by
  refine .step keeps_skipThrows fun _ s₁ h₁ => .within fun hs => .get ?_
  split
  · exact .bind hr.block fun code s₂ h₂ hcode => .pure_some (hcode.after h₁)
  · exact .step keeps_advance fun _ _ _ => .pure_none
  · refine .step keeps_advance fun _ s₂ h₂ => ?_
    exact .bind (hr.code trivial) fun _ _ _ _ => .pure_none
  next t span after _ _ _ hrest =>
    have hspan := hs.onTokens (hrest ▸ List.mem_cons_self)
    exact .step (keeps_report hspan rfl) fun _ _ _ => .pure_none
  · exact .pure_none

theorem MemberLaid.operation {body : Option (List CodeItem)} (h : ∀ code ∈ body, CodeLaid all s code s')
    (kind : OperationKind) (id : Nat) (name : String) (parameters : List Parameter) :
    MemberLaid all s (.operation kind id name parameters body) s' := by
  cases body with
  | none => exact .of_below (fun _ => .nil) (fun _ => rfl) fun _ _ => rfl
  | some code => exact .of_below (h code rfl) (fun _ => rfl) fun _ _ => rfl

theorem Rules.Placed.method (hr : rules.Placed all) (written : String) {span : Span}
    (hspan : span.OnTokens all.list) :
    Points all s (methodDecl rules written span) fun node s' => MemberLaid all s node s' := by
  refine .step (keeps_declaredName _ hspan) fun name s₁ h₁ => .step keeps_fresh fun id s₂ h₂ => ?_
  refine .step keeps_parameters fun ps s₃ h₃ => .step (.skipWhile keeps_squareRound) fun _ s₄ h₄ => ?_
  refine .bind hr.operationBody fun body s₅ h₅ hbody => .pure fun _ => ?_
  exact (MemberLaid.operation hbody _ _ _ _).after (h₁.trans (h₂.trans (h₃.trans h₄)))

theorem Rules.Placed.constructor (hr : rules.Placed all) (heading : Heading) (start : ConstructorStart) :
    Points all s (constructorDecl rules heading start) fun node s' => MemberLaid all s node s' := by
  refine .step keeps_advance fun _ s₁ h₁ => ?_
  extract_lets fromParameters
  have hparameters (ps : List Parameter) {s₂ : State} (h₂ : Reaches all s s₂) :
      Points all s₂ (fromParameters ps) fun node s' => MemberLaid all s node s' := by
    refine .step keeps_fresh fun id s₃ h₃ => ?_
    refine .bind hr.operationBody fun body s₄ h₄ hbody => .pure fun _ => ?_
    exact (MemberLaid.operation hbody _ _ _ _).after (h₂.trans h₃)
  cases start with
  | ownParameters => exact .step keeps_parameters fun ps s₂ h₂ => hparameters ps (h₁.trans h₂)
  | components ps => exact hparameters ps h₁

theorem Rules.Placed.operationOrField (hr : rules.Placed all) (heading : Heading) (isStatic : Bool) :
    Points all s (operationOrField? rules heading isStatic) fun r s' =>
      ∀ node ∈ r, MemberLaid all s node s' := by
  refine .step keeps_skipAnyAngles fun _ s₁ h₁ => .get ?_
  split
  · exact .bind (hr.constructor heading _) fun node s₂ h₂ hnode => .pure_some (hnode.after h₁)
  · refine .step keeps_type fun type s₂ h₂ => ?_
    cases type with
    | none => exact .step keeps_advance fun _ _ _ => .pure_none
    | some type =>
      refine .bind (points_identifier _) fun r s₃ h₃ hspan => .step (keeps_isAt _) fun b s₄ h₄ => ?_
      have hname := h₁.trans (h₂.trans (h₃.trans h₄))
      split
      · exact .bind (hr.method _ hspan) fun node s₅ h₅ hnode => .pure_some (hnode.after hname)
      · refine .bind (hr.code trivial) fun code s₅ h₅ hcode => .pure_some ?_
        exact .of_below (hcode.after hname) (fun _ => rfl) fun _ _ => rfl

/-! ### Members -/

theorem Rules.Placed.memberNode (hr : rules.Placed all) (heading : Heading) (isStatic : Bool) :
    Points all s (memberNode? rules heading isStatic) fun r s' => ∀ node ∈ r, MemberLaid all s node s' := by
  refine .get ?_
  split
  · exact .pure_none
  · refine .bind hr.block fun code s₁ h₁ hcode => .pure_some ?_
    exact .of_below hcode (fun _ => rfl) fun _ _ => rfl
  · split
    · refine .bind hr.typeDecl fun r s₁ h₁ hdecl => .pure fun _ node hf => ?_
      obtain ⟨decl, hmem, rfl⟩ := Option.map_eq_some_iff.mp hf
      have hdecl := hdecl decl hmem
      exact .of_below (fun depth => (hdecl.laid depth).mono hdecl.covers) (fun _ => rfl) fun _ _ => rfl
    · exact hr.operationOrField heading isStatic

theorem Rules.Placed.member (hr : rules.Placed all) (heading : Heading) :
    Points all s (member? rules heading) fun r s' => MembersLaid all s r.toList s' := by
  refine .here (.step keeps_modifiers fun isStatic s₁ h₁ => ?_)
  refine .bind (hr.memberNode heading isStatic) fun r s₂ h₂ hnode => .here (.pure fun _ => ?_)
  cases r with
  | none => exact .nil
  | some node => exact .single (h₁.trans h₂) ((hnode node rfl).after h₁)

theorem Rules.Placed.memberRound (hr : rules.Placed all) (heading : Heading) {opener : Span}
    (hopener : opener.OnTokens all.list) :
    Points all s (memberRound rules heading opener) fun r s' => MembersLaid all s r.1 s' := by
  refine .get ?_
  split
  · exact .step keeps_advance fun _ _ _ => .pure fun _ => .nil
  · exact .step keeps_advance fun _ _ _ => .pure fun _ => .nil
  · exact .step (keeps_report hopener rfl) fun _ _ _ => .pure fun _ => .nil
  · exact .bind (hr.member heading) fun _ _ _ h => .pure fun _ => h

theorem Rules.Placed.readClassBody (hr : rules.Placed all) (heading : Heading) :
    Points all s (Grammar.classBody rules heading) (MembersLaid all s) := by
  refine .bind (points_take _) fun opener s₁ h₁ hopener => ?_
  cases opener with
  | none =>
    refine .bind points_here fun span s₂ h₂ hspan => ?_
    exact .step (keeps_report hspan rfl) fun _ _ _ => .pure fun _ => .nil
  | some opener =>
    dsimp -zeta only
    extract_lets fromMembers
    have hmembers (constants : List Member) (s₂ : State) (h₂ : Reaches all s₁ s₂)
        (hconstants : MembersLaid all s₁ constants s₂) :
        Points all s₂ (fromMembers constants) (MembersLaid all s) := by
      refine .bind (.collect MembersLaid.append (fun _ => hr.memberRound heading (hopener opener rfl)) s₂)
        fun ms s₃ h₃ hms => .pure fun _ => ?_
      exact (MembersLaid.append h₂ h₃ hconstants hms).after h₁
    split
    · exact .bind (.collect MembersLaid.append (fun _ => hr.constantRound) s₁) hmembers
    · exact .within fun hs => hmembers [] s₁ (.refl hs) .nil

theorem placed_rules : ∀ depth : Nat, (Grammar.rules depth).Placed all
  | 0 => ⟨fun _ => .pure fun _ => .nil, fun _ => .pure fun _ => .nil⟩
  | depth + 1 =>
    have h := placed_rules depth
    ⟨fun heading => h.readClassBody heading, fun hstop => h.readCode hstop⟩

/-! ### Units -/

abbrev TypesLaid (all : Lexemes) : State → List TypeDecl → State → Prop :=
  LaidOut all fun depth decls => decls.flatMap fun decl => decl.outline depth

theorem Rules.Placed.topLevelRound (hr : rules.Placed all) :
    Points all s (topLevelRound rules) fun r s' => TypesLaid all s r.1 s' := by
  refine .get ?_
  split
  · exact .pure fun _ _ => .nil
  refine .step (keeps_accept _) fun b s₁ h₁ => ?_
  split
  · exact .pure fun _ _ => .nil
  refine .step keeps_modifiers fun _ s₂ h₂ => .within fun hs => .get ?_
  split
  · exact .pure fun _ _ => .nil
  next lexeme after hrest =>
    split
    · refine .bind hr.typeDecl fun r s₃ h₃ hdecl => .pure fun _ => ?_
      cases r with
      | none => exact fun _ => .nil
      | some decl =>
        have hdecl := hdecl decl rfl
        have hfound : TypesLaid all s₂ [decl] s₃ := fun depth => by
          show Laid _ _ _ ([decl].flatMap _)
          rw [List.flatMap_singleton]
          exact (hdecl.laid depth).mono hdecl.covers
        exact hfound.after (h₁.trans h₂)
    · have hspan := hs.onTokens (hrest ▸ List.mem_cons_self)
      exact .step keeps_advance fun _ _ _ => .step (keeps_report hspan rfl) fun _ _ _ => .pure fun _ _ => .nil

theorem Rules.Placed.compilationUnit (hr : rules.Placed all) :
    Points all s (compilationUnit rules) fun unit s' => TypesLaid all s unit.types s' := by
  refine .step keeps_package fun names s₁ h₁ => .step keeps_skipImports fun _ s₂ h₂ => ?_
  refine .bind (.collect (LaidOut.append fun _ => List.flatMap_append) (fun _ => hr.topLevelRound) s₂)
    fun types s₃ h₃ htypes => .pure fun _ => ?_
  exact htypes.after (h₁.trans h₂)

end

end Grammar

/-- Without tokens nothing is read and nothing reported. -/
theorem CompilationUnit.ofLexemes_nil : ofLexemes [] = (⟨[], []⟩, []) := by
  cbv

end Nomenclator
