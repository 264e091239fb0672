/-
Numbered nodes begin behind one another in preorder, whatever the text.

A node begins with the token that is next, and that token is read before
anything below the node begins. So no two nodes begin with the same token,
and what is found between two states begins with tokens that were left at
the first of them and have been read at the second.
-/
import Nomenclator.Proofs.Declaration.Preorder
import Nomenclator.Proofs.Grammar.AlongsideRules
import Nomenclator.Proofs.Grammar.Placed

namespace Nomenclator

/-- Where the node begins, if it is a numbered one. -/
def Node.start? (node : Node) : Option Nat := node.id?.bind fun _ => node.span?.map Span.start

def Node.starts (nodes : List Node) : List Nat := nodes.filterMap Node.start?

theorem Node.starts_append (nodes more : List Node) :
    starts (nodes ++ more) = starts nodes ++ starts more := List.filterMap_append

namespace Grammar

variable {all : Lexemes} {s s' s'' s₀ s₁ : State}

/-! ## What begins on the way -/

/-- The nodes begin one behind the other, with tokens that were read between the two states. -/
structure Begun (s : State) (nodes : List Node) (s' : State) : Prop where
  increasing : (Node.starts nodes).Pairwise (· < ·)
  left : ∀ x ∈ Node.starts nodes, ∃ l ∈ s.rest, l.span.start = x
  past : ∀ x ∈ Node.starts nodes, ∀ l ∈ s'.rest, x < l.span.start

namespace Begun

variable {top : Node} {nodes more : List Node}

theorem nil : Begun s [] s' := ⟨.nil, nofun, nofun⟩

/-- Nothing began on the way to the first state. -/
theorem after (h : Begun s₁ nodes s') (h₁ : Reaches all s s₁) : Begun s nodes s' :=
  { h with left := fun x hx => (h.left x hx).imp fun _ hl => ⟨h₁.rest.subset hl.1, hl.2⟩ }

/-- Nothing began on the way from the second state. -/
theorem before (h : Begun s nodes s') (h' : Reaches all s' s'') : Begun s nodes s'' :=
  { h with past := fun x hx l hl => h.past x hx l (h'.rest.subset hl) }

theorem append (h : Reaches all s s') (h' : Reaches all s' s'') (hnodes : Begun s nodes s')
    (hmore : Begun s' more s'') : Begun s (nodes ++ more) s'' := by
  have hlast := hnodes.before h'
  have hfirst := hmore.after h
  refine ⟨?_, ?_, ?_⟩
  · rw [Node.starts_append]
    refine List.pairwise_append.mpr ⟨hnodes.increasing, hmore.increasing, fun x hx y hy => ?_⟩
    obtain ⟨l, hl, rfl⟩ := hmore.left y hy
    exact hnodes.past x hx l hl
  · rw [Node.starts_append]
    exact List.forall_mem_append.mpr ⟨hlast.left, hfirst.left⟩
  · rw [Node.starts_append]
    exact List.forall_mem_append.mpr ⟨hlast.past, hfirst.past⟩

/-- A node without a number may be put in front. -/
theorem unnumbered (hstart : top.start? = none) (h : Begun s nodes s') : Begun s (top :: nodes) s' := by
  have hstarts : Node.starts (top :: nodes) = Node.starts nodes := List.filterMap_cons_none hstart
  exact ⟨hstarts ▸ h.increasing, hstarts ▸ h.left, hstarts ▸ h.past⟩

/-- A node begins with the next token if what is below it begins when a token has been read. -/
theorem node (hstart : top.start? = some s.here.start) (h₁ : Reaches all s s₁)
    (hread : s₁.rest.length < s.rest.length) (h' : Reaches all s₁ s') (h : Begun s₁ nodes s') :
    Begun s (top :: nodes) s' := by
  obtain ⟨l, v, hs⟩ := List.exists_cons_of_length_pos (Nat.zero_lt_of_lt hread)
  rw [State.here_of_rest hs] at hstart
  have hsuffix : s₁.rest <:+ v := by
    refine (List.suffix_cons_iff.mp (hs ▸ h₁.rest)).resolve_left fun he => ?_
    rw [he, hs] at hread
    exact Nat.lt_irrefl _ hread
  have hbehind : ∀ l' ∈ v, l.span.start < l'.span.start := fun l' hl' => by
    have hall : l :: v <:+ all.list := hs ▸ h₁.before.suffix
    have happart := List.rel_of_pairwise_cons (all.inOrder.apart.sublist hall.sublist) hl'
    have hlt := all.inOrder.nonempty l (hall.subset List.mem_cons_self)
    omega
  have hstarts : Node.starts (top :: nodes) = l.span.start :: Node.starts nodes :=
    List.filterMap_cons_some hstart
  refine ⟨?_, ?_, ?_⟩
  · rw [hstarts]
    refine .cons (fun x hx => ?_) h.increasing
    obtain ⟨l', hl', rfl⟩ := h.left x hx
    exact hbehind l' (hsuffix.subset hl')
  · rw [hstarts]
    exact List.forall_mem_cons.mpr ⟨⟨l, hs ▸ List.mem_cons_self, rfl⟩, (h.after h₁).left⟩
  · rw [hstarts]
    refine List.forall_mem_cons.mpr ⟨fun l' hl' => ?_, h.past⟩
    exact hbehind l' (hsuffix.subset (h'.rest.subset hl'))

/-- Arguments, and behind them the body of an anonymous class. -/
theorem withBody {members : List Member} (h : Reaches all s s') (h' : Reaches all s' s'')
    (hnodes : Begun s nodes s') (hbody : Begun s' (Member.preorders members) s'') :
    Begun s (nodes ++ .body :: Member.preorders members) s'' :=
  append h h' hnodes (.unnumbered rfl hbody)

end Begun

abbrev CodeBegun (s : State) (code : List CodeItem) (s' : State) : Prop :=
  Begun s (CodeItem.preorders code) s'

abbrev MembersBegun (s : State) (members : List Member) (s' : State) : Prop :=
  Begun s (Member.preorders members) s'

theorem CodeBegun.append {code more : List CodeItem} (h : Reaches all s s') (h' : Reaches all s' s'')
    (hcode : CodeBegun s code s') (hmore : CodeBegun s' more s'') : CodeBegun s (code ++ more) s'' := by
  rw [CodeBegun, CodeItem.preorders_append]
  exact Begun.append h h' hcode hmore

theorem MembersBegun.append {members more : List Member} (h : Reaches all s s') (h' : Reaches all s' s'')
    (hmembers : MembersBegun s members s') (hmore : MembersBegun s' more s'') :
    MembersBegun s (members ++ more) s'' := by
  rw [MembersBegun, Member.preorders_append]
  exact Begun.append h h' hmembers hmore

theorem CodeBegun.single {i : CodeItem} (h : Begun s i.preorder s') : CodeBegun s [i] s' := by
  rwa [CodeBegun, CodeItem.preorders_singleton]

/-- A member whose place begins where some state was on the way to the first one. -/
def MemberBegun (all : Lexemes) (s : State) (node : Span → Member) (s' : State) : Prop :=
  ∀ s₀ place, Reaches all s₀ s → place.start = s₀.here.start → Begun s₀ (node place).preorder s'

theorem MemberBegun.after {node : Span → Member} (h : MemberBegun all s₁ node s') (h₁ : Reaches all s s₁) :
    MemberBegun all s node s' := fun s₀ place h₀ => h s₀ place (h₀.trans h₁)

/-- A member that has no number itself. -/
theorem MemberBegun.unnumbered {node : Span → Member} {top : Span → Node} {nodes : List Node}
    (h : Begun s nodes s') (hstart : ∀ place, (top place).start? = none)
    (hpreorder : ∀ place, (node place).preorder = top place :: nodes) : MemberBegun all s node s' :=
  fun _ place h₀ _ => hpreorder place ▸ (h.after h₀).unnumbered (hstart place)

/-- An operation, of which a token was read before its code. -/
theorem MemberBegun.operation {body : Option (List CodeItem)} (h₁ : Reaches all s s₁)
    (hread : s₁.rest.length < s.rest.length) (h' : Reaches all s₁ s')
    (h : ∀ code ∈ body, CodeBegun s₁ code s') (kind : OperationKind) (id : Nat) (name : String)
    (parameters : List Parameter) : MemberBegun all s (.operation kind id name parameters body) s' := by
  intro s₀ place h₀ hplace
  have hread₀ : s₁.rest.length < s₀.rest.length := Nat.lt_of_lt_of_le hread h₀.rest.length_le
  cases body with
  | none => exact .node (congrArg some hplace) (h₀.trans h₁) hread₀ h' .nil
  | some code => exact .node (congrArg some hplace) (h₀.trans h₁) hread₀ h' (h code rfl)

theorem MembersBegun.single {node : Span → Member} (h : Reaches all s s')
    (hnode : MemberBegun all s node s') : MembersBegun s [node (s.here.join s'.here)] s' := by
  rw [h.join, MembersBegun, Member.preorders_singleton]
  exact hnode s _ (.refl h.before) rfl

/-! ## Reading the first token -/

theorem points_advance : Points all s advance fun _ s' => s'.rest.length ≤ s.rest.length - 1 := fun hs => by
  refine ⟨(keeps_advance s hs).1, ?_⟩
  show s.advance.rest.length ≤ s.rest.length - 1
  rw [s.advance_eq.1, List.length_tail]

theorem points_toArrow :
    Points all s (skipWhile arrowRound) fun _ s' => s'.rest.length ≤ s.rest.length - 1 := fun hs => by
  refine ⟨(Keeps.skipWhile keeps_arrowRound s hs).1, ?_⟩
  rw [← List.length_tail]
  exact (skipWhile_arrowRound_suffix s).length_le

/-- A type that is found has a first token. -/
theorem points_type :
    Points all s type? fun r s' => r ≠ none → s'.rest.length < s.rest.length := fun hw =>
  ⟨(keeps_type s hw).1, ((alongside_type (f := .identity)) (Nat.lt_succ_self s.rest.length)).post.2⟩

/-! ## The grammar -/

/-- What the rules read begins where it was read. -/
structure Rules.Begins (all : Lexemes) (rules : Rules) : Prop where
  classBody : ∀ {s : State} (heading : Heading), Points all s (rules.classBody heading) (MembersBegun s)
  code : ∀ {s : State} {stop : CodeEnd}, stop.OnTokens all.list → Points all s (rules.code stop) (CodeBegun s)

section

variable {rules : Rules}

/-! ### Type declarations -/

theorem Rules.Begins.typeDecl (hr : rules.Begins all) :
    Points all s (typeDecl? rules) fun r s' => ∀ decl ∈ r, Begun s decl.preorder s' := by
  refine .get ?_
  split
  next => exact .pure_none
  next kind hkind =>
    have hs : 0 < s.rest.length := List.length_pos_iff.mpr fun hnil => by
      rw [hnil] at hkind
      exact absurd hkind nofun
    refine .here ?_
    extract_lets fromKeyword
    have hkeyword {s₁ : State} (h₁ : Reaches all s s₁) :
        Points all s₁ (fromKeyword ()) fun r s' => ∀ decl ∈ r, Begun s decl.preorder s' := by
      refine .bind points_advance fun _ s₂ h₂ hread => .step keeps_fresh fun id s₃ h₃ => ?_
      refine .bind (points_identifier _) fun r s₄ h₄ hname => ?_
      refine .step (keeps_declaredName _ hname) fun name s₅ h₅ => ?_
      refine .step (keeps_components kind) fun comps s₆ h₆ => .step keeps_skipHeader fun _ s₇ h₇ => ?_
      refine .bind (hr.classBody _) fun ms s₈ h₈ hms => .here (.pure_some ?_)
      have hheader := h₃.trans (h₄.trans (h₅.trans (h₆.trans h₇)))
      have hall := h₁.trans (h₂.trans (hheader.trans h₈))
      have hfirst : s₂.rest.length < s.rest.length := by
        have hle := h₁.rest.length_le
        omega
      rw [hall.join]
      exact .node rfl (h₁.trans h₂) hfirst (hheader.trans h₈) (hms.after hheader)
    split
    · exact .step keeps_advance fun _ s₁ h₁ => hkeyword h₁
    · exact .within fun hw => hkeyword (.refl hw)

theorem Rules.Begins.anonymousBody (hr : rules.Begins all) :
    Points all s (anonymousBody? rules) fun r s' => ∀ ms ∈ r, MembersBegun s ms s' := by
  refine .step (keeps_isAt _) fun b s₁ h₁ => ?_
  split
  · exact .bind (hr.classBody .anonymous) fun ms s₂ h₂ hms => .pure_some (hms.after h₁)
  · exact .pure_none

/-! ### Code -/

theorem Rules.Begins.block (hr : rules.Begins all) : Points all s (block rules) (CodeBegun s) := by
  refine .bind (points_take _) fun opener s₁ h₁ hopener => ?_
  cases opener with
  | none =>
    refine .bind points_here fun span s₂ h₂ hspan => ?_
    exact .step (keeps_report hspan rfl) fun _ _ _ => .pure fun _ => .nil
  | some opener => exact .mono (hr.code (hopener opener rfl)) fun code s₂ h₂ hcode => hcode.after h₁

theorem Rules.Begins.lambda (hr : rules.Begins all) (hs : 0 < s.rest.length) :
    Points all s (lambda rules) fun i s' => CodeBegun s [i] s' := by
  refine .here (.step keeps_fresh fun id s₁ h₁ => .bind points_toArrow fun _ s₂ h₂ hread => ?_)
  refine .step (keeps_isAt _) fun b s₃ h₃ => ?_
  extract_lets fromBody
  have hbody (code : List CodeItem) (s₄ : State) (h₄ : Reaches all s₃ s₄) (hcode : CodeBegun s₃ code s₄) :
      Points all s₄ (fromBody code) fun i s' => CodeBegun s [i] s' := by
    refine .here (.pure fun _ => .single ?_)
    have harrow := h₁.trans h₂
    have hfirst : s₂.rest.length < s.rest.length := by
      have hle := h₁.rest.length_le
      omega
    rw [(harrow.trans (h₃.trans h₄)).join]
    exact .node rfl harrow hfirst (h₃.trans h₄) (hcode.after h₃)
  split
  · exact .bind hr.block hbody
  · exact .bind (hr.code trivial) hbody

theorem Rules.Begins.allocation (hr : rules.Begins all) (hs : 0 < s.rest.length) :
    Points all s (allocation? rules) fun r s' => CodeBegun s r.toList s' := by
  refine .here (.bind points_advance fun _ s₁ h₁ hread => .step keeps_skipAnyAngles fun _ s₂ h₂ => ?_)
  refine .step keeps_type fun type s₃ h₃ => ?_
  cases type with
  | none => exact .pure fun _ => .nil
  | some type =>
    refine .bind (points_take _) fun opener s₄ h₄ hopener => ?_
    cases opener with
    | none => exact .pure fun _ => .nil
    | some opener =>
      refine .step keeps_fresh fun id s₅ h₅ => ?_
      refine .bind (hr.code (hopener opener rfl)) fun arguments s₆ h₆ harguments => ?_
      refine .bind hr.anonymousBody fun body s₇ h₇ hbody => .here (.pure fun _ => .single ?_)
      have hopen := h₂.trans (h₃.trans (h₄.trans h₅))
      have hnew := hopen.trans (h₆.trans h₇)
      have hfirst : s₁.rest.length < s.rest.length := by omega
      rw [(h₁.trans hnew).join]
      cases body with
      | none => exact .node rfl h₁ hfirst hnew ((harguments.after hopen).before h₇)
      | some members =>
        exact .node rfl h₁ hfirst hnew ((harguments.withBody h₆ h₇ (hbody members rfl)).after hopen)

theorem Rules.Begins.localType (hr : rules.Begins all) :
    Points all s (localType? rules) fun r s' => CodeBegun s r.toList s' := by
  refine .bind hr.typeDecl fun r s₁ h₁ hdecl => .pure fun _ => ?_
  cases r with
  | none => exact .nil
  | some decl => exact .single (.unnumbered rfl (hdecl decl rfl))

theorem begins_pass : Points all s pass fun r s' => CodeBegun s r.1 s' :=
  .step keeps_advance fun _ _ _ => .pure fun _ => .nil

theorem begins_closing {stop : CodeEnd} (hstop : stop.OnTokens all.list) (bracket : Bracket) :
    Points all s (closing stop bracket) fun r s' => CodeBegun s r.1 s' := by
  cases stop with
  | close expected opener =>
    rw [closing]
    split
    · exact begins_pass
    split
    · exact begins_pass
    · exact .step (keeps_report hstop rfl) fun _ _ _ => .pure fun _ => .nil
  | semicolon =>
    rw [closing]
    split
    · exact .pure fun _ => .nil
    · exact begins_pass
  | expression => exact .pure fun _ => .nil

theorem begins_semicolon (stop : CodeEnd) :
    Points all s (semicolon stop) fun r s' => CodeBegun s r.1 s' := by
  cases stop with
  | close => exact begins_pass
  | semicolon => exact .step keeps_advance fun _ _ _ => .pure fun _ => .nil
  | expression => exact .pure fun _ => .nil

theorem Rules.Begins.keyword (hr : rules.Begins all) (hs : 0 < s.rest.length) (k : Keyword) :
    Points all s (keyword rules k) fun r s' => CodeBegun s r.1 s' := by
  refine .get ?_
  dsimp only
  split
  · exact .step keeps_skipLabel fun _ _ _ => .pure fun _ => .nil
  split
  · exact .bind (hr.allocation hs) fun _ _ _ h => .pure fun _ => h
  split
  · exact .bind hr.localType fun _ _ _ h => .pure fun _ => h
  · exact begins_pass

theorem Rules.Begins.codeRound (hr : rules.Begins all) {stop : CodeEnd} (hstop : stop.OnTokens all.list) :
    Points all s (codeRound rules stop) fun r s' => CodeBegun s r.1 s' := by
  refine .within fun hw => .get ?_
  split
  · cases stop with
    | close bracket opener =>
      exact .step (keeps_reportUnclosed bracket hstop) fun _ _ _ => .pure fun _ => .nil
    | semicolon | expression => exact .pure fun _ => .nil
  · exact begins_closing hstop _
  · exact begins_semicolon stop
  · split
    · exact .pure fun _ => .nil
    · exact begins_pass
  next hrest => exact hr.keyword (hrest ▸ Nat.zero_lt_succ _) _
  next lexeme after _ _ _ _ hrest =>
    split
    · exact .bind (hr.lambda (hrest ▸ Nat.zero_lt_succ _)) fun _ _ _ h => .pure fun _ => h
    split
    · exact .bind hr.localType fun _ _ _ h => .pure fun _ => h
    split
    · have hopener := hw.onTokens (hrest ▸ List.mem_cons_self)
      exact .step keeps_advance fun _ s₁ h₁ => .bind (hr.code hopener) fun code s₂ h₂ hcode =>
        .pure fun _ => hcode.after h₁
    · exact begins_pass

theorem Rules.Begins.readCode (hr : rules.Begins all) {stop : CodeEnd} (hstop : stop.OnTokens all.list) :
    Points all s (Grammar.code rules stop) (CodeBegun s) :=
  .collect CodeBegun.append (fun _ => hr.codeRound hstop) s

/-! ### Enum constants -/

theorem Rules.Begins.constantRound (hr : rules.Begins all) :
    Points all s (constantRound rules) fun r s' => MembersBegun s r.1 s' := by
  refine .step keeps_modifiers fun _ s₁ h₁ => .get ?_
  split
  next name start tail hrest =>
    have hstart : start = s₁.here := (State.here_of_rest hrest).symm
    have hs : 0 < s₁.rest.length := hrest ▸ Nat.zero_lt_succ _
    refine .bind points_advance fun _ s₂ h₂ hread => .step keeps_fresh fun id s₃ h₃ => ?_
    refine .bind (points_take _) fun opener s₄ h₄ hopener => ?_
    extract_lets fromBody
    have hbody (arguments : List CodeItem) (s₅ : State) (h₅ : Reaches all s₄ s₅)
        (harguments : CodeBegun s₄ arguments s₅) :
        Points all s₅ (fromBody arguments) fun r s' => MembersBegun s r.1 s' := by
      refine .bind hr.anonymousBody fun body s₆ h₆ hbody => .here ?_
      have hopen := h₃.trans h₄
      have hname := hopen.trans (h₅.trans h₆)
      have hfirst : s₂.rest.length < s₁.rest.length := by omega
      have hconstant : MembersBegun s [.constant id name arguments body (start.join s₆.here)] s₆ := by
        rw [hstart, (h₂.trans hname).join, MembersBegun, Member.preorders_singleton]
        refine Begun.after ?_ h₁
        cases body with
        | none => exact .node rfl h₂ hfirst hname ((harguments.after hopen).before h₆)
        | some members =>
          exact .node rfl h₂ hfirst hname ((harguments.withBody h₅ h₆ (hbody members rfl)).after hopen)
      refine .step (keeps_accept _) fun b s₇ h₇ => ?_
      split
      · exact .pure fun _ => hconstant.before h₇
      · exact .step (keeps_accept _) fun _ s₈ h₈ => .pure fun _ => hconstant.before (h₇.trans h₈)
    cases opener with
    | none => exact .within fun hw => hbody [] s₄ (.refl hw) .nil
    | some opener => exact .bind (hr.code (hopener opener rfl)) hbody
  next => exact .step (keeps_accept _) fun _ _ _ => .pure fun _ => .nil

/-! ### Operations and fields -/

theorem Rules.Begins.operationBody (hr : rules.Begins all) :
    Points all s (operationBody? rules) fun r s' => ∀ code ∈ r, CodeBegun s code s' := by
  refine .step keeps_skipThrows fun _ s₁ h₁ => .within fun hw => .get ?_
  split
  · exact .bind hr.block fun code s₂ h₂ hcode => .pure_some (hcode.after h₁)
  · exact .step keeps_advance fun _ _ _ => .pure_none
  · refine .step keeps_advance fun _ s₂ h₂ => ?_
    exact .bind (hr.code trivial) fun _ _ _ _ => .pure_none
  next t span after _ _ _ hrest =>
    have hspan := hw.onTokens (hrest ▸ List.mem_cons_self)
    exact .step (keeps_report hspan rfl) fun _ _ _ => .pure_none
  · exact .pure_none

/-- The type in front of the name has been read. -/
theorem Rules.Begins.method (hr : rules.Begins all) (written : String) {span : Span}
    (hspan : span.OnTokens all.list) (h₁ : Reaches all s s₁) (hread : s₁.rest.length < s.rest.length) :
    Points all s₁ (methodDecl rules written span) fun node s' => MemberBegun all s node s' := by
  refine .step (keeps_declaredName _ hspan) fun name s₂ h₂ => .step keeps_fresh fun id s₃ h₃ => ?_
  refine .step keeps_parameters fun ps s₄ h₄ => .step (.skipWhile keeps_squareRound) fun _ s₅ h₅ => ?_
  refine .bind hr.operationBody fun body s₆ h₆ hbody => .pure fun _ => ?_
  have hheader := h₂.trans (h₃.trans (h₄.trans h₅))
  exact .operation h₁ hread (hheader.trans h₆) (fun code hc => (hbody code hc).after hheader)
    _ _ _ _

theorem Rules.Begins.constructor (hr : rules.Begins all) (hs : 0 < s.rest.length) (heading : Heading)
    (start : ConstructorStart) :
    Points all s (constructorDecl rules heading start) fun node s' => MemberBegun all s node s' := by
  refine .bind points_advance fun _ s₁ h₁ hread => ?_
  extract_lets fromParameters
  have hfirst : s₁.rest.length < s.rest.length := by omega
  have hparameters (ps : List Parameter) {s₂ : State} (h₂ : Reaches all s₁ s₂) :
      Points all s₂ (fromParameters ps) fun node s' => MemberBegun all s node s' := by
    refine .step keeps_fresh fun id s₃ h₃ => .bind hr.operationBody fun body s₄ h₄ hbody => .pure fun _ => ?_
    have hheader := h₂.trans h₃
    exact .operation h₁ hfirst (hheader.trans h₄) (fun code hc => (hbody code hc).after hheader)
      _ _ _ _
  cases start with
  | ownParameters => exact .step keeps_parameters fun ps s₂ h₂ => hparameters ps h₂
  | components ps => exact .within fun hw => hparameters ps (.refl hw)

theorem Rules.Begins.operationOrField (hr : rules.Begins all) (heading : Heading) (isStatic : Bool) :
    Points all s (operationOrField? rules heading isStatic) fun r s' =>
      ∀ node ∈ r, MemberBegun all s node s' := by
  refine .step keeps_skipAnyAngles fun _ s₁ h₁ => .get ?_
  split
  next start hstart =>
    have hs : 0 < s₁.rest.length := List.length_pos_iff.mpr fun hnil => by
      rw [hnil] at hstart
      exact absurd hstart nofun
    exact .bind (hr.constructor hs heading _) fun node s₂ h₂ hnode => .pure_some (hnode.after h₁)
  · refine .bind points_type fun type s₂ h₂ hread => ?_
    cases type with
    | none => exact .step keeps_advance fun _ _ _ => .pure_none
    | some type =>
      refine .bind (points_identifier _) fun r s₃ h₃ hspan => .step (keeps_isAt _) fun b s₄ h₄ => ?_
      have hname := h₂.trans (h₃.trans h₄)
      have hfirst : s₄.rest.length < s₁.rest.length :=
        Nat.lt_of_le_of_lt (h₃.trans h₄).rest.length_le (hread nofun)
      split
      · exact .bind (hr.method _ hspan hname hfirst) fun node s₅ h₅ hnode => .pure_some (hnode.after h₁)
      · refine .bind (hr.code trivial) fun code s₅ h₅ hcode => .pure_some ?_
        exact .unnumbered (hcode.after (h₁.trans hname)) (fun _ => rfl) fun _ => rfl

/-! ### Members -/

theorem Rules.Begins.memberNode (hr : rules.Begins all) (heading : Heading) (isStatic : Bool) :
    Points all s (memberNode? rules heading isStatic) fun r s' => ∀ node ∈ r, MemberBegun all s node s' := by
  refine .get ?_
  split
  · exact .pure_none
  · refine .bind hr.block fun code s₁ h₁ hcode => .pure_some ?_
    exact .unnumbered hcode (fun _ => rfl) fun _ => rfl
  · split
    · refine .bind hr.typeDecl fun r s₁ h₁ hdecl => .pure fun _ node hf => ?_
      obtain ⟨decl, hmem, rfl⟩ := Option.map_eq_some_iff.mp hf
      exact .unnumbered (hdecl decl hmem) (fun _ => rfl) fun _ => rfl
    · exact hr.operationOrField heading isStatic

theorem Rules.Begins.member (hr : rules.Begins all) (heading : Heading) :
    Points all s (member? rules heading) fun r s' => MembersBegun s r.toList s' := by
  refine .here (.step keeps_modifiers fun isStatic s₁ h₁ => ?_)
  refine .bind (hr.memberNode heading isStatic) fun r s₂ h₂ hnode => .here (.pure fun _ => ?_)
  cases r with
  | none => exact .nil
  | some node => exact .single (h₁.trans h₂) ((hnode node rfl).after h₁)

theorem Rules.Begins.memberRound (hr : rules.Begins all) (heading : Heading) {opener : Span}
    (hopener : opener.OnTokens all.list) :
    Points all s (memberRound rules heading opener) fun r s' => MembersBegun s r.1 s' := by
  refine .get ?_
  split
  · exact .step keeps_advance fun _ _ _ => .pure fun _ => .nil
  · exact .step keeps_advance fun _ _ _ => .pure fun _ => .nil
  · exact .step (keeps_report hopener rfl) fun _ _ _ => .pure fun _ => .nil
  · exact .bind (hr.member heading) fun _ _ _ h => .pure fun _ => h

theorem Rules.Begins.readClassBody (hr : rules.Begins all) (heading : Heading) :
    Points all s (Grammar.classBody rules heading) (MembersBegun s) := by
  refine .bind (points_take _) fun opener s₁ h₁ hopener => ?_
  cases opener with
  | none =>
    refine .bind points_here fun span s₂ h₂ hspan => ?_
    exact .step (keeps_report hspan rfl) fun _ _ _ => .pure fun _ => .nil
  | some opener =>
    dsimp -zeta only
    extract_lets fromMembers
    have hmembers (constants : List Member) (s₂ : State) (h₂ : Reaches all s₁ s₂)
        (hconstants : MembersBegun s₁ constants s₂) :
        Points all s₂ (fromMembers constants) (MembersBegun s) := by
      refine .bind (.collect MembersBegun.append (fun _ => hr.memberRound heading (hopener opener rfl)) s₂)
        fun ms s₃ h₃ hms => .pure fun _ => ?_
      exact (MembersBegun.append h₂ h₃ hconstants hms).after h₁
    split
    · exact .bind (.collect MembersBegun.append (fun _ => hr.constantRound) s₁) hmembers
    · exact .within fun hw => hmembers [] s₁ (.refl hw) .nil

theorem begins_rules : ∀ depth : Nat, (Grammar.rules depth).Begins all
  | 0 => ⟨fun _ => .pure fun _ => .nil, fun _ => .pure fun _ => .nil⟩
  | depth + 1 =>
    have h := begins_rules depth
    ⟨fun heading => h.readClassBody heading, fun hstop => h.readCode hstop⟩

/-! ### Units -/

abbrev TypesBegun (s : State) (decls : List TypeDecl) (s' : State) : Prop :=
  Begun s (decls.flatMap TypeDecl.preorder) s'

theorem Rules.Begins.topLevelRound (hr : rules.Begins all) :
    Points all s (topLevelRound rules) fun r s' => TypesBegun s r.1 s' := by
  refine .get ?_
  split
  · exact .pure fun _ => .nil
  refine .step (keeps_accept _) fun b s₁ h₁ => ?_
  split
  · exact .pure fun _ => .nil
  refine .step keeps_modifiers fun _ s₂ h₂ => .within fun hw => .get ?_
  split
  · exact .pure fun _ => .nil
  next lexeme after hrest =>
    split
    · refine .bind hr.typeDecl fun r s₃ h₃ hdecl => .pure fun _ => ?_
      cases r with
      | none => exact .nil
      | some decl =>
        rw [TypesBegun, Option.toList, List.flatMap_singleton]
        exact (hdecl decl rfl).after (h₁.trans h₂)
    · have hspan := hw.onTokens (hrest ▸ List.mem_cons_self)
      exact .step keeps_advance fun _ _ _ => .step (keeps_report hspan rfl) fun _ _ _ => .pure fun _ => .nil

theorem Rules.Begins.compilationUnit (hr : rules.Begins all) :
    Points all s (compilationUnit rules) fun unit s' => TypesBegun s unit.types s' := by
  refine .step keeps_package fun names s₁ h₁ => .step keeps_skipImports fun _ s₂ h₂ => ?_
  have happend {s s' s'' : State} {found more : List TypeDecl} (h : Reaches all s s')
      (h' : Reaches all s' s'') (hfound : TypesBegun s found s') (hmore : TypesBegun s' more s'') :
      TypesBegun s (found ++ more) s'' := by
    rw [TypesBegun, List.flatMap_append]
    exact .append h h' hfound hmore
  refine .bind (.collect happend (fun _ => hr.topLevelRound) s₂) fun types s₃ h₃ htypes => .pure fun _ => ?_
  exact htypes.after (h₁.trans h₂)

end

end Grammar

/-- **Numbered nodes begin in the order of their numbers**, each behind the one before it. -/
theorem CompilationUnit.starts_ofLexemes {lexemes : List Lexeme} (h : Lexeme.InOrder lexemes) :
    (Node.starts (ofLexemes lexemes).1.preorder).Pairwise (· < ·) := by
  by_cases hne : lexemes = []
  · subst hne
    rw [ofLexemes_nil]
    exact .nil
  · have hstart := Grammar.State.Within.start ⟨lexemes, hne, h⟩
    exact ((Grammar.begins_rules lexemes.length).compilationUnit hstart).2.increasing

end Nomenclator
