/-
The numbers of nodes increase in preorder, whatever the text.

A node takes its number before anything below it is read, so the numbers of
a tree are those of its parts in the order in which they were read. Code
that is read and dropped, or a declaration that fails half-way, leaves a gap
and nothing else.
-/
import Nomenclator.Proofs.Declaration.Preorder
import Nomenclator.Proofs.Grammar.Ensures

namespace Nomenclator

open scoped List

/-- The numbers of the nodes that have one. -/
def Node.numbers (nodes : List Node) : List Nat := nodes.filterMap Node.id?

def TypeDecl.numbers (decl : TypeDecl) : List Nat := Node.numbers decl.preorder

def Member.numbers (members : List Member) : List Nat := Node.numbers (Member.preorders members)

def CodeItem.numbers (code : List CodeItem) : List Nat := Node.numbers (CodeItem.preorders code)

namespace Grammar

variable {α β : Type}

/-! ## Numbers in order -/

/-- These numbers were handed out one after the other until now, starting with `base`. -/
structure Handed (base : Nat) (ids : List Nat) (s : State) : Prop where
  base_le : base ≤ s.nextId
  increasing : ids.Pairwise (· < ·)
  range : ∀ id ∈ ids, base ≤ id ∧ id < s.nextId

namespace Handed

variable {base : Nat} {ids more : List Nat} {s s' : State}

theorem nil (s : State) : Handed s.nextId [] s := ⟨Nat.le_refl _, .nil, nofun⟩

theorem later (h : Handed base ids s) (hle : s.nextId ≤ s'.nextId) : Handed base ids s' :=
  ⟨Nat.le_trans h.base_le hle, h.increasing,
    fun id hid => ⟨(h.range id hid).1, Nat.lt_of_lt_of_le (h.range id hid).2 hle⟩⟩

theorem sublist (h : Handed base ids s) (hsub : more <+ ids) : Handed base more s :=
  ⟨h.base_le, h.increasing.sublist hsub, fun id hid => h.range id (hsub.subset hid)⟩

theorem append (h : Handed base ids s) (h' : Handed s.nextId more s') : Handed base (ids ++ more) s' := by
  refine ⟨Nat.le_trans h.base_le h'.base_le, List.pairwise_append.mpr ⟨h.increasing, h'.increasing, ?_⟩, ?_⟩
  · intro id hid id' hid'
    exact Nat.lt_of_lt_of_le (h.range id hid).2 (h'.range id' hid').1
  · intro id hid
    rcases List.mem_append.mp hid with hid | hid
    · exact (h.later h'.base_le).range id hid
    · exact ⟨Nat.le_trans h.base_le (h'.range id hid).1, (h'.range id hid).2⟩

end Handed

/-- Given that the numbers `done` come before, those of the answer are in order. -/
def Numbers (done : List Nat) (p : Parser α) (ids : α → List Nat) : Prop :=
  ∀ base s, Handed base done s → Handed base (ids (p s).1) (p s).2

namespace Numbers

variable {done : List Nat} {p : Parser α} {f : α → Parser β} {ids : α → List Nat} {ids' : β → List Nat}

/-- Numbers may be dropped. -/
theorem pure {a : α} (h : ids a <+ done) : Numbers done (Pure.pure a) ids := fun _ _ hs => hs.sublist h

theorem bind (hp : Numbers done p ids) (hf : ∀ a, Numbers (ids a) (f a) ids') :
    Numbers done (p >>= f) ids' := fun base s hs => hf _ base _ (hp base s hs)

/-- A step that adds nothing to the answer. -/
theorem step (hp : Moves p) (hf : ∀ a, Numbers done (f a) ids') : Numbers done (p >>= f) ids' :=
  fun base s hs => hf _ base _ (hs.later (hp s).nextId)

theorem get {f : State → Parser β} (h : ∀ s, Numbers done (f s) ids') :
    Numbers done (MonadState.get >>= f) ids' := fun base s hs => h s base s hs

/-- What was handed out before stays in front. -/
theorem after (hp : Numbers [] p ids) (done : List Nat) : Numbers done p fun a => done ++ ids a :=
  fun _ s hs => hs.append (hp _ s (.nil s))

theorem fresh (done : List Nat) : Numbers done Grammar.fresh fun id => done ++ [id] := fun base s hs => by
  refine hs.append ⟨Nat.le_succ _, List.pairwise_singleton .., fun id hid => ?_⟩
  rw [List.mem_singleton] at hid
  rw [hid]
  exact ⟨Nat.le_refl _, Nat.lt_succ_self _⟩

/-- What the rounds have found is in order if what each of them finds is. -/
theorem collect {list : List α → List Nat} (happend : ∀ a b, list (a ++ b) = list a ++ list b)
    {round : Parser (List α × Bool)} (h : Numbers [] round fun r => list r.1) :
    Numbers [] (collect round) list := by
  intro base s
  fun_induction Grammar.collect round s generalizing base with
  | case1 s found s' he | case3 s found s' he hge =>
    intro hs
    have hfound := h base s hs
    rwa [he] at hfound
  | case2 s found s' he hlt more s'' hmore ih =>
    intro hs
    have hfound := h base s hs
    rw [he] at hfound
    rw [hmore] at ih
    rw [happend]
    exact hfound.append (ih _ (.nil s'))

end Numbers

end Grammar

/-! ## The numbers of parts -/

theorem Node.numbers_append (nodes more : List Node) :
    numbers (nodes ++ more) = numbers nodes ++ numbers more := List.filterMap_append

namespace Member

theorem numbers_append (members more : List Member) :
    numbers (members ++ more) = numbers members ++ numbers more := by
  rw [numbers, preorders_eq_flatMap, List.flatMap_append, Node.numbers_append,
    ← preorders_eq_flatMap, ← preorders_eq_flatMap]
  rfl

theorem numbers_singleton (m : Member) : numbers [m] = Node.numbers m.preorder := by
  rw [numbers, preorders, preorders, List.append_nil]

theorem numbers_type (decl : TypeDecl) (span : Span) : numbers [type decl span] = decl.numbers :=
  numbers_singleton _

theorem numbers_field (isStatic : Bool) (code : List CodeItem) (span : Span) :
    numbers [field isStatic code span] = CodeItem.numbers code := numbers_singleton _

theorem numbers_initializer (isStatic : Bool) (code : List CodeItem) (span : Span) :
    numbers [initializer isStatic code span] = CodeItem.numbers code := numbers_singleton _

theorem numbers_operation (kind : OperationKind) (id : Nat) (name : String)
    (parameters : List Parameter) (body : Option (List CodeItem)) (span : Span) :
    numbers [operation kind id name parameters body span] =
      id :: CodeItem.numbers (body.getD []) := by
  rw [numbers_singleton]
  cases body <;> rfl

theorem numbers_constant (id : Nat) (name : String) (arguments : List CodeItem)
    (body : Option (List Member)) (span : Span) :
    numbers [constant id name arguments body span] =
      id :: CodeItem.numbers arguments ++ numbers (body.getD []) := by
  rw [numbers_singleton]
  cases body with
  | none => exact (List.append_nil _).symm
  | some members => exact Node.numbers_append _ _

end Member

namespace CodeItem

theorem numbers_append (code more : List CodeItem) :
    numbers (code ++ more) = numbers code ++ numbers more := by
  rw [numbers, preorders_eq_flatMap, List.flatMap_append, Node.numbers_append,
    ← preorders_eq_flatMap, ← preorders_eq_flatMap]
  rfl

theorem numbers_singleton (i : CodeItem) : numbers [i] = Node.numbers i.preorder := by
  rw [numbers, preorders, preorders, List.append_nil]

theorem numbers_localType (decl : TypeDecl) : numbers [localType decl] = decl.numbers :=
  numbers_singleton _

theorem numbers_allocation (id : Nat) (type : String) (arguments : List CodeItem)
    (body : Option (List Member)) (span : Span) :
    numbers [allocation id type arguments body span] =
      id :: numbers arguments ++ Member.numbers (body.getD []) := by
  rw [numbers_singleton]
  cases body with
  | none => exact (List.append_nil _).symm
  | some members => exact Node.numbers_append _ _

theorem numbers_lambda (id : Nat) (body : List CodeItem) (span : Span) :
    numbers [lambda id body span] = id :: numbers body := numbers_singleton _

end CodeItem

/-! ## The grammar -/

namespace Grammar

/-- What the rules read has its numbers in order. -/
structure Rules.InOrder (rules : Rules) : Prop where
  classBody : ∀ heading, Numbers [] (rules.classBody heading) Member.numbers
  code : ∀ stop, Numbers [] (rules.code stop) CodeItem.numbers

/-- The numbers of a type declaration, if there is one. -/
def declared (decl : Option TypeDecl) : List Nat := (decl.map TypeDecl.numbers).getD []

section

variable {rules : Rules} {done : List Nat}

/-! ### Type declarations -/

theorem Rules.InOrder.typeDecl (hr : rules.InOrder) : Numbers [] (typeDecl? rules) declared := by
  refine .get fun s => ?_
  split
  next => exact .pure (.refl _)
  next kind hkind =>
    refine .step moves_here fun start => ?_
    extract_lets fromKeyword
    have hkeyword : Numbers [] (fromKeyword ()) declared := by
      refine .step moves_advance fun _ => .bind (.fresh []) fun id => ?_
      refine .step (moves_identifier _) fun r => .step (moves_declaredName _ _) fun name => ?_
      refine .step (moves_components kind) fun comps => .step moves_skipHeader fun _ => ?_
      refine .bind ((hr.classBody _).after _) fun ms => .step moves_here fun stop => ?_
      exact .pure (.refl _)
    split
    · exact .step moves_advance fun _ => hkeyword
    · exact hkeyword

theorem Rules.InOrder.anonymousBody (hr : rules.InOrder) :
    Numbers [] (anonymousBody? rules) fun r => Member.numbers (r.getD []) := by
  refine .step (moves_isAt _) fun b => ?_
  split
  · exact .bind (hr.classBody .anonymous) fun ms => .pure (.refl _)
  · exact .pure (.refl _)

/-! ### Code -/

theorem Rules.InOrder.block (hr : rules.InOrder) : Numbers [] (block rules) CodeItem.numbers := by
  refine .step (moves_take _) fun opener => ?_
  cases opener with
  | none => exact .step moves_here fun _ => .step (moves_report _ _) fun _ => .pure (.refl _)
  | some opener => exact hr.code _

theorem Rules.InOrder.lambda (hr : rules.InOrder) :
    Numbers [] (lambda rules) fun i => CodeItem.numbers [i] := by
  refine .step moves_here fun start => .bind (.fresh []) fun id => ?_
  refine .step (.skipWhile moves_arrowRound) fun _ => .step (moves_isAt _) fun b => ?_
  extract_lets fromBody
  have hbody (code : List CodeItem) :
      Numbers ([] ++ [id] ++ CodeItem.numbers code) (fromBody code) fun i => CodeItem.numbers [i] := by
    refine .step moves_here fun stop => .pure ?_
    rw [CodeItem.numbers_lambda]
    exact .refl _
  split
  · exact .bind (hr.block.after _) hbody
  · exact .bind ((hr.code _).after _) hbody

theorem Rules.InOrder.allocation (hr : rules.InOrder) :
    Numbers [] (allocation? rules) fun r => CodeItem.numbers r.toList := by
  refine .step moves_here fun start => .step moves_advance fun _ => ?_
  refine .step moves_skipAnyAngles fun _ => .step moves_type fun type => ?_
  cases type with
  | none => exact .pure (.refl _)
  | some type =>
    refine .step (moves_take _) fun opener => ?_
    cases opener with
    | none => exact .pure (.refl _)
    | some opener =>
      refine .bind (.fresh []) fun id => .bind ((hr.code _).after _) fun arguments => ?_
      refine .bind (hr.anonymousBody.after _) fun body => .step moves_here fun stop => .pure ?_
      rw [Option.toList, CodeItem.numbers_allocation]
      exact .refl _

theorem Rules.InOrder.localType (hr : rules.InOrder) :
    Numbers [] (localType? rules) fun r => CodeItem.numbers r.toList := by
  refine .bind hr.typeDecl fun r => .pure ?_
  cases r with
  | none => exact .refl _
  | some decl => exact (CodeItem.numbers_localType decl) ▸ .refl _

theorem numbers_pass : Numbers [] pass fun r => CodeItem.numbers r.1 :=
  .step moves_advance fun _ => .pure (.refl _)

theorem numbers_closing (stop : CodeEnd) (bracket : Bracket) :
    Numbers [] (closing stop bracket) fun r => CodeItem.numbers r.1 := by
  cases stop with
  | close expected opener =>
    rw [closing]
    split
    · exact numbers_pass
    split
    · exact numbers_pass
    · exact .step (moves_report _ _) fun _ => .pure (.refl _)
  | semicolon =>
    rw [closing]
    split
    · exact .pure (.refl _)
    · exact numbers_pass
  | expression => exact .pure (.refl _)

theorem numbers_semicolon (stop : CodeEnd) :
    Numbers [] (semicolon stop) fun r => CodeItem.numbers r.1 := by
  cases stop with
  | close => exact numbers_pass
  | semicolon => exact .step moves_advance fun _ => .pure (.refl _)
  | expression => exact .pure (.refl _)

theorem Rules.InOrder.keyword (hr : rules.InOrder) (k : Keyword) :
    Numbers [] (keyword rules k) fun r => CodeItem.numbers r.1 := by
  refine .get fun s => ?_
  dsimp only
  split
  · exact .step moves_skipLabel fun _ => .pure (.refl _)
  split
  · exact .bind hr.allocation fun _ => .pure (.refl _)
  split
  · exact .bind hr.localType fun _ => .pure (.refl _)
  · exact numbers_pass

theorem Rules.InOrder.codeRound (hr : rules.InOrder) (stop : CodeEnd) :
    Numbers [] (codeRound rules stop) fun r => CodeItem.numbers r.1 := by
  refine .get fun s => ?_
  split
  · cases stop with
    | close bracket opener => exact .step (moves_reportUnclosed _ _) fun _ => .pure (.refl _)
    | semicolon | expression => exact .pure (.refl _)
  · exact numbers_closing stop _
  · exact numbers_semicolon stop
  · split
    · exact .pure (.refl _)
    · exact numbers_pass
  · exact hr.keyword _
  · split
    · exact .bind hr.lambda fun _ => .pure (.refl _)
    split
    · exact .bind hr.localType fun _ => .pure (.refl _)
    split
    · exact .step moves_advance fun _ => .bind (hr.code _) fun _ => .pure (.refl _)
    · exact numbers_pass

theorem Rules.InOrder.readCode (hr : rules.InOrder) (stop : CodeEnd) :
    Numbers [] (Grammar.code rules stop) CodeItem.numbers :=
  .collect CodeItem.numbers_append (hr.codeRound stop)

/-! ### Enum constants -/

theorem Rules.InOrder.constantRound (hr : rules.InOrder) :
    Numbers [] (constantRound rules) fun r => Member.numbers r.1 := by
  refine .step moves_modifiers fun _ => .get fun s => ?_
  split
  next name start tail hrest =>
    refine .step moves_advance fun _ => .bind (.fresh []) fun id => .step (moves_take _) fun opener => ?_
    extract_lets fromBody
    have hbody (arguments : List CodeItem) :
        Numbers ([] ++ [id] ++ CodeItem.numbers arguments) (fromBody arguments)
          fun r => Member.numbers r.1 := by
      refine .bind (hr.anonymousBody.after _) fun body => .step moves_here fun stop => ?_
      have hpure (b : Bool) (span : Span) : Numbers
          ([] ++ [id] ++ CodeItem.numbers arguments ++ Member.numbers (body.getD []))
          (Pure.pure ([.constant id name arguments body span], b) : Parser (List Member × Bool))
          fun r => Member.numbers r.1 := .pure (by rw [Member.numbers_constant]; exact .refl _)
      refine .step (moves_accept _) fun b => ?_
      split
      · exact hpure _ _
      · exact .step (moves_accept _) fun _ => hpure _ _
    cases opener with
    | none => exact hbody []
    | some opener => exact .bind ((hr.code _).after _) hbody
  next => exact .step (moves_accept _) fun _ => .pure (.refl _)

/-! ### Operations and fields -/

/-- The default of an annotation's element is dropped with its numbers. -/
theorem Rules.InOrder.operationBody (hr : rules.InOrder) :
    Numbers [] (operationBody? rules) fun r => CodeItem.numbers (r.getD []) := by
  refine .step moves_skipThrows fun _ => .get fun s => ?_
  split
  · exact .bind hr.block fun _ => .pure (.refl _)
  · exact .step moves_advance fun _ => .pure (.refl _)
  · exact .step moves_advance fun _ => .bind (hr.code _) fun _ => .pure (List.nil_sublist _)
  · exact .step (moves_report _ _) fun _ => .pure (.refl _)
  · exact .pure (.refl _)

theorem Rules.InOrder.method (hr : rules.InOrder) (written : String) (span place : Span) :
    Numbers [] (methodDecl rules written span) fun f => Member.numbers [f place] := by
  refine .step (moves_declaredName _ _) fun name => .bind (.fresh []) fun id => ?_
  refine .step moves_parameters fun ps => .step (.skipWhile moves_squareRound) fun _ => ?_
  refine .bind (hr.operationBody.after _) fun body => .pure ?_
  rw [Member.numbers_operation]
  exact .refl _

theorem Rules.InOrder.constructor (hr : rules.InOrder) (heading : Heading) (start : ConstructorStart)
    (place : Span) :
    Numbers [] (constructorDecl rules heading start) fun f => Member.numbers [f place] := by
  refine .step moves_advance fun _ => ?_
  extract_lets fromParameters
  have hparameters (ps : List Parameter) :
      Numbers [] (fromParameters ps) fun f => Member.numbers [f place] := by
    refine .bind (.fresh []) fun id => .bind (hr.operationBody.after _) fun body => .pure ?_
    rw [Member.numbers_operation]
    exact .refl _
  cases start with
  | ownParameters => exact .step moves_parameters hparameters
  | components ps => exact hparameters ps

theorem Rules.InOrder.operationOrField (hr : rules.InOrder) (heading : Heading) (isStatic : Bool)
    (place : Span) :
    Numbers [] (operationOrField? rules heading isStatic)
      fun r => Member.numbers (r.map (· place)).toList := by
  refine .step moves_skipAnyAngles fun _ => .get fun s => ?_
  split
  · exact .bind (hr.constructor heading _ place) fun f => .pure (.refl _)
  · refine .step moves_type fun type => ?_
    cases type with
    | none => exact .step moves_advance fun _ => .pure (.refl _)
    | some type =>
      refine .step (moves_identifier _) fun r => .step (moves_isAt _) fun b => ?_
      split
      · exact .bind (hr.method _ _ place) fun f => .pure (.refl _)
      · refine .bind (hr.code _) fun code => .pure ?_
        rw [Option.map_some, Option.toList, Member.numbers_field]

/-! ### Members -/

theorem Rules.InOrder.memberNode (hr : rules.InOrder) (heading : Heading) (isStatic : Bool)
    (place : Span) :
    Numbers [] (memberNode? rules heading isStatic) fun r => Member.numbers (r.map (· place)).toList := by
  refine .get fun s => ?_
  split
  · exact .pure (.refl _)
  · refine .bind hr.block fun code => .pure ?_
    rw [Option.map_some, Option.toList, Member.numbers_initializer]
  · split
    · refine .bind hr.typeDecl fun r => .pure ?_
      cases r with
      | none => exact .refl _
      | some decl => exact (Member.numbers_type decl place) ▸ .refl _
    · exact hr.operationOrField heading isStatic place

/-- The place of a member is known last, and says nothing about its numbers. -/
theorem Rules.InOrder.member (hr : rules.InOrder) (heading : Heading) :
    Numbers [] (member? rules heading) fun r => Member.numbers r.toList := by
  refine .step moves_here fun start => .step moves_modifiers fun isStatic base s hs => ?_
  exact hr.memberNode heading isStatic
    (start.join (memberNode? rules heading isStatic s).2.here) base s hs

theorem Rules.InOrder.memberRound (hr : rules.InOrder) (heading : Heading) (opener : Span) :
    Numbers [] (memberRound rules heading opener) fun r => Member.numbers r.1 := by
  refine .get fun s => ?_
  split
  · exact .step moves_advance fun _ => .pure (.refl _)
  · exact .step moves_advance fun _ => .pure (.refl _)
  · exact .step (moves_report _ _) fun _ => .pure (.refl _)
  · exact .bind (hr.member heading) fun _ => .pure (.refl _)

theorem Rules.InOrder.readClassBody (hr : rules.InOrder) (heading : Heading) :
    Numbers [] (Grammar.classBody rules heading) Member.numbers := by
  refine .step (moves_take _) fun opener => ?_
  cases opener with
  | none => exact .step moves_here fun _ => .step (moves_report _ _) fun _ => .pure (.refl _)
  | some opener =>
    dsimp -zeta only
    extract_lets fromMembers
    have hmembers (constants : List Member) :
        Numbers (Member.numbers constants) (fromMembers constants) Member.numbers := by
      refine .bind ((Numbers.collect Member.numbers_append (hr.memberRound heading opener)).after _)
        fun ms => .pure ?_
      rw [Member.numbers_append]
    split
    · exact .bind (.collect Member.numbers_append hr.constantRound) hmembers
    · exact hmembers []

theorem inOrder_rules : ∀ depth : Nat, (Grammar.rules depth).InOrder
  | 0 => ⟨fun _ => .pure (.refl _), fun _ => .pure (.refl _)⟩
  | depth + 1 =>
    have h := inOrder_rules depth
    ⟨fun heading => h.readClassBody heading, fun stop => h.readCode stop⟩

/-! ### Units -/

theorem moves_package : Moves package := by
  refine moves_modifiers.bind fun _ => (moves_accept _).bind fun _ => .ite ?_ (.pure _)
  exact (moves_dottedName _).bind fun _ => (moves_accept _).bind fun _ => .pure _

theorem Rules.InOrder.topLevelRound (hr : rules.InOrder) :
    Numbers [] (topLevelRound rules) fun r => r.1.flatMap TypeDecl.numbers := by
  refine .get fun s => ?_
  split
  · exact .pure (.refl _)
  refine .step (moves_accept _) fun b => ?_
  split
  · exact .pure (.refl _)
  refine .step moves_modifiers fun _ => .get fun s' => ?_
  split
  · exact .pure (.refl _)
  · split
    · refine .bind hr.typeDecl fun r => .pure ?_
      cases r with
      | none => exact .refl _
      | some decl =>
        rw [Option.toList, List.flatMap_singleton]
        exact .refl _
    · exact .step moves_advance fun _ => .step (moves_report _ _) fun _ => .pure (.refl _)

theorem Rules.InOrder.compilationUnit (hr : rules.InOrder) :
    Numbers [] (compilationUnit rules) fun unit => unit.types.flatMap TypeDecl.numbers := by
  refine .step moves_package fun names => .step moves_skipImports fun _ => ?_
  exact .bind (.collect (fun _ _ => List.flatMap_append) hr.topLevelRound) fun types => .pure (.refl _)

end

end Grammar

/-- **Numbers increase in preorder**, for any tokens. -/
theorem CompilationUnit.numbers_ofLexemes (lexemes : List Lexeme) :
    (Node.numbers (ofLexemes lexemes).1.preorder).Pairwise (· < ·) := by
  have hinOrder := (Grammar.inOrder_rules lexemes.length).compilationUnit
  have h := hinOrder 0 { rest := lexemes } (.nil { rest := lexemes })
  have hnumbers : Node.numbers (ofLexemes lexemes).1.preorder =
      (ofLexemes lexemes).1.types.flatMap TypeDecl.numbers := List.filterMap_flatMap ..
  rw [hnumbers]
  exact h.increasing

end Nomenclator
