/-
Members, class bodies and units are read as they are written.

A class body is read by rules of one depth more than its code needs. So all
statements about the depth come from one induction, and a unit is read by
rules as deep as it has tokens.
-/
import Nomenclator.Proofs.Grammar.CanonicalCode

namespace Nomenclator

namespace Canonical

open Grammar

variable {rules : Rules} {n : Nat} {rest : List Token}

/-! ## Enum constants -/

theorem bare_constant (id : Nat) (name : String) (arguments : List CodeItem)
    (body : Option (List Nomenclator.Member)) (span : Span) :
    (Nomenclator.Member.constant id name arguments body span).bare =
      .constant 0 name (CodeItem.bareAll arguments) (body.map Nomenclator.Member.bareAll) nowhere := by
  cases body <;> rfl

/-- Another constant comes only behind a comma. -/
def constantEnd (goOn : Bool) : Token := if goOn then .comma else .semicolon

theorem reads_constantEnd {found : List Nomenclator.Member} (goOn : Bool) :
    Reads (do
      if ← accept .comma then return (found, true)
      else
        let _ ← accept .semicolon
        return (found, false)) [constantEnd goOn] rest (· = (found, goOn)) := by
  cases goOn with
  | true =>
    refine .last (reads_accept nofun nofun) fun b hb => ?_
    rw [hb]
    exact .pure rfl
  | false =>
    refine .look (reads_accept_none nofun) fun b hb => ?_
    rw [hb]
    exact .last (reads_accept nofun nofun) fun _ _ => .pure rfl

/-- A constant with or without a body. -/
theorem ReadsBelow.constantWith (h : ReadsBelow rules n) {name : String} {arguments : List Item}
    (hargs : Item.AllWellFormed .bracketed arguments)
    (hn : (bracketed .paren (Item.tokensOf arguments)).length ≤ n) {goOn : Bool} {bodyTs : List Token}
    {body : Option (List Nomenclator.Member)}
    (hbody : Reads (anonymousBody? rules) bodyTs ([constantEnd goOn] ++ rest)
      (Option.map Nomenclator.Member.bareAll · = body)) :
    Reads (constantRound rules) ([.identifier name] ++ (bracketed .paren (Item.tokensOf arguments) ++
      (bodyTs ++ [constantEnd goOn]))) rest fun r =>
        r.2 = goOn ∧ Nomenclator.Member.bareAll r.1 =
          [.constant 0 name (Item.trees arguments) body nowhere] := by
  refine .look (reads_no_modifiers (.identifier name nofun nofun nofun)) fun _ _ => ?_
  refine .next fun s start after hr _ _ => ?_
  rw [hr]
  refine .token (reads_advance nofun nofun) fun _ _ => ?_
  refine .look reads_fresh fun id _ => ?_
  refine .token (reads_take nofun nofun) fun r hr => ?_
  obtain ⟨opener, rfl⟩ := hr
  refine .bind (h.group hargs hn) fun code hc => ?_
  refine .bind hbody fun members hm => ?_
  refine .look reads_here fun stop _ => ?_
  refine .mono (reads_constantEnd goOn) fun r hr => ?_
  rw [hr]
  refine ⟨rfl, ?_⟩
  rw [Nomenclator.Member.bareAll, Nomenclator.Member.bareAll, bare_constant, hc, hm]

theorem ReadsBelow.constant (h : ReadsBelow rules n) {c : Constant} (hw : c.WellFormed)
    (hn : c.tokens.length ≤ n) (goOn : Bool) :
    Reads (constantRound rules) (c.tokens ++ [constantEnd goOn]) rest fun r =>
      r.2 = goOn ∧ Nomenclator.Member.bareAll r.1 = [c.tree] := by
  match c with
  | .mk name arguments none =>
    rw [Constant.tokens, List.length_cons] at hn
    have hno : Reads (anonymousBody? rules) [] ([constantEnd goOn] ++ rest) (· = none) :=
      reads_no_anonymousBody (by cases goOn <;> exact nofun)
    exact h.constantWith hw (by omega) (.mono hno fun body hb => congrArg (Option.map _) hb)
  | .mk name arguments (some members) =>
    obtain ⟨hargs, hmembers⟩ := hw
    rw [Constant.tokens, List.length_cons, List.length_append] at hn
    rw [Constant.tokens, List.cons_append, List.append_assoc]
    exact h.constantWith hargs (by omega) (h.anonymousBody hmembers (by omega))

theorem reads_no_constants : Reads (constantRound rules) [.semicolon] rest fun r =>
    r.2 = false ∧ Nomenclator.Member.bareAll r.1 = [] := by
  refine .look (reads_no_modifiers (.of_ne nofun nofun nofun)) fun _ _ => ?_
  refine .next fun s start after hr _ _ => ?_
  rw [hr]
  exact .last (reads_accept nofun nofun) fun _ _ => .pure ⟨rfl, rfl⟩

theorem ReadsBelow.constants (h : ReadsBelow rules n) : ∀ {cs : List Constant},
    Constant.AllWellFormed cs → (listed .semicolon (Constant.tokensOf cs)).length ≤ n →
    Reads (collect (constantRound rules)) (listed .semicolon (Constant.tokensOf cs)) rest
      (Nomenclator.Member.bareAll · = Constant.trees cs)
  | [], _, _ => reads_collect_done reads_no_constants
  | [c], hw, hn => by
    rw [Constant.tokensOf, Constant.tokensOf, listed, List.length_append] at hn
    exact reads_collect_done (h.constant hw.1 (by omega) false)
  | c :: next :: cs, hw, hn => by
    rw [Constant.tokensOf, Constant.tokensOf, listed, List.length_append, List.length_cons] at hn
    have hrest : Reads (collect (constantRound rules))
        (listed .semicolon (Constant.tokensOf (next :: cs))) rest
        (Nomenclator.Member.bareAll · = Constant.trees (next :: cs)) :=
      h.constants hw.2 (by rw [Constant.tokensOf]; omega)
    rw [Constant.tokensOf, Constant.tokensOf, listed, List.append_cons]
    refine reads_collect_again (P := (Nomenclator.Member.bareAll · = [c.tree]))
      (h.constant hw.1 (by omega) true) (by simp) fun found hf => ?_
    refine .mono hrest fun more hm => ?_
    rw [Nomenclator.Member.bareAll_append, hf, hm]
    rfl

/-! ## Operations and fields -/

theorem bare_operation (kind : OperationKind) (id : Nat) (name : String)
    (parameters : List Nomenclator.Parameter) (body : Option (List CodeItem)) (span : Span) :
    (Nomenclator.Member.operation kind id name parameters body span).bare =
      .operation kind 0 name parameters (body.map CodeItem.bareAll) nowhere := by
  cases body <;> rfl

theorem reads_skipThrows (h : rest.head? ≠ some (.keyword .throwsKw)) :
    Reads skipThrows [] rest fun _ => True := by
  refine .look (reads_accept_none h) fun b hb => ?_
  rw [hb]
  exact .pure trivial

theorem reads_no_operationBody : Reads (operationBody? rules) [.semicolon] rest
    (Option.map CodeItem.bareAll · = none) := by
  refine .look (reads_skipThrows nofun) fun _ _ => ?_
  refine .next fun s span after hr _ _ => ?_
  rw [hr]
  exact .last (reads_advance nofun nofun) fun _ _ => .pure rfl

theorem ReadsBelow.operationBody (h : ReadsBelow rules n) {code : List Item}
    (hw : Item.AllWellFormed .bracketed code)
    (hn : (bracketed .brace (Item.tokensOf code)).length ≤ n) :
    Reads (operationBody? rules) (bracketed .brace (Item.tokensOf code)) rest
      (Option.map CodeItem.bareAll · = some (Item.trees code)) := by
  refine .look (reads_skipThrows nofun) fun _ _ => ?_
  refine .next fun s span after hr _ _ => ?_
  rw [hr]
  exact .map (h.block hw hn) fun code hc => congrArg some hc

/-- The tokens of an operation's body, and that they are read as it. -/
structure ReadsBody (rules : Rules) (rest bodyTs : List Token) (body : Option (List CodeItem)) : Prop where
  reads : Reads (operationBody? rules) bodyTs rest (Option.map CodeItem.bareAll · = body)
  begins : ∃ t ts, bodyTs = t :: ts ∧ (t = .semicolon ∨ t = .opener .brace)

theorem ReadsBody.none : ReadsBody rules rest [.semicolon] none :=
  ⟨reads_no_operationBody, _, [], rfl, .inl rfl⟩

theorem ReadsBody.some (h : ReadsBelow rules n) {code : List Item}
    (hw : Item.AllWellFormed .bracketed code)
    (hn : (bracketed .brace (Item.tokensOf code)).length ≤ n) :
    ReadsBody rules rest (bracketed .brace (Item.tokensOf code)) (some (Item.trees code)) :=
  ⟨h.operationBody hw hn, _, _, rfl, .inr rfl⟩

theorem reads_method {written : String} (span : Span) (hname : '$' ∉ written.toList)
    (parameters : List Parameter) {bodyTs : List Token} {body : Option (List CodeItem)}
    (hbody : ReadsBody rules rest bodyTs body) :
    Reads (methodDecl rules written span) (parameterTokens parameters ++ bodyTs) rest fun f =>
      ∀ span, (f span).bare =
        .operation .method 0 written (parameters.map Parameter.tree) body nowhere := by
  refine .look (reads_declaredName span hname) fun name hn => ?_
  refine .look reads_fresh fun id _ => ?_
  refine .bind (reads_parameters parameters) fun ps hps => ?_
  refine .look (reads_skipWhile_done (.look (reads_accept_none ?_) fun b hb => ?_)) fun _ _ => ?_
  · obtain ⟨t, ts, rfl, rfl | rfl⟩ := hbody.begins <;> exact nofun
  · rw [hb]
    exact .pure rfl
  refine .map hbody.reads fun code hc span => ?_
  rw [bare_operation, hn, hps, hc]

theorem reads_constructor {heading : Heading} (hname : '$' ∉ heading.written.toList)
    (parameters : List Parameter) {bodyTs : List Token} {body : Option (List CodeItem)}
    (hbody : ReadsBody rules rest bodyTs body) :
    Reads (constructorDecl rules heading .ownParameters)
      ([.identifier heading.written] ++ (parameterTokens parameters ++ bodyTs)) rest fun f =>
      ∀ span, (f span).bare =
        .operation .constructor 0 heading.written (parameters.map Parameter.tree) body nowhere := by
  refine .bind (reads_advance nofun nofun) fun _ _ => ?_
  refine .bind (reads_parameters parameters) fun ps hps => ?_
  refine .look reads_fresh fun id _ => ?_
  refine .map hbody.reads fun code hc span => ?_
  rw [bare_operation, plainName_eq hname, hps, hc]

/-- A type before a name begins no constructor, and a type declaration only as the word `record`
before a parenthesis. -/
theorem starts_type {heading : Heading} (type : TypeName) (name : String) {t : Token} {ts : List Token}
    {lexemes : List Lexeme} (h : lexemes.map Lexeme.token = type.tokens ++ .identifier name :: t :: ts)
    (hl : t ≠ .less) (hp : type.IsWord "record" → t ≠ .opener .paren) :
    constructorStart? heading lexemes = none ∧ typeStart? lexemes = none := by
  obtain ⟨first, others, n⟩ := type
  match others, n with
  | _ :: _, _ =>
    obtain ⟨_, after, rfl, h'⟩ := map_token_eq_cons h
    obtain ⟨_, after, rfl, -⟩ := map_token_eq_cons h'
    exact ⟨ite_eq_right_iff.mpr fun _ => rfl, rfl⟩
  | [], _ + 1 =>
    obtain ⟨_, after, rfl, h'⟩ := map_token_eq_cons h
    obtain ⟨_, after, rfl, -⟩ := map_token_eq_cons h'
    exact ⟨ite_eq_right_iff.mpr fun _ => rfl, rfl⟩
  | [], 0 =>
    obtain ⟨_, after, rfl, h'⟩ := map_token_eq_cons h
    obtain ⟨_, after, rfl, h''⟩ := map_token_eq_cons h'
    obtain ⟨_, after, rfl, -⟩ := map_token_eq_cons h''
    refine ⟨ite_eq_right_iff.mpr fun _ => rfl, ?_⟩
    by_cases hrec : first = "record"
    · have hparen := hp ⟨hrec, rfl, rfl⟩
      cases t with
      | less => exact absurd rfl hl
      | opener b => cases b <;> first | rfl | exact absurd rfl hparen
      | _ => rfl
    · have hword : (first == "record") = false := beq_false_of_ne hrec
      cases t with
      | less => exact absurd rfl hl
      | opener b => cases b <;> simp [typeStart?, startsRecord, hword]
      | _ => rfl

/-- An operation or a field begins with a word. -/
theorem reads_memberNode {heading : Heading} {isStatic : Bool} {ts : List Token}
    {P : Option (Span → Nomenclator.Member) → Prop} (hword : ∃ name more, ts = .identifier name :: more)
    (hstart : ∀ lexemes : List Lexeme, lexemes.map Lexeme.token = ts ++ rest → typeStart? lexemes = none)
    (h : Reads (operationOrField? rules heading isStatic) ts rest P) :
    Reads (memberNode? rules heading isStatic) ts rest P := by
  obtain ⟨name, more, rfl⟩ := hword
  refine .next fun s span after hr ha _ => ?_
  have hno := hstart (⟨.identifier name, span⟩ :: after) (congrArg (List.cons _) ha)
  rw [hr]
  dsimp only
  rw [hno, Option.isSome_none, if_neg Bool.false_ne_true]
  exact h

theorem reads_memberNode_method {heading : Heading} {isStatic : Bool} {result : TypeName} {name : String}
    (hname : '$' ∉ name.toList) (hresult : ¬ result.IsWord "record") (parameters : List Parameter)
    {bodyTs : List Token} {body : Option (List CodeItem)} (hbody : ReadsBody rules rest bodyTs body) :
    Reads (memberNode? rules heading isStatic)
      (result.tokens ++ .identifier name :: (parameterTokens parameters ++ bodyTs)) rest fun r =>
        ∃ f, r = some f ∧ ∀ span, (f span).bare =
          .operation .method 0 name (parameters.map Parameter.tree) body nowhere := by
  have hstarts : ∀ lexemes : List Lexeme, lexemes.map Lexeme.token =
      result.tokens ++ .identifier name :: (parameterTokens parameters ++ bodyTs) ++ rest →
      constructorStart? heading lexemes = none ∧ typeStart? lexemes = none := by
    intro lexemes hl
    rw [List.append_assoc, List.cons_append, List.append_assoc] at hl
    exact starts_type result name hl nofun fun hr => absurd hr hresult
  refine reads_memberNode ⟨_, _, rfl⟩ (fun lexemes hl => (hstarts lexemes hl).2) ?_
  refine .look (reads_skipAnyAngles nofun) fun _ _ => ?_
  refine .get fun s hs _ => ?_
  rw [(hstarts s.rest hs).1]
  refine .bind (reads_type result ⟨nofun, nofun, nofun⟩) fun r hr => ?_
  rw [hr]
  refine .token (reads_identifier .type name) fun r hr => ?_
  obtain ⟨written, span⟩ := r
  obtain rfl : written = name := hr
  refine .look reads_isAt fun b hb => ?_
  rw [hb, if_pos (by simp [parameterTokens])]
  exact .map (reads_method span hname parameters hbody) fun f hf => ⟨f, rfl, hf⟩

theorem reads_memberNode_constructor {heading : Heading} {isStatic : Bool}
    (hname : '$' ∉ heading.written.toList) (hne : heading.written ≠ "") (parameters : List Parameter)
    {bodyTs : List Token} {body : Option (List CodeItem)} (hbody : ReadsBody rules rest bodyTs body) :
    Reads (memberNode? rules heading isStatic)
      (.identifier heading.written :: (parameterTokens parameters ++ bodyTs)) rest fun r =>
        ∃ f, r = some f ∧ ∀ span, (f span).bare =
          .operation .constructor 0 heading.written (parameters.map Parameter.tree) body nowhere := by
  refine reads_memberNode ⟨_, _, rfl⟩ (fun lexemes hl => ?_) ?_
  · obtain ⟨_, after, rfl, h'⟩ := map_token_eq_cons hl
    obtain ⟨_, after, rfl, -⟩ := map_token_eq_cons h'
    rfl
  refine .look (reads_skipAnyAngles nofun) fun _ _ => ?_
  refine .next fun s span after hr ha _ => ?_
  obtain ⟨_, after, rfl, -⟩ := map_token_eq_cons ha
  rw [hr, constructorStart?, if_pos ⟨hne, rfl⟩]
  exact .map (reads_constructor hname parameters hbody) fun f hf => ⟨f, rfl, hf⟩

theorem ReadsBelow.memberNode_field (h : ReadsBelow rules n) {heading : Heading} (isStatic : Bool)
    (type : TypeName) (name : String) {value : List Item} (hw : Item.AllWellFormed .value value)
    (hn : (Item.tokensOf value).length + 1 < n) :
    Reads (memberNode? rules heading isStatic)
      (type.tokens ++ .identifier name :: .equal :: (Item.tokensOf value ++ [.semicolon])) rest fun r =>
        ∃ f, r = some f ∧ ∀ span, (f span).bare = .field isStatic (Item.trees value) nowhere := by
  have hstarts : ∀ lexemes : List Lexeme, lexemes.map Lexeme.token =
      type.tokens ++ .identifier name :: .equal :: (Item.tokensOf value ++ [.semicolon]) ++ rest →
      constructorStart? heading lexemes = none ∧ typeStart? lexemes = none := by
    intro lexemes hl
    rw [List.append_assoc] at hl
    exact starts_type type name hl nofun fun _ => nofun
  refine reads_memberNode ⟨_, _, rfl⟩ (fun lexemes hl => (hstarts lexemes hl).2) ?_
  refine .look (reads_skipAnyAngles nofun) fun _ _ => ?_
  refine .get fun s hs _ => ?_
  rw [(hstarts s.rest hs).1]
  refine .bind (reads_type type ⟨nofun, nofun, nofun⟩) fun r hr => ?_
  rw [hr]
  refine .token (reads_identifier .type name) fun r hr => ?_
  refine .look reads_isAt fun b hb => ?_
  rw [hb, if_neg (by simp)]
  -- the sign of equality is the first mark of the code
  have hcode : Reads (rules.code .semicolon) (Item.tokensOf (.mark .equal :: value) ++ [.semicolon]) rest
      (CodeItem.bareAll · = Item.trees (.mark .equal :: value)) :=
    h.code ⟨trivial, trivial, hw⟩ rfl (by rw [Item.tokensOf, Item.tokens]; simp; omega)
  refine .map hcode fun code hc => ⟨_, rfl, fun span => ?_⟩
  rw [Nomenclator.Member.bare, hc]
  rfl

/-! ## Members -/

theorem Decl.noModifier (decl : Decl) (ts : List Token) : NoModifier (decl.tokens ++ ts) := by
  obtain ⟨kind, name, constants, members⟩ := decl
  cases kind with
  | classType | interfaceType | enumType => exact .keyword rfl
  | annotationType => exact .annotationType
  | recordType => exact .identifier "record" nofun nofun nofun

theorem Decl.typeStart?_eq (decl : Decl) {ts : List Token} {lexemes : List Lexeme}
    (h : lexemes.map Lexeme.token = decl.tokens ++ ts) : typeStart? lexemes = some decl.kind := by
  obtain ⟨kind, name, constants, members⟩ := decl
  rw [Decl.tokens, List.append_assoc, List.cons_append, List.append_assoc] at h
  exact Canonical.typeStart?_eq h

theorem ReadsBelow.memberNode_type (h : ReadsBelow rules n) {heading : Heading} {isStatic : Bool}
    {decl : Decl} (hw : decl.WellFormed) (hn : decl.tokens.length ≤ n) :
    Reads (memberNode? rules heading isStatic) decl.tokens rest fun r =>
      ∃ f, r = some f ∧ ∀ span, (f span).bare = .type decl.tree nowhere := by
  refine .get fun s hs _ => ?_
  have hstart := decl.typeStart?_eq hs
  split
  next hr => exact absurd (hr ▸ hstart) nofun
  next hr => exact absurd (hr ▸ hstart) nofun
  next =>
    rw [hstart, Option.isSome_some, if_pos rfl]
    refine .map (h.typeDecl hw hn) fun r hr => ?_
    obtain ⟨d, rfl, hd⟩ := Option.map_eq_some_iff.mp hr
    exact ⟨_, rfl, fun span => congrArg (Nomenclator.Member.type · nowhere) hd⟩

theorem ReadsBelow.memberNode_initializer (h : ReadsBelow rules n) {heading : Heading} (isStatic : Bool)
    {code : List Item} (hw : Item.AllWellFormed .bracketed code)
    (hn : (bracketed .brace (Item.tokensOf code)).length ≤ n) :
    Reads (memberNode? rules heading isStatic) (bracketed .brace (Item.tokensOf code)) rest fun r =>
      ∃ f, r = some f ∧ ∀ span, (f span).bare = .initializer isStatic (Item.trees code) nowhere := by
  refine .next fun s span after hr _ _ => ?_
  rw [hr]
  refine .map (h.block hw hn) fun items hi => ⟨_, rfl, fun span => ?_⟩
  rw [Nomenclator.Member.bare, hi]

theorem reads_member {heading : Heading} (isStatic : Bool) {ts : List Token} {tree : Nomenclator.Member}
    (hmod : NoModifier (ts ++ rest))
    (h : Reads (memberNode? rules heading isStatic) ts rest fun r =>
      ∃ f, r = some f ∧ ∀ span, (f span).bare = tree) :
    Reads (member? rules heading) (staticTokens isStatic ++ ts) rest
      (Option.map Nomenclator.Member.bare · = some tree) := by
  refine .look reads_here fun start _ => ?_
  refine .bind (reads_modifiers isStatic hmod) fun b hb => ?_
  rw [hb]
  refine .last h fun r hr => ?_
  obtain ⟨f, rfl, hf⟩ := hr
  exact .map reads_here fun stop _ => congrArg some (hf _)

theorem ReadsBelow.member (h : ReadsBelow rules n) {heading : Heading}
    (hname : '$' ∉ heading.written.toList) {m : Member} (hw : m.WellFormed heading.written)
    (hn : (m.tokens heading.written).length ≤ n) :
    Reads (member? rules heading) (m.tokens heading.written) rest
      (Option.map Nomenclator.Member.bare · = some (m.tree heading.written)) := by
  have htype (type : TypeName) (name : String) (ts : List Token) :
      NoModifier (type.tokens ++ .identifier name :: ts ++ rest) := by
    rw [List.append_assoc]
    exact noModifier_type type nofun nofun nofun nofun
  match m with
  | .type decl => exact reads_member false (decl.noModifier rest) (h.memberNode_type hw hn)
  | .field isStatic type name value =>
    simp only [Member.tokens, List.length_append, List.length_cons] at hn
    have htokens : 0 < type.tokens.length := Nat.succ_pos _
    exact reads_member isStatic (htype type name _) (h.memberNode_field isStatic type name hw (by omega))
  | .method result name parameters none =>
    exact reads_member false (htype result name _) (reads_memberNode_method hw.1 hw.2 parameters .none)
  | .method result name parameters (some code) =>
    obtain ⟨hm, hr, hcode⟩ := hw
    simp only [Member.tokens, List.length_append, List.length_cons] at hn
    exact reads_member false (htype result name _)
      (reads_memberNode_method hm hr parameters (.some h hcode (by omega)))
  | .constructor parameters none =>
    exact reads_member false (.identifier (t := .opener .paren) _ nofun nofun nofun)
      (reads_memberNode_constructor hname hw parameters .none)
  | .constructor parameters (some code) =>
    simp only [Member.tokens, List.length_append, List.length_cons] at hn
    exact reads_member false (.identifier (t := .opener .paren) _ nofun nofun nofun)
      (reads_memberNode_constructor hname hw.1 parameters (.some h hw.2 (by omega)))
  | .initializer isStatic code =>
    simp only [Member.tokens, List.length_append] at hn
    exact reads_member isStatic (.of_ne nofun nofun nofun)
      (h.memberNode_initializer isStatic hw (by omega))

/-! ## Class bodies -/

theorem Member.tokens_eq_cons (owner : String) (m : Member) :
    ∃ t ts, m.tokens owner = t :: ts ∧ t ≠ .closer .brace ∧ t ≠ .semicolon := by
  match m with
  | .type (.mk kind _ _ _) => cases kind <;> exact ⟨_, _, rfl, nofun, nofun⟩
  | .field isStatic _ _ _ | .initializer isStatic _ => cases isStatic <;> exact ⟨_, _, rfl, nofun, nofun⟩
  | .method _ _ _ none | .method _ _ _ (some _) | .constructor _ none | .constructor _ (some _) =>
    exact ⟨_, _, rfl, nofun, nofun⟩

theorem ReadsBelow.memberRound (h : ReadsBelow rules n) {heading : Heading} (opener : Span)
    (hname : '$' ∉ heading.written.toList) {m : Member} (hw : m.WellFormed heading.written)
    (hn : (m.tokens heading.written).length ≤ n) :
    Reads (memberRound rules heading opener) (m.tokens heading.written) rest fun r =>
      r.2 = true ∧ Nomenclator.Member.bareAll r.1 = [m.tree heading.written] := by
  refine .get fun s hs _ => ?_
  obtain ⟨t, ts, heq, hbrace, hsemicolon⟩ := m.tokens_eq_cons heading.written
  rw [heq] at hs
  obtain ⟨span, after, hr, -⟩ := map_token_eq_cons hs
  rw [hr]
  split
  next he => exact absurd (congrArg Lexeme.token (List.cons.inj he).1) hbrace
  next he => exact absurd (congrArg Lexeme.token (List.cons.inj he).1) hsemicolon
  next he => exact absurd he nofun
  next =>
    refine .map (h.member hname hw hn) fun r hr => ⟨rfl, ?_⟩
    obtain ⟨found, rfl, hf⟩ := Option.map_eq_some_iff.mp hr
    exact congrArg (· :: []) hf

theorem ReadsBelow.members (h : ReadsBelow rules n) {heading : Heading} (opener : Span)
    (hname : '$' ∉ heading.written.toList) {ms : List Member}
    (hw : Member.AllWellFormed heading.written ms)
    (hn : (Member.tokensOf heading.written ms).length ≤ n) :
    Reads (collect (Grammar.memberRound rules heading opener))
      (Member.tokensOf heading.written ms ++ [.closer .brace]) rest
      (Nomenclator.Member.bareAll · = Member.trees heading.written ms) := by
  induction ms with
  | nil =>
    refine reads_collect_done (.next fun s span after hr _ _ => ?_)
    rw [hr]
    exact .last (reads_advance nofun nofun) fun _ _ => .pure ⟨rfl, rfl⟩
  | cons m ms ih =>
    rw [Member.tokensOf, List.length_append] at hn
    rw [Member.tokensOf, List.append_assoc]
    obtain ⟨t, ts, heq, -⟩ := m.tokens_eq_cons heading.written
    refine reads_collect_again (P := (Nomenclator.Member.bareAll · = [m.tree heading.written]))
      (h.memberRound opener hname hw.1 (by omega)) (by rw [heq]; exact nofun) fun found hf => ?_
    refine .mono (ih hw.2 (by omega)) fun more hm => ?_
    rw [Nomenclator.Member.bareAll_append, hf, hm]
    rfl

theorem ReadsBelow.classBody (h : ReadsBelow rules n) {heading : Heading} {constants : List Constant}
    {members : List Member} (hname : '$' ∉ heading.written.toList)
    (hkind : heading.kind = .enumType ∨ constants = []) (hconstants : Constant.AllWellFormed constants)
    (hmembers : Member.AllWellFormed heading.written members)
    (hn : (bodyTokens heading constants members).length ≤ n) :
    Reads (Grammar.classBody rules heading) (bodyTokens heading constants members) rest
      (Nomenclator.Member.bareAll · =
        Constant.trees constants ++ Member.trees heading.written members) := by
  rw [bodyTokens, length_bracketed, List.length_append] at hn
  refine .token (reads_take nofun nofun) fun r hr => ?_
  obtain ⟨opener, rfl⟩ := hr
  rw [List.append_assoc]
  have hread : Reads (collect (Grammar.memberRound rules heading opener))
      (Member.tokensOf heading.written members ++ [.closer .brace]) rest
      (Nomenclator.Member.bareAll · = Member.trees heading.written members) :=
    h.members opener hname hmembers (by omega)
  dsimp -zeta only
  extract_lets fromMembers
  have hmembers {found : List Nomenclator.Member}
      (hf : Nomenclator.Member.bareAll found = Constant.trees constants) :
      Reads (fromMembers found) (Member.tokensOf heading.written members ++ [.closer .brace]) rest
        (Nomenclator.Member.bareAll · =
          Constant.trees constants ++ Member.trees heading.written members) := by
    refine .map hread fun ms hms => ?_
    rw [Nomenclator.Member.bareAll_append, hf, hms]
  by_cases henum : heading.kind = .enumType
  · rw [constantTokens, if_pos henum] at hn ⊢
    rw [if_pos henum]
    exact .bind (h.constants hconstants (by omega)) fun found hf => hmembers hf
  · obtain rfl := hkind.resolve_left henum
    rw [constantTokens, if_neg henum, if_neg henum]
    exact hmembers rfl

/-- Rules of some depth read whatever has fewer tokens. -/
theorem readsBelow_rules : ∀ n : Nat, ReadsBelow (Grammar.rules n) n
  | 0 => ⟨fun _ _ _ _ hn => absurd hn (Nat.not_lt_zero _), fun _ _ hn => absurd hn (Nat.not_lt_zero _)⟩
  | n + 1 =>
    have h := readsBelow_rules n
    ⟨fun hname hkind hconstants hmembers hn =>
        h.classBody hname hkind hconstants hmembers (Nat.le_of_lt_succ hn),
      fun hw hend hn => h.reads_code hw hend (Nat.le_of_lt_succ hn)⟩

/-! ## Units -/

theorem reads_package {names : List String} (h : NoModifier (packageTokens names ++ rest))
    (hrest : rest.head? ≠ some (.keyword .packageKw)) :
    Reads package (packageTokens names) rest (· = names) := by
  refine .look (reads_no_modifiers h) fun _ _ => ?_
  cases names with
  | nil =>
    refine .look (reads_accept_none hrest) fun b hb => ?_
    rw [hb]
    exact .pure rfl
  | cons first others =>
    refine .token (reads_accept nofun nofun) fun b hb => ?_
    rw [hb]
    refine .bind (reads_dottedName .packageWord first others nofun) fun names hn => ?_
    exact .last (reads_accept nofun nofun) fun _ _ => .pure hn

theorem reads_skipImports (h : rest.head? ≠ some (.keyword .importKw)) :
    Reads skipImports [] rest fun _ => True := by
  refine reads_skipWhile_done (.look (reads_accept_none h) fun b hb => ?_)
  rw [hb]
  exact .pure rfl

theorem Decl.tokens_eq_cons (decl : Decl) : ∃ t ts, decl.tokens = t :: ts ∧ t ≠ .semicolon ∧
    t ≠ .keyword .packageKw ∧ t ≠ .keyword .importKw := by
  obtain ⟨kind, name, constants, members⟩ := decl
  cases kind <;> exact ⟨_, _, rfl, nofun, nofun, nofun⟩

theorem ReadsBelow.topLevelRound (h : ReadsBelow rules n) {decl : Decl} (hw : decl.WellFormed)
    (hn : decl.tokens.length ≤ n) :
    Reads (topLevelRound rules) decl.tokens rest fun r =>
      r.2 = true ∧ r.1.map TypeDecl.bare = [decl.tree] := by
  obtain ⟨t, ts, heq, hsemicolon, -⟩ := decl.tokens_eq_cons
  refine .get fun s hs _ => ?_
  have hne : s.rest.isEmpty = false := by
    rw [heq] at hs
    obtain ⟨span, after, hr, -⟩ := map_token_eq_cons hs
    rw [hr]
    rfl
  rw [hne, if_neg Bool.false_ne_true]
  refine .look (reads_accept_none ?_) fun b hb => ?_
  · rw [heq]
    exact fun he => hsemicolon (Option.some.inj he)
  rw [hb, if_neg Bool.false_ne_true]
  refine .look (reads_no_modifiers (decl.noModifier rest)) fun _ _ => ?_
  refine .get fun s hs _ => ?_
  have hstart := decl.typeStart?_eq hs
  split
  next hr => exact absurd (hr ▸ hstart) nofun
  next lexeme after hr =>
    rw [← hr, hstart, Option.isSome_some, if_pos rfl]
    refine .map (h.typeDecl hw hn) fun r hr => ⟨rfl, ?_⟩
    obtain ⟨d, rfl, hd⟩ := Option.map_eq_some_iff.mp hr
    exact congrArg (· :: []) hd

theorem ReadsBelow.topLevel (h : ReadsBelow rules n) {decls : List Decl} (hw : ∀ d ∈ decls, d.WellFormed)
    (hn : (decls.flatMap Decl.tokens).length ≤ n) :
    Reads (collect (Grammar.topLevelRound rules)) (decls.flatMap Decl.tokens) []
      (·.map TypeDecl.bare = decls.map Decl.tree) := by
  induction decls with
  | nil =>
    refine reads_collect_done (.get fun s hs _ => ?_)
    rw [State.rest_eq_nil hs]
    exact .pure ⟨rfl, rfl⟩
  | cons d decls ih =>
    rw [List.flatMap_cons, List.length_append] at hn
    rw [List.flatMap_cons]
    obtain ⟨t, ts, heq, -⟩ := d.tokens_eq_cons
    refine reads_collect_again (P := (·.map TypeDecl.bare = [d.tree]))
      (h.topLevelRound (hw d List.mem_cons_self) (by omega)) (by rw [heq]; exact nofun) fun found hf => ?_
    refine .mono (ih (fun d hd => hw d (List.mem_cons_of_mem _ hd)) (by omega)) fun more hm => ?_
    rw [List.map_append, hf, hm, List.map_cons, List.singleton_append]

theorem ReadsBelow.compilationUnit (h : ReadsBelow rules n) {unit : Unit} (hw : unit.WellFormed)
    (hn : unit.tokens.length ≤ n) :
    Reads (Grammar.compilationUnit rules) unit.tokens [] fun u =>
      u.package = unit.package ∧ u.types.map TypeDecl.bare = unit.types.map Decl.tree := by
  obtain ⟨names, decls⟩ := unit
  rw [Unit.tokens, List.length_append] at hn
  -- whatever comes first among the types
  have hfirst : ((decls.flatMap Decl.tokens) ++ []).head? ≠ some (.keyword .packageKw) ∧
      ((decls.flatMap Decl.tokens) ++ []).head? ≠ some (.keyword .importKw) ∧
      NoModifier (packageTokens names ++ ((decls.flatMap Decl.tokens) ++ [])) := by
    cases decls with
    | nil =>
      refine ⟨nofun, nofun, ?_⟩
      cases names with
      | nil => exact .nil
      | cons => exact .keyword rfl
    | cons d decls =>
      obtain ⟨t, ts, heq, -, hpackage, himport⟩ := d.tokens_eq_cons
      have hmod : NoModifier ((d :: decls).flatMap Decl.tokens ++ []) := by
        rw [List.flatMap_cons, List.append_assoc]
        exact d.noModifier _
      rw [List.flatMap_cons, heq] at hmod ⊢
      refine ⟨fun he => hpackage (Option.some.inj he), fun he => himport (Option.some.inj he), ?_⟩
      cases names with
      | nil => exact hmod
      | cons => exact .keyword rfl
  obtain ⟨hpackage, himport, hmod⟩ := hfirst
  refine .bind (reads_package hmod hpackage) fun package hp => ?_
  refine .look (reads_skipImports himport) fun _ _ => ?_
  exact .map (h.topLevel hw (by omega)) fun types ht => ⟨hp, ht⟩

end Canonical

/-- A unit that is read from tokens as they are written for it is that unit, and nothing is wrong
with it. -/
theorem CompilationUnit.ofLexemes_of_tokens {unit : Canonical.Unit} (hw : unit.WellFormed)
    {lexemes : List Lexeme} (h : lexemes.map Lexeme.token = unit.tokens) :
    (CompilationUnit.ofLexemes lexemes).1.bare = unit.tree ∧
      (CompilationUnit.ofLexemes lexemes).2 = [] := by
  have hlen : unit.tokens.length ≤ lexemes.length := Nat.le_of_eq (by rw [← h, List.length_map])
  have hread := (Canonical.readsBelow_rules lexemes.length).compilationUnit hw hlen
    { rest := lexemes } (h.trans (List.append_nil _).symm) nofun
  obtain ⟨hpackage, htypes⟩ := hread.answer
  refine ⟨?_, ?_⟩
  · show CompilationUnit.mk _ _ = CompilationUnit.mk _ _
    rw [CompilationUnit.mk.injEq]
    exact ⟨hpackage, htypes⟩
  · show List.reverse _ = []
    rw [List.reverse_eq_nil_iff]
    exact hread.reported

/-- An enum with a constant that has a body, a constructor without a body, and a method that holds a
lambda with a local record. -/
def Canonical.levels : Canonical.Unit where
  package := ["a", "b"]
  types := [.mk .enumType "Level"
    [.mk "LOW" [.expression (.name "x") [.allocation ⟨"Object", [], 0⟩ [] none]]
      (some [.initializer true [.mark .semicolon]])]
    [.constructor [⟨⟨"int", [], 1⟩, true, "values"⟩] none,
     .method ⟨"void", [], 0⟩ "run" []
      (some [.lambda (.names ["x", "y"]) [.localType (.mk .recordType "R" [] [])], .mark .semicolon])]]

theorem CompilationUnit.ofLexemes_levels :
    Canonical.levels.WellFormed ∧
      (CompilationUnit.ofLexemes (Canonical.levels.tokens.map (Lexeme.mk · nowhere))).1.bare =
        Canonical.levels.tree ∧
      (CompilationUnit.ofLexemes (Canonical.levels.tokens.map (Lexeme.mk · nowhere))).2 = [] := by
  have hw : Canonical.levels.WellFormed := by
    simp [Canonical.levels, Canonical.Unit.WellFormed, Canonical.Decl.WellFormed,
      Canonical.Constant.AllWellFormed, Canonical.Constant.WellFormed, Canonical.Member.AllWellFormed,
      Canonical.Member.WellFormed, Canonical.Item.AllWellFormed, Canonical.Item.WellFormed,
      Canonical.Item.MayPrecede, Canonical.Setting.Admits, Canonical.TypeName.IsWord,
      Canonical.Item.tokensOf, Canonical.Item.tokens, Canonical.Decl.kind]
  exact ⟨hw, CompilationUnit.ofLexemes_of_tokens hw (by rw [List.map_map]; exact List.map_id _)⟩

end Nomenclator
