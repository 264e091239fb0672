/-
Code is read as it is written, if class bodies and code with fewer tokens
are.

The first tokens of an item decide what it is taken for, and then the item
takes its own tokens and no more. Code ends where its last token or the one
behind it says so, and nothing in the code may be taken for that end.
-/
import Nomenclator.Grammar.Unit
import Nomenclator.Proofs.Grammar.CanonicalLookahead
import Nomenclator.Proofs.Token.Names

namespace Nomenclator

namespace Grammar.CodeEnd

open Canonical

def setting : CodeEnd → Setting
  | close .. => .bracketed
  | semicolon => .value
  | expression => .expression

/-- No expression goes on with this token. -/
def EndsExpression (t : Token) : Prop := t = .semicolon ∨ t = .comma ∨ ∃ bracket, t = .closer bracket

/-- The code that ends so takes the last tokens along and leaves the rest. -/
def EndsAt : CodeEnd → List Token → List Token → Prop
  | close bracket _, last, _ => last = [.closer bracket]
  | semicolon, last, _ => last = [.semicolon]
  | expression, last, rest => last = [] ∧ ∃ t ts, rest = t :: ts ∧ EndsExpression t

/-- What ends code continues no item. -/
theorem EndsAt.head {stop : CodeEnd} {last rest : List Token}
    (h : stop.EndsAt last rest) : ∃ t ts, last ++ rest = t :: ts ∧ EndsExpression t := by
  cases stop with
  | close bracket opener => exact ⟨_, rest, by rw [h]; rfl, .inr (.inr ⟨bracket, rfl⟩)⟩
  | semicolon => exact ⟨_, rest, by rw [h]; rfl, .inl rfl⟩
  | expression =>
    obtain ⟨rfl, t, ts, rfl, ht⟩ := h
    exact ⟨t, ts, rfl, ht⟩

end Grammar.CodeEnd

namespace Canonical

open Grammar CodeEnd

def bodyTokens (heading : Heading) (constants : List Constant) (members : List Member) : List Token :=
  bracketed .brace
    (constantTokens heading.kind (Constant.tokensOf constants) ++ Member.tokensOf heading.written members)

/-- The rules read class bodies and code of fewer than `n` tokens as they are written. -/
structure ReadsBelow (rules : Rules) (n : Nat) : Prop where
  body : ∀ {heading : Heading} {constants members rest}, '$' ∉ heading.written.toList →
    (heading.kind = .enumType ∨ constants = []) → Constant.AllWellFormed constants →
    Member.AllWellFormed heading.written members → (bodyTokens heading constants members).length < n →
    Reads (rules.classBody heading) (bodyTokens heading constants members) rest
      (Nomenclator.Member.bareAll · = Constant.trees constants ++ Member.trees heading.written members)
  code : ∀ {stop : CodeEnd} {items last rest}, Item.AllWellFormed stop.setting items →
    stop.EndsAt last rest → (Item.tokensOf items).length < n →
    Reads (rules.code stop) (Item.tokensOf items ++ last) rest (CodeItem.bareAll · = Item.trees items)

variable {rules : Rules} {n : Nat} {rest : List Token}

theorem length_bracketed (bracket : Bracket) (ts : List Token) :
    (bracketed bracket ts).length = ts.length + 2 := by
  simp [bracketed]

namespace ReadsBelow

/-- Code in brackets, from behind the opening one. -/
theorem group (h : ReadsBelow rules n) {bracket : Bracket} {opener : Span} {items : List Item}
    (hw : Item.AllWellFormed .bracketed items)
    (hn : (bracketed bracket (Item.tokensOf items)).length ≤ n) :
    Reads (rules.code (.close bracket opener)) (Item.tokensOf items ++ [.closer bracket]) rest
      (CodeItem.bareAll · = Item.trees items) := by
  rw [length_bracketed] at hn
  have hstop : CodeEnd.EndsAt (.close bracket opener) [.closer bracket] rest := rfl
  exact h.code hw hstop (by omega)

theorem block (h : ReadsBelow rules n) {items : List Item} (hw : Item.AllWellFormed .bracketed items)
    (hn : (bracketed .brace (Item.tokensOf items)).length ≤ n) :
    Reads (Grammar.block rules) (bracketed .brace (Item.tokensOf items)) rest
      (CodeItem.bareAll · = Item.trees items) := by
  refine .token (reads_take nofun nofun) fun r hr => ?_
  obtain ⟨opener, rfl⟩ := hr
  exact h.group hw hn

/-- The body of an allocation or a constant. -/
theorem anonymousBody (h : ReadsBelow rules n) {members : List Member}
    (hw : Member.AllWellFormed "" members)
    (hn : (bracketed .brace (Member.tokensOf "" members)).length < n) :
    Reads (anonymousBody? rules) (bracketed .brace (Member.tokensOf "" members)) rest
      (Option.map Nomenclator.Member.bareAll · = some (Member.trees "" members)) := by
  refine .look reads_isAt fun b hb => ?_
  rw [hb, if_pos (by simp [bracketed])]
  have hbody : Reads (rules.classBody .anonymous) (bodyTokens .anonymous [] members) rest
      (Nomenclator.Member.bareAll · = Member.trees "" members) :=
    h.body (by decide) (.inr rfl) trivial hw hn
  exact .map hbody fun members hm => congrArg some hm

end ReadsBelow

theorem reads_no_anonymousBody (h : rest.head? ≠ some (.opener .brace)) :
    Reads (anonymousBody? rules) [] rest (· = none) := by
  refine .look reads_isAt fun b hb => ?_
  rw [hb, if_neg (by simpa using h)]
  exact .pure rfl

/-! ## Type declarations -/

theorem reads_declaredName {name : String} (span : Span) (h : '$' ∉ name.toList) :
    Reads (declaredName name span) [] rest (· = name) := by
  rw [declaredName, if_neg h]
  exact .pure (plainName_eq h)

theorem reads_components (kind : TypeKind) :
    Reads (components kind) (componentTokens kind) rest fun _ => True := by
  rw [components, componentTokens]
  split
  · refine .look (reads_skipAnyAngles nofun) fun _ _ => ?_
    exact .map (reads_parameters []) fun _ _ => trivial
  · exact .pure trivial

theorem reads_skipHeader {ts : List Token} (h : rest = .opener .brace :: ts) :
    Reads skipHeader [] rest fun _ => True := by
  refine reads_skipWhile_done (.get fun s hs _ => ?_)
  obtain ⟨span, after, hr, -⟩ := map_token_eq_cons (hs.trans h)
  rw [hr]
  exact .pure rfl

theorem typeStart?_eq {kind : TypeKind} {name : String} {ts : List Token} {lexemes : List Lexeme}
    (h : lexemes.map Lexeme.token = kindTokens kind ++ .identifier name :: (componentTokens kind ++ ts)) :
    typeStart? lexemes = some kind := by
  cases kind with
  | classType | interfaceType | enumType =>
    obtain ⟨_, after, rfl, -⟩ := map_token_eq_cons h
    rfl
  | annotationType =>
    obtain ⟨_, after, rfl, h'⟩ := map_token_eq_cons h
    obtain ⟨_, after, rfl, -⟩ := map_token_eq_cons h'
    rfl
  | recordType =>
    obtain ⟨_, after, rfl, h'⟩ := map_token_eq_cons h
    obtain ⟨_, after, rfl, h''⟩ := map_token_eq_cons h'
    obtain ⟨_, after, rfl, -⟩ := map_token_eq_cons h''
    rfl

theorem ReadsBelow.typeDecl (h : ReadsBelow rules n) {decl : Decl} (hw : decl.WellFormed)
    (hn : decl.tokens.length ≤ n) :
    Reads (typeDecl? rules) decl.tokens rest (Option.map TypeDecl.bare · = some decl.tree) := by
  obtain ⟨kind, name, constants, members⟩ := decl
  obtain ⟨hname, hkind, hconstants, hmembers⟩ := hw
  refine .get fun s hs _ => ?_
  rw [Decl.tokens, List.append_assoc, List.cons_append, List.append_assoc] at hs
  rw [typeStart?_eq hs]
  refine .look reads_here fun start _ => ?_
  have hlen : (bodyTokens ⟨kind, name, none⟩ constants members).length < n := by
    rw [Decl.tokens, kindTokens] at hn
    simp only [List.length_append, List.length_cons] at hn
    show (bracketed .brace (constantTokens kind (Constant.tokensOf constants) ++
      Member.tokensOf name members)).length < n
    omega
  -- an annotation has its sign before the rest is read
  extract_lets fromKeyword
  have hkeyword : Reads (fromKeyword ()) ([kindWord kind] ++ .identifier name :: (componentTokens kind ++
      bodyTokens ⟨kind, name, none⟩ constants members)) rest
      (Option.map TypeDecl.bare · = some (Decl.mk kind name constants members).tree) := by
    have hword : kindWord kind ≠ .dot ∧ kindWord kind ≠ .colonColon := by
      cases kind <;> decide
    refine .bind (reads_advance hword.1 hword.2) fun _ _ => ?_
    refine .look reads_fresh fun id _ => ?_
    refine .token (reads_identifier .typeKeyword name) fun r hr => ?_
    obtain ⟨written, span⟩ := r
    obtain rfl : written = name := hr
    refine .look (reads_declaredName span hname) fun plain hplain => ?_
    refine .bind (reads_components kind) fun components _ => ?_
    refine .look (reads_skipHeader rfl) fun _ _ => ?_
    have hbody : Reads (rules.classBody ⟨kind, written, components⟩)
        (bodyTokens ⟨kind, written, components⟩ constants members) rest
        (Nomenclator.Member.bareAll · = Constant.trees constants ++ Member.trees written members) :=
      h.body hname hkind hconstants hmembers hlen
    refine .last hbody fun ms hms => ?_
    refine .map reads_here fun stop _ => ?_
    rw [hplain, Option.map_some, TypeDecl.bare, hms, Decl.tree]
  rw [Decl.tokens, kindTokens, List.append_assoc]
  split
  · exact .bind (reads_advance (by decide) (by decide)) fun _ _ => hkeyword
  · exact hkeyword

/-! ## Lambdas -/

/-- The parameters are read past, whatever is in them, up to the arrow. -/
theorem consumes_toArrow {ts : List Token} (h : .arrow ∉ ts) :
    Consumes (skipWhile arrowRound) (ts ++ [.arrow]) rest fun _ => True := by
  induction ts with
  | nil =>
    refine consumes_skipWhile_done (.next fun s span after hr _ => ?_)
    rw [hr]
    exact .last consumes_advance fun _ _ => .pure rfl
  | cons t ts ih =>
    rw [List.mem_cons, not_or] at h
    show Consumes _ ([t] ++ _) rest _
    refine consumes_skipWhile_again (.next fun s span after hr _ => ?_) (by simp) (ih h.2)
    rw [hr]
    cases t with
    | arrow => exact absurd rfl h.1
    | _ => exact .last consumes_advance fun _ _ => .pure rfl

theorem Head.arrow_not_mem (head : Head) : .arrow ∉ head.tokens := by
  rcases head.tokens_eq with ⟨x, hx⟩ | ⟨inner, hinner, hin⟩
  · rw [hx]
    simp
  · rw [hinner]
    simp only [bracketed, List.mem_cons, List.mem_append, List.not_mem_nil, or_false, reduceCtorEq,
      false_or]
    exact fun hm => hin _ hm

/-- The token behind the arrow decides whether the body is a block. -/
theorem reads_lambda (head : Head) {ts : List Token} {tree : List CodeItem}
    (hblock : (ts ++ rest).head? = some (.opener .brace) →
      Reads (Grammar.block rules) ts rest (CodeItem.bareAll · = tree))
    (hcode : (ts ++ rest).head? ≠ some (.opener .brace) →
      Reads (rules.code .expression) ts rest (CodeItem.bareAll · = tree)) :
    Reads (Grammar.lambda rules) (head.tokens ++ .arrow :: ts) rest (·.bare = .lambda 0 tree nowhere) := by
  rw [List.append_cons]
  refine .look reads_here fun start _ => ?_
  refine .look reads_fresh fun id _ => ?_
  refine .bind ((consumes_toArrow head.arrow_not_mem).reads (by simp)) fun _ _ => ?_
  refine .look reads_isAt fun b hb => ?_
  extract_lets fromBody
  have hbody (code : List CodeItem) (hc : CodeItem.bareAll code = tree) :
      Reads (fromBody code) [] rest (·.bare = .lambda 0 tree nowhere) :=
    .map reads_here fun stop _ => by rw [CodeItem.bare, hc]
  by_cases hh : (ts ++ rest).head? = some (.opener .brace)
  · rw [hb, if_pos (decide_eq_true hh)]
    exact .last (hblock hh) hbody
  · rw [hb, if_neg (by simpa using hh)]
    exact .last (hcode hh) hbody

theorem ReadsBelow.lambda (h : ReadsBelow rules n) (head : Head) {body : List Item}
    (hw : Item.AllWellFormed .bracketed body)
    (hn : (Item.lambda head body).tokens.length ≤ n) :
    Reads (Grammar.lambda rules) (Item.lambda head body).tokens rest
      (·.bare = .lambda 0 (Item.trees body) nowhere) := by
  rw [Item.tokens] at hn ⊢
  rw [List.length_append, List.length_cons] at hn
  refine reads_lambda head (fun _ => h.block hw (by omega)) fun hno => ?_
  exact absurd rfl hno

theorem ReadsBelow.expression (h : ReadsBelow rules n) (head : Head) {body : List Item}
    (hw : Item.AllWellFormed .expression body) (hb : (Item.tokensOf body).head? ≠ some (.opener .brace))
    (hn : (Item.expression head body).tokens.length ≤ n) {t : Token} {ts : List Token}
    (ht : EndsExpression t) (hrest : rest = t :: ts) :
    Reads (Grammar.lambda rules) (Item.expression head body).tokens rest
      (·.bare = .lambda 0 (Item.trees body) nowhere) := by
  rw [Item.tokens] at hn ⊢
  rw [List.length_append, List.length_cons] at hn
  have hno : (Item.tokensOf body ++ rest).head? ≠ some (.opener .brace) := by
    rw [List.head?_append, hrest]
    cases hh : (Item.tokensOf body).head? with
    | some first =>
      rw [hh] at hb
      exact hb
    | none =>
      rcases ht with rfl | rfl | ⟨bracket, rfl⟩ <;> exact nofun
  have hstop : CodeEnd.EndsAt .expression [] rest := ⟨rfl, t, ts, hrest, ht⟩
  have hcode : Reads (rules.code .expression) (Item.tokensOf body ++ []) rest
      (CodeItem.bareAll · = Item.trees body) := h.code hw hstop (by omega)
  rw [List.append_nil] at hcode
  exact reads_lambda head (fun hyes => absurd hyes hno) fun _ => hcode

/-! ## Allocations -/

theorem bare_allocation (id : Nat) (type : String) (arguments : List CodeItem)
    (body : Option (List Nomenclator.Member)) (span : Span) :
    (CodeItem.allocation id type arguments body span).bare =
      .allocation 0 type (CodeItem.bareAll arguments) (body.map Nomenclator.Member.bareAll) nowhere := by
  cases body <;> rfl

theorem ReadsBelow.allocation (h : ReadsBelow rules n) (type : TypeName) {arguments : List Item}
    (hw : Item.AllWellFormed .bracketed arguments)
    (hn : (bracketed .paren (Item.tokensOf arguments)).length ≤ n) {bodyTs : List Token}
    {body : Option (List Nomenclator.Member)}
    (hbody : Reads (anonymousBody? rules) bodyTs rest (Option.map Nomenclator.Member.bareAll · = body)) :
    Reads (allocation? rules)
      ([.keyword .newKw] ++ (type.tokens ++ (bracketed .paren (Item.tokensOf arguments) ++ bodyTs))) rest
      (Option.map CodeItem.bare · =
        some (.allocation 0 type.text (Item.trees arguments) body nowhere)) := by
  refine .look reads_here fun start _ => ?_
  refine .bind (reads_advance nofun nofun) fun _ _ => ?_
  refine .look (reads_skipAnyAngles nofun) fun _ _ => ?_
  refine .bind (reads_type type ⟨nofun, nofun, nofun⟩) fun r hr => ?_
  rw [hr]
  refine .token (reads_take nofun nofun) fun r hr => ?_
  obtain ⟨opener, rfl⟩ := hr
  refine .look reads_fresh fun id _ => ?_
  refine .bind (h.group hw hn) fun code hc => ?_
  refine .last hbody fun members hm => ?_
  refine .map reads_here fun stop _ => ?_
  rw [Option.map_some, bare_allocation, hc, hm]

/-! ## Items -/

/-- What comes behind the item does not continue it. -/
structure Item.StandsBefore (item : Item) (rest : List Token) : Prop where
  arrow : rest.head? ≠ some .arrow
  allocation : ∀ type arguments, item = .allocation type arguments none →
    rest.head? ≠ some (.opener .brace)
  expression : ∀ head body, item = .expression head body → ∃ t ts, rest = t :: ts ∧ EndsExpression t

theorem State.Quiet.previous_ne {s : State} (h : s.Quiet) :
    s.previous.map (·.token) ≠ some .dot ∧ s.previous.map (·.token) ≠ some .colonColon := by
  cases hp : s.previous with
  | none => exact ⟨nofun, nofun⟩
  | some lexeme =>
    obtain ⟨hd, hc⟩ := h lexeme hp
    exact ⟨fun he => hd (Option.some.inj he), fun he => hc (Option.some.inj he)⟩

theorem reads_typeKeyword {k : Keyword} (hk : k.isTypeKeyword = true) {ts : List Token}
    {P : List CodeItem × Bool → Prop} (h : Reads (localType? rules) ts rest fun r => P (r.toList, true)) :
    Reads (keyword rules k) ts rest P := by
  refine .get fun s _ hq => ?_
  have hprevious := (State.Quiet.previous_ne hq).1
  have hno : k ≠ .caseKw ∧ k ≠ .defaultKw ∧ k ≠ .newKw := by
    cases k <;> first | exact absurd hk Bool.false_ne_true | exact ⟨nofun, nofun, nofun⟩
  dsimp only
  rw [if_neg (by simp [hno]), if_neg (by simp [hno]), if_pos (by simp [hk, hprevious])]
  exact .map h fun r hr => hr

/-- Where a lambda begins, no other rule for code applies. -/
theorem reads_codeRound_lambda {stop : CodeEnd} {ts : List Token} {P : List CodeItem × Bool → Prop}
    (hl : ∀ lexemes : List Lexeme, lexemes.map Lexeme.token = ts ++ rest → startsLambda lexemes = true)
    (h : Reads (lambda rules) ts rest fun i => P ([i], true)) :
    Reads (codeRound rules stop) ts rest P := by
  refine .get fun s hs _ => ?_
  have hlambda := hl s.rest hs
  split
  next hr => exact absurd (hr ▸ hlambda) nofun
  next hr => exact absurd (hr ▸ hlambda) nofun
  next hr => exact absurd (hr ▸ hlambda) nofun
  next hr => exact absurd (hr ▸ hlambda) nofun
  next hr => exact absurd (hr ▸ hlambda) nofun
  next hr =>
    rw [if_pos (hr ▸ hlambda)]
    exact .map h fun i hi => hi

theorem reads_codeRound_allocation {stop : CodeEnd} {ts : List Token} {tree : CodeItem}
    (h : Reads (allocation? rules) (.keyword .newKw :: ts) rest (Option.map CodeItem.bare · = some tree)) :
    Reads (codeRound rules stop) (.keyword .newKw :: ts) rest fun r =>
      r.2 = true ∧ CodeItem.bareAll r.1 = [tree] := by
  refine .next fun s span after hr _ _ => ?_
  rw [hr]
  refine .get fun s _ hq => ?_
  have hprevious := (State.Quiet.previous_ne hq).2
  dsimp only
  rw [if_neg nofun, if_pos (by simp [hprevious])]
  refine .map h fun r hr => ⟨rfl, ?_⟩
  obtain ⟨i, rfl, hi⟩ := Option.map_eq_some_iff.mp hr
  show [i.bare] = _
  rw [hi]

theorem ReadsBelow.localType (h : ReadsBelow rules n) {stop : CodeEnd} {decl : Decl}
    (hw : decl.WellFormed) (hkind : decl.kind ≠ .annotationType) (hn : decl.tokens.length ≤ n) :
    Reads (codeRound rules stop) decl.tokens rest fun r =>
      r.2 = true ∧ CodeItem.bareAll r.1 = [.localType decl.tree] := by
  have hlocal : Reads (localType? rules) decl.tokens rest fun r =>
      true = true ∧ CodeItem.bareAll r.toList = [.localType decl.tree] := by
    refine .map (h.typeDecl hw hn) fun r hr => ⟨rfl, ?_⟩
    obtain ⟨d, rfl, hd⟩ := Option.map_eq_some_iff.mp hr
    show [CodeItem.localType d.bare] = _
    rw [hd]
  obtain ⟨kind, name, constants, members⟩ := decl
  refine .get fun s hs _ => ?_
  rw [Decl.tokens, List.append_assoc, List.cons_append, List.append_assoc] at hs
  cases kind with
  | annotationType => exact absurd rfl hkind
  | classType | interfaceType | enumType =>
    obtain ⟨_, after, hr, -⟩ := map_token_eq_cons hs
    rw [hr]
    exact reads_typeKeyword rfl hlocal
  | recordType =>
    obtain ⟨_, after, hr, h'⟩ := map_token_eq_cons hs
    obtain ⟨_, after, rfl, h''⟩ := map_token_eq_cons h'
    obtain ⟨_, after, rfl, -⟩ := map_token_eq_cons h''
    rw [hr]
    exact .map hlocal fun r hr => hr

theorem reads_pass {t : Token} (hd : t ≠ .dot) (hc : t ≠ .colonColon) :
    Reads pass [t] rest fun r => r.2 = true ∧ CodeItem.bareAll r.1 = [] :=
  .last (reads_advance hd hc) fun _ _ => .pure ⟨rfl, rfl⟩

theorem reads_mark {stop : CodeEnd} {t : Token} (h : stop.setting.Admits t)
    (harrow : rest.head? ≠ some .arrow) :
    Reads (codeRound rules stop) [t] rest fun r => r.2 = true ∧ CodeItem.bareAll r.1 = [] := by
  refine .next fun s span after hr ha _ => ?_
  rw [hr]
  match t with
  | .semicolon =>
    match stop, h with
    | .close _ _, _ => exact reads_pass nofun nofun
  | .comma =>
    have hstop : stop ≠ .expression := fun he => h (he ▸ rfl)
    dsimp only
    rw [if_neg hstop]
    exact reads_pass nofun nofun
  | .identifier name =>
    have hlambda : startsLambda (⟨.identifier name, span⟩ :: after) = false := by
      cases after with
      | nil => rfl
      | cons l after =>
        obtain ⟨next, _⟩ := l
        cases next <;> first | rfl | exact absurd (congrArg List.head? ha.symm) harrow
    have hrecord : startsRecord (⟨.identifier name, span⟩ :: after) = false := by
      rw [startsRecord.eq_def]
      have hname : (name == "record") = false := beq_false_of_ne h
      split <;> simp_all
    dsimp only
    rw [hlambda, hrecord]
    exact reads_pass nofun nofun
  | .number | .string | .character | .operator | .equal | .question | .colon | .less | .greater =>
    exact reads_pass nofun nofun

theorem ReadsBelow.grouped (h : ReadsBelow rules n) {stop : CodeEnd} {bracket : Bracket}
    {code : List Item} (hw : Item.AllWellFormed .bracketed code)
    (hn : (bracketed bracket (Item.tokensOf code)).length ≤ n) (harrow : rest.head? ≠ some .arrow) :
    Reads (codeRound rules stop) (bracketed bracket (Item.tokensOf code)) rest fun r =>
      r.2 = true ∧ CodeItem.bareAll r.1 = Item.trees code := by
  refine .next fun s span after hr ha _ => ?_
  rw [hr]
  have hlambda : startsLambda (⟨.opener bracket, span⟩ :: after) = false := by
    cases bracket with
    | square | brace => rfl
    | paren =>
      rw [List.append_assoc] at ha
      obtain ⟨inner, after, rfl, hinner, ha⟩ := List.map_eq_append_iff.mp ha
      obtain ⟨closer, after, rfl, hafter⟩ := map_token_eq_cons ha
      refine Bool.eq_false_iff.mpr fun hc => harrow ?_
      have hclose := Item.transparentOf code hw inner _ 1 hinner (Nat.le_refl 1) hc
      rw [closesBeforeArrow, if_pos (Nat.le_refl 1)] at hclose
      obtain ⟨l, hl, hl'⟩ := (Option.any_eq_true ..).mp hclose
      have hhead : rest.head? = after.head?.map Lexeme.token := by
        rw [← List.head?_map]
        exact congrArg List.head? hafter.symm
      rw [hhead, hl, Option.map_some, of_decide_eq_true hl']
  dsimp only
  rw [hlambda, if_neg Bool.false_ne_true]
  refine .token (reads_advance (by simp) (by simp)) fun _ _ => ?_
  exact .map (h.group hw hn) fun r hr => ⟨rfl, hr⟩

/-- Every item is read as itself. -/
theorem ReadsBelow.item (h : ReadsBelow rules n) {stop : CodeEnd} {item : Item}
    (hw : item.WellFormed stop.setting) (hrest : item.StandsBefore rest) (hn : item.tokens.length ≤ n) :
    Reads (codeRound rules stop) item.tokens rest fun r =>
      r.2 = true ∧ CodeItem.bareAll r.1 = item.tree := by
  match item with
  | .localType decl => exact h.localType hw.1 hw.2 hn
  | .allocation type arguments none =>
    have hno : Reads (anonymousBody? rules) [] rest (· = none) :=
      reads_no_anonymousBody (hrest.allocation type arguments rfl)
    rw [Item.tokens, List.length_cons, List.length_append] at hn
    have hread := h.allocation type hw (by omega) (.mono hno fun body hb => congrArg (Option.map _) hb)
    rw [List.append_nil] at hread
    exact reads_codeRound_allocation hread
  | .allocation type arguments (some members) =>
    obtain ⟨hargs, hmembers⟩ := hw
    rw [Item.tokens, List.length_cons, List.length_append, List.length_append] at hn
    exact reads_codeRound_allocation
      (h.allocation type hargs (by omega) (h.anonymousBody hmembers (by omega)))
  | .lambda head body =>
    refine reads_codeRound_lambda (fun lexemes hl => ?_)
      (.mono (h.lambda head hw hn) fun i hi => ⟨rfl, ?_⟩)
    · rw [Item.tokens, List.append_assoc] at hl
      exact startsLambda_head head hl
    · exact congrArg (· :: []) hi
  | .expression head body =>
    obtain ⟨t, ts, hts, ht⟩ := hrest.expression head body rfl
    refine reads_codeRound_lambda (fun lexemes hl => ?_)
      (.mono (h.expression head hw.1 hw.2 hn ht hts) fun i hi => ⟨rfl, ?_⟩)
    · rw [Item.tokens, List.append_assoc] at hl
      exact startsLambda_head head hl
    · exact congrArg (· :: []) hi
  | .group bracket code => exact h.grouped hw hn hrest.arrow
  | .mark t => exact reads_mark hw hrest.arrow

/-! ## Code -/

/-- No item begins with an arrow. -/
theorem Item.tokens_eq_cons {setting : Setting} {item : Item} (h : item.WellFormed setting) :
    ∃ t ts, item.tokens = t :: ts ∧ t ≠ .arrow := by
  have hhead : ∀ (head : Head) (ts : List Token), ∃ t ts', head.tokens ++ ts = t :: ts' ∧ t ≠ .arrow := by
    intro head ts
    cases head <;> exact ⟨_, _, rfl, nofun⟩
  match item with
  | .localType (.mk kind _ _ _) => cases kind <;> exact ⟨_, _, rfl, nofun⟩
  | .allocation _ _ none | .allocation _ _ (some _) | .group _ _ => exact ⟨_, _, rfl, nofun⟩
  | .lambda head _ => exact hhead head _
  | .expression head _ => exact hhead head _
  | .mark t => exact ⟨t, [], rfl, fun he => by subst he; exact h⟩

theorem Item.standsBefore {stop : CodeEnd} {item : Item} {items : List Item} {last : List Token}
    (hw : Item.AllWellFormed stop.setting (item :: items)) (hend : stop.EndsAt last rest) :
    item.StandsBefore (Item.tokensOf items ++ last ++ rest) := by
  obtain ⟨-, hnext, hitems⟩ := hw
  rw [List.append_assoc]
  cases items with
  | nil =>
    obtain ⟨t, ts, heq, ht⟩ := hend.head
    rw [Item.tokensOf, List.nil_append, heq]
    refine ⟨?_, fun _ _ _ => ?_, fun _ _ _ => ⟨t, ts, rfl, ht⟩⟩ <;>
      rcases ht with rfl | rfl | ⟨bracket, rfl⟩ <;> exact nofun
  | cons next items =>
    obtain ⟨t, ts, heq, ht⟩ := Item.tokens_eq_cons hitems.1
    rw [Item.tokensOf, heq] at hnext ⊢
    refine ⟨fun he => ht (Option.some.inj he), ?_, ?_⟩
    · intro type arguments hi
      subst hi
      exact hnext
    · intro head body hi
      subst hi
      refine ⟨t, _, rfl, ?_⟩
      rcases hnext with hnone | hsome | hsome
      · exact absurd hnone nofun
      · exact .inl (Option.some.inj hsome)
      · exact .inr (.inl (Option.some.inj hsome))

theorem reads_codeEnd {stop : CodeEnd} {last : List Token} (hend : stop.EndsAt last rest) :
    Reads (codeRound rules stop) last rest fun r => r.2 = false ∧ CodeItem.bareAll r.1 = [] := by
  have hdone : Reads (pure ([], false)) [] rest
      fun r : List CodeItem × Bool => r.2 = false ∧ CodeItem.bareAll r.1 = [] := .pure ⟨rfl, rfl⟩
  cases stop with
  | close bracket opener =>
    obtain rfl : last = _ := hend
    refine .next fun s span after hr _ _ => ?_
    rw [hr]
    show Reads (if bracket = bracket then _ else _) _ _ _
    rw [if_pos rfl]
    exact .last (reads_advance nofun nofun) fun _ _ => hdone
  | semicolon =>
    obtain rfl : last = _ := hend
    refine .next fun s span after hr _ _ => ?_
    rw [hr]
    exact .last (reads_advance nofun nofun) fun _ _ => hdone
  | expression =>
    obtain ⟨rfl, t, ts, rfl, ht⟩ := hend
    refine .get fun s hs _ => ?_
    obtain ⟨span, after, hr, -⟩ := map_token_eq_cons hs
    rw [hr]
    rcases ht with rfl | rfl | ⟨bracket, rfl⟩ <;> exact hdone

theorem ReadsBelow.reads_code (h : ReadsBelow rules n) {stop : CodeEnd} {items : List Item}
    {last : List Token} (hw : Item.AllWellFormed stop.setting items) (hend : stop.EndsAt last rest)
    (hn : (Item.tokensOf items).length ≤ n) :
    Reads (Grammar.code rules stop) (Item.tokensOf items ++ last) rest
      (CodeItem.bareAll · = Item.trees items) := by
  induction items with
  | nil => exact reads_collect_done (reads_codeEnd hend)
  | cons item items ih =>
    rw [Item.tokensOf, List.length_append] at hn
    rw [Item.tokensOf, List.append_assoc]
    obtain ⟨t, ts, heq, -⟩ := Item.tokens_eq_cons hw.1
    refine reads_collect_again (P := (CodeItem.bareAll · = item.tree))
      (h.item hw.1 (Item.standsBefore hw hend) (by omega)) (by rw [heq]; exact nofun) fun found hf => ?_
    refine .mono (ih hw.2.2 (by omega)) fun more hm => ?_
    rw [CodeItem.bareAll_append, hf, hm, Item.trees]

end Canonical

end Nomenclator
