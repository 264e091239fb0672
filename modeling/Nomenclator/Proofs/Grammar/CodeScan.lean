/-
Code is read up to its end and no further, and its nodes are its lambdas.

Code of whatever end goes round by round: a token, a group in brackets or a
lambda. The body of a lambda that is no block ends before a token that the
code around it has yet to see, so it is code with an end of its own.
-/
import Nomenclator.Proofs.Declaration.Preorder
import Nomenclator.Proofs.Grammar.Begins
import Nomenclator.Proofs.Grammar.CanonicalCode
import Nomenclator.Proofs.Grammar.Consumes
import Nomenclator.Proofs.Grammar.LambdaHeads
import Nomenclator.Proofs.Grammar.Totality

namespace Nomenclator

/-- These nodes are lambdas with consecutive numbers, and go from the given heads to something behind
them. -/
inductive LambdasAt (places : List Span) : Nat → List Span → List Node → Prop
  | nil {id} : LambdasAt places id [] []
  | cons {id heads nodes} {head stop : Span} (hstop : [head, stop].Sublist places)
    (h : LambdasAt places (id + 1) heads nodes) :
    LambdasAt places id (head :: heads) (.lambda (head.join stop) id :: nodes)

namespace LambdasAt

variable {places places' heads heads' : List Span} {id : Nat} {nodes nodes' : List Node}

theorem mono (h : LambdasAt places id heads nodes) (hplaces : places.Sublist places') :
    LambdasAt places' id heads nodes := by
  induction h with
  | nil => exact .nil
  | cons hstop _ ih => exact .cons (hstop.trans hplaces) ih

theorem append (h : LambdasAt places id heads nodes) (h' : LambdasAt places (id + heads.length) heads' nodes') :
    LambdasAt places id (heads ++ heads') (nodes ++ nodes') := by
  induction h with
  | nil => exact h'
  | @cons id heads nodes head stop hstop _ ih =>
    have hnumber : id + (heads.length + 1) = id + 1 + heads.length := by omega
    exact .cons hstop (ih (hnumber ▸ h'))

/-- Where places come in order, the nodes begin with the heads. -/
theorem starts (h : LambdasAt places id heads nodes) (hordered : places.Pairwise fun a b => a.start ≤ b.start) :
    Node.starts nodes = heads.map Span.start := by
  induction h with
  | nil => rfl
  | @cons id heads nodes head stop hstop _ ih =>
    have hle : head.start ≤ stop.start := by simpa using hordered.sublist hstop
    have hstart : Node.start? (.lambda (head.join stop) id) = some head.start := by
      show some (min head.start stop.start) = _
      rw [Nat.min_eq_left hle]
    rw [Node.starts, List.filterMap_cons_some hstart, List.map_cons]
    exact congrArg _ ih

end LambdasAt

namespace Grammar

namespace CodeEnd

/-- This token does not end the code where it stands outside brackets. -/
def Admits : CodeEnd → Token → Prop
  | close .., _ => True
  | semicolon, t => t ≠ .semicolon
  | expression, t => t ≠ .semicolon ∧ t ≠ .comma

end CodeEnd

open CodeEnd

/-! ## What has been read and found -/

/-- The state once `read` is read, `rest` is left and so many numbers are handed out. -/
def State.past (s : State) (read rest : List Lexeme) (numbers : Nat) : State :=
  { s.behind read rest with nextId := s.nextId + numbers }

theorem State.past_past (s : State) (read more rest rest' : List Lexeme) (m n : Nat) :
    (s.past read rest' m).past more rest n = s.past (read ++ more) rest (m + n) := by
  simp [past, behind, List.getLast?_append, Option.or_assoc, Nat.add_assoc]

/-- From state `s` on, exactly `read` is read, and the nodes found are lambdas with these heads. Nothing is
reported. -/
structure Finds (s : State) (read rest : List Lexeme) (heads : List Span) (found : List CodeItem) (s' : State) :
    Prop where
  tokens : s.rest = read ++ rest
  state : s' = s.past read rest heads.length
  nodes : LambdasAt (s.rest.map Lexeme.span) s.nextId heads (CodeItem.preorders found)

namespace Finds

variable {s s' s'' : State} {read more rest rest' : List Lexeme} {heads heads' : List Span}
  {found found' : List CodeItem}

theorem none (hs : s.rest = read ++ rest) : Finds s read rest [] [] (s.behind read rest) := ⟨hs, rfl, .nil⟩

theorem append (h : Finds s read rest heads found s') (h' : Finds s' more rest' heads' found' s'') :
    Finds s (read ++ more) rest' (heads ++ heads') (found ++ found') s'' := by
  have hrest : s'.rest = rest := by rw [h.state]; rfl
  have hid : s'.nextId = s.nextId + heads.length := by rw [h.state]; rfl
  have hsublist : s'.rest.Sublist s.rest := by
    rw [h.tokens, hrest]
    exact List.sublist_append_right read rest
  refine ⟨?_, ?_, ?_⟩
  · rw [h.tokens, ← hrest, h'.tokens, List.append_assoc]
  · rw [h'.state, h.state, State.past_past, List.length_append]
  · rw [CodeItem.preorders_append]
    exact h.nodes.append (hid ▸ h'.nodes.mono (hsublist.map _))

end Finds

variable {rules : Rules} {stop : CodeEnd} {s s' s'' : State} {l : Lexeme} {after : List Lexeme}

/-! ## Rounds -/

theorem keyword_pass {k : Keyword} {previous : Option Token} (hplain : (Token.keyword k).FollowsPlainly previous)
    (hprevious : ∀ t, previous = some t → s.previous.map Lexeme.token = some t) :
    keyword rules k s = (([], true), s.advance) := by
  obtain ⟨hcase, hdefault, hnew, htype⟩ := hplain
  rw [keyword, get_bind_apply]
  cases k with
  | caseKw => exact absurd rfl hcase
  | defaultKw => exact absurd rfl hdefault
  | newKw =>
    rw [hprevious _ (hnew rfl)]
    rfl
  | classKw | interfaceKw | enumKw =>
    rw [hprevious _ (htype (by simp))]
    rfl
  | _ => rfl

theorem codeRound_pass {previous : Option Token} (hs : s.rest = l :: after) (hl : l.token.isBracket = false)
    (hstop : stop.Admits l.token) (hplain : l.token.FollowsPlainly previous)
    (hprevious : ∀ t, previous = some t → s.previous.map Lexeme.token = some t)
    (hlambda : startsLambda (l :: after) = false) (hrecord : startsRecord (l :: after) = false) :
    codeRound rules stop s = (([], true), s.advance) := by
  obtain ⟨t, span⟩ := l
  rw [codeRound, get_bind_apply, hs]
  cases t with
  | opener | closer => simp [Token.isBracket] at hl
  | semicolon => cases stop <;> first | rfl | simp [Admits] at hstop
  | comma => cases stop <;> first | rfl | simp [Admits] at hstop
  | keyword k => exact keyword_pass hplain hprevious
  | _ =>
    simp only [hlambda, hrecord, Bool.false_eq_true, if_false]
    rfl

theorem codeRound_group {bracket : Bracket} {span : Span} (hs : s.rest = ⟨.opener bracket, span⟩ :: after)
    (hlambda : startsLambda (⟨.opener bracket, span⟩ :: after) = false) :
    codeRound rules stop s =
      (((rules.code (.close bracket span) s.advance).1, true), (rules.code (.close bracket span) s.advance).2) := by
  rw [codeRound, get_bind_apply, hs]
  simp only [hlambda, Bool.false_eq_true, if_false]
  rfl

theorem codeRound_lambda (hs : s.rest = l :: after) (hlambda : startsLambda (l :: after) = true) :
    codeRound rules stop s = (([(lambda rules s).1], true), (lambda rules s).2) := by
  obtain ⟨t, span⟩ := l
  rw [codeRound, get_bind_apply, hs]
  cases t with
  | identifier | opener =>
    simp only [hlambda, if_true]
    rfl
  | _ => simp [startsLambda] at hlambda

/-- At its end. -/
theorem codeRound_last {last : List Lexeme} (hs : s.rest = last ++ after)
    (h : stop.EndsAt (last.map Lexeme.token) (after.map Lexeme.token)) :
    codeRound rules stop s = (([], false), s.behind last after) := by
  have hadvance : ∀ t, last.map Lexeme.token = [t] →
      ∃ span, s.rest = ⟨t, span⟩ :: after ∧ s.advance = s.behind last after := by
    intro t ht
    obtain ⟨span, more, rfl, hmore⟩ := map_token_eq_cons ht
    rw [List.map_eq_nil_iff] at hmore
    subst hmore
    exact ⟨span, hs, State.advance_eq_behind hs⟩
  rw [codeRound, get_bind_apply]
  cases stop with
  | close bracket opener =>
    obtain ⟨span, hrest, hbehind⟩ := hadvance _ h
    rw [hrest]
    simp only [closing, if_true]
    exact Prod.ext rfl hbehind
  | semicolon =>
    obtain ⟨span, hrest, hbehind⟩ := hadvance _ h
    rw [hrest]
    exact Prod.ext rfl hbehind
  | expression =>
    obtain ⟨hlast, t, ts, hafter, ht⟩ := h
    obtain ⟨span, more, rfl, -⟩ := map_token_eq_cons hafter
    rw [List.map_eq_nil_iff] at hlast
    subst hlast
    rw [List.nil_append] at hs
    rw [State.behind_nil hs, hs]
    rcases ht with rfl | rfl | ⟨bracket, rfl⟩ <;> rfl

/-! ## Lambdas -/

/-- The body of a lambda, behind its arrow. -/
def lambdaBody (rules : Rules) : Parser (List CodeItem) := do
  if ← isAt (.opener .brace) then block rules else rules.code .expression

theorem lambdaBody_block {span : Span} (hs : s.rest = ⟨.opener .brace, span⟩ :: after) :
    lambdaBody rules s = rules.code (.close .brace span) s.advance := by
  obtain ⟨previous, _, nextId, reported⟩ := s
  obtain rfl := hs
  rfl

theorem lambdaBody_expression (hs : s.rest.head?.any (·.token = .opener .brace) = false) :
    lambdaBody rules s = rules.code .expression s := by
  have hat : isAt (.opener .brace) s = (false, s) := Prod.ext hs rfl
  rw [lambdaBody, bind_of_eq hat]
  rfl

/-- What is left of a lambda behind its arrow, once its number and its first place are known. -/
def lambdaFrom (rules : Rules) (id : Nat) (start : Span) : Parser CodeItem := do
  let body ← lambdaBody rules
  return .lambda id body (start.join (← here))

theorem lambda_eq (rules : Rules) : lambda rules = (do
    let start ← here
    let id ← fresh
    skipWhile arrowRound
    lambdaFrom rules id start) := by
  refine bind_congr fun start => bind_congr fun id => bind_congr fun _ => ?_
  rw [lambdaFrom, lambdaBody, bind_assoc]
  refine bind_congr fun brace => ?_
  cases brace <;> rfl

/-- A lambda is read past the first arrow that comes, whatever stands before it. -/
theorem lambda_past {head rest : List Lexeme} {arrow : Span} (hs : s.rest = head ++ ⟨.arrow, arrow⟩ :: rest)
    (hhead : ∀ l ∈ head, l.token ≠ .arrow) :
    lambda rules s = lambdaFrom rules s.nextId s.here (s.past (head ++ [⟨.arrow, arrow⟩]) rest 1) := by
  have htokens : Token.arrow ∉ head.map Lexeme.token := by
    intro harrow
    obtain ⟨l, hl, htoken⟩ := List.mem_map.mp harrow
    exact hhead l hl htoken
  have hskip : skipWhile arrowRound { s with nextId := s.nextId + 1 } =
      ((), s.past (head ++ [⟨.arrow, arrow⟩]) rest 1) := by
    have htoArrow : Consumes _ _ (rest.map Lexeme.token) _ := Canonical.consumes_toArrow htokens
    refine Prod.ext rfl ?_
    exact (htoArrow { s with nextId := s.nextId + 1 } (head ++ [⟨.arrow, arrow⟩]) rest
      (by simp [hs]) (by simp) rfl).2
  rw [lambda_eq, bind_of_eq (show here s = (s.here, s) from rfl), bind_of_eq (show fresh s = (s.nextId, _) from rfl),
    bind_of_eq hskip]

/-- A lambda is read to its arrow, and its body says the rest. -/
theorem finds_lambda {head body rest : List Lexeme} {first : Lexeme} {arrow : Span} {heads : List Span}
    {s₁ : State} (hs : s.rest = first :: (head ++ ⟨.arrow, arrow⟩ :: (body ++ rest))) (hrest : rest ≠ [])
    (hhead : ∀ l ∈ first :: head, l.token ≠ .arrow)
    (hs₁ : s₁ = s.past (first :: (head ++ [⟨.arrow, arrow⟩])) (body ++ rest) 1)
    (hbody : Finds s₁ body rest heads (lambdaBody rules s₁).1 (lambdaBody rules s₁).2) :
    Finds s (first :: (head ++ ⟨.arrow, arrow⟩ :: body)) rest (first.span :: heads) [(lambda rules s).1]
      (lambda rules s).2 := by
  have hlambda : lambda rules s =
      (.lambda s.nextId (lambdaBody rules s₁).1 (first.span.join (lambdaBody rules s₁).2.here),
        (lambdaBody rules s₁).2) := by
    have hhere : s.here = first.span := by rw [State.here, hs]
    have hsplit : s.rest = (first :: head) ++ ⟨.arrow, arrow⟩ :: (body ++ rest) := hs
    rw [lambda_past hsplit hhead, hhere, hs₁]
    rfl
  obtain ⟨stop, ls, rfl⟩ := List.exists_cons_of_ne_nil hrest
  have hhere : (lambdaBody rules s₁).2.here = stop.span := by rw [hbody.state]; rfl
  rw [hlambda, hhere]
  refine ⟨by simp [hs], ?_, ?_⟩
  · have hpast : (lambdaBody rules s₁).2 = (s.past (first :: (head ++ [⟨.arrow, arrow⟩])) (body ++ stop :: ls) 1).past
        body (stop :: ls) heads.length := by rw [hbody.state, hs₁]
    rw [hpast, State.past_past, List.length_cons, Nat.add_comm 1]
    simp
  · have hid : s₁.nextId = s.nextId + 1 := by rw [hs₁]; rfl
    have hleft : s₁.rest <:+ s.rest := ⟨first :: (head ++ [⟨.arrow, arrow⟩]), by simp [hs, hs₁, State.past]⟩
    have hstop : [first.span, stop.span].Sublist (s.rest.map Lexeme.span) := by
      rw [hs]
      simp
    rw [CodeItem.preorders_singleton]
    exact .cons hstop (hid ▸ hbody.nodes.mono (hleft.sublist.map _))

/-! ## The code ahead -/

/-- No expression goes on with these tokens. -/
def Ended (tail : List Lexeme) : Prop := ∃ l ls, tail = l :: ls ∧ EndsExpression l.token

theorem ended_of_endsAt {last : List Lexeme} (h : stop.EndsAt (last.map Lexeme.token) (after.map Lexeme.token)) :
    Ended (last ++ after) := by
  obtain ⟨t, ts, htokens, ht⟩ := h.head
  rw [← List.map_append] at htokens
  obtain ⟨span, ls, heq, -⟩ := map_token_eq_cons htokens
  exact ⟨_, ls, heq, ht⟩

/-- Before `tail` comes this code. What was read of it is in `before`, the last token first. -/
structure Ahead (before code tail : List Lexeme) (s : State) : Prop where
  rest : s.rest = code ++ tail
  previous : ∀ l, before.head? = some l → s.previous = some l
  plain : PlainCode (before.head?.map Lexeme.token) code
  /-- If the next token is an arrow, it makes no lambda. -/
  arrow : ∀ l, code.head? = some l → l.token = .arrow → headBefore? before = none

namespace Ahead

variable {before code read more tail : List Lexeme}

theorem left (h : Ahead before (code ++ more) tail s) : Ahead before code (more ++ tail) s := by
  refine ⟨?_, h.previous, h.plain.left, ?_⟩
  · rw [h.rest, List.append_assoc]
  · intro l hl
    cases code with
    | nil => simp at hl
    | cons l' code => exact h.arrow l hl

theorem behind (h : Ahead before (read ++ more) tail s) (hpast : ∃ numbers, s' = s.past read (more ++ tail) numbers)
    (hread : read ≠ [])
    (harrow : ∀ l, more.head? = some l → l.token = .arrow → headBefore? (read.reverse ++ before) = none) :
    Ahead (read.reverse ++ before) more tail s' := by
  obtain ⟨numbers, rfl⟩ := hpast
  refine ⟨rfl, ?_, h.plain.right, harrow⟩
  intro l hl
  rcases List.eq_nil_or_concat read with rfl | ⟨first, l', rfl⟩
  · exact absurd rfl hread
  · simpa [State.past, State.behind] using hl

theorem previous_token (h : Ahead before code tail s) :
    ∀ t, before.head?.map Lexeme.token = some t → s.previous.map Lexeme.token = some t := by
  intro t ht
  obtain ⟨l, hl, rfl⟩ := Option.map_eq_some_iff.mp ht
  rw [h.previous l hl]
  rfl

end Ahead

theorem headBefore?_none {before : List Lexeme} (hname : ∀ name, l.token ≠ .identifier name)
    (hparen : l.token ≠ .closer .paren) : headBefore? (l :: before) = none := by
  obtain ⟨t, span⟩ := l
  cases t with
  | identifier name => exact absurd rfl (hname name)
  | closer bracket => cases bracket <;> first | rfl | exact absurd rfl hparen
  | _ => rfl

/-- Plain code of fewer than `n` tokens is read up to its end, and its lambdas are found. -/
def FindsBelow (rules : Rules) (n : Nat) : Prop :=
  ∀ ⦃stop : CodeEnd⦄ ⦃code last after before : List Lexeme⦄ ⦃s : State⦄, code.length < n →
    WellNested stop.Admits code → stop.EndsAt (last.map Lexeme.token) (after.map Lexeme.token) →
    Ahead before code (last ++ after) s →
    Finds s (code ++ last) after (lambdaHeads before code) (rules.code stop s).1 (rules.code stop s).2

/-- A round has read the beginning of the code, and found its lambdas. -/
structure RoundReads (n : Nat) (stop : CodeEnd) (before read more tail : List Lexeme) (s : State)
    (found : List CodeItem) (s' : State) : Prop where
  nonempty : read ≠ []
  length_lt : more.length < n
  nested : WellNested stop.Admits more
  arrow : ∀ l, more.head? = some l → l.token = .arrow → headBefore? (read.reverse ++ before) = none
  finds : Finds s read (more ++ tail) (lambdaHeads before read) found s'

namespace FindsBelow

variable {n : Nat} {before read more inner tail last heads : List Lexeme} {bracket : Bracket} {span span' : Span}

/-- A group, from its opening bracket on. -/
theorem group (h : FindsBelow rules n) (hinner : WellNested (fun _ => True) inner) (hn : inner.length < n)
    (hs : Ahead before (⟨.opener bracket, span⟩ :: (inner ++ ⟨.closer bracket, span'⟩ :: more)) tail s) :
    Finds s (⟨.opener bracket, span⟩ :: (inner ++ [⟨.closer bracket, span'⟩])) (more ++ tail)
      (lambdaHeads before (⟨.opener bracket, span⟩ :: (inner ++ [⟨.closer bracket, span'⟩])))
      (rules.code (.close bracket span) s.advance).1 (rules.code (.close bracket span) s.advance).2 := by
  have hrest : s.rest = ⟨.opener bracket, span⟩ :: (inner ++ ⟨.closer bracket, span'⟩ :: (more ++ tail)) := by
    simpa using hs.rest
  have hopener : Finds s [⟨.opener bracket, span⟩] (inner ++ ⟨.closer bracket, span'⟩ :: (more ++ tail)) [] []
      s.advance := by
    rw [State.advance_eq_behind hrest]
    exact .none hrest
  have hs : Ahead before ([⟨.opener bracket, span⟩] ++ (inner ++ ⟨.closer bracket, span'⟩ :: more)) tail s := hs
  have hpast : s.advance = s.past [⟨.opener bracket, span⟩] ((inner ++ ⟨.closer bracket, span'⟩ :: more) ++ tail) 0 := by
    simpa using hopener.state
  have hbehind := hs.behind ⟨0, hpast⟩ (by simp) fun _ _ _ => headBefore?_none (by simp) (by simp)
  have hinner : WellNested (CodeEnd.close bracket span).Admits inner := hinner.mono fun _ _ => trivial
  have hends : (CodeEnd.close bracket span).EndsAt ([⟨.closer bracket, span'⟩].map Lexeme.token)
      ((more ++ tail).map Lexeme.token) := rfl
  have hcode := h hn hinner hends hbehind.left
  have hheads : lambdaHeads before (⟨.opener bracket, span⟩ :: (inner ++ [⟨.closer bracket, span'⟩])) =
      [] ++ lambdaHeads (⟨.opener bracket, span⟩ :: before) inner := by
    simp [lambdaHeads, lambdaHeads_append]
  rw [hheads]
  exact hopener.append hcode

/-- The body of a lambda takes of the code what it can. -/
theorem lambdaBody (h : FindsBelow rules n) {body : List Lexeme} (hbody : WellNested stop.Admits body)
    (hn : body.length < n) (htail : Ended tail)
    (hs : Ahead before body tail s) :
    ∃ read more, body = read ++ more ∧ WellNested stop.Admits more ∧
      (∀ l, more.head? = some l → l.token = .arrow → headBefore? (read.reverse ++ before) = none) ∧
      Finds s read (more ++ tail) (lambdaHeads before read) (Grammar.lambdaBody rules s).1
        (Grammar.lambdaBody rules s).2 := by
  cases hbrace : s.rest.head?.any (·.token = .opener .brace) with
  | false =>
    rw [lambdaBody_expression hbrace]
    obtain ⟨read, more, rfl, hread, hmore, hhead⟩ := hbody.split fun t => t ≠ .semicolon ∧ t ≠ .comma
    have hends : CodeEnd.expression.EndsAt ([].map Lexeme.token) ((more ++ tail).map Lexeme.token) := by
      refine ⟨rfl, ?_⟩
      cases more with
      | nil =>
        obtain ⟨l, ls, rfl, hl⟩ := htail
        exact ⟨_, _, rfl, hl⟩
      | cons l more =>
        refine ⟨l.token, _, rfl, ?_⟩
        by_cases hsemicolon : l.token = .semicolon
        · exact .inl hsemicolon
        · exact .inr (.inl (by simpa [hsemicolon] using hhead l rfl))
    refine ⟨read, more, rfl, hmore, ?_, ?_⟩
    · intro l hl harrow
      exact absurd (by simp [harrow]) (hhead l hl)
    · have hread : WellNested CodeEnd.expression.Admits read := hread.mono fun _ ht => ht.2
      simp only [List.length_append] at hn
      simpa using h (by omega) hread hends hs.left
  | true =>
    cases hbody with
    | nil =>
      obtain ⟨l, ls, rfl, hl⟩ := htail
      rcases hl with hl | hl | ⟨bracket, hl⟩ <;> simp [hs.rest, hl] at hbrace
    | @token _ l _ hl =>
      have hopener : l.token = .opener .brace := by simpa [hs.rest] using hbrace
      simp [hopener, Token.isBracket] at hl
    | @group _ inner more span span' bracket hinner hmore =>
      obtain rfl : bracket = .brace := by simpa [hs.rest] using hbrace
      rw [lambdaBody_block (by simpa using hs.rest)]
      simp only [List.length_cons, List.length_append] at hn
      refine ⟨⟨.opener .brace, span⟩ :: (inner ++ [⟨.closer .brace, span'⟩]), more, by simp, hmore, ?_, ?_⟩
      · simp [headBefore?]
      · exact h.group hinner (by omega) hs

/-- A lambda, from its head on. -/
theorem lambda (h : FindsBelow rules n) {first : Lexeme} {head body : List Lexeme} {arrow : Span}
    (hs : Ahead before (first :: (head ++ ⟨.arrow, arrow⟩ :: body)) tail s)
    (hhead : ∀ l ∈ first :: head, l.token ≠ .arrow)
    (hfirst : headBefore? ((first :: head).reverse ++ before) = some first.span)
    (hbody : WellNested stop.Admits body) (hn : body.length < n)
    (htail : Ended tail) :
    ∃ read more, first :: (head ++ ⟨.arrow, arrow⟩ :: body) = read ++ more ∧
      RoundReads n stop before read more tail s [(Grammar.lambda rules s).1] (Grammar.lambda rules s).2 := by
  have hrest : s.rest = first :: (head ++ ⟨.arrow, arrow⟩ :: (body ++ tail)) := by simpa using hs.rest
  obtain ⟨s₁, hs₁⟩ : ∃ s₁, s₁ = s.past (first :: (head ++ [⟨.arrow, arrow⟩])) (body ++ tail) 1 := ⟨_, rfl⟩
  have hsplit : Ahead before ((first :: (head ++ [⟨.arrow, arrow⟩])) ++ body) tail s := by simpa using hs
  have hahead := hsplit.behind ⟨1, hs₁⟩ (by simp) fun _ _ _ => by simp [headBefore?]
  obtain ⟨read, more, rfl, hmore, harrow, hfound⟩ := h.lambdaBody hbody hn htail hahead
  refine ⟨first :: (head ++ ⟨.arrow, arrow⟩ :: read), more, by simp, by simp, ?_, hmore, ?_, ?_⟩
  · simp only [List.length_append] at hn
    omega
  · simpa using harrow
  · have hne : more ++ tail ≠ [] := by
      obtain ⟨l, ls, rfl, -⟩ := htail
      simp
    have hlambda := finds_lambda (by simpa using hrest) hne hhead (by simpa using hs₁) hfound
    have hheads : lambdaHeads before (first :: (head ++ ⟨.arrow, arrow⟩ :: read)) =
        first.span :: lambdaHeads ((first :: (head ++ [⟨.arrow, arrow⟩])).reverse ++ before) read := by
      rw [← List.cons_append, lambdaHeads_append, lambdaHeads_eq_nil hhead, lambdaHeads, if_pos rfl, hfirst]
      simp
    rw [hheads]
    exact hlambda

/-- After a round, the rest of the code is read. -/
theorem round (h : FindsBelow rules n) (hrules : rules.code = code rules) {after : List Lexeme}
    {found : List CodeItem} (hs : Ahead before (read ++ more) (last ++ after) s)
    (hends : stop.EndsAt (last.map Lexeme.token) (after.map Lexeme.token))
    (hround : codeRound rules stop s = ((found, true), s'))
    (hreads : RoundReads n stop before read more (last ++ after) s found s') :
    Finds s ((read ++ more) ++ last) after (lambdaHeads before (read ++ more)) (rules.code stop s).1
      (rules.code stop s).2 := by
  have hlt : s'.rest.length < s.rest.length := by
    have hpos := List.length_pos_iff.mpr hreads.nonempty
    rw [hreads.finds.state, hs.rest]
    simp only [State.past, State.behind, List.length_append]
    omega
  have hcode : rules.code stop s = (found ++ (rules.code stop s').1, (rules.code stop s').2) := by
    rw [hrules]
    exact collect_of_true hround hlt
  have hbehind := hs.behind ⟨_, hreads.finds.state⟩ hreads.nonempty hreads.arrow
  rw [hcode, lambdaHeads_append, List.append_assoc]
  exact hreads.finds.append (h hreads.length_lt hreads.nested hends hbehind)

end FindsBelow

/-! ## Looking ahead -/

/-- A token that ends nothing stands in the code. -/
theorem Ended.cons_of_append {code tail ls : List Lexeme} (htail : Ended tail) (heq : code ++ tail = l :: ls)
    (hl : ¬ EndsExpression l.token) : ∃ more, code = l :: more ∧ more ++ tail = ls := by
  cases code with
  | nil =>
    obtain ⟨l', ls', rfl, hl'⟩ := htail
    obtain ⟨rfl, rfl⟩ := List.cons.inj heq
    exact absurd hl' hl
  | cons l' more =>
    obtain ⟨rfl, rfl⟩ := List.cons.inj heq
    exact ⟨more, rfl, rfl⟩

theorem startsRecord_plain {before code tail : List Lexeme} (hs : Ahead before (l :: code) tail s)
    (htail : Ended tail) : startsRecord (l :: (code ++ tail)) = false := by
  refine Bool.eq_false_iff.mpr fun h => hs.plain.2.1 ?_
  have hrecord := (startsRecord_iff _).mp h
  generalize heq : l :: (code ++ tail) = ls at hrecord
  cases hrecord with
  | paren =>
    obtain ⟨rfl, hcode⟩ := List.cons.inj heq
    obtain ⟨more, rfl, hmore⟩ := htail.cons_of_append hcode (by simp [EndsExpression])
    obtain ⟨more, rfl, -⟩ := htail.cons_of_append hmore (by simp [EndsExpression])
    exact .paren
  | less =>
    obtain ⟨rfl, hcode⟩ := List.cons.inj heq
    obtain ⟨more, rfl, hmore⟩ := htail.cons_of_append hcode (by simp [EndsExpression])
    obtain ⟨more, rfl, -⟩ := htail.cons_of_append hmore (by simp [EndsExpression])
    exact .less

theorem startsLambda_token {code tail : List Lexeme} (hl : l.token.isBracket = false) (htail : Ended tail)
    (h : startsLambda (l :: (code ++ tail)) = true) :
    ∃ name span arrow body, l = ⟨.identifier name, span⟩ ∧ code = ⟨.arrow, arrow⟩ :: body := by
  unfold startsLambda at h
  split at h
  next name span arrow ls heq =>
    obtain ⟨rfl, hcode⟩ := List.cons.inj heq
    obtain ⟨body, rfl, -⟩ := htail.cons_of_append hcode (by simp [EndsExpression])
    exact ⟨name, span, arrow, body, rfl, rfl⟩
  next span ls heq =>
    obtain ⟨rfl, -⟩ := List.cons.inj heq
    simp [Token.isBracket] at hl
  next => simp at h

/-- A group that begins a lambda is a list in parentheses, with an arrow behind it. -/
theorem startsLambda_bracket {inner more tail : List Lexeme} {bracket : Bracket} {span span' : Span}
    (hinner : WellNested (fun _ => True) inner) (htail : Ended tail)
    (h : startsLambda (⟨.opener bracket, span⟩ :: (inner ++ ⟨.closer bracket, span'⟩ :: (more ++ tail))) = true) :
    bracket = .paren ∧ endsHead inner = false ∧ ∃ arrow body, more = ⟨.arrow, arrow⟩ :: body := by
  cases bracket with
  | square | brace => simp [startsLambda] at h
  | paren =>
    rw [startsLambda_group hinner] at h
    cases hends : endsHead inner with
    | true => simp [hends] at h
    | false =>
      refine ⟨rfl, rfl, ?_⟩
      rw [hends, if_neg (by simp)] at h
      obtain ⟨arrow, ls, heq⟩ := rest_of_head? (s := { rest := more ++ tail }) h
      obtain ⟨body, rfl, -⟩ := htail.cons_of_append heq (by simp [EndsExpression])
      exact ⟨arrow, body, rfl⟩

/-! ## The scanner -/

section Rounds

variable {n : Nat} {before more inner tail : List Lexeme} {bracket : Bracket} {span span' : Span}

theorem roundReads_token (hs : Ahead before (l :: more) tail s) (hl : l.token.isBracket = false)
    (hlambda : startsLambda (l :: (more ++ tail)) = false) (hn : more.length < n) (hmore : WellNested stop.Admits more) :
    RoundReads n stop before [l] more tail s [] s.advance := by
  refine ⟨by simp, hn, hmore, ?_, ?_⟩
  · intro l' hl' harrow
    refine headBefore?_none (fun name hname => ?_) fun hparen => ?_
    · obtain ⟨more, rfl⟩ := List.head?_eq_some_iff.mp hl'
      obtain ⟨t, span⟩ := l
      obtain ⟨t', span'⟩ := l'
      subst hname harrow
      simp [startsLambda] at hlambda
    · simp [hparen, Token.isBracket] at hl
  · have hheads : lambdaHeads before [l] = [] := by
      rw [lambdaHeads]
      split
      next harrow => rw [hs.arrow l rfl harrow]; rfl
      next => rfl
    rw [hheads, State.advance_eq_behind hs.rest]
    exact .none hs.rest

theorem roundReads_group (h : FindsBelow rules n) (hinner : WellNested (fun _ => True) inner)
    (hs : Ahead before (⟨.opener bracket, span⟩ :: (inner ++ ⟨.closer bracket, span'⟩ :: more)) tail s)
    (hlambda : startsLambda (⟨.opener bracket, span⟩ :: (inner ++ ⟨.closer bracket, span'⟩ :: (more ++ tail))) = false)
    (hn : inner.length < n) (hlength : more.length < n) (hmore : WellNested stop.Admits more) :
    RoundReads n stop before (⟨.opener bracket, span⟩ :: (inner ++ [⟨.closer bracket, span'⟩])) more tail s
      (rules.code (.close bracket span) s.advance).1 (rules.code (.close bracket span) s.advance).2 := by
  refine ⟨by simp, hlength, hmore, ?_, h.group hinner hn hs⟩
  intro l hl harrow
  have hreverse : (⟨.opener bracket, span⟩ :: (inner ++ [⟨.closer bracket, span'⟩])).reverse ++ before =
      ⟨.closer bracket, span'⟩ :: (inner.reverse ++ ⟨.opener bracket, span⟩ :: before) := by simp
  rw [hreverse]
  cases bracket with
  | square | brace => rfl
  | paren =>
    obtain ⟨more, rfl⟩ := List.head?_eq_some_iff.mp hl
    rw [startsLambda_group hinner] at hlambda
    rw [headBefore?_group hinner]
    cases hends : endsHead inner with
    | true => rfl
    | false => simp [hends, harrow] at hlambda

theorem roundReads_lambda_name (h : FindsBelow rules n) {name : String} {arrow : Span} {body : List Lexeme}
    (hs : Ahead before (⟨.identifier name, span⟩ :: ⟨.arrow, arrow⟩ :: body) tail s)
    (hbody : WellNested stop.Admits body) (hn : body.length < n) (htail : Ended tail) :
    ∃ read more, ⟨.identifier name, span⟩ :: ⟨.arrow, arrow⟩ :: body = read ++ more ∧
      RoundReads n stop before read more tail s [(lambda rules s).1] (lambda rules s).2 := by
  have hs : Ahead before (⟨.identifier name, span⟩ :: ([] ++ ⟨.arrow, arrow⟩ :: body)) tail s := hs
  exact h.lambda hs (by simp) rfl hbody hn htail

theorem roundReads_lambda_list (h : FindsBelow rules n) (hinner : WellNested (fun _ => True) inner)
    (hclean : endsHead inner = false) {arrow : Span} {body : List Lexeme}
    (hs : Ahead before (⟨.opener .paren, span⟩ :: (inner ++ ⟨.closer .paren, span'⟩ :: ⟨.arrow, arrow⟩ :: body)) tail s)
    (hbody : WellNested stop.Admits body) (hn : body.length < n) (htail : Ended tail) :
    ∃ read more, ⟨.opener .paren, span⟩ :: (inner ++ ⟨.closer .paren, span'⟩ :: ⟨.arrow, arrow⟩ :: body) = read ++ more ∧
      RoundReads n stop before read more tail s [(lambda rules s).1] (lambda rules s).2 := by
  have hhead : ∀ l ∈ (⟨.opener .paren, span⟩ : Lexeme) :: (inner ++ [⟨.closer .paren, span'⟩]), l.token ≠ .arrow := by
    have hinside := ne_arrow_of_endsHead hclean
    intro l hl
    simp only [List.mem_cons, List.mem_append, List.not_mem_nil, or_false] at hl
    rcases hl with rfl | hl | rfl
    · simp
    · exact hinside l hl
    · simp
  have hfirst := headBefore?_group hinner span span' before
  rw [hclean, if_neg (by simp)] at hfirst
  have hlambda := h.lambda (by simpa using hs) hhead (by simpa using hfirst) hbody hn htail
  simpa using hlambda

end Rounds

theorem findsBelow (hrules : rules.code = code rules) (n : Nat) : FindsBelow rules n := by
  induction n with
  | zero => exact fun _ _ _ _ _ _ hn => absurd hn (by omega)
  | succ n ih =>
    intro stop code last after before s hn hcode hends hs
    have htail := ended_of_endsAt hends
    cases hcode with
    | nil =>
      have hlast : codeRound rules stop s = (([], false), s.behind last after) := codeRound_last hs.rest hends
      have hresult : rules.code stop s = ([], s.behind last after) := by
        rw [hrules]
        exact collect_of_false hlast
      rw [hresult]
      exact .none hs.rest
    | @token _ l ls hl hadmits hls =>
      rw [List.length_cons] at hn
      cases hlambda : startsLambda (l :: (ls ++ (last ++ after))) with
      | true =>
        obtain ⟨name, span, arrow, body, rfl, rfl⟩ := startsLambda_token hl htail hlambda
        have hround : codeRound rules stop s = _ := codeRound_lambda hs.rest hlambda
        cases hls with
        | token _ _ hbody =>
          rw [List.length_cons] at hn
          obtain ⟨read, more, heq, hreads⟩ := roundReads_lambda_name ih hs hbody (by omega) htail
          rw [heq] at hs ⊢
          exact ih.round hrules hs hends hround hreads
      | false =>
        have hround : codeRound rules stop s = _ :=
          codeRound_pass hs.rest hl hadmits hs.plain.1 hs.previous_token hlambda (startsRecord_plain hs htail)
        exact ih.round hrules hs hends hround (roundReads_token hs hl hlambda (by omega) hls)
    | @group _ inner more span span' bracket hinner hmore =>
      have hrest : s.rest = ⟨.opener bracket, span⟩ :: (inner ++ ⟨.closer bracket, span'⟩ :: (more ++ (last ++ after))) := by
        simpa using hs.rest
      simp only [List.length_cons, List.length_append] at hn
      cases hlambda : startsLambda (⟨.opener bracket, span⟩ :: (inner ++ ⟨.closer bracket, span'⟩ :: (more ++ (last ++ after)))) with
      | true =>
        obtain ⟨rfl, hclean, arrow, body, rfl⟩ := startsLambda_bracket hinner htail hlambda
        have hround : codeRound rules stop s = _ := codeRound_lambda hrest hlambda
        cases hmore with
        | token _ _ hbody =>
          rw [List.length_cons] at hn
          obtain ⟨read, more, heq, hreads⟩ := roundReads_lambda_list ih hinner hclean hs hbody (by omega) htail
          rw [heq] at hs ⊢
          exact ih.round hrules hs hends hround hreads
      | false =>
        have hround : codeRound rules stop s = _ := codeRound_group hrest hlambda
        have hreads := roundReads_group ih hinner hs hlambda (by omega) (by omega) hmore
        have hsplit := ih.round hrules (by simpa using hs) hends hround hreads
        simpa using hsplit

theorem grammar_code_eq : grammar.code = code grammar := congrArg Rules.code grammar_eq

/-- **Code is read exactly, and its lambdas are found.** Let brackets be properly nested in the code and
let it declare no type, allocate nothing and have no labels. With a closing bracket or a semicolon behind
it, it is read up to that and with it; the body of a lambda is read up to what ends the expression.
Nothing is reported. The nodes that are found are lambdas, in order: one for each arrow behind a name, and
for each behind a list in parentheses in which nothing ends a head. They begin where these heads do. -/
theorem rules_code_finds {stop : CodeEnd} {code last after : List Lexeme} {s : State} {n : Nat}
    (hcode : WellNested stop.Admits code) (hplain : PlainCode none code)
    (hends : stop.EndsAt (last.map Lexeme.token) (after.map Lexeme.token))
    (hs : s.rest = code ++ (last ++ after)) (hn : s.rest.length < n) :
    Finds s (code ++ last) after (lambdaHeads [] code) ((Grammar.rules n).code stop s).1
        ((Grammar.rules n).code stop s).2 ∧
      (s.rest.Pairwise (fun l l' => l.span.start ≤ l'.span.start) →
        Node.starts (CodeItem.preorders ((Grammar.rules n).code stop s).1) =
          (lambdaHeads [] code).map Span.start) := by
  have hahead : Ahead [] code (last ++ after) s := ⟨hs, by simp, hplain, by simp [headBefore?]⟩
  have heq : (Grammar.rules n).code stop s = grammar.code stop s :=
    ((rules_alongside_grammar n 0).code_eq stop hn).symm
  have hfinds : Finds s (code ++ last) after (lambdaHeads [] code) (grammar.code stop s).1 (grammar.code stop s).2 :=
    findsBelow grammar_code_eq (code.length + 1) (Nat.lt_succ_self _) hcode hends hahead
  rw [heq]
  exact ⟨hfinds, fun hordered => hfinds.nodes.starts (List.pairwise_map.mpr hordered)⟩

/-- The code is `x -> { a; }, (y) -> B::new; ({ }) -> w`, up to a closing brace. -/
theorem rules_code_finds_two :
    let code : List Lexeme := [⟨.identifier "x", ⟨1, 2⟩⟩, ⟨.arrow, ⟨2, 4⟩⟩, ⟨.opener .brace, ⟨4, 5⟩⟩,
      ⟨.identifier "a", ⟨5, 6⟩⟩, ⟨.semicolon, ⟨6, 7⟩⟩, ⟨.closer .brace, ⟨7, 8⟩⟩, ⟨.comma, ⟨8, 9⟩⟩,
      ⟨.opener .paren, ⟨9, 10⟩⟩, ⟨.identifier "y", ⟨10, 11⟩⟩, ⟨.closer .paren, ⟨11, 12⟩⟩, ⟨.arrow, ⟨12, 14⟩⟩,
      ⟨.identifier "B", ⟨14, 15⟩⟩, ⟨.colonColon, ⟨15, 17⟩⟩, ⟨.keyword .newKw, ⟨17, 20⟩⟩, ⟨.semicolon, ⟨20, 21⟩⟩,
      ⟨.opener .paren, ⟨21, 22⟩⟩, ⟨.opener .brace, ⟨22, 23⟩⟩, ⟨.closer .brace, ⟨23, 24⟩⟩,
      ⟨.closer .paren, ⟨24, 25⟩⟩, ⟨.arrow, ⟨25, 27⟩⟩, ⟨.identifier "w", ⟨27, 28⟩⟩]
    let last : List Lexeme := [⟨.closer .brace, ⟨28, 29⟩⟩]
    let stop := CodeEnd.close .brace ⟨0, 1⟩
    let s : State := { rest := code ++ (last ++ []) }
    WellNested stop.Admits code ∧ PlainCode none code ∧ stop.EndsAt (last.map Lexeme.token) [] ∧
      s.rest.Pairwise (fun l l' => l.span.start ≤ l'.span.start) ∧
      Finds s (code ++ last) [] [⟨1, 2⟩, ⟨9, 10⟩] ((Grammar.rules 23).code stop s).1
        ((Grammar.rules 23).code stop s).2 ∧
      Node.starts (CodeItem.preorders ((Grammar.rules 23).code stop s).1) = [1, 9] := by
  intro code last stop s
  have hinner : WellNested (fun _ => True) ([⟨.opener .brace, ⟨22, 23⟩⟩, ⟨.closer .brace, ⟨23, 24⟩⟩] : List Lexeme) :=
    .group .brace .nil .nil
  have hcode : WellNested stop.Admits code :=
    .token rfl trivial <| .token rfl trivial <| .group .brace (.token rfl trivial (.token rfl trivial .nil)) <|
    .token rfl trivial <| .group .paren (.token rfl trivial .nil) <| .token rfl trivial <| .token rfl trivial <|
    .token rfl trivial <| .token rfl trivial <| .token rfl trivial <| .group .paren hinner <|
    .token rfl trivial <| .token rfl trivial .nil
  have hplain : PlainCode none code := by decide
  have hends : stop.EndsAt (last.map Lexeme.token) [] := rfl
  have hordered : s.rest.Pairwise (fun l l' => l.span.start ≤ l'.span.start) := by decide
  have hboth := rules_code_finds hcode hplain hends rfl (show s.rest.length < 23 by decide)
  exact ⟨hcode, hplain, hends, hordered, hboth.1, hboth.2 hordered⟩

end Grammar

end Nomenclator
