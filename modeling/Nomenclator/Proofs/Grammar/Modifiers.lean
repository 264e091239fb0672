/-
Modifiers and annotations are read past, whatever the arguments of the
annotations hold.

The arguments are a group, which is followed by the brackets that are open:
among properly nested tokens it ends with its own closing parenthesis and
nowhere before. Everything else is decided by the next tokens. A word like
`sealed` is a modifier only before certain others, and the name of an
annotation goes on as long as it can, so it matters what comes behind.
-/
import Nomenclator.Grammar.Modifiers
import Nomenclator.Proofs.Grammar.Brackets
import Nomenclator.Proofs.Grammar.Canonical
import Nomenclator.Proofs.Grammar.Consumes

namespace Nomenclator

namespace Canonical

open Grammar

/-! ## Syntax -/

/-- A dotted name behind `@`, maybe with arguments. These can be anything. -/
structure AnnotationUse where
  first : String
  others : List String
  arguments : Option (List Token)

def AnnotationUse.tokens (a : AnnotationUse) : List Token :=
  .atSign :: (dotted a.first a.others ++ (a.arguments.map (bracketed .paren)).getD [])

def AnnotationUse.WellFormed (a : AnnotationUse) : Prop := ∀ inner ∈ a.arguments, Balanced inner

/-- These tokens do not continue the annotation. A point goes on with its name, and a parenthesis
begins its arguments. -/
def AnnotationUse.EndsBefore (a : AnnotationUse) (rest : List Token) : Prop :=
  a.arguments = none → rest.head? ≠ some .dot ∧ rest.head? ≠ some (.opener .paren)

inductive Modifier
  | keyword (k : Keyword)
  | nonSealed
  | sealed
  | annotated (a : AnnotationUse)

def Modifier.tokens : Modifier → List Token
  | keyword k => [.keyword k]
  | nonSealed => [.identifier "non", .operator, .identifier "sealed"]
  | sealed => [.identifier "sealed"]
  | annotated a => a.tokens

def Modifier.tokensOf (ms : List Modifier) : List Token := ms.flatMap Modifier.tokens

/-- Before these tokens the word `sealed` is a modifier. -/
inductive FollowsSealed : List Token → Prop
  | modifier {k ts} (h : k.isModifier = true) : FollowsSealed (.keyword k :: ts)
  | typeKeyword {k ts} (h : k.isTypeKeyword = true) : FollowsSealed (.keyword k :: ts)
  | atSign {ts} : FollowsSealed (.atSign :: ts)

/-- A modifier begins with these tokens, or an annotation that may be broken. -/
inductive BeginsModifier : List Token → Prop
  | keyword {k ts} (h : k.isModifier = true) : BeginsModifier (.keyword k :: ts)
  | nonSealed {ts} : BeginsModifier (.identifier "non" :: .operator :: .identifier "sealed" :: ts)
  | sealed {ts} (h : FollowsSealed ts) : BeginsModifier (.identifier "sealed" :: ts)
  | annotated {ts} (h : ts.head? ≠ some (.keyword .interfaceKw)) : BeginsModifier (.atSign :: ts)

/-- It is a modifier before these tokens. -/
def Modifier.WellFormed (rest : List Token) : Modifier → Prop
  | keyword k => k.isModifier = true
  | nonSealed => True
  | sealed => FollowsSealed rest
  | annotated a => a.WellFormed

def Modifier.AllWellFormed (rest : List Token) : List Modifier → Prop
  | [] => True
  | m :: ms => m.WellFormed (tokensOf ms ++ rest) ∧ AllWellFormed rest ms

/-! ## Groups -/

variable {rest : List Token}

theorem consumes_groupRound_opener (bracket : Bracket) (openers : Openers) :
    Consumes (groupRound openers) [.opener bracket] rest
      fun turn => ∃ next, turn = .again next ∧ ∃ span, next = (bracket, span) :: openers := by
  refine .next fun s span after hr _ => ?_
  rw [hr]
  exact .last consumes_advance fun _ _ => .pure ⟨_, rfl, span, rfl⟩

theorem consumes_groupRound_closer (bracket : Bracket) (span : Span) (outer : Openers) :
    Consumes (groupRound ((bracket, span) :: outer)) [.closer bracket] rest (· = outer.turn) := by
  refine .next fun s span' after hr _ => ?_
  rw [hr]
  refine .last consumes_advance fun _ _ => .pure ?_
  simp [Openers.close]

theorem consumes_groupRound_other {t : Token} (ht : t.isBracket = false) (openers : Openers) :
    Consumes (groupRound openers) [t] rest (· = openers.turn) := by
  refine .next fun s span after hr _ => ?_
  rw [hr]
  cases t with
  | opener | closer => simp [Token.isBracket] at ht
  | _ => exact .last consumes_advance fun _ _ => .pure rfl

/-- While a bracket is open, balanced tokens are read past. The bracket stays open. -/
theorem consumes_groupRounds {inner : List Token} (h : Balanced inner) (innermost : Bracket × Span)
    (outer : Openers) {ts : List Token}
    (hts : Consumes (iterate groupRound (innermost :: outer)) ts rest fun _ => True) :
    Consumes (iterate groupRound (innermost :: outer)) (inner ++ ts) rest fun _ => True := by
  induction h generalizing innermost outer ts with
  | nil => exact hts
  | token ht _ ih =>
    exact consumes_iterate_token (consumes_groupRound_other ht (innermost :: outer)) (ih innermost outer hts)
  | @group first second bracket _ _ ihfirst ihsecond =>
    rw [List.cons_append, List.append_assoc]
    show Consumes _ ([.opener bracket] ++ _) rest _
    refine consumes_iterate_again (consumes_groupRound_opener bracket _) (by simp) ?_
    rintro _ ⟨span, rfl⟩
    refine ihfirst (bracket, span) (innermost :: outer) ?_
    have hsecond := ihsecond innermost outer hts
    exact consumes_iterate_token (consumes_groupRound_closer bracket span (innermost :: outer)) hsecond

theorem consumes_skipGroup (bracket : Bracket) {inner : List Token} (h : Balanced inner) :
    Consumes skipGroup (bracketed bracket inner) rest fun _ => True := by
  have hgroup : Consumes (iterate groupRound []) ([.opener bracket] ++ (inner ++ [.closer bracket])) rest
      fun _ => True := by
    refine consumes_iterate_again (consumes_groupRound_opener bracket []) (by simp) ?_
    rintro _ ⟨span, rfl⟩
    refine consumes_groupRounds h (bracket, span) [] ?_
    exact consumes_iterate_done (consumes_groupRound_closer bracket span []) trivial
  exact hgroup.map fun _ _ => trivial

/-! ## Annotations -/

theorem consumes_dottedRound (name : String) :
    Consumes dottedRound [.dot, .identifier name] rest (· = ([name], true)) := by
  refine .token consumes_accept fun b hb => ?_
  subst hb
  refine .last (consumes_identifier .dot name) fun r hr => .pure ?_
  rw [hr]

theorem consumes_dottedName (after : Anchor) (first : String) (others : List String)
    (h : rest.head? ≠ some .dot) :
    Consumes (dottedName after) (dotted first others) rest (· = first :: others) := by
  have hothers : Consumes (collect dottedRound) (others.flatMap fun name => [.dot, .identifier name]) rest
      (· = others) := by
    induction others with
    | nil =>
      refine consumes_collect_done (.look (consumes_accept_none h) fun b hb => ?_) rfl
      subst hb
      exact .pure rfl
    | cons name others ih =>
      rw [List.flatMap_cons]
      refine consumes_collect_again (consumes_dottedRound name) (by simp) (ih.mono fun more hmore => ?_)
      rw [hmore]
      rfl
  refine .token (consumes_identifier after first) fun r hr => ?_
  refine .map hothers fun names hnames => ?_
  rw [hr, hnames]

theorem consumes_annotated {a : AnnotationUse} (ha : a.WellFormed) (h : a.EndsBefore rest) :
    Consumes skipAnnotation a.tokens rest fun _ => True := by
  obtain ⟨first, others, arguments⟩ := a
  refine .token consumes_accept fun b hb => ?_
  subst hb
  cases arguments with
  | none =>
    obtain ⟨hdot, hparen⟩ := h rfl
    refine .bind (consumes_dottedName .atSign first others hdot) fun _ _ => ?_
    refine .look consumes_isAt fun b hb => ?_
    have hno : b = false := by simpa [hparen] using hb
    subst hno
    exact .pure trivial
  | some inner =>
    refine .bind (consumes_dottedName .atSign first others (by simp [bracketed])) fun _ _ => ?_
    refine .look consumes_isAt fun b hb => ?_
    have hyes : b = true := by simpa [bracketed] using hb
    subst hyes
    exact consumes_skipGroup .paren (ha inner rfl)

/-! ## Modifiers -/

theorem followsSealed_eq {lexemes : List Lexeme} (h : FollowsSealed (lexemes.map Lexeme.token)) :
    followsSealed lexemes = true := by
  generalize hts : lexemes.map Lexeme.token = ts at h
  cases h with
  | modifier h | typeKeyword h =>
    obtain ⟨span, after, rfl, -⟩ := map_token_eq_cons hts
    simp [followsSealed, h]
  | atSign =>
    obtain ⟨span, after, rfl, -⟩ := map_token_eq_cons hts
    rfl

theorem followsSealed_of_eq {lexemes : List Lexeme} (h : followsSealed lexemes = true) :
    FollowsSealed (lexemes.map Lexeme.token) := by
  unfold followsSealed at h
  split at h
  next k span after =>
    rcases Bool.or_eq_true_iff.mp h with h | h
    · exact .modifier h
    · exact .typeKeyword h
  next => exact .atSign
  next => simp at h

/-- What the look ahead makes of a modifier. -/
def Modifier.decision : Modifier → Grammar.Modifier
  | keyword k => .keyword k
  | nonSealed => .nonSealed
  | sealed => .sealed
  | annotated _ => .annotated

theorem modifier?_eq_decision {m : Modifier} (hm : m.WellFormed rest) {lexemes : List Lexeme}
    (h : lexemes.map Lexeme.token = m.tokens ++ rest) : modifier? lexemes = some m.decision := by
  cases m with
  | keyword k =>
    obtain ⟨_, after, rfl, -⟩ := map_token_eq_cons h
    exact if_pos hm
  | nonSealed =>
    obtain ⟨_, afterNon, rfl, hnon⟩ := map_token_eq_cons h
    obtain ⟨_, afterMinus, rfl, hminus⟩ := map_token_eq_cons hnon
    obtain ⟨_, after, rfl, -⟩ := map_token_eq_cons hminus
    rfl
  | sealed =>
    obtain ⟨_, after, rfl, hafter⟩ := map_token_eq_cons h
    have hfollows : followsSealed after = true := followsSealed_eq (by rw [hafter]; exact hm)
    simp [modifier?, hfollows, Modifier.decision]
  | annotated a =>
    obtain ⟨_, afterSign, rfl, hsign⟩ := map_token_eq_cons h
    obtain ⟨_, after, rfl, -⟩ := map_token_eq_cons hsign
    rfl

theorem beginsModifier_of_modifier? {lexemes : List Lexeme} {m : Grammar.Modifier}
    (h : modifier? lexemes = some m) : BeginsModifier (lexemes.map Lexeme.token) := by
  unfold modifier? at h
  split at h
  next k span after =>
    split at h
    next hk => exact .keyword hk
    next => simp at h
  next => simp at h
  next span after hnot =>
    refine .annotated fun hhead => ?_
    cases after with
    | nil => simp at hhead
    | cons l after =>
      obtain ⟨t, span'⟩ := l
      obtain rfl : t = .keyword .interfaceKw := by simpa using hhead
      exact hnot span' after rfl
  next first span after =>
    split at h
    next hsealed =>
      simp only [Bool.and_eq_true, decide_eq_true_eq] at hsealed
      obtain ⟨rfl, hfollows⟩ := hsealed
      exact .sealed (followsSealed_of_eq hfollows)
    next =>
      split at h
      next hnon =>
        split at h
        next hwords =>
          simp only [Bool.and_eq_true, decide_eq_true_eq] at hwords
          obtain ⟨rfl, rfl⟩ := hwords
          exact .nonSealed
        next => simp at h
      next => simp at h
  next => simp at h

theorem modifier?_eq_none_iff (lexemes : List Lexeme) :
    modifier? lexemes = none ↔ ¬ BeginsModifier (lexemes.map Lexeme.token) := by
  constructor
  · intro hnone hbegins
    generalize hts : lexemes.map Lexeme.token = ts at hbegins
    cases hbegins with
    | keyword hk =>
      obtain ⟨_, after, rfl, -⟩ := map_token_eq_cons hts
      simp [modifier?, hk] at hnone
    | nonSealed => simp [modifier?_eq_decision (m := .nonSealed) trivial hts] at hnone
    | sealed hfollows => simp [modifier?_eq_decision (m := .sealed) hfollows hts] at hnone
    | annotated hhead =>
      obtain ⟨span, after, rfl, rfl⟩ := map_token_eq_cons hts
      have hinterface : ∀ span' ls, after ≠ ⟨.keyword .interfaceKw, span'⟩ :: ls := by
        rintro span' ls rfl
        exact hhead rfl
      simp [modifier?] at hnone
  · intro h
    exact Option.eq_none_iff_forall_ne_some.mpr fun m hm => h (beginsModifier_of_modifier? hm)

/-- A modifier begins with no token that could continue an annotation. -/
theorem Modifier.endsBefore (a : AnnotationUse) (m : Modifier) (ts : List Token) :
    a.EndsBefore (m.tokens ++ ts) := by
  intro _
  cases m <;> simp [Modifier.tokens, AnnotationUse.tokens]

theorem consumes_modifierRound {m : Modifier} (hm : m.WellFormed rest)
    (h : ∀ a, m = .annotated a → a.EndsBefore rest) (isStatic : Bool) :
    Consumes (modifierRound isStatic) m.tokens rest fun turn =>
      ∃ next, turn = .again next ∧ (next = true ↔ isStatic = true ∨ m = .keyword .staticKw) := by
  refine .get fun s hs => ?_
  rw [modifier?_eq_decision hm hs]
  cases m with
  | keyword k => exact .last consumes_advance fun _ _ => .pure ⟨_, rfl, by simp⟩
  | nonSealed =>
    refine .token consumes_advance fun _ _ => .token consumes_advance fun _ _ => ?_
    exact .last consumes_advance fun _ _ => .pure ⟨_, rfl, by simp⟩
  | sealed => exact .last consumes_advance fun _ _ => .pure ⟨_, rfl, by simp⟩
  | annotated a =>
    exact .last (consumes_annotated hm (h a rfl)) fun _ _ => .pure ⟨_, rfl, by simp⟩

theorem consumes_modifierRounds {ms : List Modifier} (hms : Modifier.AllWellFormed rest ms)
    (hlast : ∀ a, ms.getLast? = some (.annotated a) → a.EndsBefore rest) (hrest : ¬ BeginsModifier rest)
    (isStatic : Bool) :
    Consumes (iterate modifierRound isStatic) (Modifier.tokensOf ms) rest fun found =>
      found = true ↔ isStatic = true ∨ .keyword .staticKw ∈ ms := by
  induction ms generalizing isStatic with
  | nil =>
    refine consumes_iterate_done (b := isStatic) (.get fun s hs => ?_) (by simp)
    have htokens : s.rest.map Lexeme.token = rest := hs
    rw [(modifier?_eq_none_iff s.rest).mpr (htokens ▸ hrest)]
    exact .pure rfl
  | cons m ms ih =>
    have hend : ∀ a, m = .annotated a → a.EndsBefore (Modifier.tokensOf ms ++ rest) := by
      rintro a rfl
      cases ms with
      | nil => exact hlast a rfl
      | cons next ms =>
        rw [Modifier.tokensOf, List.flatMap_cons, List.append_assoc]
        exact next.endsBefore a _
    refine consumes_iterate_again (consumes_modifierRound hms.1 hend isStatic) ?_ fun next hnext => ?_
    · cases m <;> simp [Modifier.tokens, AnnotationUse.tokens]
    · refine (ih hms.2 (fun a ha => hlast a ?_) next).mono fun found hfound => ?_
      · rw [List.getLast?_cons, ha, Option.getD_some]
      · rw [hfound, hnext, List.mem_cons, or_assoc, eq_comm (b := m)]

/-- **Modifiers are read past.** Written modifiers and annotations that no further one follows, and that
no token continues, are read exactly: nothing is reported, no number is handed out, and `static` is
found if it is one of the modifiers, whatever the arguments of annotations hold. -/
theorem consumes_modifiers {ms : List Modifier} (hms : Modifier.AllWellFormed rest ms)
    (hlast : ∀ a, ms.getLast? = some (.annotated a) → a.EndsBefore rest) (hrest : ¬ BeginsModifier rest) :
    Consumes modifiers (Modifier.tokensOf ms) rest (· = true ↔ .keyword .staticKw ∈ ms) := by
  refine (consumes_modifierRounds hms hlast hrest false).mono fun found hfound => ?_
  rw [hfound]
  simp

/-- What stands before `class` here is `@A.B(static {;} @interface) public sealed @C non-sealed`. The
word `static` is only in the arguments of an annotation. -/
theorem consumes_modifiers_class :
    let arguments : List Token := [.keyword .staticKw, .opener .brace, .semicolon, .closer .brace, .atSign,
      .keyword .interfaceKw]
    let ms := [.annotated ⟨"A", ["B"], some arguments⟩, .keyword .publicKw, .sealed, .annotated ⟨"C", [], none⟩,
      .nonSealed]
    let rest := [.keyword .classKw, .identifier "D", .opener .brace]
    Modifier.AllWellFormed rest ms ∧ ¬ BeginsModifier rest ∧
      Consumes modifiers (Modifier.tokensOf ms) rest (· = true ↔ .keyword .staticKw ∈ ms) ∧
      .keyword .staticKw ∉ ms := by
  intro arguments ms rest
  have harguments : Balanced arguments := .token rfl (.group .brace (.token rfl .nil) (.token rfl (.token rfl .nil)))
  have hms : Modifier.AllWellFormed rest ms := by
    refine ⟨?_, rfl, .atSign, ?_, trivial, trivial⟩
    · intro inner hinner
      obtain rfl : arguments = inner := by simpa using hinner
      exact harguments
    · intro inner hinner
      simp at hinner
  have hrest : ¬ BeginsModifier rest := by
    show ¬ BeginsModifier (.keyword .classKw :: [.identifier "D", .opener .brace])
    intro hbegins
    cases hbegins with
    | keyword h => exact Bool.false_ne_true h
  exact ⟨hms, hrest, consumes_modifiers hms (by simp [ms]) hrest, by simp [ms]⟩

end Canonical

end Nomenclator
