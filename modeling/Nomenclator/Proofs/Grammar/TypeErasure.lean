/-
A type is read to its names and dimensions, whatever type arguments and
annotations it has.

Type arguments are followed by a depth alone. Every list in angle brackets
leaves the depth as it found it, and an annotation among the arguments is
read past whole, so no bracket in it is counted. A name goes on with a point
and another name behind its arguments.
-/
import Nomenclator.Grammar.Type
import Nomenclator.Proofs.Grammar.Modifiers

namespace Nomenclator

/-- Can stand between angle brackets by itself. `@` begins an annotation there. -/
def Token.isArgument : Token → Bool
  | .less | .greater | .atSign | .semicolon | .opener .brace | .closer .brace | .opener .paren
  | .closer .paren => false
  | _ => true

namespace Canonical

open Grammar

/-! ## Syntax -/

/-- What stands between the angle brackets of type arguments. -/
inductive Arguments : List Token → Prop
  | nil : Arguments []
  | token {t ts} (ht : t.isArgument = true) (h : Arguments ts) : Arguments (t :: ts)
  | list {inner ts} (hinner : Arguments inner) (h : Arguments ts) :
    Arguments (.less :: (inner ++ .greater :: ts))
  | annotated {a : AnnotationUse} {ts} (ha : a.WellFormed) (hend : a.EndsBefore ts) (h : Arguments ts) :
    Arguments (a.tokens ++ ts)

/-- Type arguments with their angle brackets, if there are any. -/
def argumentTokens : Option (List Token) → List Token
  | none => []
  | some inner => .less :: (inner ++ [.greater])

/-- One name of a type, maybe with type arguments. -/
structure ArgumentedName where
  name : String
  arguments : Option (List Token)

/-- A type as it is written. -/
structure ArgumentedType where
  annotations : List AnnotationUse
  first : ArgumentedName
  others : List ArgumentedName
  dimensions : Nat

namespace ArgumentedType

/-- Every name behind a point, with its arguments. -/
def otherTokens (others : List ArgumentedName) : List Token :=
  others.flatMap fun n => .dot :: .identifier n.name :: argumentTokens n.arguments

def dimensionTokens (count : Nat) : List Token := (List.replicate count (bracketed .square [])).flatten

/-- All but the annotations in front. -/
def nameTokens (type : ArgumentedType) : List Token :=
  .identifier type.first.name :: (argumentTokens type.first.arguments ++
    (otherTokens type.others ++ dimensionTokens type.dimensions))

def tokens (type : ArgumentedType) : List Token :=
  type.annotations.flatMap AnnotationUse.tokens ++ type.nameTokens

structure WellFormed (type : ArgumentedType) : Prop where
  annotations : ∀ a ∈ type.annotations, a.WellFormed
  arguments : ∀ n ∈ type.first :: type.others, ∀ inner ∈ n.arguments, Arguments inner

/-- What is kept of the type. -/
def erased (type : ArgumentedType) : TypeName :=
  ⟨type.first.name, type.others.map ArgumentedName.name, type.dimensions⟩

end ArgumentedType

/-- A type goes on with these tokens. -/
inductive ContinuesType : List Token → Prop
  | less {ts} : ContinuesType (.less :: ts)
  | name {name ts} : ContinuesType (.dot :: .identifier name :: ts)
  | dimension {ts} : ContinuesType (.opener .square :: .closer .square :: ts)

/-- A parameter as it is written. Its annotations may stand among the modifiers. -/
structure ArgumentedParameter where
  modifiers : List Modifier
  type : ArgumentedType
  variadic : Bool
  name : String
  dimensions : Nat

namespace ArgumentedParameter

def allModifiers (p : ArgumentedParameter) : List Modifier :=
  p.modifiers ++ p.type.annotations.map .annotated

/-- What comes behind all modifiers and annotations. -/
def bareTokens (p : ArgumentedParameter) : List Token :=
  p.type.nameTokens ++ ((if p.variadic then [.ellipsis] else []) ++
    .identifier p.name :: ArgumentedType.dimensionTokens p.dimensions)

def tokens (p : ArgumentedParameter) : List Token := Modifier.tokensOf p.allModifiers ++ p.bareTokens

structure WellFormed (p : ArgumentedParameter) : Prop where
  modifiers : Modifier.AllWellFormed p.bareTokens p.allModifiers
  type : p.type.WellFormed

/-- What is kept of the parameter. -/
def tree (p : ArgumentedParameter) : Nomenclator.Parameter :=
  ⟨p.type.erased.text ++ (if p.variadic then "..." else "") ++ dimensionText p.dimensions, p.name⟩

end ArgumentedParameter

/-! ## Type arguments -/

variable {rest : List Token}

/-- Any token but the special ones leaves the depth. -/
theorem consumes_angleRound_token {t : Token} (ht : t.isArgument = true) (opener : Span) (depth : Nat) :
    Consumes (angleRound opener depth) [t] rest (· = .again depth) := by
  refine .next fun s span after hr _ => ?_
  rw [hr]
  cases t with
  | less | greater | atSign | semicolon => simp [Token.isArgument] at ht
  | opener b | closer b =>
    cases b with
    | paren | brace => simp [Token.isArgument] at ht
    | square => exact .last consumes_advance fun _ _ => .pure rfl
  | _ => exact .last consumes_advance fun _ _ => .pure rfl

theorem consumes_angleRound_less (opener : Span) (depth : Nat) :
    Consumes (angleRound opener depth) [.less] rest (· = .again (depth + 1)) := by
  refine .next fun s span after hr _ => ?_
  rw [hr]
  exact .last consumes_advance fun _ _ => .pure rfl

theorem consumes_angleRound_greater (opener : Span) (depth : Nat) :
    Consumes (angleRound opener (depth + 2)) [.greater] rest (· = .again (depth + 1)) := by
  refine .next fun s span after hr _ => ?_
  rw [hr]
  exact .last consumes_advance fun _ _ => .pure rfl

theorem consumes_angleRound_last (opener : Span) :
    Consumes (angleRound opener 1) [.greater] rest (· = .done 0) := by
  refine .next fun s span after hr _ => ?_
  rw [hr]
  exact .last consumes_advance fun _ _ => .pure rfl

theorem consumes_angleRound_annotated {a : AnnotationUse} (ha : a.WellFormed) (hend : a.EndsBefore rest)
    (opener : Span) (depth : Nat) :
    Consumes (angleRound opener depth) a.tokens rest (· = .again depth) := by
  refine .next fun s span after hr _ => ?_
  rw [hr]
  exact .last (consumes_annotated ha hend) fun _ _ => .pure rfl

/-- What an annotation ends before, it ends before with more behind, and before a closing bracket. -/
theorem AnnotationUse.EndsBefore.append {a : AnnotationUse} {ts : List Token} (h : a.EndsBefore ts)
    (hrest : a.EndsBefore rest) : a.EndsBefore (ts ++ rest) := by
  cases ts with
  | nil => exact hrest
  | cons t ts => exact h

/-- Inside angle brackets, arguments are read past up to the next closing one. The depth is then the
same. -/
theorem consumes_angleRounds {inner : List Token} (h : Arguments inner) (opener : Span) (depth : Nat)
    {ts : List Token}
    (hts : Consumes (iterate (angleRound opener) (depth + 1)) (.greater :: ts) rest fun _ => True) :
    Consumes (iterate (angleRound opener) (depth + 1)) (inner ++ .greater :: ts) rest fun _ => True := by
  induction h generalizing depth ts with
  | nil => exact hts
  | token ht _ ih => exact consumes_iterate_token (consumes_angleRound_token ht opener _) (ih depth hts)
  | @list first second _ _ ihfirst ihsecond =>
    rw [List.cons_append, List.append_assoc]
    refine consumes_iterate_token (consumes_angleRound_less opener _) (ihfirst (depth + 1) ?_)
    exact consumes_iterate_token (consumes_angleRound_greater opener depth) (ihsecond depth hts)
  | @annotated a inner ha hend _ ih =>
    have hboth : a.EndsBefore ((inner ++ .greater :: ts) ++ rest) := by
      rw [List.append_assoc]
      exact hend.append fun _ => by simp
    rw [List.append_assoc]
    have hround := consumes_angleRound_annotated ha hboth opener (depth + 1)
    exact consumes_iterate_next hround (by simp [AnnotationUse.tokens]) (ih depth hts)

theorem consumes_skipAngles {inner : List Token} (h : Arguments inner) :
    Consumes skipAngles (.less :: (inner ++ [.greater])) rest fun _ => True := by
  refine .token consumes_take fun r hr => ?_
  obtain ⟨opener, rfl⟩ := hr
  refine .map (consumes_angleRounds h opener 0 ?_) fun _ _ => trivial
  exact consumes_iterate_done (consumes_angleRound_last opener) trivial

theorem consumes_skipAnyAngles {arguments : Option (List Token)} (h : ∀ inner ∈ arguments, Arguments inner)
    (hrest : rest.head? ≠ some .less) :
    Consumes skipAnyAngles (argumentTokens arguments) rest fun _ => True := by
  refine .look consumes_isAt fun b hb => ?_
  cases arguments with
  | none =>
    obtain rfl : b = false := by simpa [argumentTokens, hrest] using hb
    exact .pure trivial
  | some inner =>
    obtain rfl : b = true := by simpa [argumentTokens] using hb
    exact consumes_skipAngles (h inner rfl)

/-! ## Types -/

theorem consumes_annotationRounds {as : List AnnotationUse} (has : ∀ a ∈ as, a.WellFormed) {name : String}
    (ts : List Token) (hrest : rest = .identifier name :: ts) :
    Consumes (skipWhile annotationRound) (as.flatMap AnnotationUse.tokens) rest fun _ => True := by
  induction as with
  | nil =>
    refine consumes_skipWhile_done (.look consumes_isAt fun b hb => ?_)
    obtain rfl : b = false := by simpa [hrest] using hb
    exact .pure rfl
  | cons a as ih =>
    rw [List.flatMap_cons]
    refine consumes_skipWhile_again ?_ (by simp [AnnotationUse.tokens]) (ih fun a' h => has a' (by simp [h]))
    refine .look consumes_isAt fun b hb => ?_
    obtain rfl : b = true := by simpa [AnnotationUse.tokens] using hb
    refine .last (consumes_annotated (has a (by simp)) fun _ => ?_) fun _ _ => .pure rfl
    -- behind an annotation comes the next one or the first name
    cases as <;> simp [hrest, AnnotationUse.tokens]

theorem consumes_typeNameRound {arguments : Option (List Token)} (h : ∀ inner ∈ arguments, Arguments inner)
    (name : String) :
    Consumes typeNameRound (argumentTokens arguments ++ [.dot, .identifier name]) rest
      (· = ([name], true)) := by
  refine .bind (consumes_skipAnyAngles h (by simp)) fun _ _ => .next fun s span after hr ha => ?_
  obtain ⟨span', after, rfl, -⟩ := map_token_eq_cons ha
  rw [hr]
  refine .token consumes_advance fun _ _ => ?_
  exact .last consumes_advance fun _ _ => .pure rfl

theorem consumes_typeNameRound_none {arguments : Option (List Token)}
    (h : ∀ inner ∈ arguments, Arguments inner) (hless : rest.head? ≠ some .less)
    (hname : ∀ name ts, rest ≠ .dot :: .identifier name :: ts) :
    Consumes typeNameRound (argumentTokens arguments) rest (· = ([], false)) := by
  refine .last (consumes_skipAnyAngles h hless) fun _ _ => .get fun s hs => ?_
  split
  next hr =>
    rw [List.nil_append, State.tokens, hr] at hs
    exact absurd hs.symm (hname _ _)
  next => exact .pure rfl

theorem consumes_typeNames {others : List ArgumentedName} {arguments : Option (List Token)}
    (h : ∀ inner ∈ arguments, Arguments inner) (hothers : ∀ n ∈ others, ∀ inner ∈ n.arguments, Arguments inner)
    (hless : rest.head? ≠ some .less) (hname : ∀ name ts, rest ≠ .dot :: .identifier name :: ts) :
    Consumes (collect typeNameRound) (argumentTokens arguments ++ ArgumentedType.otherTokens others) rest
      (· = others.map ArgumentedName.name) := by
  induction others generalizing arguments with
  | nil =>
    rw [ArgumentedType.otherTokens, List.flatMap_nil, List.append_nil]
    exact consumes_collect_done (consumes_typeNameRound_none h hless hname) rfl
  | cons n others ih =>
    have htokens : argumentTokens arguments ++ ArgumentedType.otherTokens (n :: others) =
        (argumentTokens arguments ++ [.dot, .identifier n.name]) ++
          (argumentTokens n.arguments ++ ArgumentedType.otherTokens others) := by
      simp [ArgumentedType.otherTokens]
    rw [htokens]
    have hmore := ih (hothers n (by simp)) fun n' hn' => hothers n' (by simp [hn'])
    refine consumes_collect_again (consumes_typeNameRound h n.name) (by simp) (hmore.mono fun more hm => ?_)
    simp [hm]

theorem consumes_dimensionRound (count : Nat) :
    Consumes (dimensionRound count) (bracketed .square []) rest (· = .again (count + 1)) := by
  refine .next fun s span after hr ha => ?_
  obtain ⟨span', after, rfl, -⟩ := map_token_eq_cons ha
  rw [hr]
  refine .token consumes_advance fun _ _ => ?_
  exact .last consumes_advance fun _ _ => .pure rfl

theorem consumes_dimensionRounds (count n : Nat) (h : ∀ ts, rest ≠ .opener .square :: .closer .square :: ts) :
    Consumes (iterate dimensionRound count) (ArgumentedType.dimensionTokens n) rest (· = count + n) := by
  induction n generalizing count with
  | zero =>
    refine consumes_iterate_done (.get fun s hs => ?_) rfl
    split
    next hr =>
      rw [State.tokens, hr] at hs
      exact absurd hs.symm (h _)
    next => exact .pure rfl
  | succ n ih =>
    rw [ArgumentedType.dimensionTokens, List.replicate_succ, List.flatten_cons]
    refine consumes_iterate_next (consumes_dimensionRound count) (by simp [bracketed]) ?_
    exact (ih (count + 1)).mono fun k hk => by omega

theorem consumes_dimensions (n : Nat) (h : ∀ ts, rest ≠ .opener .square :: .closer .square :: ts) :
    Consumes dimensions (ArgumentedType.dimensionTokens n) rest (· = n) :=
  (consumes_dimensionRounds 0 n h).mono fun k hk => by omega

theorem consumes_argumentedType {type : ArgumentedType} (h : type.WellFormed) (hrest : ¬ ContinuesType rest) :
    Consumes type? type.tokens rest (· = some type.erased.text) := by
  obtain ⟨annotations, first, others, n⟩ := type
  have hless : (ArgumentedType.dimensionTokens n ++ rest).head? ≠ some .less := by
    cases n with
    | zero =>
      intro hhead
      obtain ⟨ts, rfl⟩ := List.head?_eq_some_iff.mp hhead
      exact hrest .less
    | succ n => simp [ArgumentedType.dimensionTokens, List.replicate_succ, bracketed]
  have hname : ∀ name ts, ArgumentedType.dimensionTokens n ++ rest ≠ .dot :: .identifier name :: ts := by
    intro name ts
    cases n with
    | zero =>
      rintro rfl
      exact hrest .name
    | succ n => simp [ArgumentedType.dimensionTokens, List.replicate_succ, bracketed]
  refine .bind (consumes_annotationRounds h.annotations _ rfl) fun _ _ => .next fun s span after hr _ => ?_
  rw [hr]
  refine .token consumes_advance fun _ _ => ?_
  rw [← List.append_assoc]
  refine .bind (consumes_typeNames ?_ ?_ hless hname) fun names hnames => ?_
  · exact h.arguments first (by simp)
  · exact fun n' hn' => h.arguments n' (by simp [hn'])
  refine .map (consumes_dimensions n ?_) fun count hcount => ?_
  · rintro ts rfl
    exact hrest .dimension
  · rw [hnames, hcount]
    rfl

/-! ## Parameters -/

theorem FollowsSealed.append {ts : List Token} (h : FollowsSealed ts) : FollowsSealed (ts ++ rest) := by
  cases h with
  | modifier h => exact .modifier h
  | typeKeyword h => exact .typeKeyword h
  | atSign => exact .atSign

theorem Modifier.AllWellFormed.append {ts : List Token} {ms : List Modifier}
    (h : Modifier.AllWellFormed ts ms) : Modifier.AllWellFormed (ts ++ rest) ms := by
  induction ms with
  | nil => trivial
  | cons m ms ih =>
    refine ⟨?_, ih h.2⟩
    cases m with
    | sealed =>
      rw [← List.append_assoc]
      exact FollowsSealed.append h.1
    | keyword | nonSealed | annotated => exact h.1

/-- A word is a modifier only before a keyword, an annotation or the rest of `non-sealed`. -/
theorem not_beginsModifier_word {name : String} {t : Token} {ts : List Token} (hk : ∀ k, t ≠ .keyword k)
    (ha : t ≠ .atSign) (ho : t ≠ .operator) : ¬ BeginsModifier (.identifier name :: t :: ts) := by
  intro h
  cases h with
  | nonSealed => exact ho rfl
  | sealed h =>
    cases h with
    | modifier | typeKeyword => exact hk _ rfl
    | atSign => exact ha rfl

namespace ArgumentedParameter

variable {p : ArgumentedParameter}

/-- Behind the first name of a type stands no keyword, no annotation and no operator. -/
theorem not_beginsModifier (p : ArgumentedParameter) : ¬ BeginsModifier (p.bareTokens ++ rest) := by
  obtain ⟨_, ⟨_, ⟨first, arguments⟩, others, n⟩, variadic, name, _⟩ := p
  cases arguments with
  | some inner => exact not_beginsModifier_word (by simp) (by simp) (by simp)
  | none =>
    cases others with
    | cons other others => exact not_beginsModifier_word (by simp) (by simp) (by simp)
    | nil =>
      cases n with
      | succ n => exact not_beginsModifier_word (by simp) (by simp) (by simp)
      | zero => cases variadic <;> exact not_beginsModifier_word (by simp) (by simp) (by simp)

theorem consumes_modifiers_bare (h : p.WellFormed) :
    Consumes Grammar.modifiers (Modifier.tokensOf p.allModifiers) (p.bareTokens ++ rest) fun _ => True := by
  refine (consumes_modifierRounds h.modifiers.append ?_ p.not_beginsModifier false).mono fun _ _ => trivial
  exact fun a _ _ => by simp [bareTokens, ArgumentedType.nameTokens]

/-- No parameter begins with a closing parenthesis. -/
theorem head?_tokens (p : ArgumentedParameter) : ∃ t, p.tokens.head? = some t ∧ t ≠ .closer .paren := by
  rw [tokens]
  cases p.allModifiers with
  | nil => exact ⟨_, rfl, by simp⟩
  | cons m ms => cases m <;> exact ⟨_, rfl, by simp⟩

theorem consumes_parameter (h : p.WellFormed) (hrest : ∀ ts, rest ≠ .opener .square :: .closer .square :: ts) :
    Consumes parameter? p.tokens rest (· = some p.tree) := by
  refine .bind (consumes_modifiers_bare h) fun _ _ => ?_
  -- the annotations of the type are gone with the modifiers
  have htype : ({ p.type with annotations := [] } : ArgumentedType).WellFormed := ⟨by simp, h.type.arguments⟩
  refine .bind (consumes_argumentedType htype ?_) fun r hr => ?_
  · cases p.variadic <;> exact nofun
  rw [hr]
  have hvariadic : Consumes (accept .ellipsis) (if p.variadic then [.ellipsis] else [])
      ((.identifier p.name :: ArgumentedType.dimensionTokens p.dimensions) ++ rest) (· = p.variadic) := by
    cases p.variadic with
    | false => exact consumes_accept_none (by simp)
    | true => exact consumes_accept
  refine .bind hvariadic fun variadic hv => ?_
  refine .token (consumes_identifier .parameterType p.name) fun r hr => ?_
  refine .map (consumes_dimensions p.dimensions hrest) fun count hcount => ?_
  rw [hv, hr, hcount]
  rfl

theorem consumes_round_comma (h : p.WellFormed) (opener : Span) :
    Consumes (parameterRound opener) (p.tokens ++ [.comma]) rest (· = ([p.tree], true)) := by
  refine .bind (consumes_parameter h (by simp)) fun found hfound => ?_
  refine .last consumes_accept fun b hb => ?_
  rw [hfound, hb]
  exact .pure rfl

theorem consumes_round_closer (h : p.WellFormed) (opener : Span) :
    Consumes (parameterRound opener) (p.tokens ++ [.closer .paren]) rest (· = ([p.tree], false)) := by
  refine .bind (consumes_parameter h (by simp)) fun found hfound => ?_
  refine .look (consumes_accept_none (by simp)) fun b hb => ?_
  rw [hb]
  refine .last consumes_accept fun b hb => ?_
  rw [hfound, hb]
  exact .pure rfl

theorem consumes_rounds (ps : List ArgumentedParameter) (h : ∀ q ∈ p :: ps, q.WellFormed) (opener : Span) :
    Consumes (collect (parameterRound opener)) (listed (.closer .paren) ((p :: ps).map tokens)) rest
      (· = (p :: ps).map tree) := by
  induction ps generalizing p with
  | nil =>
    exact consumes_collect_done (consumes_round_closer (h p (by simp)) opener) rfl
  | cons next ps ih =>
    have htokens : listed (.closer .paren) ((p :: next :: ps).map tokens) =
        (p.tokens ++ [.comma]) ++ listed (.closer .paren) ((next :: ps).map tokens) := by
      simp [listed]
    rw [htokens]
    refine consumes_collect_again (consumes_round_comma (h p (by simp)) opener) (by simp) ?_
    exact (ih fun q hq => h q (by simp [hq])).mono fun more hm => by simp [hm]

/-- A parameter list in its parentheses. -/
def listTokens (ps : List ArgumentedParameter) : List Token :=
  .opener .paren :: listed (.closer .paren) (ps.map tokens)

theorem consumes_list {ps : List ArgumentedParameter} (h : ∀ q ∈ ps, q.WellFormed) :
    Consumes parameters (listTokens ps) rest (· = ps.map tree) := by
  refine .token consumes_take fun r hr => ?_
  obtain ⟨opener, rfl⟩ := hr
  cases ps with
  | nil =>
    refine .last consumes_accept fun b hb => ?_
    rw [hb]
    exact .pure rfl
  | cons p ps =>
    refine .look (consumes_accept_none ?_) fun b hb => ?_
    · obtain ⟨t, ht, hne⟩ := p.head?_tokens
      cases ps <;> simpa [listed, ht] using hne
    rw [hb]
    exact consumes_rounds ps h opener

end ArgumentedParameter

/-- **Types are erased.** A written type that the next tokens do not continue is read exactly: nothing
is reported, no number is handed out, and its text is that of its names and dimensions. So the texts of
parameters say nothing of type arguments, annotations and modifiers. -/
theorem consumes_erased :
    (∀ (type : ArgumentedType) (rest : List Token), type.WellFormed → ¬ ContinuesType rest →
      Consumes type? type.tokens rest (· = some type.erased.text)) ∧
    (∀ (ps : List ArgumentedParameter) (rest : List Token), (∀ p ∈ ps, p.WellFormed) →
      Consumes parameters (ArgumentedParameter.listTokens ps) rest
        (· = ps.map ArgumentedParameter.tree)) := by
  refine ⟨?_, ?_⟩
  · intro type rest htype hrest
    exact consumes_argumentedType htype hrest
  · intro ps rest hps
    exact ArgumentedParameter.consumes_list hps

/-- The type is `@X({<;}) Map<@Y(>) K[], List<?>>.Entry[]`, and the parameter `final` and that type with
`x[]` behind it. -/
theorem consumes_erased_entry :
    let inner := AnnotationUse.tokens ⟨"Y", [], some [.greater]⟩ ++ [.identifier "K", .opener .square,
      .closer .square, .comma, .identifier "List", .less, .question, .greater]
    let a : AnnotationUse := ⟨"X", [], some [.opener .brace, .less, .semicolon, .closer .brace]⟩
    let type : ArgumentedType := ⟨[a], ⟨"Map", some inner⟩, [⟨"Entry", none⟩], 1⟩
    let p : ArgumentedParameter := ⟨[.keyword .finalKw], type, false, "x", 1⟩
    type.WellFormed ∧ ¬ ContinuesType [.identifier "x"] ∧ p.WellFormed ∧
      Consumes type? type.tokens [.identifier "x"] (· = some "Map.Entry[]") ∧
      Consumes parameters (ArgumentedParameter.listTokens [p]) [.semicolon] (· = [⟨"Map.Entry[][]", "x"⟩]) := by
  intro inner a type p
  have hlist : Arguments [.less, .question, .greater] := .list (.token rfl .nil) .nil
  have hinner : Arguments inner := by
    refine .annotated ?_ (by simp [AnnotationUse.EndsBefore]) (.token rfl (.token rfl (.token rfl (.token rfl (.token rfl hlist)))))
    intro arguments harguments
    obtain rfl : [Token.greater] = arguments := by simpa using harguments
    exact .token rfl .nil
  have ha : a.WellFormed := by
    intro arguments harguments
    obtain rfl : [Token.opener .brace, .less, .semicolon, .closer .brace] = arguments := by
      simpa [a] using harguments
    exact .group .brace (.token rfl (.token rfl .nil)) .nil
  have htype : type.WellFormed := by
    refine ⟨by simp [type, ha], ?_⟩
    simp [type, hinner]
  have hp : p.WellFormed := ⟨⟨rfl, ha, trivial⟩, htype⟩
  have hrest : ¬ ContinuesType [.identifier "x"] := nofun
  refine ⟨htype, hrest, hp, ?_, ?_⟩
  · exact consumes_erased.1 type _ htype hrest
  · exact consumes_erased.2 [p] _ (by simp [hp])

end Canonical

end Nomenclator
