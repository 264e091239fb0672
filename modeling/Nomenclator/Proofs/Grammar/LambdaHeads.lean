/-
Where the lambdas of a stretch of code begin, told from their arrows.

The parser decides at a name or a parenthesis, by looking ahead for an
arrow. Here the way is the other one: from an arrow back to the name or the
list in parentheses before it. Among properly nested brackets both looks
pass the same tokens, and the same tokens end them, so they agree.
-/
import Nomenclator.Grammar.Lookahead
import Nomenclator.Proofs.Grammar.Brackets

namespace Nomenclator

open Grammar

/-- In parentheses with one of these in them there are no parameters of a lambda. -/
def Token.endsHead : Token → Bool
  | .opener .brace | .closer .brace | .semicolon | .arrow => true
  | _ => false

/-- All brackets are properly nested, and outside of them stand only tokens of some kind. -/
inductive WellNested : (Token → Prop) → List Lexeme → Prop
  | nil {P} : WellNested P []
  | token {P l ls} (hl : l.token.isBracket = false) (hP : P l.token) (h : WellNested P ls) : WellNested P (l :: ls)
  | group {P inner ls span span'} (bracket : Bracket) (hinner : WellNested (fun _ => True) inner) (h : WellNested P ls) :
    WellNested P (⟨.opener bracket, span⟩ :: (inner ++ ⟨.closer bracket, span'⟩ :: ls))

namespace WellNested

variable {P Q : Token → Prop} {ls : List Lexeme}

theorem mono (h : WellNested P ls) (hP : ∀ t, P t → Q t) : WellNested Q ls := by
  induction h with
  | nil => exact .nil
  | token hl hPl _ ih => exact .token hl (hP _ hPl) (ih hP)
  | group bracket hinner _ _ ih => exact .group bracket hinner (ih hP)

/-- Up to the first token outside brackets that is not of another kind as well. -/
theorem split (h : WellNested P ls) (Q : Token → Prop) :
    ∃ first more, ls = first ++ more ∧ WellNested (fun t => P t ∧ Q t) first ∧ WellNested P more ∧
      ∀ l, more.head? = some l → ¬ Q l.token := by
  induction h with
  | nil => exact ⟨[], [], rfl, .nil, .nil, by simp⟩
  | @token P l ls hl hP h ih =>
    by_cases hQ : Q l.token
    · obtain ⟨first, more, rfl, hfirst, hmore, hhead⟩ := ih
      exact ⟨l :: first, more, rfl, .token hl ⟨hP, hQ⟩ hfirst, hmore, hhead⟩
    · exact ⟨[], l :: ls, rfl, .nil, .token hl hP h, by simpa using hQ⟩
  | @group P inner ls span span' bracket hinner h _ ih =>
    obtain ⟨first, more, rfl, hfirst, hmore, hhead⟩ := ih
    refine ⟨⟨.opener bracket, span⟩ :: (inner ++ ⟨.closer bracket, span'⟩ :: first), more, by simp, ?_, hmore, hhead⟩
    exact .group bracket hinner hfirst

end WellNested

/-! ## Plain code -/

/-- The token begins no label, no allocation and no type declaration. Behind `::` stands the name of a
constructor, and behind a point that of a class value. -/
def Token.FollowsPlainly (previous : Option Token) (t : Token) : Prop :=
  t ≠ .keyword .caseKw ∧ t ≠ .keyword .defaultKw ∧ (t = .keyword .newKw → previous = some .colonColon) ∧
    (t = .keyword .classKw ∨ t = .keyword .interfaceKw ∨ t = .keyword .enumKw → previous = some .dot)

instance (previous : Option Token) (t : Token) : Decidable (t.FollowsPlainly previous) :=
  inferInstanceAs (Decidable (_ ∧ _ ∧ _ ∧ _))

/-- The word `record` with a name and the beginning of a header behind it. -/
inductive BeginsRecord : List Lexeme → Prop
  | paren {name span₁ span₂ span₃ ls} :
    BeginsRecord (⟨.identifier "record", span₁⟩ :: ⟨.identifier name, span₂⟩ :: ⟨.opener .paren, span₃⟩ :: ls)
  | less {name span₁ span₂ span₃ ls} :
    BeginsRecord (⟨.identifier "record", span₁⟩ :: ⟨.identifier name, span₂⟩ :: ⟨.less, span₃⟩ :: ls)

/-- Behind this token, the code declares no type, allocates nothing and has no labels. -/
def PlainCode : Option Token → List Lexeme → Prop
  | _, [] => True
  | previous, l :: ls =>
    l.token.FollowsPlainly previous ∧ ¬ BeginsRecord (l :: ls) ∧ PlainCode (some l.token) ls

theorem startsRecord_iff (ls : List Lexeme) : startsRecord ls = true ↔ BeginsRecord ls := by
  constructor
  · intro h
    unfold startsRecord at h
    split at h
    next =>
      obtain rfl := beq_iff_eq.mp h
      exact .paren
    next =>
      obtain rfl := beq_iff_eq.mp h
      exact .less
    next => simp at h
  · intro h
    cases h <;> rfl

instance (ls : List Lexeme) : Decidable (BeginsRecord ls) := decidable_of_iff _ (startsRecord_iff ls)

instance PlainCode.decidable : (previous : Option Token) → (ls : List Lexeme) → Decidable (PlainCode previous ls)
  | _, [] => isTrue trivial
  | _, l :: ls =>
    have := PlainCode.decidable (some l.token) ls
    inferInstanceAs (Decidable (_ ∧ _ ∧ _))

theorem BeginsRecord.append {ls more : List Lexeme} (h : BeginsRecord ls) : BeginsRecord (ls ++ more) := by
  cases h with
  | paren => exact .paren
  | less => exact .less

namespace PlainCode

variable {before ls more : List Lexeme}

theorem left {previous : Option Token} (h : PlainCode previous (ls ++ more)) : PlainCode previous ls := by
  induction ls generalizing previous with
  | nil => trivial
  | cons l ls ih => exact ⟨h.1, fun hrecord => h.2.1 hrecord.append, ih h.2.2⟩

/-- The tokens before are listed from the last one on. -/
theorem right (h : PlainCode (before.head?.map Lexeme.token) (ls ++ more)) :
    PlainCode ((ls.reverse ++ before).head?.map Lexeme.token) more := by
  induction ls generalizing before with
  | nil => exact h
  | cons l ls ih =>
    rw [List.reverse_cons, List.append_assoc]
    exact ih h.2.2

end PlainCode

/-! ## From arrows back to heads -/

/-- The parenthesis that a closing one closes, seen from there back, if nothing ends the look. So many
other ones are open. -/
def groupStart? (depth : Nat) : List Lexeme → Option Span
  | [] => none
  | ⟨.closer .paren, _⟩ :: before => groupStart? (depth + 1) before
  | ⟨.opener .paren, span⟩ :: before => if depth = 0 then some span else groupStart? (depth - 1) before
  | l :: before => if l.token.endsHead then none else groupStart? depth before

/-- Where the lambda begins whose arrow comes behind these tokens, the last of them first: a name or a
list in parentheses. -/
def headBefore? : List Lexeme → Option Span
  | ⟨.identifier _, span⟩ :: _ => some span
  | ⟨.closer .paren, _⟩ :: before => groupStart? 0 before
  | _ => none

/-- Where lambdas begin, for every arrow that makes one, in the order of the arrows. The tokens before
come the last one first. -/
def lambdaHeads : List Lexeme → List Lexeme → List Span
  | _, [] => []
  | before, l :: ls => (if l.token = .arrow then headBefore? before else none).toList ++ lambdaHeads (l :: before) ls

theorem lambdaHeads_append (before ls more : List Lexeme) :
    lambdaHeads before (ls ++ more) = lambdaHeads before ls ++ lambdaHeads (ls.reverse ++ before) more := by
  induction ls generalizing before with
  | nil => rfl
  | cons l ls ih => simp [lambdaHeads, ih]

theorem lambdaHeads_eq_nil {before ls : List Lexeme} (h : ∀ l ∈ ls, l.token ≠ .arrow) :
    lambdaHeads before ls = [] := by
  induction ls generalizing before with
  | nil => rfl
  | cons l ls ih =>
    rw [lambdaHeads, if_neg (h l (by simp)), ih fun l' hl' => h l' (by simp [hl'])]
    rfl

/-! ## Both looks -/

section

variable {t : Token} {span : Span}

theorem closesBeforeArrow_pass (hends : t.endsHead = false) (hopener : t ≠ .opener .paren)
    (hcloser : t ≠ .closer .paren) (depth : Nat) (after : List Lexeme) :
    closesBeforeArrow depth (⟨t, span⟩ :: after) = closesBeforeArrow depth after := by
  cases t with
  | opener bracket | closer bracket =>
    cases bracket with
    | paren => simp at hopener hcloser
    | square => rfl
    | brace => simp [Token.endsHead] at hends
  | semicolon | arrow => simp [Token.endsHead] at hends
  | _ => rfl

theorem groupStart?_pass (hends : t.endsHead = false) (hopener : t ≠ .opener .paren)
    (hcloser : t ≠ .closer .paren) (depth : Nat) (before : List Lexeme) :
    groupStart? depth (⟨t, span⟩ :: before) = groupStart? depth before := by
  cases t with
  | opener bracket | closer bracket =>
    cases bracket with
    | paren => simp at hopener hcloser
    | square => rfl
    | brace => simp [Token.endsHead] at hends
  | semicolon | arrow => simp [Token.endsHead] at hends
  | _ => rfl

theorem closesBeforeArrow_end (hends : t.endsHead = true) (depth : Nat) (after : List Lexeme) :
    closesBeforeArrow depth (⟨t, span⟩ :: after) = false := by
  cases t with
  | opener bracket | closer bracket => cases bracket <;> first | rfl | simp [Token.endsHead] at hends
  | semicolon | arrow => rfl
  | _ => simp [Token.endsHead] at hends

theorem groupStart?_end (hends : t.endsHead = true) (depth : Nat) (before : List Lexeme) :
    groupStart? depth (⟨t, span⟩ :: before) = none := by
  cases t with
  | opener bracket | closer bracket => cases bracket <;> first | rfl | simp [Token.endsHead] at hends
  | semicolon | arrow => rfl
  | _ => simp [Token.endsHead] at hends

end

/-- Some of these tokens ends a look. -/
def endsHead (ls : List Lexeme) : Bool := ls.any fun l => l.token.endsHead

@[simp] theorem endsHead_cons (l : Lexeme) (ls : List Lexeme) :
    endsHead (l :: ls) = (l.token.endsHead || endsHead ls) := rfl

@[simp] theorem endsHead_append (ls more : List Lexeme) :
    endsHead (ls ++ more) = (endsHead ls || endsHead more) := List.any_append

variable {P : Token → Prop} {inner : List Lexeme}

/-- Looking ahead passes nested tokens, and has as many parentheses open behind them. -/
theorem closesBeforeArrow_nested (h : WellNested P inner) (depth : Nat) (after : List Lexeme) :
    closesBeforeArrow (depth + 1) (inner ++ after) =
      if endsHead inner then false else closesBeforeArrow (depth + 1) after := by
  induction h generalizing depth after with
  | nil => rfl
  | @token P l ls hl _ _ ih =>
    obtain ⟨t, span⟩ := l
    rw [List.cons_append, endsHead_cons]
    cases hends : t.endsHead with
    | true => simp [closesBeforeArrow_end hends]
    | false =>
      have hbracket : t ≠ .opener .paren ∧ t ≠ .closer .paren := by
        constructor <;> rintro rfl <;> simp [Token.isBracket] at hl
      simp [closesBeforeArrow_pass hends hbracket.1 hbracket.2, ih]
  | @group P inner ls span span' bracket _ _ ihinner ih =>
    rw [List.cons_append, List.append_assoc, List.cons_append]
    cases bracket with
    | brace => rfl
    | square =>
      rw [closesBeforeArrow_pass rfl (by simp) (by simp), ihinner, closesBeforeArrow_pass rfl (by simp) (by simp), ih]
      cases h : endsHead inner <;> simp [Token.endsHead, h]
    | paren =>
      have hcloser : closesBeforeArrow (depth + 2) (⟨.closer .paren, span'⟩ :: (ls ++ after)) =
          closesBeforeArrow (depth + 1) (ls ++ after) := rfl
      rw [closesBeforeArrow, ihinner, hcloser, ih]
      cases h : endsHead inner <;> simp [Token.endsHead, h]

/-- Looking back passes them too, in the other direction. -/
theorem groupStart?_nested (h : WellNested P inner) (depth : Nat) (before : List Lexeme) :
    groupStart? depth (inner.reverse ++ before) = if endsHead inner then none else groupStart? depth before := by
  induction h generalizing depth before with
  | nil => rfl
  | @token P l ls hl _ _ ih =>
    obtain ⟨t, span⟩ := l
    rw [List.reverse_cons, List.append_assoc, ih, endsHead_cons]
    cases hends : t.endsHead with
    | true => simp [groupStart?_end hends]
    | false =>
      have hbracket : t ≠ .opener .paren ∧ t ≠ .closer .paren := by
        constructor <;> rintro rfl <;> simp [Token.isBracket] at hl
      simp [groupStart?_pass hends hbracket.1 hbracket.2]
  | @group P inner ls span span' bracket _ _ ihinner ih =>
    simp only [List.reverse_cons, List.reverse_append, List.append_assoc, List.cons_append, List.nil_append]
    rw [ih]
    cases bracket with
    | brace =>
      rw [groupStart?_end rfl]
      simp [Token.endsHead]
    | square =>
      rw [groupStart?_pass rfl (by simp) (by simp), ihinner, groupStart?_pass rfl (by simp) (by simp)]
      cases h : endsHead inner <;> simp [Token.endsHead, h]
    | paren =>
      have hopener : groupStart? (depth + 1) (⟨.opener .paren, span⟩ :: before) = groupStart? depth before := rfl
      rw [groupStart?, ihinner, hopener]
      cases h : endsHead inner <;> simp [Token.endsHead, h]

/-- From an arrow behind a group. -/
theorem headBefore?_group (h : WellNested P inner) (span span' : Span) (before : List Lexeme) :
    headBefore? (⟨.closer .paren, span'⟩ :: (inner.reverse ++ ⟨.opener .paren, span⟩ :: before)) =
      if endsHead inner then none else some span := groupStart?_nested h 0 _

/-- At a group. -/
theorem startsLambda_group (h : WellNested P inner) (span span' : Span) (after : List Lexeme) :
    startsLambda (⟨.opener .paren, span⟩ :: (inner ++ ⟨.closer .paren, span'⟩ :: after)) =
      if endsHead inner then false else after.head?.any (·.token = .arrow) := closesBeforeArrow_nested h 0 _

theorem ne_arrow_of_endsHead {ls : List Lexeme} (h : endsHead ls = false) : ∀ l ∈ ls, l.token ≠ .arrow := by
  intro l hl harrow
  have hno := List.any_eq_false.mp h l hl
  simp [harrow, Token.endsHead] at hno

end Nomenclator
