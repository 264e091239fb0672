/-
Two places where the grammar reads on without a look at the next token.

Where a member has no type, one token is read so that the loop over members
goes on; and the exceptions of an operation go on up to an opening brace or
a semicolon. Both may read the closing brace of the class. Here what is
done at these two places is a parameter of the grammar. One choice of it is
the grammar itself, another one leaves the braces alone and does the same
everywhere else.
-/
import Nomenclator.Grammar.Unit

namespace Nomenclator

/-- What is read where the type of a member is missing, and a round over the exceptions of an operation. -/
structure Grammar.Recovery where
  missingType : Grammar.Parser Unit
  exceptions : Grammar.Parser Bool

namespace Grammar.Recovery

/-- What the grammar does. -/
def blind : Recovery := ⟨advance, throwsRound⟩

/-- The same but at braces: no brace is read for a missing type, and exceptions end before a closing one. -/
def careful : Recovery where
  missingType := do
    match (← get).rest with
    | ⟨.opener .brace, _⟩ :: _ | ⟨.closer .brace, _⟩ :: _ => return
    | _ => blind.missingType
  exceptions := do
    match (← get).rest with
    | ⟨.closer .brace, _⟩ :: _ => return false
    | _ => blind.exceptions

/-! ## The grammar over a recovery -/

section

variable (r : Recovery)

def skipThrows : Parser Unit := do
  if ← accept (.keyword .throwsKw) then skipWhile r.exceptions

def operationBody? (rules : Rules) : Parser (Option (List CodeItem)) := do
  r.skipThrows
  match (← get).rest with
  | ⟨.opener .brace, _⟩ :: _ => return some (← block rules)
  | ⟨.semicolon, _⟩ :: _ =>
    advance
    return none
  | ⟨.keyword .defaultKw, _⟩ :: _ =>
    advance
    let _ ← rules.code .semicolon
    return none
  | ⟨_, span⟩ :: _ =>
    report .expectedMethodBody span
    return none
  | [] => return none

def constructorDecl (rules : Rules) (heading : Heading) (start : ConstructorStart) :
    Parser (Span → Member) := do
  advance
  let parameters ← match start with
    | .ownParameters => parameters
    | .components parameters => pure parameters
  let id ← fresh
  let body ← r.operationBody? rules
  return .operation .constructor id (plainName heading.written) parameters body

def methodDecl (rules : Rules) (written : String) (span : Span) : Parser (Span → Member) := do
  let name ← declaredName written span
  let id ← fresh
  let parameters ← parameters
  skipWhile squareRound
  let body ← r.operationBody? rules
  return .operation .method id name parameters body

def operationOrField? (rules : Rules) (heading : Heading) (isStatic : Bool) :
    Parser (Option (Span → Member)) := do
  skipAnyAngles
  match constructorStart? heading (← get).rest with
  | some start => return some (← r.constructorDecl rules heading start)
  | none =>
    match ← type? with
    | none =>
      r.missingType
      return none
    | some _ =>
      let (written, span) ← identifier .type
      if ← isAt (.opener .paren) then
        return some (← r.methodDecl rules written span)
      else
        return some (.field isStatic (← rules.code .semicolon))

def memberNode? (rules : Rules) (heading : Heading) (isStatic : Bool) :
    Parser (Option (Span → Member)) := do
  match (← get).rest with
  | [] => return none
  | ⟨.opener .brace, _⟩ :: _ => return some (.initializer isStatic (← block rules))
  | rest =>
    if (typeStart? rest).isSome then
      return (← typeDecl? rules).map .type
    else
      r.operationOrField? rules heading isStatic

def member? (rules : Rules) (heading : Heading) : Parser (Option Member) := do
  let start ← here
  let isStatic ← modifiers
  let node ← r.memberNode? rules heading isStatic
  let span := start.join (← here)
  return node.map (· span)

def memberRound (rules : Rules) (heading : Heading) (opener : Span) :
    Parser (List Member × Bool) := do
  match (← get).rest with
  | ⟨.closer .brace, _⟩ :: _ =>
    advance
    return ([], false)
  | ⟨.semicolon, _⟩ :: _ =>
    advance
    return ([], true)
  | [] =>
    report .unclosedBrace opener
    return ([], false)
  | _ => return ((← r.member? rules heading).toList, true)

def classBody (rules : Rules) (heading : Heading) : Parser (List Member) := do
  match ← take? (.opener .brace) with
  | none =>
    report .expectedClassBody (← here)
    return []
  | some opener =>
    let constants ← if heading.kind = .enumType then collect (constantRound rules) else pure []
    let members ← collect (r.memberRound rules heading opener)
    return constants ++ members

def rules : Nat → Rules
  | 0 => ⟨fun _ => pure [], fun _ => pure []⟩
  | depth + 1 => ⟨fun heading => r.classBody (rules depth) heading, fun stop => code (rules depth) stop⟩

/-- The tree of the tokens and its reports, as `CompilationUnit.ofLexemes` has them. -/
def ofLexemes (lexemes : List Lexeme) : CompilationUnit × List Diagnostic :=
  let (unit, state) := compilationUnit (r.rules lexemes.length) { rest := lexemes }
  (unit, state.reported.reverse)

end

/-! ## The grammar itself -/

theorem rules_blind (depth : Nat) : blind.rules depth = Grammar.rules depth := by
  induction depth with
  | zero => rfl
  | succ depth ih => rw [rules, Grammar.rules, ih]; rfl

/-- Blind recovery is what the grammar does. -/
theorem ofLexemes_blind : blind.ofLexemes = CompilationUnit.ofLexemes := by
  funext lexemes
  have hread := congrArg (compilationUnit · { rest := lexemes }) (rules_blind lexemes.length)
  exact congrArg (fun result => (result.1, result.2.reported.reverse)) hread

end Grammar.Recovery

end Nomenclator
