/-
Class bodies: the constants of an enum, then members of all kinds.
-/
import Nomenclator.Grammar.Code

namespace Nomenclator.Grammar

/-! ## Enum constants -/

def constantRound (rules : Rules) : Parser (List Member × Bool) := do
  let _ ← modifiers
  match (← get).rest with
  | ⟨.identifier name, start⟩ :: _ =>
    advance
    let id ← fresh
    let arguments ← match ← take? (.opener .paren) with
      | some opener => rules.code (.close .paren opener)
      | none => pure []
    let body ← anonymousBody? rules
    let constant := .constant id name arguments body (start.join (← here))
    if ← accept .comma then
      return ([constant], true)
    else
      let _ ← accept .semicolon
      return ([constant], false)
  | _ =>
    let _ ← accept .semicolon
    return ([], false)

/-! ## Operations and fields -/

def throwsRound : Parser Bool := do
  match (← get).rest with
  | ⟨.opener .brace, _⟩ :: _ | ⟨.semicolon, _⟩ :: _ | [] => return false
  | _ =>
    advance
    return true

/-- Skips the exceptions that an operation throws, if it says so. -/
def skipThrows : Parser Unit := do
  if ← accept (.keyword .throwsKw) then skipWhile throwsRound

/-- The code of an operation, if it has any. The default of an annotation's element is a constant:
it is read and dropped. -/
def operationBody? (rules : Rules) : Parser (Option (List CodeItem)) := do
  skipThrows
  match (← get).rest with
  | ⟨.opener .brace, _⟩ :: _ => return some (← block rules)
  | ⟨.semicolon, _⟩ :: _ =>
    advance
    return none
  | ⟨.keyword .defaultKw, _⟩ :: _ =>
    advance
    let _ ← rules.code .semicolon
    return none
  | ⟨_, span⟩ :: _ =>
    report .expectedMethodBody span
    return none
  | [] => return none

/-- How a constructor begins: with the name of its class as written and a parameter list, or in a
record with the name alone, to take the components. -/
inductive ConstructorStart
  | ownParameters
  | components (parameters : List Parameter)

def constructorStart? (heading : Heading) : List Lexeme → Option ConstructorStart
  | ⟨.identifier name, _⟩ :: ⟨after, _⟩ :: _ =>
    if heading.written ≠ "" ∧ name = heading.written then
      match after, heading.components with
      | .opener .paren, _ => some .ownParameters
      | .opener .brace, some parameters => some (.components parameters)
      | _, _ => none
    else
      none
  | _ => none

/-- A constructor, at its name. -/
def constructorDecl (rules : Rules) (heading : Heading) (start : ConstructorStart) :
    Parser (Span → Member) := do
  advance
  let parameters ← match start with
    | .ownParameters => parameters
    | .components parameters => pure parameters
  let id ← fresh
  let body ← operationBody? rules
  return .operation .constructor id (plainName heading.written) parameters body

/-- Square brackets behind a parameter list, the closing one of which may be missing. -/
def squareRound : Parser Bool := do
  if ← accept (.opener .square) then
    let _ ← accept (.closer .square)
    return true
  else
    return false

/-- A method, at its parameters. -/
def methodDecl (rules : Rules) (written : String) (span : Span) : Parser (Span → Member) := do
  let name ← declaredName written span
  let id ← fresh
  let parameters ← parameters
  skipWhile squareRound
  let body ← operationBody? rules
  return .operation .method id name parameters body

/-- A constructor, method or field. Where none begins, one token is read. -/
def operationOrField? (rules : Rules) (heading : Heading) (isStatic : Bool) :
    Parser (Option (Span → Member)) := do
  skipAnyAngles
  match constructorStart? heading (← get).rest with
  | some start => return some (← constructorDecl rules heading start)
  | none =>
    match ← type? with
    | none =>
      advance
      return none
    | some _ =>
      let (written, span) ← identifier .type
      if ← isAt (.opener .paren) then
        return some (← methodDecl rules written span)
      else
        return some (.field isStatic (← rules.code .semicolon))

/-! ## Members -/

/-- A member of any kind, once its modifiers are read. -/
def memberNode? (rules : Rules) (heading : Heading) (isStatic : Bool) :
    Parser (Option (Span → Member)) := do
  match (← get).rest with
  | [] => return none
  | ⟨.opener .brace, _⟩ :: _ => return some (.initializer isStatic (← block rules))
  | rest =>
    if (typeStart? rest).isSome then
      return (← typeDecl? rules).map .type
    else
      operationOrField? rules heading isStatic

def member? (rules : Rules) (heading : Heading) : Parser (Option Member) := do
  let start ← here
  let isStatic ← modifiers
  let node ← memberNode? rules heading isStatic
  let span := start.join (← here)
  return node.map (· span)

def memberRound (rules : Rules) (heading : Heading) (opener : Span) :
    Parser (List Member × Bool) := do
  match (← get).rest with
  | ⟨.closer .brace, _⟩ :: _ =>
    advance
    return ([], false)
  | ⟨.semicolon, _⟩ :: _ =>
    advance
    return ([], true)
  | [] =>
    report .unclosedBrace opener
    return ([], false)
  | _ => return ((← member? rules heading).toList, true)

/-- A class body with its braces, or a report where none begins. -/
def classBody (rules : Rules) (heading : Heading) : Parser (List Member) := do
  match ← take? (.opener .brace) with
  | none =>
    report .expectedClassBody (← here)
    return []
  | some opener =>
    let constants ← if heading.kind = .enumType then collect (constantRound rules) else pure []
    let members ← collect (memberRound rules heading opener)
    return constants ++ members

end Nomenclator.Grammar
