/-
Types and parameter lists. A type is kept as its text, without annotations
and type arguments: these do not tell overloads apart.
-/
import Nomenclator.Grammar.Modifiers

namespace Nomenclator.Grammar

/-- The text of `count` pairs of square brackets. -/
def dimensionText (count : Nat) : String :=
  String.ofList (List.replicate count ['[', ']']).flatten

/-- The text of a type: its names joined by points, then its dimensions. -/
def typeText (names : List String) (dimensions : Nat) : String :=
  ".".intercalate names ++ dimensionText dimensions

def dimensionRound (count : Nat) : Parser (Turn Nat) := do
  match (← get).rest with
  | ⟨.opener .square, _⟩ :: ⟨.closer .square, _⟩ :: _ =>
    advance
    advance
    return .again (count + 1)
  | _ => return .done count

/-- Reads all pairs of square brackets that come next, and counts them. -/
def dimensions : Parser Nat := iterate dimensionRound 0

/-- Type arguments of the name before, then a point and one more name if they come next. -/
def typeNameRound : Parser (List String × Bool) := do
  skipAnyAngles
  match (← get).rest with
  | ⟨.dot, _⟩ :: ⟨.identifier name, _⟩ :: _ =>
    advance
    advance
    return ([name], true)
  | _ => return ([], false)

/-- One annotation, if one comes next. -/
def annotationRound : Parser Bool := do
  if ← isAt .atSign then
    skipAnnotation
    return true
  else
    return false

/-- The text of the type that begins here, or nothing and a report. -/
def type? : Parser (Option String) := do
  skipWhile annotationRound
  match (← get).rest with
  | ⟨.identifier first, _⟩ :: _ =>
    advance
    let names ← collect typeNameRound
    let count ← dimensions
    return some (typeText (first :: names) count)
  | _ =>
    report .expectedType (← here)
    return none

/-! ## Parameters -/

def skipParametersRound : Parser Bool := do
  match (← get).rest with
  | ⟨.closer .paren, _⟩ :: _ =>
    advance
    return false
  | ⟨.opener .brace, _⟩ :: _ | ⟨.closer .brace, _⟩ :: _ | ⟨.semicolon, _⟩ :: _ | [] =>
    return false
  | ⟨.opener .paren, _⟩ :: _ =>
    skipGroup
    return true
  | _ =>
    advance
    return true

/-- Skips what is left of a broken parameter list, but nothing that could begin a body. -/
def skipParameters : Parser Unit := skipWhile skipParametersRound

/-- One parameter without the comma behind it. Square brackets may also follow the name. -/
def parameter? : Parser (Option Parameter) := do
  let _ ← modifiers
  match ← type? with
  | none => return none
  | some text =>
    let variadic ← accept .ellipsis
    let (name, _) ← identifier .parameterType
    let count ← dimensions
    return some ⟨text ++ (if variadic then "..." else "") ++ dimensionText count, name⟩

def parameterRound (opener : Span) : Parser (List Parameter × Bool) := do
  let found ← parameter?
  if ← accept .comma then
    return (found.toList, true)
  else if ← accept (.closer .paren) then
    return (found.toList, false)
  else
    report .unclosedParen opener
    skipParameters
    return (found.toList, false)

/-- A parameter list, which is empty where none begins. -/
def parameters : Parser (List Parameter) := do
  match ← take? (.opener .paren) with
  | none => return []
  | some opener =>
    if ← accept (.closer .paren) then return []
    else collect (parameterRound opener)

end Nomenclator.Grammar
