/-
Code: blocks, arguments, values of fields and bodies of lambdas. Of these
only local types, allocations and lambdas are kept. Brackets are followed
to where they close, and what they hold is listed with the rest.
-/
import Nomenclator.Grammar.Rules

namespace Nomenclator.Grammar

/-- A block, at its opening brace. -/
def block (rules : Rules) : Parser (List CodeItem) := do
  match ← take? (.opener .brace) with
  | some opener => rules.code (.close .brace opener)
  | none =>
    report .expectedClassBody (← here)
    return []

/-- One token up to an arrow, the last of which is the arrow. -/
def arrowRound : Parser Bool := do
  match (← get).rest with
  | [] => return false
  | ⟨.arrow, _⟩ :: _ =>
    advance
    return false
  | _ =>
    advance
    return true

/-- A lambda, at its parameters. Its arrow is the first one that comes. -/
def lambda (rules : Rules) : Parser CodeItem := do
  let start ← here
  let id ← fresh
  skipWhile arrowRound
  let body ← if ← isAt (.opener .brace) then block rules else rules.code .expression
  return .lambda id body (start.join (← here))

/-- An allocation, at the word `new`. An array has no constructor arguments and is none; its sizes
and values are left to be read as code. -/
def allocation? (rules : Rules) : Parser (Option CodeItem) := do
  let start ← here
  advance
  skipAnyAngles
  match ← type? with
  | none => return none
  | some type =>
    match ← take? (.opener .paren) with
    | none => return none
    | some opener =>
      let id ← fresh
      let arguments ← rules.code (.close .paren opener)
      let body ← anonymousBody? rules
      return some (.allocation id type arguments body (start.join (← here)))

def localType? (rules : Rules) : Parser (Option CodeItem) := do
  return (← typeDecl? rules).map .localType

def labelRound : Parser Bool := do
  match (← get).rest with
  | ⟨.colon, _⟩ :: _ | ⟨.arrow, _⟩ :: _ =>
    advance
    return false
  | ⟨.opener .paren, _⟩ :: _ =>
    skipGroup
    return true
  | ⟨.opener .brace, _⟩ :: _ | ⟨.closer .brace, _⟩ :: _ | ⟨.semicolon, _⟩ :: _ | [] =>
    return false
  | _ =>
    advance
    return true

/-- Skips the label of a switch, up to its colon or arrow. -/
def skipLabel : Parser Unit := do
  advance
  skipWhile labelRound

/-- Reads one token and goes on. -/
def pass : Parser (List CodeItem × Bool) := do
  advance
  return ([], true)

/-- A closing bracket in code: whether the code ends, and whether it takes the bracket along. -/
def closing (stop : CodeEnd) (bracket : Bracket) : Parser (List CodeItem × Bool) := do
  match stop with
  | .close expected opener =>
    if bracket = expected then
      advance
      return ([], false)
    else if expected = .brace then
      pass
    else
      report .unclosedParen opener
      return ([], false)
  | .semicolon => if bracket = .brace then return ([], false) else pass
  | .expression => return ([], false)

def semicolon (stop : CodeEnd) : Parser (List CodeItem × Bool) := do
  match stop with
  | .close .. => pass
  | .semicolon =>
    advance
    return ([], false)
  | .expression => return ([], false)

/-- A keyword in code. `new` after `::` names a constructor, and `class` after a point a value. -/
def keyword (rules : Rules) (k : Keyword) : Parser (List CodeItem × Bool) := do
  let previous := (← get).previous.map (·.token)
  if k = .caseKw || k = .defaultKw then
    skipLabel
    return ([], true)
  else if k = .newKw && previous ≠ some .colonColon then
    return ((← allocation? rules).toList, true)
  else if k.isTypeKeyword && previous ≠ some .dot then
    return ((← localType? rules).toList, true)
  else
    pass

def codeRound (rules : Rules) (stop : CodeEnd) : Parser (List CodeItem × Bool) := do
  match (← get).rest with
  | [] =>
    if let .close bracket opener := stop then reportUnclosed bracket opener
    return ([], false)
  | ⟨.closer bracket, _⟩ :: _ => closing stop bracket
  | ⟨.semicolon, _⟩ :: _ => semicolon stop
  | ⟨.comma, _⟩ :: _ => if stop = .expression then return ([], false) else pass
  | ⟨.keyword k, _⟩ :: _ => keyword rules k
  | lexeme :: after =>
    if startsLambda (lexeme :: after) then
      return ([← lambda rules], true)
    else if startsRecord (lexeme :: after) then
      return ((← localType? rules).toList, true)
    else if let .opener bracket := lexeme.token then
      advance
      return (← rules.code (.close bracket lexeme.span), true)
    else
      pass

/-- Code up to its end. -/
def code (rules : Rules) (stop : CodeEnd) : Parser (List CodeItem) :=
  collect (codeRound rules stop)

end Nomenclator.Grammar
