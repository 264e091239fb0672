/-
What reading tokens keeps: the tokens left and the last one read, the next
number for a node, and the diagnostics so far. Nothing gives a token back.
-/
import Nomenclator.Diagnostic
import Nomenclator.Token.Lexeme

namespace Nomenclator.Grammar

structure State where
  previous : Option Lexeme := none
  rest : List Lexeme
  nextId : Nat := 0
  /-- The newest one first. -/
  reported : List Diagnostic := []

/-- The place of the next token, or at the end of the text of the last one. -/
def State.here (s : State) : Span :=
  match s.rest, s.previous with
  | lexeme :: _, _ => lexeme.span
  | [], some lexeme => lexeme.span
  | [], none => ⟨0, 0⟩

def State.advance (s : State) : State :=
  match s.rest with
  | [] => s
  | lexeme :: rest => { s with previous := some lexeme, rest }

abbrev Parser := StateM State

def here : Parser Span := do return (← get).here

/-- Reads the next token, if there is one. -/
def advance : Parser Unit := modify State.advance

def fresh : Parser Nat := modifyGet fun s => (s.nextId, { s with nextId := s.nextId + 1 })

def report (problem : Problem) (span : Span) : Parser Unit :=
  modify fun s => { s with reported := ⟨problem, span⟩ :: s.reported }

def isAt (token : Token) : Parser Bool := do
  return (← get).rest.head?.any (·.token = token)

/-- Reads the given token if it comes next, and tells where it stood. -/
def take? (token : Token) : Parser (Option Span) := do
  if ← isAt token then
    let span ← here
    advance
    return some span
  else
    return none

/-- Reads the given token if it comes next. -/
def accept (token : Token) : Parser Bool := do return (← take? token).isSome

/-- An identifier, or an empty name and a report where one is missing. -/
def identifier (after : Anchor) : Parser (String × Span) := do
  let span ← here
  match (← get).rest with
  | ⟨.identifier name, _⟩ :: _ =>
    advance
    return (name, span)
  | _ =>
    report (.expectedIdentifier after) span
    return ("", span)

/-- A bracket is missed where the text ends without it. -/
def reportUnclosed (bracket : Bracket) (opener : Span) : Parser Unit :=
  match bracket with
  | .brace => report .unclosedBrace opener
  | .paren | .square => report .unclosedParen opener

end Nomenclator.Grammar
