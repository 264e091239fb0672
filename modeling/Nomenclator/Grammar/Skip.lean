/-
Parts of the text that declare nothing and are read only to get past them:
bracketed groups, annotations and type arguments.
-/
import Nomenclator.Grammar.Loop

namespace Nomenclator.Grammar

/-- The brackets open at some place, the innermost first, each with its own place. -/
abbrev Openers := List (Bracket × Span)

/-- A closing bracket closes the innermost open one if that is of its kind, and else nothing. -/
def Openers.close (bracket : Bracket) : Openers → Openers
  | [] => []
  | (innermost, opener) :: outer => if innermost = bracket then outer else (innermost, opener) :: outer

/-- A group goes on while any bracket is open. -/
def Openers.turn (openers : Openers) : Turn Openers :=
  if openers.isEmpty then .done openers else .again openers

def groupRound (openers : Openers) : Parser (Turn Openers) := do
  match (← get).rest with
  | [] =>
    if let (bracket, opener) :: _ := openers then reportUnclosed bracket opener
    return .done openers
  | ⟨.opener bracket, span⟩ :: _ =>
    advance
    return .again ((bracket, span) :: openers)
  | ⟨.closer bracket, _⟩ :: _ =>
    advance
    return (openers.close bracket).turn
  | _ =>
    advance
    return openers.turn

/-- Skips the bracketed group that begins here, with all groups in it. -/
def skipGroup : Parser Unit := do
  let _ ← iterate groupRound []

/-- One more name of a dotted name, with the point before it. -/
def dottedRound : Parser (List String × Bool) := do
  if ← accept .dot then
    let (name, _) ← identifier .dot
    return ([name], true)
  else
    return ([], false)

/-- Names joined by points. -/
def dottedName (after : Anchor) : Parser (List String) := do
  let (first, _) ← identifier after
  let names ← collect dottedRound
  return first :: names

/-- Skips an annotation: a dotted name after `@`, maybe with arguments. -/
def skipAnnotation : Parser Unit := do
  if ← accept .atSign then
    let _ ← dottedName .atSign
    if ← isAt (.opener .paren) then skipGroup

/-- Type arguments end unclosed where a token comes that cannot stand in them. -/
def angleRound (opener : Span) (depth : Nat) : Parser (Turn Nat) := do
  match (← get).rest with
  | ⟨.less, _⟩ :: _ =>
    advance
    return .again (depth + 1)
  | ⟨.greater, _⟩ :: _ =>
    advance
    return if depth ≤ 1 then .done 0 else .again (depth - 1)
  | ⟨.atSign, _⟩ :: _ =>
    skipAnnotation
    return .again depth
  | ⟨.semicolon, _⟩ :: _ | ⟨.opener .brace, _⟩ :: _ | ⟨.closer .brace, _⟩ :: _
  | ⟨.opener .paren, _⟩ :: _ | ⟨.closer .paren, _⟩ :: _ | [] =>
    report .unclosedAngle opener
    return .done depth
  | _ =>
    advance
    return .again depth

/-- Skips a list in angle brackets, with all lists in it. -/
def skipAngles : Parser Unit := do
  if let some opener ← take? .less then
    let _ ← iterate (angleRound opener) 1

/-- Skips a list in angle brackets if one begins here. -/
def skipAnyAngles : Parser Unit := do
  if ← isAt .less then skipAngles

end Nomenclator.Grammar
