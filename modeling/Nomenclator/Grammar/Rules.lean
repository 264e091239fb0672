/-
The two rules of the grammar that contain each other: class bodies hold
code, and code holds class bodies. Everything else is written over a given
meaning of these two.
-/
import Nomenclator.Grammar.Type

namespace Nomenclator.Grammar

/-- What a class body depends on. The name is as written, and empty where the class has none; the
components are those of a record. -/
structure Heading where
  kind : TypeKind
  written : String
  components : Option (List Parameter)

def Heading.anonymous : Heading := ⟨.classType, "", none⟩

/-- Where a stretch of code ends. -/
inductive CodeEnd
  /-- With the closing bracket of a group, whose opening one stood at the given place. -/
  | close (bracket : Bracket) (opener : Span)
  /-- With a semicolon, or before a closing brace. -/
  | semicolon
  /-- Before whatever cannot continue an expression. -/
  | expression
deriving DecidableEq

structure Rules where
  classBody : Heading → Parser (List Member)
  code : CodeEnd → Parser (List CodeItem)

/-! ## Names in declarations -/

/-- A name without `$`, which separates classes in qualified names. -/
def plainName (written : String) : String :=
  String.ofList (written.toList.map fun c => if c = '$' then '_' else c)

/-- The name that a declaration gets, with a report if it is not the written one. -/
def declaredName (written : String) (span : Span) : Parser String := do
  if '$' ∈ written.toList then report (.dollarInName written) span
  return plainName written

/-! ## Type declarations -/

def headerRound : Parser Bool := do
  match (← get).rest with
  | ⟨.opener .brace, _⟩ :: _ | [] => return false
  | ⟨.semicolon, span⟩ :: _ | ⟨.closer .brace, span⟩ :: _ =>
    report .expectedClassBody span
    return false
  | ⟨.less, _⟩ :: _ =>
    skipAngles
    return true
  | ⟨.opener .paren, _⟩ :: _ =>
    skipGroup
    return true
  | _ =>
    advance
    return true

/-- Skips whatever stands between the name of a type and its body. -/
def skipHeader : Parser Unit := skipWhile headerRound

/-- The components of a record, and of no other type. -/
def components (kind : TypeKind) : Parser (Option (List Parameter)) := do
  if kind = .recordType then
    skipAnyAngles
    return some (← parameters)
  else
    return none

/-- The type declaration that begins here, if one does. -/
def typeDecl? (rules : Rules) : Parser (Option TypeDecl) := do
  match typeStart? (← get).rest with
  | none => return none
  | some kind =>
    let start ← here
    if kind = .annotationType then advance
    advance
    let id ← fresh
    let (written, span) ← identifier .typeKeyword
    let name ← declaredName written span
    let components ← components kind
    skipHeader
    let members ← rules.classBody ⟨kind, written, components⟩
    return some (.mk id kind name members (start.join (← here)))

/-- The body of an anonymous class, if one begins here. -/
def anonymousBody? (rules : Rules) : Parser (Option (List Member)) := do
  if ← isAt (.opener .brace) then
    return some (← rules.classBody .anonymous)
  else
    return none

end Nomenclator.Grammar
