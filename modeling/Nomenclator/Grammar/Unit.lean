/-
The grammar tied together, and whole compilation units.

Class bodies and code contain each other. `rules depth` is the grammar for
texts in which they nest less than `depth` times. Each reads a token before
it turns to the other, so no text nests them more often than it has tokens.
-/
import Nomenclator.Grammar.ClassBody

namespace Nomenclator

namespace Grammar

def rules : Nat → Rules
  | 0 => ⟨fun _ => pure [], fun _ => pure []⟩
  | depth + 1 => ⟨fun heading => classBody (rules depth) heading, fun stop => code (rules depth) stop⟩

/-- The package of a unit, which is unnamed if nothing says so. -/
def package : Parser (List String) := do
  let _ ← modifiers
  if ← accept (.keyword .packageKw) then
    let names ← dottedName .packageWord
    let _ ← accept .semicolon
    return names
  else
    return []

/-- One token of an import, the last of which is its semicolon. -/
def importRound : Parser Bool := do
  if (← get).rest.isEmpty then return false
  else if ← accept .semicolon then return false
  else
    advance
    return true

/-- One import, if one comes next. -/
def importsRound : Parser Bool := do
  if ← accept (.keyword .importKw) then
    skipWhile importRound
    return true
  else
    return false

def skipImports : Parser Unit := skipWhile importsRound

/-- A type declaration at the top level. What is none is read token by token, each with a report. -/
def topLevelRound (rules : Rules) : Parser (List TypeDecl × Bool) := do
  if (← get).rest.isEmpty then return ([], false)
  else if ← accept .semicolon then return ([], true)
  else
    let _ ← modifiers
    match (← get).rest with
    | [] => return ([], true)
    | lexeme :: after =>
      if (typeStart? (lexeme :: after)).isSome then
        return ((← typeDecl? rules).toList, true)
      else
        advance
        report .expectedDeclaration lexeme.span
        return ([], true)

def compilationUnit (rules : Rules) : Parser CompilationUnit := do
  let package ← package
  skipImports
  let types ← collect (topLevelRound rules)
  return ⟨package, types⟩

end Grammar

/-- The declaration tree of the tokens, and what is wrong with them in the order it was found. -/
def CompilationUnit.ofLexemes (lexemes : List Lexeme) : CompilationUnit × List Diagnostic :=
  let (unit, state) := Grammar.compilationUnit (Grammar.rules lexemes.length) { rest := lexemes }
  (unit, state.reported.reverse)

def CompilationUnit.parse (text : String) : CompilationUnit × List Diagnostic := ofLexemes (lex text)

end Nomenclator
