/-
What is wrong with a text, and the words for it. A problem is a cause; its
level, code, message and labels are functions of it.
-/
import Nomenclator.Name.Render
import Nomenclator.Span

namespace Nomenclator

/-- What comes before an identifier that is missing. -/
inductive Anchor
  | atSign
  | dot
  | packageWord
  | typeKeyword
  | parameterType
  | type
deriving DecidableEq

def Anchor.phrase : Anchor → String
  | atSign => "`@`"
  | dot => "`.`"
  | packageWord => "`package`"
  | typeKeyword => "a type keyword"
  | parameterType => "a parameter type"
  | type => "a type"

inductive Problem
  /-- Something else has this name, and was declared first at that place. -/
  | duplicateName (name : QualifiedName) (first : Span)
  | expectedDeclaration
  | expectedIdentifier (after : Anchor)
  | expectedType
  | expectedClassBody
  | expectedMethodBody
  | dollarInName (name : String)
  | unclosedBrace
  | unclosedParen
  | unclosedAngle
deriving DecidableEq

inductive Level
  | error
  | warning
deriving DecidableEq

/-- A place in the text that a diagnostic points to, with what there is to say about it. -/
structure Label where
  isPrimary : Bool
  span : Span
  text : Option String
deriving DecidableEq

namespace Problem

def level : Problem → Level
  | duplicateName .. => .warning
  | _ => .error

def code : Problem → String
  | duplicateName .. => "EN00"
  | expectedDeclaration => "EP00"
  | expectedIdentifier _ => "EP01"
  | expectedType => "EP02"
  | expectedClassBody | expectedMethodBody => "EP03"
  | dollarInName _ => "EP04"
  | unclosedBrace => "EP20"
  | unclosedParen => "EP21"
  | unclosedAngle => "EP22"

def message : Problem → String
  | duplicateName name _ => "`" ++ name.render ++ "` is declared more than once"
  | expectedDeclaration => "expected a declaration"
  | expectedIdentifier _ => "expected an identifier"
  | expectedType => "expected a type"
  | expectedClassBody => "expected a class body"
  | expectedMethodBody => "expected a method body"
  | dollarInName name => "the declared name `" ++ name ++ "` contains a `$`"
  | unclosedBrace => "unclosed opening brace"
  | unclosedParen => "unclosed opening parenthesis"
  | unclosedAngle => "unclosed type argument list"

/-- What is said right at the place of the problem. -/
def hint : Problem → Option String
  | duplicateName .. => some "duplicate declaration here"
  | expectedIdentifier after => some ("expected a name after " ++ after.phrase)
  | expectedMethodBody => some "expected `\x7b` or `;`"
  | dollarInName _ => some "`$` separates nested classes in qualified names"
  | unclosedBrace => some "this brace is never closed"
  | expectedDeclaration | expectedType | expectedClassBody | unclosedParen | unclosedAngle => none

/-- Other places that the problem is about. -/
def notes : Problem → List Label
  | duplicateName _ first => [⟨false, first, some "first declared here"⟩]
  | _ => []

end Problem

structure Diagnostic where
  problem : Problem
  span : Span
deriving DecidableEq

def Diagnostic.labels (d : Diagnostic) : List Label :=
  ⟨true, d.span, d.problem.hint⟩ :: d.problem.notes

end Nomenclator
