/-
Reading the canonical text of a qualified name.

    name      = *(package ".") class *("$" class) ["#" operation]
    class     = index word / index / word
    operation = word "(" [parameter *(", " parameter)] ")"
              / "lambda$" [word] "$" index

Whatever the grammar does not describe is refused, and so is what would not
render back to the same text, such as an index with leading zeroes.
-/
import Nomenclator.Name.Render
import Nomenclator.Text.Blank
import Nomenclator.Text.Identifier

namespace Nomenclator

open Text

/-- A class index counts from one. -/
def Segment.read? (text : List Char) : Option Segment :=
  match text.takeWhile Char.isDigit, text.dropWhile Char.isDigit with
  | [], name => if isIdentifier name then some (.named (String.ofList name)) else none
  | digits, name => do
    let index ← (Decimal.read? digits).filter (0 < ·)
    if name.isEmpty then
      some (.anonymous index)
    else if isIdentifier name then
      some (.localType index (String.ofList name))
    else
      none

/-- A parameter is any text that the list around it cannot be mistaken for: not empty, without `,`
and `)`, not padded with white space. -/
def Operation.isParameter (text : List Char) : Bool :=
  !text.isEmpty && text.all (fun c => c != ',' && c != ')') && !isPadded text

def Operation.readParameters? (text : List Char) : Option (List String) :=
  if text.isEmpty then
    some []
  else
    (items text).mapM fun item => if isParameter item then some (String.ofList item) else none

/-- The part after `lambda$`. -/
def Operation.readLambda? (text : List Char) : Option Operation := do
  let (host, digits) ← cut '$' text
  if host.isEmpty || isIdentifier host then
    let index ← Decimal.read? digits
    some (.lambda (.ofTag (String.ofList host)) index)
  else
    none

def Operation.readMethod? (text : List Char) : Option Operation := do
  let (name, list) ← cut '(' text
  if isIdentifier name && list.getLast? == some ')' then
    let parameters ← readParameters? list.dropLast
    some (.method (String.ofList name) parameters)
  else
    none

def Operation.read? (text : List Char) : Option Operation :=
  match lambdaMark.isPrefixOf? text with
  | some rest => readLambda? rest
  | none => readMethod? text

namespace QualifiedName

def readPackage? (text : List Char) : Option String :=
  if isPackage text then some (String.ofList text) else none

/-- The packages and classes, which stand before any `#`. -/
def readType? (text : List Char) (operation : Option Operation) : Option QualifiedName := do
  let parts := text.splitOn '.'
  let packages ← parts.dropLast.mapM readPackage?
  let classes ← ((parts.getLast?.getD []).splitOn '$').mapM Segment.read?
  ofParts? packages classes operation

def readWritten? (text : List Char) : Option QualifiedName :=
  match cut '#' text with
  | some (type, operation) => do readType? type (some (← Operation.read? operation))
  | none => readType? text none

def read? (text : String) : Option QualifiedName := readWritten? text.toList

end QualifiedName

end Nomenclator
