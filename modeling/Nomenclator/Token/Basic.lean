/-
The tokens of the source language, as far as naming tells them apart: all
operators are one token, and literals carry no content. `record` and
`sealed` are identifiers that some places read as words of the language.
-/

namespace Nomenclator

inductive Bracket
  | paren
  | square
  | brace
deriving DecidableEq

inductive Keyword
  | abstractKw
  | caseKw
  | classKw
  | defaultKw
  | enumKw
  | extendsKw
  | finalKw
  | implementsKw
  | importKw
  | interfaceKw
  | nativeKw
  | newKw
  | packageKw
  | permitsKw
  | privateKw
  | protectedKw
  | publicKw
  | staticKw
  | strictfpKw
  | synchronizedKw
  | throwsKw
  | transientKw
  | volatileKw
deriving DecidableEq

namespace Keyword

def spelling : Keyword → String
  | abstractKw => "abstract"
  | caseKw => "case"
  | classKw => "class"
  | defaultKw => "default"
  | enumKw => "enum"
  | extendsKw => "extends"
  | finalKw => "final"
  | implementsKw => "implements"
  | importKw => "import"
  | interfaceKw => "interface"
  | nativeKw => "native"
  | newKw => "new"
  | packageKw => "package"
  | permitsKw => "permits"
  | privateKw => "private"
  | protectedKw => "protected"
  | publicKw => "public"
  | staticKw => "static"
  | strictfpKw => "strictfp"
  | synchronizedKw => "synchronized"
  | throwsKw => "throws"
  | transientKw => "transient"
  | volatileKw => "volatile"

def all : List Keyword :=
  [abstractKw, caseKw, classKw, defaultKw, enumKw, extendsKw, finalKw, implementsKw, importKw,
   interfaceKw, nativeKw, newKw, packageKw, permitsKw, privateKw, protectedKw, publicKw, staticKw,
   strictfpKw, synchronizedKw, throwsKw, transientKw, volatileKw]

theorem mem_all (k : Keyword) : k ∈ all := by
  cases k <;> decide

def ofSpelling? (word : String) : Option Keyword := all.find? fun k => k.spelling = word

/-- May precede a type or member declaration. -/
def isModifier : Keyword → Bool
  | abstractKw | defaultKw | finalKw | nativeKw | privateKw | protectedKw | publicKw | staticKw
  | strictfpKw | synchronizedKw | transientKw | volatileKw => true
  | _ => false

/-- Begins a type declaration. -/
def isTypeKeyword : Keyword → Bool
  | classKw | interfaceKw | enumKw => true
  | _ => false

end Keyword

inductive Token
  | keyword (k : Keyword)
  | opener (b : Bracket)
  | closer (b : Bracket)
  | less
  | greater
  | arrow
  | atSign
  | colon
  | colonColon
  | comma
  | dot
  | ellipsis
  | equal
  | question
  | semicolon
  | operator
  | number
  | string
  | character
  | identifier (name : String)
  /-- A piece of text that is no token of the language. -/
  | invalid
deriving DecidableEq

def Token.isModifier : Token → Bool
  | .keyword k => k.isModifier
  | _ => false

/-- An identifier or the keyword it spells. -/
def Token.ofWord (word : String) : Token :=
  match Keyword.ofSpelling? word with
  | some k => .keyword k
  | none => .identifier word

end Nomenclator
