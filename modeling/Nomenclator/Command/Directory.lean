/-
Files below one directory, and what reading a path from there answers.

A path is walked name by name, and every name has to be looked up in a
directory. A slash at the end leaves an empty last name, so what stands
before it has to be a directory too. Above the directory nothing has a
name.
-/
import Nomenclator.Command.Reader
import Nomenclator.Registry

namespace Nomenclator

/-- Files by the names on the way to them, innermost first. -/
structure Directory where
  files : Registry (List String) ByteArray := {}

namespace Directory

/-- How far a walk has come. -/
inductive Place
  /-- Down to where these names lead, innermost first. -/
  | below (names : List String)
  | above
deriving DecidableEq

/-- The names of a path, without those that lead nowhere. -/
def names (path : String) : List String :=
  (path.splitOn "/").filter fun name => name ≠ "" ∧ name ≠ "."

def add (d : Directory) (path : String) (content : ByteArray) : Directory :=
  ⟨d.files.insert (names path).reverse content⟩

def isFile (d : Directory) : Place → Bool
  | .below names => (d.files.find? names).isSome
  | .above => false

/-- A directory is there as soon as something is below it. -/
def isDirectory (d : Directory) : Place → Bool
  | .below names =>
    names.isEmpty || d.files.bindings.any fun (file, _) => names.isSuffixOf file && names ≠ file
  | .above => true

def Place.parent : Place → Place
  | below (_ :: names) => below names
  | _ => above

/-- A name has at most 255 bytes. -/
def maxName : Nat := 255

/-- A path has at most 4095 bytes. -/
def maxPath : Nat := 4095

/-- Where a name leads. -/
def step (d : Directory) (place : Place) (name : String) : Except ReadError Place :=
  if !d.isDirectory place then .error .notADirectory
  else if name = "" ∨ name = "." then .ok place
  else if name = ".." then .ok place.parent
  else if maxName < name.utf8ByteSize then .error .nameTooLong
  else match place with
    | .above => .error .notFound
    | .below names =>
      let next := .below (name :: names)
      if d.isFile next || d.isDirectory next then .ok next else .error .notFound

def walk (d : Directory) (path : String) : Except ReadError Place :=
  (path.splitOn "/").foldlM d.step (if path.startsWith "/" then .above else .below [])

def read (d : Directory) : Reader := fun path =>
  if path.isEmpty then .error .notFound
  else if maxPath < path.utf8ByteSize then .error .nameTooLong
  else do
    match ← d.walk path with
    | .above => .error .isADirectory
    | .below names =>
      match d.files.find? names with
      | none => .error .isADirectory
      | some content => Text.ofBytes content

end Directory

end Nomenclator
