/-
The names of the declarations of one compilation unit, in the order of
their numbers, which is the order of the source.
-/
import Nomenclator.Declaration.Outline
import Nomenclator.Name.Basic

namespace Nomenclator

inductive DeclarationKind
  | type (kind : TypeKind)
  | anonymousClass
  | method
  | constructor
  | lambda
deriving DecidableEq

def DeclarationKind.phrase : DeclarationKind → String
  | type kind => kind.word
  | anonymousClass => "anonymous class"
  | method => "method"
  | constructor => "constructor"
  | lambda => "lambda"

/-- A declaration with its name. The number is that of its node in the declaration tree. -/
structure Row where
  id : Nat
  kind : DeclarationKind
  span : Span
  name : QualifiedName
deriving DecidableEq

/-- Puts a row before the first one that does not have a smaller number. -/
def Row.insert (row : Row) : List Row → List Row
  | [] => [row]
  | first :: rows => if first.id < row.id then first :: row.insert rows else row :: first :: rows

structure NameTable where
  rows : List Row
deriving DecidableEq

namespace NameTable

/-- Sorts rows by their numbers. -/
def ofRows (rows : List Row) : NameTable := ⟨rows.foldr Row.insert []⟩

/-- The declaration with the given number. -/
def get? (t : NameTable) (id : Nat) : Option Row := t.rows.find? fun row => row.id = id

/-- All declarations with the given name. -/
def find (t : NameTable) (name : QualifiedName) : List Row :=
  t.rows.filter fun row => row.name = name

def size (t : NameTable) : Nat := t.rows.length

def isEmpty (t : NameTable) : Bool := t.rows.isEmpty

/-- The name of what a node declares. An allocation without a body declares nothing. -/
def nameOf? (t : NameTable) (node : Node) : Option QualifiedName :=
  match node with
  | .allocation _ _ _ false => none
  | node => node.id?.bind fun id => (t.get? id).map Row.name

theorem mem_insert {row r : Row} {rows : List Row} : r ∈ row.insert rows ↔ r = row ∨ r ∈ rows := by
  induction rows with
  | nil => simp [Row.insert]
  | cons first rows ih => by_cases h : first.id < row.id <;> simp [Row.insert, h, ih]; grind

/-- Sorting neither loses nor invents rows. -/
theorem mem_ofRows {r : Row} {rows : List Row} : r ∈ (ofRows rows).rows ↔ r ∈ rows := by
  induction rows with
  | nil => simp [ofRows]
  | cons row rows ih =>
    simp only [ofRows, List.foldr_cons, mem_insert, List.mem_cons]
    exact or_congr Iff.rfl ih

end NameTable

end Nomenclator
