/-
The declaration tree of a compilation unit: type declarations with their
members, and of the code only what declares something, in source order.

The numbers that nodes carry are handed out in source order while the text
is read. A number may be missing from the tree: it belonged to code that
was read and dropped.
-/
import Nomenclator.Span
import Nomenclator.TypeKind

namespace Nomenclator

/-- The type is its text without annotations, modifiers and type arguments. -/
structure Parameter where
  type : String
  name : String
deriving DecidableEq

inductive OperationKind
  | method
  | constructor
deriving DecidableEq

mutual

inductive TypeDecl
  | mk (id : Nat) (kind : TypeKind) (name : String) (members : List Member) (span : Span)

inductive Member
  | type (decl : TypeDecl) (span : Span)
  /-- One declaration, maybe of several variables, with the code of all their values. -/
  | field (isStatic : Bool) (code : List CodeItem) (span : Span)
  | operation (kind : OperationKind) (id : Nat) (name : String) (parameters : List Parameter)
      (body : Option (List CodeItem)) (span : Span)
  | initializer (isStatic : Bool) (code : List CodeItem) (span : Span)
  /-- A constant of an enum. Its body, if it has one, is an anonymous class. -/
  | constant (id : Nat) (name : String) (arguments : List CodeItem) (body : Option (List Member))
      (span : Span)

inductive CodeItem
  | localType (decl : TypeDecl)
  /-- The creation of an object. A body makes it one of an anonymous class. -/
  | allocation (id : Nat) (type : String) (arguments : List CodeItem) (body : Option (List Member))
      (span : Span)
  | lambda (id : Nat) (body : List CodeItem) (span : Span)

end

structure CompilationUnit where
  package : List String
  types : List TypeDecl

namespace TypeDecl

def id : TypeDecl → Nat
  | mk id _ _ _ _ => id

def kind : TypeDecl → TypeKind
  | mk _ kind _ _ _ => kind

def name : TypeDecl → String
  | mk _ _ name _ _ => name

def members : TypeDecl → List Member
  | mk _ _ _ members _ => members

def span : TypeDecl → Span
  | mk _ _ _ _ span => span

end TypeDecl

end Nomenclator
