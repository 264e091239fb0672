/-
The declaration tree laid out flat: its nodes in preorder, each with its
depth. A node is a tree node without what hangs below it.
-/
import Nomenclator.Declaration.Basic

namespace Nomenclator

inductive Node
  | type (kind : TypeKind) (span : Span) (id : Nat) (name : String)
  | memberType (span : Span)
  | localType (span : Span)
  | field (span : Span) (isStatic : Bool)
  | initializer (span : Span) (isStatic : Bool)
  | operation (kind : OperationKind) (span : Span) (id : Nat) (name : String)
      (parameters : List Parameter) (hasBody : Bool)
  | constant (span : Span) (id : Nat) (name : String) (hasBody : Bool)
  | allocation (span : Span) (id : Nat) (type : String) (hasBody : Bool)
  /-- The anonymous class of the constant or allocation above it. -/
  | body
  | lambda (span : Span) (id : Nat)

/-- The number of a node that has one. -/
def Node.id? : Node → Option Nat
  | .type _ _ id _ | .operation _ _ id .. | .constant _ id .. | .allocation _ id ..
  | .lambda _ id => some id
  | .memberType _ | .localType _ | .field .. | .initializer .. | .body => none

/-- Nodes with their depths. -/
abbrev Outline := List (Nat × Node)

mutual

def TypeDecl.outline (depth : Nat) : TypeDecl → Outline
  | .mk id kind name members span =>
    (depth, .type kind span id name) :: Member.outlines (depth + 1) members

def Member.outline (depth : Nat) : Member → Outline
  | .type decl span => (depth, .memberType span) :: decl.outline (depth + 1)
  | .field isStatic code span =>
    (depth, .field span isStatic) :: CodeItem.outlines (depth + 1) code
  | .operation kind id name parameters none span =>
    [(depth, .operation kind span id name parameters false)]
  | .operation kind id name parameters (some code) span =>
    (depth, .operation kind span id name parameters true) :: CodeItem.outlines (depth + 1) code
  | .initializer isStatic code span =>
    (depth, .initializer span isStatic) :: CodeItem.outlines (depth + 1) code
  | .constant id name arguments none span =>
    (depth, .constant span id name false) :: CodeItem.outlines (depth + 1) arguments
  | .constant id name arguments (some members) span =>
    (depth, .constant span id name true) :: CodeItem.outlines (depth + 1) arguments ++
      (depth + 1, .body) :: Member.outlines (depth + 2) members

def Member.outlines (depth : Nat) : List Member → Outline
  | [] => []
  | m :: ms => m.outline depth ++ Member.outlines depth ms

def CodeItem.outline (depth : Nat) : CodeItem → Outline
  | .localType decl => (depth, .localType decl.span) :: decl.outline (depth + 1)
  | .allocation id type arguments none span =>
    (depth, .allocation span id type false) :: CodeItem.outlines (depth + 1) arguments
  | .allocation id type arguments (some members) span =>
    (depth, .allocation span id type true) :: CodeItem.outlines (depth + 1) arguments ++
      (depth + 1, .body) :: Member.outlines (depth + 2) members
  | .lambda id body span => (depth, .lambda span id) :: CodeItem.outlines (depth + 1) body

def CodeItem.outlines (depth : Nat) : List CodeItem → Outline
  | [] => []
  | i :: is => i.outline depth ++ CodeItem.outlines depth is

end

def CompilationUnit.outline (unit : CompilationUnit) : Outline :=
  unit.types.flatMap fun decl => decl.outline 0

end Nomenclator
