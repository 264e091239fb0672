/-
Naming a declaration tree: a walk through it in source order that drives
the numbering.

The arguments of an allocation or enum constant come before its body, and
so before its number is taken. A lambda takes its number before its body
is walked through.
-/
import Nomenclator.NameTable.Basic
import Nomenclator.Numbering.Action

namespace Nomenclator

/-- Walks through a part of the innermost class. -/
def Namer.within (entry : MemberEntry) (walk : Namer (List Row)) : Namer (List Row) := do
  enterMember entry
  let rows ← walk
  exitMember
  return rows

/-- Refuses to go on unless as many classes are entered as there should be. -/
def Namer.expectDepth (before : Nat) : Namer Unit := do
  let after := (← get).depth
  if after ≠ before then throw (.unbalanced before after)

/-- Walks through a class. Its own row comes first. -/
def Namer.declareType (entry : ClassEntry) (id : Nat) (kind : DeclarationKind) (span : Span)
    (walk : Namer (List Row)) : Namer (List Row) := do
  let before := (← get).depth
  let name ← enterType entry
  let rows ← walk
  exitType
  expectDepth before
  return ⟨id, kind, span, name⟩ :: rows

/-- The name of a method or constructor of the innermost class. -/
def Namer.operation (kind : OperationKind) (name : String) (parameters : List Parameter) :
    Namer QualifiedName :=
  match kind with
  | .method => method name (parameters.map Parameter.type)
  | .constructor => constructor (parameters.map Parameter.type)

def OperationKind.entry (kind : OperationKind) (name : String) : MemberEntry :=
  match kind with
  | method => .method name
  | constructor => .constructor

def OperationKind.declarationKind : OperationKind → DeclarationKind
  | method => .method
  | constructor => .constructor

def initializerEntry (isStatic : Bool) : MemberEntry :=
  if isStatic then .staticInitializer else .instanceInitializer

open Namer

/-! ## The walk

Each walk answers the rows of what it has met, in the order it met them. -/

mutual

def TypeDecl.rows (isLocal : Bool) : TypeDecl → Namer (List Row)
  | .mk id kind name members span =>
    declareType (if isLocal then .localType name kind else .named name kind) id (.type kind) span
      (Member.rowsOf members)

def Member.rows : Member → Namer (List Row)
  | .type decl _ => decl.rows false
  | .field isStatic code _ => within (.field isStatic) (CodeItem.rowsOf code)
  | .operation kind id name parameters none span => do
    let full ← operation kind name parameters
    let rows ← within (kind.entry name) (pure [])
    return ⟨id, kind.declarationKind, span, full⟩ :: rows
  | .operation kind id name parameters (some code) span => do
    let full ← operation kind name parameters
    let rows ← within (kind.entry name) (CodeItem.rowsOf code)
    return ⟨id, kind.declarationKind, span, full⟩ :: rows
  | .initializer isStatic code _ => within (initializerEntry isStatic) (CodeItem.rowsOf code)
  | .constant _ _ arguments none _ => within .enumConstant (CodeItem.rowsOf arguments)
  | .constant id _ arguments (some members) span =>
    within .enumConstant do
      let before ← CodeItem.rowsOf arguments
      let rows ← declareType .anonymous id .anonymousClass span (Member.rowsOf members)
      return before ++ rows

def Member.rowsOf : List Member → Namer (List Row)
  | [] => pure []
  | m :: ms => do return (← m.rows) ++ (← Member.rowsOf ms)

def CodeItem.rows : CodeItem → Namer (List Row)
  | .localType decl => decl.rows true
  | .allocation _ _ arguments none _ => CodeItem.rowsOf arguments
  | .allocation id _ arguments (some members) span => do
    let before ← CodeItem.rowsOf arguments
    let rows ← declareType .anonymous id .anonymousClass span (Member.rowsOf members)
    return before ++ rows
  | .lambda id body span => do
    let name ← lambda
    let rows ← CodeItem.rowsOf body
    return ⟨id, .lambda, span, name⟩ :: rows

def CodeItem.rowsOf : List CodeItem → Namer (List Row)
  | [] => pure []
  | i :: is => do return (← i.rows) ++ (← CodeItem.rowsOf is)

end

/-- The types of a unit. Behind the last one no class is entered. -/
def TypeDecl.rowsOf : List TypeDecl → Namer (List Row)
  | [] => do
    expectDepth 0
    return []
  | decl :: decls => do return (← decl.rows false) ++ (← TypeDecl.rowsOf decls)

/-- The declarations of a unit in the order of the walk. -/
def CompilationUnit.rows (unit : CompilationUnit) : Except Misuse (List Row) :=
  match TypeDecl.rowsOf unit.types { packages := unit.package } with
  | .ok rows _ => .ok rows
  | .error misuse _ => .error misuse

end Nomenclator
