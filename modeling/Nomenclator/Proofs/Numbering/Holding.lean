/-
What the names of a declaration tree are, said without a state: by counting
within each class.

A class holds the operations, lambdas and classes that are met on a walk
through its members and their code, but nothing that is met within another
class. A lambda is met before its body, an allocation or enum constant with
a body after its arguments. Each holding is named after the class and after
what the class holds before it: how many lambdas, how many anonymous
classes, how many local types of the same name.
-/
import Nomenclator.NameTable.Naming

namespace Nomenclator

/-! ## Holdings -/

inductive Holding
  | operation (kind : OperationKind) (id : Nat) (name : String) (parameters : List String) (span : Span)
  | lambda (host : Host) (id : Nat) (span : Span)
  /-- A class with its own holdings. The kind is the one of its row. -/
  | ofClass (entry : ClassEntry) (id : Nat) (kind : DeclarationKind) (span : Span)
      (held : List Holding)

/-- The host of lambdas in a field. Fields of interfaces are static, and neither a local nor an
anonymous class tells its static fields from the others. -/
def ClassEntry.fieldHost (entry : ClassEntry) (isStatic : Bool) : Host :=
  match entry with
  | named _ kind => if kind.isInterface || isStatic then .static else .new
  | localType name kind => if kind.isInterface then .static else .member name
  | anonymous => .member ""

def OperationKind.bodyHost (kind : OperationKind) (name : String) : Host :=
  match kind with
  | method => .member name
  | constructor => .new

def initializerHost (isStatic : Bool) : Host := if isStatic then .static else .new

/-- How a type declaration is entered. -/
def ClassEntry.ofType (isLocal : Bool) (name : String) (kind : TypeKind) : ClassEntry :=
  if isLocal then .localType name kind else .named name kind

mutual

def TypeDecl.holding (isLocal : Bool) : TypeDecl → Holding
  | .mk id kind name members span =>
    .ofClass (.ofType isLocal name kind) id (.type kind) span
      (Member.heldBy (.ofType isLocal name kind) members)

/-- What a class that is entered so holds in one of its members. -/
def Member.held (entry : ClassEntry) : Member → List Holding
  | .type decl _ => [decl.holding false]
  | .field isStatic code _ => CodeItem.heldIn (entry.fieldHost isStatic) code
  | .operation kind id name parameters none span =>
    [.operation kind id name (parameters.map Parameter.type) span]
  | .operation kind id name parameters (some code) span =>
    .operation kind id name (parameters.map Parameter.type) span ::
      CodeItem.heldIn (kind.bodyHost name) code
  | .initializer isStatic code _ => CodeItem.heldIn (initializerHost isStatic) code
  | .constant _ _ arguments none _ => CodeItem.heldIn .static arguments
  | .constant id _ arguments (some members) span =>
    CodeItem.heldIn .static arguments ++
      [.ofClass .anonymous id .anonymousClass span (Member.heldBy .anonymous members)]

def Member.heldBy (entry : ClassEntry) : List Member → List Holding
  | [] => []
  | m :: ms => m.held entry ++ Member.heldBy entry ms

/-- What code holds whose lambdas have the given host. -/
def CodeItem.held (host : Host) : CodeItem → List Holding
  | .localType decl => [decl.holding true]
  | .allocation _ _ arguments none _ => CodeItem.heldIn host arguments
  | .allocation id _ arguments (some members) span =>
    CodeItem.heldIn host arguments ++
      [.ofClass .anonymous id .anonymousClass span (Member.heldBy .anonymous members)]
  | .lambda id body span => .lambda host id span :: CodeItem.heldIn host body

def CodeItem.heldIn (host : Host) : List CodeItem → List Holding
  | [] => []
  | i :: is => i.held host ++ CodeItem.heldIn host is

end

/-! ## Names by counting -/

namespace Holding

def isLambda : Holding → Bool
  | lambda .. => true
  | _ => false

def isAnonymous : Holding → Bool
  | ofClass .anonymous .. => true
  | _ => false

def isLocalNamed (name : String) : Holding → Bool
  | ofClass (.localType other _) .. => other == name
  | _ => false

/-- The name of a holding of class `c`, given what the class holds before it. Lambdas count from
zero, classes from one. -/
def nameIn (c : QualifiedName) (before : List Holding) : Holding → QualifiedName
  | operation .method _ name parameters _ => c.withOperation (.method name parameters)
  | operation .constructor _ _ parameters _ =>
    c.withOperation (.method c.declaredSimpleName parameters)
  | lambda host _ _ => c.withOperation (.lambda host (before.countP isLambda))
  | ofClass (.named name _) .. => c.nested (.named name)
  | ofClass (.localType name _) .. =>
    c.nested (.localType (before.countP (isLocalNamed name) + 1) name)
  | ofClass .anonymous .. => c.nested (.anonymous (before.countP isAnonymous + 1))

mutual

/-- The row of a holding, and behind that of a class the rows of what it holds. -/
def rows (name : QualifiedName) : Holding → List Row
  | operation kind id _ _ span => [⟨id, kind.declarationKind, span, name⟩]
  | lambda _ id span => [⟨id, .lambda, span, name⟩]
  | ofClass _ id kind span held => ⟨id, kind, span, name⟩ :: rowsIn name [] held

/-- The rows of further holdings of class `c`. -/
def rowsIn (c : QualifiedName) (before : List Holding) : List Holding → List Row
  | [] => []
  | h :: hs => h.rows (h.nameIn c before) ++ rowsIn c (before ++ [h]) hs

end

end Holding

/-- The rows of a unit. The types at the top level are named after its package. -/
def CompilationUnit.numbered (unit : CompilationUnit) : List Row :=
  unit.types.flatMap fun decl => (decl.holding false).rows (.topLevel unit.package decl.name)

end Nomenclator
