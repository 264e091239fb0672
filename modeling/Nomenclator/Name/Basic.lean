/-
Qualified names of declarations.

    foo.bar.Outer$Inner$1Local$2#run(int, String)
    packages     class chain      operation

The class chain runs from the outermost class inwards. Only a named class
can stand at the top level, so the chain is kept as the outermost class's
name and the segments within it: a name without a class, or one that begins
with a local or anonymous class, has no value here.
-/

namespace Nomenclator

/-- One class of a chain, as its enclosing class tells it apart from its siblings. -/
inductive Segment
  | named (name : String)
  /-- A type declared within code. The index tells apart those of one simple name. -/
  | localType (index : Nat) (name : String)
  | anonymous (index : Nat)
deriving DecidableEq

/-- The member a lambda belongs to, as its name tells it. -/
inductive Host
  | static
  | new
  | member (name : String)
deriving DecidableEq

inductive Operation
  /-- A method, or a constructor, which is named after its class. -/
  | method (name : String) (parameters : List String)
  | lambda (host : Host) (index : Nat)
deriving DecidableEq

structure QualifiedName where
  packages : List String
  outermost : String
  inner : List Segment
  operation : Option Operation
deriving DecidableEq

/-! ## Segments, hosts and operations -/

/-- The name written in the class's declaration; an anonymous class has none. -/
def Segment.declared : Segment → String
  | .named name | .localType _ name => name
  | .anonymous _ => ""

/-- The words `static` and `new` name hosts of their own and no member. -/
def Host.ofTag (tag : String) : Host :=
  if tag = "static" then .static else if tag = "new" then .new else .member tag

def Host.tag : Host → String
  | .static => "static"
  | .new => "new"
  | .member name => name

@[simp] theorem Host.tag_ofTag (tag : String) : (Host.ofTag tag).tag = tag := by
  unfold ofTag; split
  · simp [Host.tag, *]
  · split <;> simp [Host.tag, *]

def Operation.isLambda : Operation → Bool
  | .lambda .. => true
  | .method .. => false

namespace QualifiedName

/-! ## Building names -/

def topLevel (packages : List String) (name : String) : QualifiedName :=
  ⟨packages, name, [], none⟩

/-- There is a name for a class chain that begins with a named class, and for no other. -/
def ofParts? (packages : List String) (classes : List Segment) (operation : Option Operation) :
    Option QualifiedName :=
  match classes with
  | .named outermost :: inner => some ⟨packages, outermost, inner, operation⟩
  | _ => none

/-- The name of a class declared directly within the class that `n` names or lies in. -/
def nested (n : QualifiedName) (segment : Segment) : QualifiedName :=
  ⟨n.packages, n.outermost, n.inner ++ [segment], none⟩

def withOperation (n : QualifiedName) (operation : Operation) : QualifiedName :=
  { n with operation := some operation }

/-- The class that `n` names or is declared in. -/
def typeName (n : QualifiedName) : QualifiedName :=
  { n with operation := none }

/-- The class that directly encloses what `n` names. A top-level class has none. -/
def enclosingType? (n : QualifiedName) : Option QualifiedName :=
  if n.operation.isSome then
    some n.typeName
  else if n.inner.isEmpty then
    none
  else
    some { n with inner := n.inner.dropLast }

/-! ## Parts of a name -/

/-- The whole class chain, outermost first. -/
def classes (n : QualifiedName) : List Segment := .named n.outermost :: n.inner

def innermost (n : QualifiedName) : Segment := n.inner.getLast?.getD (.named n.outermost)

def declaredSimpleName (n : QualifiedName) : String := n.innermost.declared

def inUnnamedPackage (n : QualifiedName) : Bool := n.packages.isEmpty

def isLocalType (n : QualifiedName) : Bool :=
  match n.innermost with
  | .localType .. => true
  | _ => false

def isAnonymousClass (n : QualifiedName) : Bool :=
  match n.innermost with
  | .anonymous _ => true
  | _ => false

def isNested (n : QualifiedName) : Bool := !n.inner.isEmpty

def isLambda (n : QualifiedName) : Bool := n.operation.any Operation.isLambda

def isOperation (n : QualifiedName) : Bool := n.operation.isSome

/-! ## How building and taking apart fit together -/

@[simp] theorem classes_nested (n : QualifiedName) (s : Segment) :
    (n.nested s).classes = n.classes ++ [s] := rfl

@[simp] theorem innermost_nested (n : QualifiedName) (s : Segment) :
    (n.nested s).innermost = s := by
  simp [nested, innermost]

@[simp] theorem enclosingType?_nested (n : QualifiedName) (s : Segment) :
    (n.nested s).enclosingType? = some n.typeName := by
  simp [nested, enclosingType?, typeName]

@[simp] theorem enclosingType?_withOperation (n : QualifiedName) (o : Operation) :
    (n.withOperation o).enclosingType? = some n.typeName := rfl

theorem ofParts?_classes (n : QualifiedName) :
    ofParts? n.packages n.classes n.operation = some n := rfl

end QualifiedName

end Nomenclator
