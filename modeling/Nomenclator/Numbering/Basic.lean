/-
What numbering keeps while it walks through a compilation unit: counters
for every class it has entered, and the stack of classes it is in.

Anonymous classes, local types and lambdas are numbered within the nearest
class around them, whatever kind of class that is. Lambdas are also named
after the member they belong to, so each class on the stack knows the
member that is being walked through.
-/
import Nomenclator.Name.Basic
import Nomenclator.Registry
import Nomenclator.TypeKind

namespace Nomenclator

/-! ## Counters -/

structure Counters where
  nextAnonymous : Nat := 1
  nextLambda : Nat := 0
  /-- The next index for local types of each name. A name not yet met has index one. -/
  nextLocal : Registry String Nat := {}

namespace Counters

def takeAnonymous (c : Counters) : Nat × Counters :=
  (c.nextAnonymous, { c with nextAnonymous := c.nextAnonymous + 1 })

def takeLambda (c : Counters) : Nat × Counters :=
  (c.nextLambda, { c with nextLambda := c.nextLambda + 1 })

def takeLocal (name : String) (c : Counters) : Nat × Counters :=
  let index := (c.nextLocal.find? name).getD 1
  (index, { c with nextLocal := c.nextLocal.insert name (index + 1) })

end Counters

/-! ## Where a lambda belongs -/

/-- The part of a class that is being walked through. -/
inductive Site
  /-- Between the members. -/
  | typeBody
  | staticInitializer
  | instanceInitializer
  | constructor
  | method (name : String)
  | staticField
  | instanceField
  /-- A field of the local class with the given simple name. -/
  | localClassField (name : String)
  | anonymousClassField
deriving DecidableEq

/-- The host of lambdas there. -/
def Site.host : Site → Host
  | staticInitializer | staticField => .static
  | typeBody | instanceInitializer | constructor | instanceField => .new
  | method name | localClassField name => .member name
  | anonymousClassField => .member ""

/-! ## Classes and members that are entered -/

/-- How a class is declared: as a member or at the top level, within code, or as the body of an
allocation or enum constant. -/
inductive Form
  | named (kind : TypeKind)
  | localType (kind : TypeKind)
  | anonymous
deriving DecidableEq

/-- Where the fields of such a class belong. -/
def Form.fieldSite (form : Form) (simpleName : String) (isStatic : Bool) : Site :=
  match form with
  | named kind => if kind.isInterface || isStatic then .staticField else .instanceField
  | localType kind => if kind.isInterface then .staticField else .localClassField simpleName
  | anonymous => .anonymousClassField

inductive ClassEntry
  | named (name : String) (kind : TypeKind)
  | localType (name : String) (kind : TypeKind)
  | anonymous
deriving DecidableEq

def ClassEntry.form : ClassEntry → Form
  | named _ kind => .named kind
  | localType _ kind => .localType kind
  | anonymous => .anonymous

inductive MemberEntry
  | staticInitializer
  | instanceInitializer
  | constructor
  | method (name : String)
  | field (isStatic : Bool)
  /-- The arguments of an enum constant, which is a static field. -/
  | enumConstant
deriving DecidableEq

/-- A class that is entered and not left. -/
structure Frame where
  name : QualifiedName
  form : Form
  site : Site
deriving DecidableEq

def Frame.siteOf (frame : Frame) : MemberEntry → Site
  | .staticInitializer => .staticInitializer
  | .instanceInitializer => .instanceInitializer
  | .constructor => .constructor
  | .method name => .method name
  | .field isStatic => frame.form.fieldSite frame.name.declaredSimpleName isStatic
  | .enumConstant => .staticField

/-! ## The state -/

structure Numbering where
  packages : List String := []
  /-- The counters of every class entered so far, also of those that are left. -/
  counters : Registry QualifiedName Counters := {}
  /-- The innermost class first. -/
  frames : List Frame := []

namespace Numbering

def depth (n : Numbering) : Nat := n.frames.length

def currentType? (n : Numbering) : Option QualifiedName := n.frames.head?.map Frame.name

def currentSite? (n : Numbering) : Option Site := n.frames.head?.map Frame.site

end Numbering

/-! ## Misuse -/

/-- What can only be declared within a class. -/
inductive Declarable
  | method
  | constructor
  | lambda
  | localClass
  | anonymousClass
deriving DecidableEq

def Declarable.phrase : Declarable → String
  | method => "method"
  | constructor => "constructor"
  | lambda => "lambda"
  | localClass => "local class"
  | anonymousClass => "anonymous class"

/-- Why an operation is refused. -/
inductive Misuse
  | outsideType (what : Declarable)
  | exitOutsideType
  | memberOutsideType
  | uncountedType
  /-- A walk has not left as many classes as it has entered. -/
  | unbalanced (before after : Nat)
deriving DecidableEq

def Misuse.message : Misuse → String
  | outsideType what => "a " ++ what.phrase ++ " must be declared within a type"
  | exitOutsideType => "exiting a type requires having entered one"
  | memberOutsideType => "members are always within a type"
  | uncountedType => "every entered type has counters"
  | unbalanced before after =>
    "assertion `left == right` failed\n  left: " ++ toString before ++ "\n right: " ++ toString after

end Nomenclator
