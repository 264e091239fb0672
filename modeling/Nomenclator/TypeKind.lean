/-
The kinds of type declarations.
-/

namespace Nomenclator

inductive TypeKind
  | classType
  | interfaceType
  | enumType
  | annotationType
  | recordType
deriving DecidableEq

namespace TypeKind

def word : TypeKind → String
  | classType => "class"
  | interfaceType => "interface"
  | enumType => "enum"
  | annotationType => "annotation"
  | recordType => "record"

/-- Fields are static there without saying so. -/
def isInterface : TypeKind → Bool
  | interfaceType | annotationType => true
  | _ => false

end TypeKind

end Nomenclator
