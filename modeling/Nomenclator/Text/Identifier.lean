/-
The identifiers a qualified name is made of. All classes here are ASCII:
names with other letters have no canonical text.
-/

namespace Nomenclator.Text

def isWordStart (c : Char) : Bool := c.isAlpha || c == '_'

def isWordChar (c : Char) : Bool := c.isAlphanum || c == '_'

def isIdentifier : List Char → Bool
  | [] => false
  | c :: cs => isWordStart c && cs.all isWordChar

/-- Package names begin with a small letter, so that they differ from class names at a glance. -/
def isPackage (text : List Char) : Bool :=
  text.head?.any Char.isLower && isIdentifier text

theorem isIdentifier_of_isPackage {text : List Char} (h : isPackage text = true) :
    isIdentifier text = true := by
  simp_all [isPackage]

end Nomenclator.Text
