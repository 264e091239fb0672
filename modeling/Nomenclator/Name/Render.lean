/-
The canonical text of a qualified name: packages each followed by a point,
classes joined by `$`, the operation after `#`.

`written` is the text as characters, which is what reading takes apart
again; `render` packs it into a string.
-/
import Nomenclator.Name.Basic
import Nomenclator.Text.Decimal
import Nomenclator.Text.Split

namespace Nomenclator

open Text

def Segment.written : Segment → List Char
  | .named name => name.toList
  | .localType index name => Decimal.write index ++ name.toList
  | .anonymous index => Decimal.write index

def Segment.render (s : Segment) : String := String.ofList s.written

/-- What every lambda's text begins with. -/
def Operation.lambdaMark : List Char := ['l', 'a', 'm', 'b', 'd', 'a', '$']

def Operation.written : Operation → List Char
  | .method name parameters =>
    name.toList ++ '(' :: comma.intercalate (parameters.map String.toList) ++ [')']
  | .lambda host index => lambdaMark ++ host.tag.toList ++ '$' :: Decimal.write index

def Operation.render (o : Operation) : String := String.ofList o.written

namespace QualifiedName

def writtenPackages (packages : List String) : List Char :=
  packages.flatMap fun package => package.toList ++ ['.']

def writtenClasses (classes : List Segment) : List Char :=
  ['$'].intercalate (classes.map Segment.written)

def writtenOperation : Option Operation → List Char
  | none => []
  | some operation => '#' :: operation.written

def written (n : QualifiedName) : List Char :=
  writtenPackages n.packages ++ writtenClasses n.classes ++ writtenOperation n.operation

def render (n : QualifiedName) : String := String.ofList n.written

end QualifiedName

end Nomenclator
