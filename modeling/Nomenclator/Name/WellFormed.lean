/-
The names that have a canonical text. Any parts can be put together to a
name, such as a class called `A$B`; these are the ones whose parts keep to
the grammar that reading follows.
-/
import Nomenclator.Name.Read

namespace Nomenclator

open Text

def Segment.WellFormed : Segment → Prop
  | .named name => isIdentifier name.toList
  | .localType index name => 0 < index ∧ index < Decimal.bound ∧ isIdentifier name.toList
  | .anonymous index => 0 < index ∧ index < Decimal.bound

/-- The empty member name stands for the fields of anonymous classes. -/
def Host.WellFormed : Host → Prop
  | .static | .new => True
  | .member name => name = "" ∨ isIdentifier name.toList ∧ name ≠ "static" ∧ name ≠ "new"

def Operation.WellFormed : Operation → Prop
  | .method name parameters =>
    isIdentifier name.toList ∧ ∀ p ∈ parameters, isParameter p.toList
  | .lambda host index => host.WellFormed ∧ index < Decimal.bound

structure QualifiedName.WellFormed (n : QualifiedName) : Prop where
  packages : ∀ p ∈ n.packages, isPackage p.toList
  classes : ∀ s ∈ n.classes, s.WellFormed
  operation : ∀ o ∈ n.operation, o.WellFormed

end Nomenclator
