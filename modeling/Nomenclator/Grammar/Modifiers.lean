/-
Modifiers and annotations before a declaration. Of all of them only
`static` matters for names.
-/
import Nomenclator.Grammar.Lookahead
import Nomenclator.Grammar.Skip

namespace Nomenclator.Grammar

def modifierRound (isStatic : Bool) : Parser (Turn Bool) := do
  match modifier? (← get).rest with
  | some (.keyword k) =>
    advance
    return .again (isStatic || k = .staticKw)
  | some .sealed =>
    advance
    return .again isStatic
  | some .nonSealed =>
    advance
    advance
    advance
    return .again isStatic
  | some .annotated =>
    skipAnnotation
    return .again isStatic
  | none => return .done isStatic

/-- Reads all modifiers that come next, and tells whether `static` is among them. -/
def modifiers : Parser Bool := iterate modifierRound false

end Nomenclator.Grammar
