/-
The nodes of a declaration tree in preorder. An outline lays them out in
that order, and the depths it adds change nothing about it.
-/
import Nomenclator.Declaration.Outline

namespace Nomenclator

mutual

def TypeDecl.preorder : TypeDecl → List Node
  | .mk id kind name members span => .type kind span id name :: Member.preorders members

def Member.preorder : Member → List Node
  | .type decl span => .memberType span :: decl.preorder
  | .field isStatic code span => .field span isStatic :: CodeItem.preorders code
  | .operation kind id name parameters none span => [.operation kind span id name parameters false]
  | .operation kind id name parameters (some code) span =>
    .operation kind span id name parameters true :: CodeItem.preorders code
  | .initializer isStatic code span => .initializer span isStatic :: CodeItem.preorders code
  | .constant id name arguments none span =>
    .constant span id name false :: CodeItem.preorders arguments
  | .constant id name arguments (some members) span =>
    .constant span id name true :: CodeItem.preorders arguments ++ .body :: Member.preorders members

def Member.preorders : List Member → List Node
  | [] => []
  | m :: ms => m.preorder ++ Member.preorders ms

def CodeItem.preorder : CodeItem → List Node
  | .localType decl => .localType decl.span :: decl.preorder
  | .allocation id type arguments none span =>
    .allocation span id type false :: CodeItem.preorders arguments
  | .allocation id type arguments (some members) span =>
    .allocation span id type true :: CodeItem.preorders arguments ++ .body :: Member.preorders members
  | .lambda id body span => .lambda span id :: CodeItem.preorders body

def CodeItem.preorders : List CodeItem → List Node
  | [] => []
  | i :: is => i.preorder ++ CodeItem.preorders is

end

mutual

theorem TypeDecl.map_outline (depth : Nat) :
    ∀ decl : TypeDecl, (decl.outline depth).map Prod.snd = decl.preorder
  | .mk .. => by rw [TypeDecl.outline, TypeDecl.preorder, List.map_cons, Member.map_outlines]

theorem Member.map_outline (depth : Nat) : ∀ m : Member, (m.outline depth).map Prod.snd = m.preorder
  | .type .. => by rw [Member.outline, Member.preorder, List.map_cons, TypeDecl.map_outline]
  | .field .. | .initializer .. | .operation _ _ _ _ (some _) _ | .constant _ _ _ none _ => by
    rw [Member.outline, Member.preorder, List.map_cons, CodeItem.map_outlines]
  | .operation _ _ _ _ none _ => rfl
  | .constant _ _ _ (some _) _ => by
    rw [Member.outline, Member.preorder, List.map_append, List.map_cons, List.map_cons, CodeItem.map_outlines,
      Member.map_outlines]

theorem Member.map_outlines (depth : Nat) :
    ∀ members : List Member, (Member.outlines depth members).map Prod.snd = Member.preorders members
  | [] => rfl
  | m :: ms => by
    rw [Member.outlines, Member.preorders, List.map_append, Member.map_outline, Member.map_outlines]

theorem CodeItem.map_outline (depth : Nat) : ∀ i : CodeItem, (i.outline depth).map Prod.snd = i.preorder
  | .localType .. => by rw [CodeItem.outline, CodeItem.preorder, List.map_cons, TypeDecl.map_outline]
  | .allocation _ _ _ none _ | .lambda .. => by
    rw [CodeItem.outline, CodeItem.preorder, List.map_cons, CodeItem.map_outlines]
  | .allocation _ _ _ (some _) _ => by
    rw [CodeItem.outline, CodeItem.preorder, List.map_append, List.map_cons, List.map_cons, CodeItem.map_outlines,
      Member.map_outlines]

theorem CodeItem.map_outlines (depth : Nat) :
    ∀ code : List CodeItem, (CodeItem.outlines depth code).map Prod.snd = CodeItem.preorders code
  | [] => rfl
  | i :: is => by
    rw [CodeItem.outlines, CodeItem.preorders, List.map_append, CodeItem.map_outline, CodeItem.map_outlines]

end

theorem Member.preorders_eq_flatMap (members : List Member) :
    preorders members = members.flatMap preorder := by
  induction members with
  | nil => rfl
  | cons m ms ih => rw [preorders, ih, List.flatMap_cons]

theorem CodeItem.preorders_eq_flatMap (code : List CodeItem) :
    preorders code = code.flatMap preorder := by
  induction code with
  | nil => rfl
  | cons i is ih => rw [preorders, ih, List.flatMap_cons]

theorem Member.preorders_append (members more : List Member) :
    preorders (members ++ more) = preorders members ++ preorders more := by
  rw [preorders_eq_flatMap, preorders_eq_flatMap, preorders_eq_flatMap, List.flatMap_append]

theorem Member.preorders_singleton (m : Member) : preorders [m] = m.preorder := List.append_nil _

theorem CodeItem.preorders_append (code more : List CodeItem) :
    preorders (code ++ more) = preorders code ++ preorders more := by
  rw [preorders_eq_flatMap, preorders_eq_flatMap, preorders_eq_flatMap, List.flatMap_append]

theorem CodeItem.preorders_singleton (i : CodeItem) : preorders [i] = i.preorder := List.append_nil _

/-- The nodes of a unit in preorder. -/
def CompilationUnit.preorder (unit : CompilationUnit) : List Node := unit.types.flatMap TypeDecl.preorder

theorem CompilationUnit.map_outline (unit : CompilationUnit) :
    unit.outline.map Prod.snd = unit.preorder := by
  rw [outline, preorder, List.map_flatMap]
  congr 1
  funext decl
  exact decl.map_outline 0

end Nomenclator
