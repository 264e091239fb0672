/-
The same declarations at other places of a text.

A relocation says where every span goes. It has to keep joined spans joined,
since the place of a node is joined from those of its first and last tokens.
One relocation leaves everything where it is; another one forgets all
places, so that what it makes equal differs in places only.
-/
import Nomenclator.Declaration.Basic
import Nomenclator.Diagnostic

namespace Nomenclator

structure Relocation where
  map : Span → Span
  map_join (a b : Span) : map (a.join b) = (map a).join (map b)
  /-- The place of the next token in an empty text stays. -/
  map_origin : map ⟨0, 0⟩ = ⟨0, 0⟩

namespace Relocation

def identity : Relocation := ⟨id, fun _ _ => rfl, rfl⟩

/-- Every span goes to the beginning of the text. -/
def erasing : Relocation := ⟨fun _ => ⟨0, 0⟩, fun _ _ => (Span.join_self _).symm, rfl⟩

end Relocation

/-! ## Trees -/

mutual

def TypeDecl.relocate (f : Relocation) : TypeDecl → TypeDecl
  | .mk id kind name members span => .mk id kind name (Member.relocateAll f members) (f.map span)

def Member.relocate (f : Relocation) : Member → Member
  | .type decl span => .type (decl.relocate f) (f.map span)
  | .field isStatic code span => .field isStatic (CodeItem.relocateAll f code) (f.map span)
  | .operation kind id name parameters none span => .operation kind id name parameters none (f.map span)
  | .operation kind id name parameters (some code) span =>
    .operation kind id name parameters (some (CodeItem.relocateAll f code)) (f.map span)
  | .initializer isStatic code span => .initializer isStatic (CodeItem.relocateAll f code) (f.map span)
  | .constant id name arguments none span =>
    .constant id name (CodeItem.relocateAll f arguments) none (f.map span)
  | .constant id name arguments (some members) span =>
    .constant id name (CodeItem.relocateAll f arguments) (some (Member.relocateAll f members)) (f.map span)

def Member.relocateAll (f : Relocation) : List Member → List Member
  | [] => []
  | m :: ms => m.relocate f :: Member.relocateAll f ms

def CodeItem.relocate (f : Relocation) : CodeItem → CodeItem
  | .localType decl => .localType (decl.relocate f)
  | .allocation id type arguments none span =>
    .allocation id type (CodeItem.relocateAll f arguments) none (f.map span)
  | .allocation id type arguments (some members) span =>
    .allocation id type (CodeItem.relocateAll f arguments) (some (Member.relocateAll f members)) (f.map span)
  | .lambda id body span => .lambda id (CodeItem.relocateAll f body) (f.map span)

def CodeItem.relocateAll (f : Relocation) : List CodeItem → List CodeItem
  | [] => []
  | i :: is => i.relocate f :: CodeItem.relocateAll f is

end

def CompilationUnit.relocate (f : Relocation) (unit : CompilationUnit) : CompilationUnit :=
  ⟨unit.package, unit.types.map (TypeDecl.relocate f)⟩

section

variable (f : Relocation)

theorem Member.relocateAll_eq_map (members : List Member) :
    relocateAll f members = members.map (relocate f) := by
  induction members with
  | nil => rfl
  | cons m ms ih => rw [relocateAll, ih, List.map_cons]

theorem CodeItem.relocateAll_eq_map (code : List CodeItem) :
    relocateAll f code = code.map (relocate f) := by
  induction code with
  | nil => rfl
  | cons i is ih => rw [relocateAll, ih, List.map_cons]

theorem Member.relocate_operation (kind : OperationKind) (id : Nat) (name : String)
    (parameters : List Parameter) (body : Option (List CodeItem)) (span : Span) :
    (operation kind id name parameters body span).relocate f =
      operation kind id name parameters (body.map (CodeItem.relocateAll f)) (f.map span) := by
  cases body <;> rfl

theorem Member.relocate_constant (id : Nat) (name : String) (arguments : List CodeItem)
    (body : Option (List Member)) (span : Span) :
    (constant id name arguments body span).relocate f =
      constant id name (CodeItem.relocateAll f arguments) (body.map (relocateAll f)) (f.map span) := by
  cases body <;> rfl

theorem CodeItem.relocate_allocation (id : Nat) (type : String) (arguments : List CodeItem)
    (body : Option (List Member)) (span : Span) :
    (allocation id type arguments body span).relocate f =
      allocation id type (relocateAll f arguments) (body.map (Member.relocateAll f)) (f.map span) := by
  cases body <;> rfl

theorem Member.relocateAll_append (members more : List Member) :
    relocateAll f (members ++ more) = relocateAll f members ++ relocateAll f more := by
  rw [relocateAll_eq_map, relocateAll_eq_map, relocateAll_eq_map, List.map_append]

theorem CodeItem.relocateAll_append (code more : List CodeItem) :
    relocateAll f (code ++ more) = relocateAll f code ++ relocateAll f more := by
  rw [relocateAll_eq_map, relocateAll_eq_map, relocateAll_eq_map, List.map_append]

theorem TypeDecl.name_relocate (decl : TypeDecl) : (decl.relocate f).name = decl.name := by
  cases decl
  rfl

end

/-! ### Left where they are -/

mutual

theorem TypeDecl.relocate_identity : ∀ decl : TypeDecl, decl.relocate .identity = decl
  | .mk .. => by rw [TypeDecl.relocate, Member.relocateAll_identity]; rfl

theorem Member.relocate_identity : ∀ m : Member, m.relocate .identity = m
  | .type .. => by rw [Member.relocate, TypeDecl.relocate_identity]; rfl
  | .field .. | .initializer .. | .operation _ _ _ _ (some _) _ | .constant _ _ _ none _ => by
    rw [Member.relocate, CodeItem.relocateAll_identity]; rfl
  | .operation _ _ _ _ none _ => rfl
  | .constant _ _ _ (some _) _ => by
    rw [Member.relocate, CodeItem.relocateAll_identity, Member.relocateAll_identity]; rfl

theorem Member.relocateAll_identity : ∀ members : List Member,
    Member.relocateAll .identity members = members
  | [] => rfl
  | m :: ms => by rw [Member.relocateAll, Member.relocate_identity, Member.relocateAll_identity]

theorem CodeItem.relocate_identity : ∀ i : CodeItem, i.relocate .identity = i
  | .localType .. => by rw [CodeItem.relocate, TypeDecl.relocate_identity]
  | .allocation _ _ _ none _ | .lambda .. => by
    rw [CodeItem.relocate, CodeItem.relocateAll_identity]; rfl
  | .allocation _ _ _ (some _) _ => by
    rw [CodeItem.relocate, CodeItem.relocateAll_identity, Member.relocateAll_identity]; rfl

theorem CodeItem.relocateAll_identity : ∀ code : List CodeItem,
    CodeItem.relocateAll .identity code = code
  | [] => rfl
  | i :: is => by rw [CodeItem.relocateAll, CodeItem.relocate_identity, CodeItem.relocateAll_identity]

end

theorem CompilationUnit.relocate_identity (unit : CompilationUnit) : unit.relocate .identity = unit := by
  have hdecl : TypeDecl.relocate .identity = id := funext TypeDecl.relocate_identity
  rw [relocate, hdecl, List.map_id]

/-! ## Diagnostics -/

def Problem.relocate (f : Relocation) : Problem → Problem
  | .duplicateName name first => .duplicateName name (f.map first)
  | problem => problem

def Diagnostic.relocate (f : Relocation) (d : Diagnostic) : Diagnostic := ⟨d.problem.relocate f, f.map d.span⟩

/-- What a diagnostic says: its level, code and message, and the texts of its labels. -/
def Diagnostic.said (d : Diagnostic) : Level × String × String × List (Option String) :=
  (d.problem.level, d.problem.code, d.problem.message, d.labels.map Label.text)

/-- What is said does not depend on places. -/
theorem Diagnostic.said_relocate (f : Relocation) (d : Diagnostic) : (d.relocate f).said = d.said := by
  obtain ⟨problem, span⟩ := d
  cases problem <;> rfl

theorem Problem.relocate_identity (problem : Problem) : problem.relocate .identity = problem := by
  cases problem <;> rfl

theorem Diagnostic.relocate_identity (d : Diagnostic) : d.relocate .identity = d := by
  rw [relocate, Problem.relocate_identity]
  rfl

end Nomenclator
