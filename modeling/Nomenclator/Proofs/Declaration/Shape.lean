/-
Declaration trees that can be named: the names in them are words of the
name grammar, the parameters have texts, and constructors stand where a
class has a name to give them.

A tree is weighed by its numbered nodes. These are as many as the numbers
that naming can need.
-/
import Mathlib.Algebra.GroupWithZero.Nat
import Nomenclator.Declaration.Basic
import Nomenclator.Proofs.Name.TypeText

namespace Nomenclator

/-! ## Weight -/

mutual

def TypeDecl.nodes : TypeDecl → Nat
  | .mk _ _ _ members _ => Member.nodesOf members + 1

def Member.nodes : Member → Nat
  | .type decl _ => decl.nodes
  | .field _ code _ | .initializer _ code _ => CodeItem.nodesOf code
  | .operation _ _ _ _ none _ => 1
  | .operation _ _ _ _ (some code) _ => CodeItem.nodesOf code + 1
  | .constant _ _ arguments none _ => CodeItem.nodesOf arguments + 1
  | .constant _ _ arguments (some members) _ =>
    CodeItem.nodesOf arguments + Member.nodesOf members + 1

def Member.nodesOf : List Member → Nat
  | [] => 0
  | m :: ms => m.nodes + Member.nodesOf ms

def CodeItem.nodes : CodeItem → Nat
  | .localType decl => decl.nodes
  | .allocation _ _ arguments none _ => CodeItem.nodesOf arguments + 1
  | .allocation _ _ arguments (some members) _ =>
    CodeItem.nodesOf arguments + Member.nodesOf members + 1
  | .lambda _ body _ => CodeItem.nodesOf body + 1

def CodeItem.nodesOf : List CodeItem → Nat
  | [] => 0
  | i :: is => i.nodes + CodeItem.nodesOf is

end

theorem Member.nodesOf_eq_sum (members : List Member) : nodesOf members = (members.map nodes).sum := by
  induction members with
  | nil => rfl
  | cons m ms ih => rw [nodesOf, ih, List.map_cons, List.sum_cons]

theorem CodeItem.nodesOf_eq_sum (code : List CodeItem) : nodesOf code = (code.map nodes).sum := by
  induction code with
  | nil => rfl
  | cons i is ih => rw [nodesOf, ih, List.map_cons, List.sum_cons]

/-- A body that is missing weighs nothing. -/
theorem Member.nodes_operation (kind : OperationKind) (id : Nat) (name : String)
    (parameters : List Parameter) (body : Option (List CodeItem)) (span : Span) :
    (operation kind id name parameters body span).nodes = CodeItem.nodesOf (body.getD []) + 1 := by
  cases body <;> rfl

theorem Member.nodes_constant (id : Nat) (name : String) (arguments : List CodeItem)
    (body : Option (List Member)) (span : Span) :
    (constant id name arguments body span).nodes =
      CodeItem.nodesOf arguments + nodesOf (body.getD []) + 1 := by
  cases body <;> rfl

theorem CodeItem.nodes_allocation (id : Nat) (type : String) (arguments : List CodeItem)
    (body : Option (List Member)) (span : Span) :
    (allocation id type arguments body span).nodes =
      nodesOf arguments + Member.nodesOf (body.getD []) + 1 := by
  cases body <;> rfl

/-! ## Names -/

/-- A method brings a name along. A constructor takes that of its class. -/
def OperationKind.Named (inType : Prop) (name : String) : OperationKind → Prop
  | method => IsSimpleName name
  | constructor => inType

def Parameter.IsTyped (p : Parameter) : Prop := IsTypeText p.type

mutual

def TypeDecl.Named : TypeDecl → Prop
  | .mk _ _ name members _ => IsSimpleName name ∧ Member.AllNamed True members

/-- A member of a class, which may be a type declaration or have no name. -/
def Member.Named (inType : Prop) : Member → Prop
  | .type decl _ => decl.Named
  | .field _ code _ | .initializer _ code _ => CodeItem.AllNamed code
  | .operation kind _ name parameters none _ => kind.Named inType name ∧ ∀ p ∈ parameters, p.IsTyped
  | .operation kind _ name parameters (some code) _ =>
    kind.Named inType name ∧ (∀ p ∈ parameters, p.IsTyped) ∧ CodeItem.AllNamed code
  | .constant _ _ arguments none _ => CodeItem.AllNamed arguments
  | .constant _ _ arguments (some members) _ =>
    CodeItem.AllNamed arguments ∧ Member.AllNamed False members

def Member.AllNamed (inType : Prop) : List Member → Prop
  | [] => True
  | m :: ms => m.Named inType ∧ Member.AllNamed inType ms

def CodeItem.Named : CodeItem → Prop
  | .localType decl => decl.Named
  | .allocation _ _ arguments none _ => CodeItem.AllNamed arguments
  | .allocation _ _ arguments (some members) _ =>
    CodeItem.AllNamed arguments ∧ Member.AllNamed False members
  | .lambda _ body _ => CodeItem.AllNamed body

def CodeItem.AllNamed : List CodeItem → Prop
  | [] => True
  | i :: is => i.Named ∧ CodeItem.AllNamed is

end

theorem Member.allNamed_iff {inType : Prop} {members : List Member} :
    AllNamed inType members ↔ ∀ m ∈ members, m.Named inType := by
  induction members with
  | nil => exact ⟨fun _ => nofun, fun _ => trivial⟩
  | cons m ms ih => rw [AllNamed, ih, List.forall_mem_cons]

theorem CodeItem.allNamed_iff {code : List CodeItem} : AllNamed code ↔ ∀ i ∈ code, i.Named := by
  induction code with
  | nil => exact ⟨fun _ => nofun, fun _ => trivial⟩
  | cons i is ih => rw [AllNamed, ih, List.forall_mem_cons]

theorem Member.named_operation {inType : Prop} {kind : OperationKind} {id : Nat} {name : String}
    {parameters : List Parameter} {body : Option (List CodeItem)} {span : Span}
    (hname : kind.Named inType name) (hparameters : ∀ p ∈ parameters, p.IsTyped)
    (hbody : ∀ i ∈ body.getD [], i.Named) :
    (operation kind id name parameters body span).Named inType := by
  cases body with
  | none => exact ⟨hname, hparameters⟩
  | some code => exact ⟨hname, hparameters, CodeItem.allNamed_iff.mpr hbody⟩

theorem Member.named_constant {inType : Prop} {id : Nat} {name : String} {arguments : List CodeItem}
    {body : Option (List Member)} {span : Span} (harguments : ∀ i ∈ arguments, i.Named)
    (hbody : ∀ m ∈ body.getD [], m.Named False) :
    (constant id name arguments body span).Named inType := by
  cases body with
  | none => exact CodeItem.allNamed_iff.mpr harguments
  | some members => exact ⟨CodeItem.allNamed_iff.mpr harguments, allNamed_iff.mpr hbody⟩

theorem CodeItem.named_allocation {id : Nat} {type : String} {arguments : List CodeItem}
    {body : Option (List Member)} {span : Span} (harguments : ∀ i ∈ arguments, i.Named)
    (hbody : ∀ m ∈ body.getD [], m.Named False) : (allocation id type arguments body span).Named := by
  cases body with
  | none => exact allNamed_iff.mpr harguments
  | some members => exact ⟨allNamed_iff.mpr harguments, Member.allNamed_iff.mpr hbody⟩

end Nomenclator
