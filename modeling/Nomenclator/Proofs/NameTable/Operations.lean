/-
Methods and constructors are named by the names that the tree gives them.

A walk names a constructor after the class it is in, without a look at the
name that was kept with it. In a tree of the right form the two agree, since a
constructor stands only in a class that has its name.
-/
import Nomenclator.Proofs.Declaration.Forms
import Nomenclator.Proofs.Grammar.Forms
import Nomenclator.Proofs.NameTable.RoundTrip
import Nomenclator.Proofs.Numbering.Distinct

namespace Nomenclator

/-! ## Rows of operations -/

/-- If the node is a method or constructor, there is a row for it, and its name goes on from that of a
class by the name and the types of parameters in the node. -/
def Node.NamedIn (rows : List Row) : Node → Prop
  | .operation kind span id name parameters _ => ∃ c : QualifiedName,
    ⟨id, kind.declarationKind, span, c.withOperation (.method name (parameters.map Parameter.type))⟩ ∈ rows
  | .type .. | .memberType _ | .localType _ | .field .. | .initializer .. | .constant .. | .allocation .. | .body
  | .lambda .. => True

theorem Node.NamedIn.mono {rows more : List Row} {node : Node} (h : node.NamedIn rows) (hsub : rows ⊆ more) :
    node.NamedIn more := by
  cases node with
  | operation =>
    obtain ⟨c, hrow⟩ := h
    exact ⟨c, hsub hrow⟩
  | _ => trivial

def Node.AllNamedIn (rows : List Row) (nodes : List Node) : Prop := ∀ node ∈ nodes, node.NamedIn rows

namespace Node.AllNamedIn

variable {rows more : List Row} {nodes others : List Node} {node : Node}

theorem nil : AllNamedIn rows [] := nofun

theorem mono (h : AllNamedIn rows nodes) (hsub : rows ⊆ more) : AllNamedIn more nodes := fun node hnode =>
  (h node hnode).mono hsub

theorem cons (hnode : node.NamedIn rows) (h : AllNamedIn rows nodes) : AllNamedIn rows (node :: nodes) :=
  List.forall_mem_cons.mpr ⟨hnode, h⟩

theorem append (h : AllNamedIn rows nodes) (h' : AllNamedIn more others) :
    AllNamedIn (rows ++ more) (nodes ++ others) :=
  List.forall_mem_append.mpr ⟨h.mono (List.subset_append_left _ _), h'.mono (List.subset_append_right _ _)⟩

/-- A node that is no operation, and behind the arguments an anonymous class. -/
theorem withBody {c : QualifiedName} {before arguments held : List Holding} {id : Nat} {span : Span}
    (hnode : node.NamedIn []) (h : AllNamedIn (Holding.rowsIn c before arguments) nodes)
    (h' : ∀ name, AllNamedIn (Holding.rowsIn name [] held) others) :
    AllNamedIn (Holding.rowsIn c before (arguments ++ [.ofClass .anonymous id .anonymousClass span held]))
      (node :: nodes ++ .body :: others) := by
  rw [Holding.rowsIn_append, Holding.rowsIn_singleton, Holding.rows]
  exact ((h.cons (hnode.mono (List.nil_subset _))).append
    (((h' _).mono (List.subset_cons_self _ _)).cons trivial))

end Node.AllNamedIn

/-- The name of a class is that of its declaration at the end. -/
theorem TypeDecl.declaredSimpleName_holding (isLocal : Bool) (c : QualifiedName) (before : List Holding)
    (decl : TypeDecl) : ((decl.holding isLocal).nameIn c before).declaredSimpleName = decl.name := by
  obtain ⟨_, kind, name, _, _⟩ := decl
  rw [TypeDecl.holding, Holding.nameIn_ofClass_eq, QualifiedName.declaredSimpleName, QualifiedName.innermost_nested]
  cases isLocal <;> rfl

/-! ## The walk -/

section

variable {r : Reading}

/-- The row of a method has the name of the node, and so has that of a constructor if the class has it. -/
theorem OperationKind.Formed.namedIn {ofClass : String → Prop} {kind : OperationKind} {name : String} {place : Span}
    (h : kind.Formed r ofClass place name) {c : QualifiedName}
    (hclass : ∀ name, ofClass name → c.declaredSimpleName = name) (id : Nat) (parameters : List Parameter)
    (hasBody : Bool) (before held : List Holding) :
    (Node.operation kind place id name parameters hasBody).NamedIn
      (Holding.rowsIn c before (.operation kind id name (parameters.map Parameter.type) place :: held)) := by
  have hname : kind.simpleName c name = name := by
    cases kind with
    | method => rfl
    | constructor => exact hclass name h.1
  rw [Holding.rowsIn, Holding.nameIn_operation_eq, hname, Holding.rows]
  exact ⟨c, List.mem_cons_self⟩

mutual

theorem TypeDecl.Formed.namedIn (isLocal : Bool) (c : QualifiedName) : ∀ {decl : TypeDecl}, decl.Formed r →
    c.declaredSimpleName = decl.name → Node.AllNamedIn ((decl.holding isLocal).rows c) decl.preorder
  | .mk _ kind name _ _, h, hc =>
    have hmembers := Member.AllFormed.namedIn (.ofType isLocal name kind) (fun _ he => hc.trans he.symm) [] h.2.2
    (hmembers.mono (List.subset_cons_self _ _)).cons trivial

theorem Member.Formed.namedIn {ofClass : String → Prop} (entry : ClassEntry) {c : QualifiedName}
    (hclass : ∀ name, ofClass name → c.declaredSimpleName = name) (before : List Holding) :
    ∀ {m : Member}, m.Formed r ofClass → Node.AllNamedIn (Holding.rowsIn c before (m.held entry)) m.preorder
  | .type decl _, h => by
    rw [Member.held, Holding.rowsIn_singleton]
    exact (TypeDecl.Formed.namedIn false _ h (decl.declaredSimpleName_holding false c before)).cons trivial
  | .field .., h | .initializer .., h | .constant _ _ _ none _, h =>
    (CodeItem.AllFormed.namedIn _ c before h).cons trivial
  | .operation kind id name parameters none place, h =>
    .cons (h.1.namedIn hclass id parameters false before []) .nil
  | .operation kind id name parameters (some code) place, h =>
    have hcode := CodeItem.AllFormed.namedIn (kind.bodyHost name) c
      (before ++ [.operation kind id name (parameters.map Parameter.type) place]) h.2.2
    .cons (h.1.namedIn hclass id parameters true before _) (hcode.mono (List.subset_append_right _ _))
  | .constant _ _ _ (some _) _, h =>
    .withBody trivial (CodeItem.AllFormed.namedIn _ c before h.1) fun _ =>
      Member.AllFormed.namedIn .anonymous nofun [] h.2.2

theorem Member.AllFormed.namedIn {ofClass : String → Prop} (entry : ClassEntry) {c : QualifiedName}
    (hclass : ∀ name, ofClass name → c.declaredSimpleName = name) (before : List Holding) :
    ∀ {members : List Member}, Member.AllFormed r ofClass members →
      Node.AllNamedIn (Holding.rowsIn c before (Member.heldBy entry members)) (Member.preorders members)
  | [], _ => .nil
  | _ :: _, h => by
    rw [Member.heldBy, Member.preorders, Holding.rowsIn_append]
    exact (Member.Formed.namedIn entry hclass before h.1).append (Member.AllFormed.namedIn entry hclass _ h.2)

theorem CodeItem.Formed.namedIn (host : Host) (c : QualifiedName) (before : List Holding) :
    ∀ {i : CodeItem}, i.Formed r → Node.AllNamedIn (Holding.rowsIn c before (i.held host)) i.preorder
  | .localType decl, h => by
    rw [CodeItem.held, Holding.rowsIn_singleton]
    exact (TypeDecl.Formed.namedIn true _ h.2 (decl.declaredSimpleName_holding true c before)).cons trivial
  | .allocation _ _ _ none _, h => (CodeItem.AllFormed.namedIn _ c before h).cons trivial
  | .allocation _ _ _ (some _) _, h =>
    .withBody trivial (CodeItem.AllFormed.namedIn _ c before h.1) fun _ =>
      Member.AllFormed.namedIn .anonymous nofun [] h.2.2
  | .lambda id _ place, h =>
    have hbody := CodeItem.AllFormed.namedIn host c (before ++ [.lambda host id place]) h
    (hbody.mono (List.subset_append_right _ _)).cons trivial

theorem CodeItem.AllFormed.namedIn (host : Host) (c : QualifiedName) (before : List Holding) :
    ∀ {code : List CodeItem}, CodeItem.AllFormed r code →
      Node.AllNamedIn (Holding.rowsIn c before (CodeItem.heldIn host code)) (CodeItem.preorders code)
  | [], _ => .nil
  | _ :: _, h => by
    rw [CodeItem.heldIn, CodeItem.preorders, Holding.rowsIn_append]
    exact (CodeItem.Formed.namedIn host c before h.1).append (CodeItem.AllFormed.namedIn host c _ h.2)

end

/-- All operations of a unit are named so. -/
theorem CompilationUnit.Formed.namedIn {unit : CompilationUnit} (h : unit.Formed r) :
    Node.AllNamedIn unit.numbered unit.preorder := by
  intro node hnode
  obtain ⟨decl, hdecl, hnode⟩ := List.mem_flatMap.mp hnode
  have hnamed := TypeDecl.Formed.namedIn false (.topLevel unit.package decl.name) (h decl hdecl) rfl
  exact hnamed.mono (fun _ hrow => List.mem_flatMap_of_mem hdecl hrow) node hnode

end

/-- **The form of every tree.** Whatever the text, constructors are members of a type declaration that has
their name, and constants come first in an enum; no annotation is declared in code; names are identifiers
without `$`, and empty just where they were reported to be missing; types of parameters are dotted names
with brackets. So the walk names every method and constructor by the name that its node has. -/
theorem CompilationUnit.parse_formed (text : String) :
    (parse text).1.Formed ⟨lex text, (parse text).2⟩ ∧
      ∃ rows, (parse text).1.rows = .ok rows ∧ ∀ d ∈ (parse text).1.outline, d.2.NamedIn rows := by
  have hformed := formed_parse text
  refine ⟨hformed, _, CompilationUnit.rows_eq_flatMap _, fun d hd => ?_⟩
  refine hformed.namedIn d.2 ?_
  rw [← CompilationUnit.map_outline]
  exact List.mem_map_of_mem hd

end Nomenclator
