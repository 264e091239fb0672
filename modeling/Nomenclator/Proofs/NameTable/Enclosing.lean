/-
The innermost class around each declaration, read off the tree alone.

Methods, lambdas and code are passed through on the way out. The arguments
of an allocation or enum constant belong to the class around it and not to
the one that it declares. A class comes before what it encloses.
-/
import Nomenclator.Proofs.NameTable.Index

namespace Nomenclator

open scoped List

/-- A declaration and the innermost class around it. -/
structure Enclosed where
  inner : Declaration
  outer : Declaration

def TypeDecl.declaration : TypeDecl → Declaration
  | .mk id kind _ _ span => ⟨id, .type kind, span⟩

mutual

/-- What is declared within a type, in preorder. -/
def TypeDecl.enclosed : TypeDecl → List Enclosed
  | .mk id kind _ members span => Member.enclosedIn ⟨id, .type kind, span⟩ members

def Member.enclosed (outer : Declaration) : Member → List Enclosed
  | .type decl _ => ⟨decl.declaration, outer⟩ :: decl.enclosed
  | .field _ code _ | .initializer _ code _ => CodeItem.enclosedIn outer code
  | .operation kind id _ _ none span => [⟨⟨id, kind.declarationKind, span⟩, outer⟩]
  | .operation kind id _ _ (some code) span =>
    ⟨⟨id, kind.declarationKind, span⟩, outer⟩ :: CodeItem.enclosedIn outer code
  | .constant _ _ arguments none _ => CodeItem.enclosedIn outer arguments
  | .constant id _ arguments (some members) span =>
    ⟨⟨id, .anonymousClass, span⟩, outer⟩ :: CodeItem.enclosedIn outer arguments ++
      Member.enclosedIn ⟨id, .anonymousClass, span⟩ members

def Member.enclosedIn (outer : Declaration) : List Member → List Enclosed
  | [] => []
  | m :: ms => m.enclosed outer ++ Member.enclosedIn outer ms

def CodeItem.enclosed (outer : Declaration) : CodeItem → List Enclosed
  | .localType decl => ⟨decl.declaration, outer⟩ :: decl.enclosed
  | .allocation _ _ arguments none _ => CodeItem.enclosedIn outer arguments
  | .allocation id _ arguments (some members) span =>
    ⟨⟨id, .anonymousClass, span⟩, outer⟩ :: CodeItem.enclosedIn outer arguments ++
      Member.enclosedIn ⟨id, .anonymousClass, span⟩ members
  | .lambda id body span => ⟨⟨id, .lambda, span⟩, outer⟩ :: CodeItem.enclosedIn outer body

def CodeItem.enclosedIn (outer : Declaration) : List CodeItem → List Enclosed
  | [] => []
  | i :: is => i.enclosed outer ++ CodeItem.enclosedIn outer is

end

/-- What is declared within the types of a unit. The types themselves are in no class. -/
def CompilationUnit.enclosed (unit : CompilationUnit) : List Enclosed := unit.types.flatMap TypeDecl.enclosed

/-! ## A class comes before what it encloses -/

theorem Node.declarations_cons {node : Node} {d : Declaration} (h : node.declaration? = some d)
    (nodes : List Node) : declarations (node :: nodes) = d :: declarations nodes :=
  List.filterMap_cons_some h

/-- All that the nodes declare is listed in their order, with classes that come before. -/
structure Enclosed.Lists (listed : List Enclosed) (outer : Declaration) (nodes : List Node) : Prop where
  inner : listed.map inner = Node.declarations nodes
  before : ∀ e ∈ listed, [e.outer, e.inner] <+ outer :: Node.declarations nodes

namespace Enclosed.Lists

variable {listed more : List Enclosed} {outer d : Declaration} {node : Node} {nodes nodes' : List Node}

theorem nil : Lists [] outer [] := ⟨rfl, nofun⟩

theorem append (h : Lists listed outer nodes) (h' : Lists more outer nodes') :
    Lists (listed ++ more) outer (nodes ++ nodes') := by
  refine ⟨by rw [List.map_append, h.inner, h'.inner, Node.declarations_append], ?_⟩
  rw [Node.declarations_append]
  refine List.forall_mem_append.mpr ⟨fun e he => ?_, fun e he => ?_⟩
  · exact (h.before e he).trans (.cons_cons _ (List.sublist_append_left _ _))
  · exact (h'.before e he).trans (.cons_cons _ (List.sublist_append_right _ _))

theorem undeclared (hnode : node.declaration? = none) (h : Lists listed outer nodes) :
    Lists listed outer (node :: nodes) := by
  have hsame : Node.declarations (node :: nodes) = Node.declarations nodes := List.filterMap_cons_none hnode
  exact ⟨hsame ▸ h.inner, hsame ▸ h.before⟩

/-- A declaration of the class, and what is below its node. -/
theorem declared (hnode : node.declaration? = some d) (h : Lists listed outer nodes) :
    Lists (⟨d, outer⟩ :: listed) outer (node :: nodes) := by
  refine ⟨by rw [Node.declarations_cons hnode, List.map_cons, h.inner], ?_⟩
  rw [Node.declarations_cons hnode]
  refine List.forall_mem_cons.mpr ⟨?_, fun e he => ?_⟩
  · exact .cons_cons _ (List.singleton_sublist.mpr List.mem_cons_self)
  · exact (h.before e he).trans (.cons_cons _ (List.sublist_cons_self _ _))

/-- A class of the class, and what it encloses itself. -/
theorem ofClass (hnode : node.declaration? = some d) (h : Lists listed d nodes) :
    Lists (⟨d, outer⟩ :: listed) outer (node :: nodes) := by
  refine ⟨by rw [Node.declarations_cons hnode, List.map_cons, h.inner], ?_⟩
  rw [Node.declarations_cons hnode]
  refine List.forall_mem_cons.mpr ⟨?_, fun e he => (h.before e he).cons _⟩
  exact .cons_cons _ (List.singleton_sublist.mpr List.mem_cons_self)

/-- A class with arguments in front of its body. -/
theorem withBody {members : List Member} (hnode : node.declaration? = some d) (h : Lists listed outer nodes)
    (h' : Lists more d (Member.preorders members)) :
    Lists (⟨d, outer⟩ :: listed ++ more) outer (node :: nodes ++ .body :: Member.preorders members) := by
  have hbody : Lists more d (.body :: Member.preorders members) := h'.undeclared rfl
  refine ⟨by rw [List.map_append, Node.declarations_append, (h.declared hnode).inner, hbody.inner], ?_⟩
  rw [Node.declarations_append]
  refine List.forall_mem_append.mpr ⟨fun e he => ?_, fun e he => ?_⟩
  · exact ((h.declared hnode).before e he).trans (.cons_cons _ (List.sublist_append_left _ _))
  · rw [Node.declarations_cons hnode]
    exact (hbody.before e he).trans ((List.sublist_append_right _ _).cons_cons _ |>.cons _)

end Enclosed.Lists

mutual

theorem TypeDecl.lists_enclosed : ∀ decl : TypeDecl, ∃ node nodes, decl.preorder = node :: nodes ∧
    node.declaration? = some decl.declaration ∧ Enclosed.Lists decl.enclosed decl.declaration nodes
  | .mk id kind name members span =>
    ⟨.type kind span id name, _, rfl, rfl, Member.lists_enclosedIn ⟨id, .type kind, span⟩ members⟩

theorem Member.lists_enclosed (outer : Declaration) :
    ∀ m : Member, Enclosed.Lists (m.enclosed outer) outer m.preorder
  | .type decl _ => by
    obtain ⟨node, nodes, hpreorder, hnode, hlists⟩ := decl.lists_enclosed
    rw [Member.preorder, hpreorder]
    exact .undeclared rfl (.ofClass hnode hlists)
  | .field _ code _ | .initializer _ code _ => .undeclared rfl (CodeItem.lists_enclosedIn outer code)
  | .constant _ _ arguments none _ => .undeclared rfl (CodeItem.lists_enclosedIn outer arguments)
  | .operation _ _ _ _ none _ => .declared rfl .nil
  | .operation _ _ _ _ (some code) _ => .declared rfl (CodeItem.lists_enclosedIn outer code)
  | .constant _ _ arguments (some members) _ =>
    .withBody rfl (CodeItem.lists_enclosedIn outer arguments) (Member.lists_enclosedIn _ members)

theorem Member.lists_enclosedIn (outer : Declaration) :
    ∀ members : List Member, Enclosed.Lists (Member.enclosedIn outer members) outer (Member.preorders members)
  | [] => .nil
  | m :: ms => (Member.lists_enclosed outer m).append (Member.lists_enclosedIn outer ms)

theorem CodeItem.lists_enclosed (outer : Declaration) :
    ∀ i : CodeItem, Enclosed.Lists (i.enclosed outer) outer i.preorder
  | .localType decl => by
    obtain ⟨node, nodes, hpreorder, hnode, hlists⟩ := decl.lists_enclosed
    rw [CodeItem.preorder, hpreorder]
    exact .undeclared rfl (.ofClass hnode hlists)
  | .allocation _ _ arguments none _ => .undeclared rfl (CodeItem.lists_enclosedIn outer arguments)
  | .allocation _ _ arguments (some members) _ =>
    .withBody rfl (CodeItem.lists_enclosedIn outer arguments) (Member.lists_enclosedIn _ members)
  | .lambda _ body _ => .declared rfl (CodeItem.lists_enclosedIn outer body)

theorem CodeItem.lists_enclosedIn (outer : Declaration) :
    ∀ code : List CodeItem, Enclosed.Lists (CodeItem.enclosedIn outer code) outer (CodeItem.preorders code)
  | [] => .nil
  | i :: is => (CodeItem.lists_enclosed outer i).append (CodeItem.lists_enclosedIn outer is)

end

/-- A type declaration declares its type and what that encloses, which comes behind its class. -/
theorem TypeDecl.declarations_preorder (decl : TypeDecl) :
    Node.declarations decl.preorder = decl.declaration :: decl.enclosed.map Enclosed.inner ∧
      ∀ e ∈ decl.enclosed, [e.outer, e.inner] <+ Node.declarations decl.preorder := by
  obtain ⟨node, nodes, hpreorder, hnode, hlists⟩ := decl.lists_enclosed
  rw [hpreorder, Node.declarations_cons hnode, hlists.inner]
  exact ⟨rfl, hlists.before⟩

namespace CompilationUnit

variable {unit : CompilationUnit}

theorem declarations_preorder (unit : CompilationUnit) :
    Node.declarations unit.preorder = unit.types.flatMap fun decl => Node.declarations decl.preorder :=
  List.filterMap_flatMap

/-- A unit declares its types and what they enclose. -/
theorem mem_declarations {d : Declaration} (h : d ∈ Node.declarations unit.preorder) :
    d ∈ unit.types.map TypeDecl.declaration ∨ ∃ e ∈ unit.enclosed, e.inner = d := by
  rw [declarations_preorder] at h
  obtain ⟨decl, hdecl, hd⟩ := List.mem_flatMap.mp h
  rw [decl.declarations_preorder.1] at hd
  rcases List.mem_cons.mp hd with rfl | hd
  · exact .inl (List.mem_map_of_mem hdecl)
  · obtain ⟨e, he, rfl⟩ := List.mem_map.mp hd
    exact .inr ⟨e, List.mem_flatMap_of_mem hdecl he, rfl⟩

/-- A class has a smaller number than what it encloses. -/
theorem outer_lt (h : (Node.numbers unit.preorder).Pairwise (· < ·)) {e : Enclosed} (he : e ∈ unit.enclosed) :
    e.outer.id < e.inner.id := by
  obtain ⟨decl, hdecl, he⟩ := List.mem_flatMap.mp he
  have hsub : [e.outer, e.inner] <+ Node.declarations unit.preorder := by
    rw [declarations_preorder]
    exact (decl.declarations_preorder.2 e he).trans (List.sublist_flatten_of_mem (List.mem_map_of_mem hdecl))
  exact List.rel_of_pairwise_cons ((Node.pairwise_declarations h).sublist hsub) List.mem_cons_self

end CompilationUnit

end Nomenclator
