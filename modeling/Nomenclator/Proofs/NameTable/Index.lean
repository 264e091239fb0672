/-
The table of names has one row for each node that declares something, in
preorder, and finds it under the number of the node.

The walk meets the arguments of an allocation or enum constant before the
class it declares, so its rows come in another order. They are put right
by their numbers, which increase in preorder whatever the text.
-/
import Mathlib.Data.List.Pairwise
import Mathlib.Data.List.Perm.Basic
import Mathlib.Data.List.Sort
import Nomenclator.NameTable.Analysis
import Nomenclator.Proofs.Grammar.Order
import Nomenclator.Proofs.Numbering.Walk

namespace Nomenclator

open scoped List

/-! ## What nodes declare -/

/-- A row without its name. -/
structure Declaration where
  id : Nat
  kind : DeclarationKind
  span : Span
deriving DecidableEq

def Row.declaration (row : Row) : Declaration := ⟨row.id, row.kind, row.span⟩

namespace Node

/-- What the node declares. An allocation or enum constant without a body declares nothing. -/
def declaration? : Node → Option Declaration
  | type kind span id _ => some ⟨id, .type kind, span⟩
  | operation kind span id _ _ _ => some ⟨id, kind.declarationKind, span⟩
  | constant span id _ true | allocation span id _ true => some ⟨id, .anonymousClass, span⟩
  | lambda span id => some ⟨id, .lambda, span⟩
  | constant _ _ _ false | allocation _ _ _ false | memberType _ | localType _ | field .. | initializer ..
  | body => none

def declarations (nodes : List Node) : List Declaration := nodes.filterMap declaration?

theorem declarations_append (nodes more : List Node) :
    declarations (nodes ++ more) = declarations nodes ++ declarations more := List.filterMap_append

/-- A declaration has the number of its node. -/
theorem id?_of_declaration? {node : Node} {d : Declaration} (h : node.declaration? = some d) :
    node.id? = some d.id := by
  cases node with
  | type | operation | lambda =>
    obtain rfl := Option.some.inj h
    rfl
  | constant _ _ _ hasBody | allocation _ _ _ hasBody =>
    cases hasBody with
    | false => exact absurd h nofun
    | true =>
      obtain rfl := Option.some.inj h
      rfl
  | memberType | localType | field | initializer | body => exact absurd h nofun

section

variable {nodes : List Node} (h : (numbers nodes).Pairwise (· < ·))
include h

/-- A number belongs to one node. -/
theorem eq_of_id?_eq {a b : Node} (ha : a ∈ nodes) (hb : b ∈ nodes) {id : Nat} (hida : a.id? = some id)
    (hidb : b.id? = some id) : a = b := by
  by_contra hne
  have hdistinct : nodes.Pairwise fun a b => ∀ x, a.id? = some x → ∀ y, b.id? = some y → x ≠ y :=
    (List.pairwise_filterMap.mp h).imp fun hlt x hx y hy => Nat.ne_of_lt (hlt x hx y hy)
  have hsymm : Std.Symm fun a b : Node => ∀ x, a.id? = some x → ∀ y, b.id? = some y → x ≠ y :=
    ⟨fun _ _ hab y hy x hx => Ne.symm (hab x hx y hy)⟩
  exact hdistinct.forall ha hb hne id hida id hidb rfl

theorem declaration_eq_of_id_eq {d d' : Declaration} (hd : d ∈ declarations nodes)
    (hd' : d' ∈ declarations nodes) (hid : d.id = d'.id) : d = d' := by
  obtain ⟨node, hnode, hdecl⟩ := List.mem_filterMap.mp hd
  obtain ⟨node', hnode', hdecl'⟩ := List.mem_filterMap.mp hd'
  have hsame : node.id? = some d'.id := hid ▸ id?_of_declaration? hdecl
  rw [eq_of_id?_eq h hnode hnode' hsame (id?_of_declaration? hdecl'), hdecl'] at hdecl
  exact (Option.some.inj hdecl).symm

theorem pairwise_declarations : (declarations nodes).Pairwise fun d d' => d.id < d'.id := by
  refine List.pairwise_filterMap.mpr ((List.pairwise_filterMap.mp h).imp fun hlt d hd d' hd' => ?_)
  exact hlt _ (id?_of_declaration? hd) _ (id?_of_declaration? hd')

end

end Node

/-! ## What the walk meets -/

mutual

/-- The walk through a tree meets what its nodes declare, in some order. -/
theorem TypeDecl.rows_perm (isLocal : Bool) (name : QualifiedName) : ∀ decl : TypeDecl,
    ((decl.holding isLocal).rows name).map Row.declaration ~ Node.declarations decl.preorder
  | .mk id kind _ members span => by
    rw [TypeDecl.holding, Holding.rows, List.map_cons, TypeDecl.preorder]
    exact (Member.rowsOf_perm _ _ _ members).cons _

theorem Member.rows_perm (entry : ClassEntry) (c : QualifiedName) (before : List Holding) :
    ∀ m : Member, (Holding.rowsIn c before (m.held entry)).map Row.declaration ~
      Node.declarations m.preorder
  | .type decl _ => by
    rw [Member.held, Holding.rowsIn, Holding.rowsIn, List.append_nil, Member.preorder]
    exact TypeDecl.rows_perm false _ decl
  | .field _ code _ | .initializer _ code _ | .constant _ _ code none _ => by
    rw [Member.held, Member.preorder]
    exact CodeItem.rowsOf_perm _ _ _ code
  | .operation kind id name parameters none span => by
    rw [Member.held, Member.preorder]
    exact .refl _
  | .operation kind id name parameters (some code) span => by
    rw [Member.held, Member.preorder, Holding.rowsIn, Holding.rows, List.singleton_append, List.map_cons]
    exact (CodeItem.rowsOf_perm _ _ _ code).cons _
  | .constant id _ arguments (some members) span => by
    rw [Member.held, Member.preorder, Holding.rowsIn_append, Holding.rowsIn, Holding.rowsIn,
      Holding.rows, List.append_nil, List.map_append, List.map_cons, Node.declarations_append]
    exact List.perm_middle.trans
      (((CodeItem.rowsOf_perm _ _ _ arguments).append (Member.rowsOf_perm _ _ _ members)).cons _)

theorem Member.rowsOf_perm (entry : ClassEntry) (c : QualifiedName) (before : List Holding) :
    ∀ members : List Member, (Holding.rowsIn c before (Member.heldBy entry members)).map Row.declaration ~
      Node.declarations (Member.preorders members)
  | [] => by rw [Member.heldBy, Member.preorders]; exact .refl _
  | m :: ms => by
    rw [Member.heldBy, Member.preorders, Holding.rowsIn_append, List.map_append, Node.declarations_append]
    exact (Member.rows_perm entry c _ m).append (Member.rowsOf_perm entry c _ ms)

theorem CodeItem.rows_perm (host : Host) (c : QualifiedName) (before : List Holding) :
    ∀ i : CodeItem, (Holding.rowsIn c before (i.held host)).map Row.declaration ~
      Node.declarations i.preorder
  | .localType decl => by
    rw [CodeItem.held, Holding.rowsIn, Holding.rowsIn, List.append_nil, CodeItem.preorder]
    exact TypeDecl.rows_perm true _ decl
  | .allocation _ _ arguments none _ => by
    rw [CodeItem.held, CodeItem.preorder]
    exact CodeItem.rowsOf_perm _ _ _ arguments
  | .allocation id _ arguments (some members) span => by
    rw [CodeItem.held, CodeItem.preorder, Holding.rowsIn_append, Holding.rowsIn, Holding.rowsIn,
      Holding.rows, List.append_nil, List.map_append, List.map_cons, Node.declarations_append]
    exact List.perm_middle.trans
      (((CodeItem.rowsOf_perm _ _ _ arguments).append (Member.rowsOf_perm _ _ _ members)).cons _)
  | .lambda id body span => by
    rw [CodeItem.held, CodeItem.preorder, Holding.rowsIn, Holding.rows, List.singleton_append,
      List.map_cons]
    exact (CodeItem.rowsOf_perm _ _ _ body).cons _

theorem CodeItem.rowsOf_perm (host : Host) (c : QualifiedName) (before : List Holding) :
    ∀ code : List CodeItem, (Holding.rowsIn c before (CodeItem.heldIn host code)).map Row.declaration ~
      Node.declarations (CodeItem.preorders code)
  | [] => by rw [CodeItem.heldIn, CodeItem.preorders]; exact .refl _
  | i :: is => by
    rw [CodeItem.heldIn, CodeItem.preorders, Holding.rowsIn_append, List.map_append,
      Node.declarations_append]
    exact (CodeItem.rows_perm host c _ i).append (CodeItem.rowsOf_perm host c _ is)

end

theorem CompilationUnit.numbered_perm (unit : CompilationUnit) :
    unit.numbered.map Row.declaration ~ Node.declarations unit.preorder := by
  rw [numbered, preorder, List.map_flatMap, Node.declarations, List.filterMap_flatMap]
  exact List.Perm.flatMap_left _ fun decl _ => decl.rows_perm false _

/-! ## Sorted by number -/

theorem Row.insert_eq_orderedInsert (row : Row) (rows : List Row) :
    row.insert rows = rows.orderedInsert (fun a b => a.id ≤ b.id) row := by
  induction rows with
  | nil => rfl
  | cons first rows ih =>
    rw [Row.insert, List.orderedInsert_cons, ih]
    by_cases h : first.id < row.id
    · rw [if_pos h, if_neg (Nat.not_le.mpr h)]
    · rw [if_neg h, if_pos (Nat.not_lt.mp h)]

namespace NameTable

theorem rows_ofRows (rows : List Row) :
    (ofRows rows).rows = rows.insertionSort fun a b => a.id ≤ b.id := by
  induction rows with
  | nil => rfl
  | cons row rows ih => rw [List.insertionSort_cons, ← ih, ← Row.insert_eq_orderedInsert]; rfl

theorem perm_ofRows (rows : List Row) : (ofRows rows).rows ~ rows := by
  rw [rows_ofRows]
  exact List.perm_insertionSort _ rows

theorem pairwise_ofRows (rows : List Row) : (ofRows rows).rows.Pairwise fun a b => a.id ≤ b.id := by
  have htotal : Std.Total fun a b : Row => a.id ≤ b.id := ⟨fun a b => Nat.le_total a.id b.id⟩
  have htrans : IsTrans Row fun a b => a.id ≤ b.id := ⟨fun _ _ _ => Nat.le_trans⟩
  rw [rows_ofRows]
  exact List.pairwise_insertionSort _ rows

/-- Sorting puts the rows in the order of the nodes. -/
theorem declarations_ofRows {rows : List Row} {nodes : List Node}
    (hperm : rows.map Row.declaration ~ Node.declarations nodes)
    (hnumbers : (Node.numbers nodes).Pairwise (· < ·)) :
    (ofRows rows).rows.map Row.declaration = Node.declarations nodes := by
  have hsorted : ((ofRows rows).rows.map Row.declaration).Pairwise fun d d' => d.id ≤ d'.id :=
    List.pairwise_map.mpr (pairwise_ofRows rows)
  have hperm' : (ofRows rows).rows.map Row.declaration ~ Node.declarations nodes :=
    ((perm_ofRows rows).map _).trans hperm
  have hincreasing : (Node.declarations nodes).Pairwise fun d d' => d.id ≤ d'.id :=
    (Node.pairwise_declarations hnumbers).imp Nat.le_of_lt
  refine List.Perm.eq_of_pairwise (fun d d' hd hd' hle hge => ?_) hsorted hincreasing hperm'
  exact Node.declaration_eq_of_id_eq hnumbers (hperm'.subset hd) hd' (Nat.le_antisymm hle hge)

theorem increasing_ofRows {rows : List Row} {nodes : List Node}
    (hperm : rows.map Row.declaration ~ Node.declarations nodes)
    (hnumbers : (Node.numbers nodes).Pairwise (· < ·)) :
    (ofRows rows).rows.Pairwise fun a b => a.id < b.id := by
  have hdeclarations := Node.pairwise_declarations hnumbers
  rw [← declarations_ofRows hperm hnumbers] at hdeclarations
  exact (List.pairwise_map (f := Row.declaration)).mp hdeclarations

/-! ## Lookup -/

/-- The table lists what the nodes declare in their order, and finds it under their numbers and
nothing under any other number. -/
structure Indexes (t : NameTable) (nodes : List Node) : Prop where
  rows : t.rows.map Row.declaration = Node.declarations nodes
  get? : ∀ node ∈ nodes, ∀ d, node.declaration? = some d →
    ∃ row ∈ t.rows, row.declaration = d ∧ t.get? d.id = some row ∧ t.nameOf? node = some row.name
  get?_eq_none : ∀ id, (∀ d ∈ Node.declarations nodes, d.id ≠ id) → t.get? id = none
  nameOf?_eq_none : ∀ node ∈ nodes, node.declaration? = none → t.nameOf? node = none

theorem get?_of_rows {t : NameTable} {nodes : List Node}
    (hrows : t.rows.map Row.declaration = Node.declarations nodes)
    (hnumbers : (Node.numbers nodes).Pairwise (· < ·)) {d : Declaration}
    (hd : d ∈ Node.declarations nodes) :
    ∃ row ∈ t.rows, row.declaration = d ∧ t.get? d.id = some row := by
  obtain ⟨first, hfirst, hdecl⟩ := List.mem_map.mp (hrows ▸ hd)
  have hfound : (t.get? d.id).isSome := by
    rw [NameTable.get?, List.find?_isSome]
    exact ⟨first, hfirst, decide_eq_true (congrArg Declaration.id hdecl)⟩
  obtain ⟨row, hrow⟩ := Option.isSome_iff_exists.mp hfound
  have hmem : row ∈ t.rows := List.mem_of_find?_eq_some hrow
  have hid : decide (row.id = d.id) = true := List.find?_some (p := fun r : Row => r.id = d.id) hrow
  have hlisted : row.declaration ∈ Node.declarations nodes := hrows ▸ List.mem_map_of_mem hmem
  exact ⟨row, hmem, Node.declaration_eq_of_id_eq hnumbers hlisted hd (of_decide_eq_true hid), hrow⟩

theorem get?_eq_none_of_rows {t : NameTable} {nodes : List Node}
    (hrows : t.rows.map Row.declaration = Node.declarations nodes) {id : Nat}
    (hid : ∀ d ∈ Node.declarations nodes, d.id ≠ id) : t.get? id = none := by
  refine List.find?_eq_none.mpr fun row hrow hsame => ?_
  exact hid row.declaration (hrows ▸ List.mem_map_of_mem hrow) (of_decide_eq_true hsame)

theorem nameOf?_of_declaration? {node : Node} {d : Declaration} (h : node.declaration? = some d)
    (t : NameTable) : t.nameOf? node = (t.get? d.id).map Row.name := by
  have hid := Node.id?_of_declaration? h
  rw [nameOf?.eq_def]
  split
  · exact absurd h nofun
  · rw [hid]; rfl

theorem indexes_of_rows {t : NameTable} {nodes : List Node}
    (hrows : t.rows.map Row.declaration = Node.declarations nodes)
    (hnumbers : (Node.numbers nodes).Pairwise (· < ·)) : t.Indexes nodes := by
  refine ⟨hrows, fun node hnode d hd => ?_, fun id => get?_eq_none_of_rows hrows, fun node hnode hd => ?_⟩
  · obtain ⟨row, hrow, hdecl, hget⟩ :=
      get?_of_rows hrows hnumbers (List.mem_filterMap.mpr ⟨node, hnode, hd⟩)
    refine ⟨row, hrow, hdecl, hget, ?_⟩
    rw [nameOf?_of_declaration? hd, hget]
    rfl
  · rw [nameOf?.eq_def]
    split
    · rfl
    cases hid : node.id? with
    | none => rfl
    | some id =>
      -- an enum constant without a body has a number that no row has
      have hget : t.get? id = none := get?_eq_none_of_rows hrows fun d' hd' hsame => by
        obtain ⟨node', hnode', hdecl'⟩ := List.mem_filterMap.mp hd'
        have hid' : node'.id? = some id := hsame ▸ Node.id?_of_declaration? hdecl'
        rw [Node.eq_of_id?_eq hnumbers hnode' hnode hid' hid, hd] at hdecl'
        exact absurd hdecl' nofun
      rw [Option.bind_some, hget]
      rfl

end NameTable

/-- **The table of names is complete.** Whatever the text, numbers increase in preorder through the
tree that is read from it, and the table indexes exactly what the nodes of the tree declare. -/
theorem Analysis.ofText_indexes (text : String) :
    ∃ analysis, Analysis.ofText text = .ok analysis ∧
      analysis.unit = (CompilationUnit.parse text).1 ∧
      (Node.numbers (analysis.unit.outline.map Prod.snd)).Pairwise (· < ·) ∧
      analysis.table.Indexes (analysis.unit.outline.map Prod.snd) := by
  have hnumbers : (Node.numbers (CompilationUnit.parse text).1.preorder).Pairwise (· < ·) :=
    CompilationUnit.numbers_ofLexemes (lex text)
  have hrows := NameTable.declarations_ofRows (CompilationUnit.parse text).1.numbered_perm hnumbers
  refine ⟨_, ofText_numbered text, rfl, ?_⟩
  rw [CompilationUnit.map_outline]
  exact ⟨hnumbers, NameTable.indexes_of_rows hrows hnumbers⟩

end Nomenclator
