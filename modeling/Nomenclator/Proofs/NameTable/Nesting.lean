/-
The graph of nesting is a forest that mirrors the names.

A declaration is named after its class, so the row of the class is there and
comes before. The graph points from the first row of that name, which may
be a row of another class if types share a name, but never of anything else
than a class. If types share no name then neither do other classes.
-/
import Mathlib
import Nomenclator.Nesting
import Nomenclator.Proofs.NameTable.Enclosing
import Nomenclator.Proofs.Numbering.Distinct

namespace Nomenclator

open scoped List

/-! ## Names and kinds -/

def DeclarationKind.isType : DeclarationKind → Bool
  | type _ => true
  | anonymousClass | method | constructor | lambda => false

def DeclarationKind.isClass : DeclarationKind → Bool
  | type _ | anonymousClass => true
  | method | constructor | lambda => false

/-- The name is one of a type that is declared with a name. -/
def QualifiedName.isDeclaredType (n : QualifiedName) : Bool := !n.isOperation && !n.isAnonymousClass

/-- What the row is can be told from its name. -/
structure Row.Fits (row : Row) : Prop where
  isClass : row.kind.isClass = !row.name.isOperation
  isType : row.kind.isType = row.name.isDeclaredType

namespace QualifiedName

theorem typeName_eq {n : QualifiedName} (h : n.operation = none) : n.typeName = n := by
  rw [typeName, ← h]

theorem enclosingType?_nested_of_class {c : QualifiedName} (h : c.operation = none) (s : Segment) :
    (c.nested s).enclosingType? = some c := by
  rw [enclosingType?_nested, typeName_eq h]

theorem enclosingType?_withOperation_of_class {c : QualifiedName} (h : c.operation = none) (o : Operation) :
    (c.withOperation o).enclosingType? = some c := by
  rw [enclosingType?_withOperation, typeName_eq h]

/-- What encloses is a class. -/
theorem isOperation_of_enclosingType? {n c : QualifiedName} (h : n.enclosingType? = some c) :
    c.isOperation = false := by
  rw [enclosingType?] at h
  split at h
  next => rw [← Option.some.inj h]; rfl
  next hoperation =>
    split at h
    · exact absurd h.symm (Option.some_ne_none _)
    · rw [← Option.some.inj h]
      exact Bool.eq_false_iff.mpr hoperation

end QualifiedName

theorem ClassEntry.isDeclaredType_ofType (isLocal : Bool) (name : String) (kind : TypeKind)
    (c : QualifiedName) (before : List Holding) :
    (c.nested ((ofType isLocal name kind).segmentAfter before)).isDeclaredType = true := by
  rw [QualifiedName.isDeclaredType, QualifiedName.isAnonymousClass, QualifiedName.innermost_nested]
  cases isLocal <;> rfl

theorem ClassEntry.isDeclaredType_anonymous (c : QualifiedName) (before : List Holding) :
    (c.nested (anonymous.segmentAfter before)).isDeclaredType = false := by
  rw [QualifiedName.isDeclaredType, QualifiedName.isAnonymousClass, QualifiedName.innermost_nested]
  rfl

/-! ## Rows are named after the row of their class -/

/-- Each declaration has a row, and its class has one that it is named after. -/
def Enclosed.Named (listed : List Enclosed) (outer : Row) (rows : List Row) : Prop :=
  ∀ e ∈ listed, ∃ row ∈ rows, row.declaration = e.inner ∧ row.Fits ∧
    ∃ parent ∈ outer :: rows, parent.declaration = e.outer ∧ row.name.enclosingType? = some parent.name

namespace Enclosed.Named

variable {listed more : List Enclosed} {outer row : Row} {rows rows' : List Row}

theorem nil : Named [] outer rows := nofun

theorem mono (h : Named listed outer rows) (hsub : rows ⊆ rows') : Named listed outer rows' := by
  intro e he
  obtain ⟨row, hrow, hinner, hfits, parent, hparent, hnamed⟩ := h e he
  exact ⟨row, hsub hrow, hinner, hfits, parent, List.cons_subset_cons _ hsub hparent, hnamed⟩

theorem append (h : Named listed outer rows) (h' : Named more outer rows') :
    Named (listed ++ more) outer (rows ++ rows') :=
  List.forall_mem_append.mpr ⟨h.mono (List.subset_append_left _ _), h'.mono (List.subset_append_right _ _)⟩

/-- An operation or lambda of the class, and what is in its code. -/
theorem declared (hfits : row.Fits) (hname : row.name.enclosingType? = some outer.name)
    (h : Named listed outer rows) :
    Named (⟨row.declaration, outer.declaration⟩ :: listed) outer (row :: rows) :=
  List.forall_mem_cons.mpr ⟨⟨row, List.mem_cons_self, rfl, hfits, outer, List.mem_cons_self, rfl, hname⟩,
    h.mono (List.subset_cons_self _ _)⟩

/-- A class of the class, and what it encloses itself. -/
theorem ofClass (hfits : row.Fits) (hname : row.name.enclosingType? = some outer.name)
    (h : Named listed row rows) :
    Named (⟨row.declaration, outer.declaration⟩ :: listed) outer (row :: rows) := by
  refine List.forall_mem_cons.mpr
    ⟨⟨row, List.mem_cons_self, rfl, hfits, outer, List.mem_cons_self, rfl, hname⟩, fun e he => ?_⟩
  obtain ⟨inner, hinner, heq, hfits, parent, hparent, hnamed⟩ := h e he
  exact ⟨inner, List.mem_cons_of_mem _ hinner, heq, hfits, parent, List.mem_cons_of_mem _ hparent, hnamed⟩

/-- An anonymous class, whose row comes behind those of what is in the arguments. -/
theorem withBody {before arguments held : List Holding} (hout : outer.name.operation = none) (id : Nat)
    (span : Span) (h : Named listed outer (Holding.rowsIn outer.name before arguments))
    (h' : ∀ name : QualifiedName, name.operation = none →
      Named more ⟨id, .anonymousClass, span, name⟩ (Holding.rowsIn name [] held)) :
    Named (⟨⟨id, .anonymousClass, span⟩, outer.declaration⟩ :: listed ++ more) outer (Holding.rowsIn
      outer.name before (arguments ++ [.ofClass .anonymous id .anonymousClass span held])) := by
  rw [Holding.rowsIn_append, Holding.rowsIn_singleton, Holding.nameIn_ofClass_eq, Holding.rows]
  have hfits : Row.Fits ⟨id, .anonymousClass, span, outer.name.nested
      (ClassEntry.anonymous.segmentAfter (before ++ arguments))⟩ :=
    ⟨rfl, (ClassEntry.isDeclaredType_anonymous _ _).symm⟩
  have hclass := ofClass hfits (QualifiedName.enclosingType?_nested_of_class hout _) (h' _ rfl)
  exact fun e he => (h.append hclass) e (List.perm_middle.symm.subset he)

end Enclosed.Named

theorem Row.fits_operation (kind : OperationKind) (id : Nat) (span : Span) (c : QualifiedName)
    (o : Operation) : Fits ⟨id, kind.declarationKind, span, c.withOperation o⟩ := by
  cases kind <;> exact ⟨rfl, rfl⟩

theorem Row.fits_lambda (id : Nat) (span : Span) (c : QualifiedName) (o : Operation) :
    Fits ⟨id, .lambda, span, c.withOperation o⟩ := ⟨rfl, rfl⟩

mutual

theorem TypeDecl.named (isLocal : Bool) (outer : Row) (hout : outer.name.operation = none)
    (before : List Holding) : ∀ decl : TypeDecl,
      Enclosed.Named (⟨decl.declaration, outer.declaration⟩ :: decl.enclosed) outer
        (Holding.rowsIn outer.name before [decl.holding isLocal])
  | .mk id kind name members span => by
    rw [TypeDecl.holding, Holding.rowsIn_singleton, Holding.nameIn_ofClass_eq, Holding.rows]
    have hfits : Row.Fits ⟨id, .type kind, span, outer.name.nested
        ((ClassEntry.ofType isLocal name kind).segmentAfter before)⟩ :=
      ⟨rfl, (ClassEntry.isDeclaredType_ofType ..).symm⟩
    have hmembers := Member.namedIn (.ofType isLocal name kind) ⟨id, .type kind, span, outer.name.nested
      ((ClassEntry.ofType isLocal name kind).segmentAfter before)⟩ rfl [] members
    exact .ofClass hfits (QualifiedName.enclosingType?_nested_of_class hout _) hmembers

theorem Member.named (entry : ClassEntry) (outer : Row) (hout : outer.name.operation = none)
    (before : List Holding) : ∀ m : Member, Enclosed.Named (m.enclosed outer.declaration) outer
      (Holding.rowsIn outer.name before (m.held entry))
  | .type decl _ => TypeDecl.named false outer hout before decl
  | .field _ code _ | .initializer _ code _ => CodeItem.namedIn _ outer hout before code
  | .constant _ _ arguments none _ => CodeItem.namedIn _ outer hout before arguments
  | .operation kind id name parameters none span => by
    rw [Member.held, Holding.rowsIn_singleton, Holding.nameIn_operation_eq, Holding.rows]
    exact .declared (Row.fits_operation ..) (QualifiedName.enclosingType?_withOperation_of_class hout _) .nil
  | .operation kind id name parameters (some code) span => by
    rw [Member.held, Holding.rowsIn, Holding.nameIn_operation_eq, Holding.rows, List.singleton_append]
    exact .declared (Row.fits_operation ..) (QualifiedName.enclosingType?_withOperation_of_class hout _)
      (CodeItem.namedIn _ outer hout _ code)
  | .constant id _ arguments (some members) span =>
    .withBody hout id span (CodeItem.namedIn _ outer hout before arguments) fun _ hname =>
      Member.namedIn .anonymous ⟨id, .anonymousClass, span, _⟩ hname [] members

theorem Member.namedIn (entry : ClassEntry) (outer : Row) (hout : outer.name.operation = none)
    (before : List Holding) : ∀ members : List Member,
      Enclosed.Named (Member.enclosedIn outer.declaration members) outer
        (Holding.rowsIn outer.name before (Member.heldBy entry members))
  | [] => .nil
  | m :: ms => by
    rw [Member.heldBy, Holding.rowsIn_append]
    exact (Member.named entry outer hout before m).append (Member.namedIn entry outer hout _ ms)

theorem CodeItem.named (host : Host) (outer : Row) (hout : outer.name.operation = none)
    (before : List Holding) : ∀ i : CodeItem, Enclosed.Named (i.enclosed outer.declaration) outer
      (Holding.rowsIn outer.name before (i.held host))
  | .localType decl => TypeDecl.named true outer hout before decl
  | .allocation _ _ arguments none _ => CodeItem.namedIn _ outer hout before arguments
  | .allocation id _ arguments (some members) span =>
    .withBody hout id span (CodeItem.namedIn _ outer hout before arguments) fun _ hname =>
      Member.namedIn .anonymous ⟨id, .anonymousClass, span, _⟩ hname [] members
  | .lambda id body span => by
    rw [CodeItem.held, Holding.rowsIn, Holding.nameIn, Holding.rows, List.singleton_append]
    exact .declared (Row.fits_lambda ..) (QualifiedName.enclosingType?_withOperation_of_class hout _)
      (CodeItem.namedIn _ outer hout _ body)

theorem CodeItem.namedIn (host : Host) (outer : Row) (hout : outer.name.operation = none)
    (before : List Holding) : ∀ code : List CodeItem,
      Enclosed.Named (CodeItem.enclosedIn outer.declaration code) outer
        (Holding.rowsIn outer.name before (CodeItem.heldIn host code))
  | [] => .nil
  | i :: is => by
    rw [CodeItem.heldIn, Holding.rowsIn_append]
    exact (CodeItem.named host outer hout before i).append (CodeItem.namedIn host outer hout _ is)

end

namespace CompilationUnit

variable {unit : CompilationUnit}

/-- The row of a type at the top level, and those of what it encloses. -/
theorem exists_rows_topLevel (package : List String) (decl : TypeDecl) :
    ∃ row rows, (decl.holding false).rows (.topLevel package decl.name) = row :: rows ∧
      row.declaration = decl.declaration ∧ row.name = .topLevel package decl.name ∧ row.Fits ∧
      Enclosed.Named decl.enclosed row rows := by
  obtain ⟨id, kind, name, members, span⟩ := decl
  rw [TypeDecl.holding, Holding.rows]
  have hmembers := Member.namedIn (.ofType false name kind) ⟨id, .type kind, span, .topLevel package name⟩ rfl
    [] members
  exact ⟨_, _, rfl, rfl, rfl, ⟨rfl, rfl⟩, hmembers⟩

theorem exists_row_of_type {decl : TypeDecl} (h : decl ∈ unit.types) :
    ∃ row ∈ unit.numbered, row.declaration = decl.declaration ∧ row.Fits ∧
      row.name.enclosingType? = none := by
  obtain ⟨row, rows, hrows, hdeclaration, hname, hfits, -⟩ := exists_rows_topLevel unit.package decl
  exact ⟨row, List.mem_flatMap_of_mem h (hrows ▸ List.mem_cons_self), hdeclaration, hfits, by rw [hname]; rfl⟩

theorem exists_row_of_enclosed {e : Enclosed} (h : e ∈ unit.enclosed) :
    ∃ row ∈ unit.numbered, row.declaration = e.inner ∧ row.Fits ∧
      ∃ parent ∈ unit.numbered, parent.declaration = e.outer ∧
        row.name.enclosingType? = some parent.name := by
  obtain ⟨decl, hdecl, he⟩ := List.mem_flatMap.mp h
  obtain ⟨top, rows, hrows, -, -, -, hnamed⟩ := exists_rows_topLevel unit.package decl
  obtain ⟨row, hrow, hinner, hfits, parent, hparent, houter⟩ := hnamed e he
  have hsub : top :: rows ⊆ unit.numbered := hrows ▸ fun _ hmem => List.mem_flatMap_of_mem hdecl hmem
  exact ⟨row, hsub (List.mem_cons_of_mem _ hrow), hinner, hfits, parent, hsub hparent, houter⟩

end CompilationUnit

/-! ## The rows of the table -/

/-- A row is one of a type at the top level, or there is one of its class before it. -/
structure NameTable.Nests (t : NameTable) (unit : CompilationUnit) : Prop where
  increasing : t.rows.Pairwise fun a b => a.id < b.id
  fits : ∀ row ∈ t.rows, row.Fits
  top : ∀ row ∈ t.rows, row.name.enclosingType? = none ↔ row.declaration ∈ unit.types.map TypeDecl.declaration
  enclosed : ∀ row ∈ t.rows, ∀ outer, row.name.enclosingType? = some outer →
    ∃ parent ∈ t.rows, parent.id < row.id ∧ parent.name = outer ∧
      ⟨row.declaration, parent.declaration⟩ ∈ unit.enclosed

theorem NameTable.nests_ofRows {unit : CompilationUnit} (h : (Node.numbers unit.preorder).Pairwise (· < ·)) :
    (ofRows unit.numbered).Nests unit := by
  have hincreasing := increasing_ofRows unit.numbered_perm h
  have hrows := declarations_ofRows unit.numbered_perm h
  have hperm := perm_ofRows unit.numbered
  generalize ofRows unit.numbered = t at hincreasing hrows hperm
  have hsame {row row' : Row} (hrow : row ∈ t.rows) (hrow' : row' ∈ unit.numbered)
      (heq : row'.declaration = row.declaration) : row' = row := by
    have hnodup : (t.rows.map Row.id).Nodup := List.pairwise_map.mpr (hincreasing.imp Nat.ne_of_lt)
    exact List.inj_on_of_nodup_map hnodup (hperm.symm.subset hrow') hrow (congrArg Declaration.id heq)
  have htop {row : Row} (hrow : row ∈ t.rows) (hd : row.declaration ∈ unit.types.map TypeDecl.declaration) :
      row.Fits ∧ row.name.enclosingType? = none := by
    obtain ⟨decl, hdecl, heq⟩ := List.mem_map.mp hd
    obtain ⟨row', hrow', heq', hrest⟩ := CompilationUnit.exists_row_of_type hdecl
    exact hsame hrow hrow' (heq'.trans heq) ▸ hrest
  have hinner {row : Row} (hrow : row ∈ t.rows) {e : Enclosed} (he : e ∈ unit.enclosed)
      (heq : e.inner = row.declaration) : row.Fits ∧ ∃ parent ∈ t.rows, parent.id < row.id ∧
        row.name.enclosingType? = some parent.name ∧
          ⟨row.declaration, parent.declaration⟩ ∈ unit.enclosed := by
    obtain ⟨row', hrow', hinner, hfits, parent, hparent, houter, hname⟩ :=
      CompilationUnit.exists_row_of_enclosed he
    obtain rfl := hsame hrow hrow' (hinner.trans heq)
    have hlt := CompilationUnit.outer_lt h he
    rw [← houter, heq] at hlt
    exact ⟨hfits, parent, hperm.symm.subset hparent, hlt, hname, by rw [houter, ← heq]; exact he⟩
  have hcases {row : Row} (hrow : row ∈ t.rows) := unit.mem_declarations (hrows ▸ List.mem_map_of_mem hrow)
  refine ⟨hincreasing, fun row hrow => ?_, fun row hrow => ⟨fun hnone => ?_, fun hd => (htop hrow hd).2⟩,
    fun row hrow outer houter => ?_⟩
  · rcases hcases hrow with hd | ⟨e, he, heq⟩
    · exact (htop hrow hd).1
    · exact (hinner hrow he heq).1
  · refine (hcases hrow).resolve_right fun ⟨e, he, heq⟩ => ?_
    obtain ⟨-, parent, -, -, hname, -⟩ := hinner hrow he heq
    exact absurd (hnone.symm.trans hname) nofun
  · rcases hcases hrow with hd | ⟨e, he, heq⟩
    · exact absurd ((htop hrow hd).2.symm.trans houter) nofun
    · obtain ⟨-, parent, hparent, hlt, hname, hlisted⟩ := hinner hrow he heq
      exact ⟨parent, hparent, hlt, Option.some.inj (hname.symm.trans houter), hlisted⟩

/-! ## Types of different names -/

/-- The names of the types that are declared with a name. -/
abbrev Row.typeNames (rows : List Row) : List QualifiedName :=
  (rows.map Row.name).filter QualifiedName.isDeclaredType

namespace Holding

theorem memberTypes_sublist (c : QualifiedName) (before held : List Holding) :
    (held.filterMap memberType?).map (fun name => c.nested (.named name)) <+
      Row.typeNames (rowsIn c before held) := by
  induction held generalizing before with
  | nil => exact .slnil
  | cons h hs ih =>
    rw [rowsIn, Row.typeNames, List.map_append, List.filter_append]
    cases hname : h.memberType? with
    | none =>
      rw [List.filterMap_cons_none hname]
      exact (ih _).trans (List.sublist_append_right _ _)
    | some name =>
      rw [List.filterMap_cons_some hname, List.map_cons]
      match h, hname with
      | ofClass (.named name typeKind) id kind span held, rfl =>
        have htype : (c.nested ((ClassEntry.named name typeKind).segmentAfter before)).isDeclaredType :=
          ClassEntry.isDeclaredType_ofType false name typeKind c before
        rw [nameIn_ofClass_eq, rows, List.map_cons, List.filter_cons_of_pos htype]
        exact .cons_cons _ ((ih _).trans (List.sublist_append_right _ _))

mutual

theorem typesDiffer_of_rows (h : Holding) {name : QualifiedName} (hn : (Row.typeNames (h.rows name)).Nodup) :
    TypesDiffer h.bodies :=
  match h with
  | operation .. | lambda .. => nofun
  | ofClass entry id kind span held => by
    rw [rows] at hn
    have hheld : (Row.typeNames (rowsIn name [] held)).Nodup :=
      hn.sublist (((List.sublist_cons_self _ _).map _).filter _)
    exact List.forall_mem_cons.mpr
      ⟨.of_map _ (hheld.sublist (memberTypes_sublist name [] held)), typesDiffer_of_rowsIn held hheld⟩

theorem typesDiffer_of_rowsIn (held : List Holding) {c : QualifiedName} {before : List Holding}
    (hn : (Row.typeNames (rowsIn c before held)).Nodup) : TypesDiffer (bodiesOf held) :=
  match held with
  | [] => nofun
  | h :: hs => by
    rw [rowsIn, Row.typeNames, List.map_append, List.filter_append] at hn
    exact List.forall_mem_append.mpr
      ⟨typesDiffer_of_rows h hn.of_append_left, typesDiffer_of_rowsIn hs hn.of_append_right⟩

end

end Holding

theorem CompilationUnit.typeNames_numbered (unit : CompilationUnit) :
    Row.typeNames unit.numbered = unit.types.flatMap fun decl =>
      Row.typeNames ((decl.holding false).rows (.topLevel unit.package decl.name)) := by
  rw [Row.typeNames, numbered, List.map_flatMap, List.filter_flatMap]

theorem CompilationUnit.topLevel_sublist (unit : CompilationUnit) :
    (unit.types.map TypeDecl.name).map (QualifiedName.topLevel unit.package) <+
      Row.typeNames unit.numbered := by
  rw [typeNames_numbered, List.map_map, List.map_eq_flatMap]
  refine List.Sublist.flatMap_right _ fun decl _ => ?_
  obtain ⟨row, rows, hrows, -, hname, -⟩ := exists_rows_topLevel unit.package decl
  rw [hrows, Row.typeNames, List.map_cons, hname, List.filter_cons_of_pos rfl]
  exact .cons_cons _ (List.nil_sublist _)

/-- If types share no name, then nothing but operations does. -/
theorem CompilationUnit.not_isClass_of_name_eq {unit : CompilationUnit}
    (h : (Row.typeNames unit.numbered).Nodup) {row row' : Row} (hrow : row ∈ unit.numbered)
    (hrow' : row' ∈ unit.numbered) (hne : row ≠ row') (hname : row.name = row'.name) :
    row.kind.isClass = false := by
  have hheld (decl : TypeDecl) (hdecl : decl ∈ unit.types) :
      Holding.TypesDiffer (decl.holding false).bodies := by
    rw [typeNames_numbered] at h
    exact Holding.typesDiffer_of_rows _ ((List.nodup_flatMap.mp h).1 decl hdecl)
  have hpairs := pairwise_numbered (.of_map _ (h.sublist unit.topLevel_sublist)) hheld
  have hoperations : unit.numbered.Pairwise fun first second =>
      first.name = second.name → first.kind.hasParameters = true ∧ second.kind.hasParameters = true :=
    hpairs.imp fun himp hname => by
      obtain ⟨-, -, -, -, ⟨hfirst, -⟩, hsecond⟩ := (himp hname).operations
      exact ⟨hfirst, hsecond⟩
  have hsymm : Std.Symm fun first second : Row =>
      first.name = second.name → first.kind.hasParameters = true ∧ second.kind.hasParameters = true :=
    ⟨fun _ _ himp hname => (himp hname.symm).symm⟩
  have hparameters := (hoperations.forall hrow hrow' hne hname).1
  cases hkind : row.kind with
  | method | constructor => rfl
  | type | anonymousClass | lambda =>
    rw [hkind] at hparameters
    exact absurd hparameters nofun

/-! ## Positions and edges -/

namespace Nesting

variable {t : NameTable} {i p : Nat} {row : Row} {name : QualifiedName}

theorem position?_eq_some : position? t name = some p ↔
    ∃ first, t.rows[p]? = some first ∧ first.name = name ∧
      ∀ j < p, ∀ other, t.rows[j]? = some other → other.name ≠ name := by
  rw [position?, List.findIdx?_eq_some_iff_getElem]
  constructor
  · intro ⟨hp, hname, hbefore⟩
    refine ⟨_, List.getElem?_eq_getElem hp, of_decide_eq_true hname, fun j hj other hother heq => ?_⟩
    obtain ⟨hjt, rfl⟩ := List.getElem?_eq_some_iff.mp hother
    exact hbefore j hj (decide_eq_true heq)
  · intro ⟨first, hfirst, hname, hbefore⟩
    obtain ⟨hp, rfl⟩ := List.getElem?_eq_some_iff.mp hfirst
    refine ⟨hp, decide_eq_true hname, fun j hj heq => ?_⟩
    exact hbefore j hj _ (List.getElem?_eq_getElem _) (of_decide_eq_true heq)

theorem mem_edges : (p, i) ∈ edges t ↔ ∃ row, t.rows[i]? = some row ∧ parent? t row = some p := by
  rw [edges, List.mem_filterMap]
  constructor
  · intro ⟨⟨row, child⟩, hmem, hedge⟩
    obtain ⟨parent, hparent, heq⟩ := Option.map_eq_some_iff.mp hedge
    obtain ⟨rfl, rfl⟩ := Prod.mk.inj heq
    exact ⟨row, List.mem_zipIdx_iff_getElem?.mp hmem, hparent⟩
  · intro ⟨row, hrow, hparent⟩
    exact ⟨(row, i), List.mem_zipIdx_iff_getElem?.mpr hrow, congrArg (Option.map fun p => (p, i)) hparent⟩

theorem pairwise_edges (t : NameTable) : (edges t).Pairwise fun e e' => e.2 < e'.2 := by
  have hpositions : t.rows.zipIdx.Pairwise fun a b => a.2 < b.2 := by
    have hincreasing : (t.rows.zipIdx.map Prod.snd).Pairwise (· < ·) := by
      rw [List.zipIdx_map_snd]
      exact List.pairwise_lt_range'
    exact List.pairwise_map.mp hincreasing
  refine List.pairwise_filterMap.mpr (hpositions.imp fun hlt e he e' he' => ?_)
  obtain ⟨_, -, rfl⟩ := Option.map_eq_some_iff.mp he
  obtain ⟨_, -, rfl⟩ := Option.map_eq_some_iff.mp he'
  exact hlt

/-- One edge leads to a row with a parent, and none to others. -/
theorem incoming_eq (hrow : t.rows[i]? = some row) :
    (edges t).filter (fun e => e.2 = i) = (parent? t row).toList.map fun p => (p, i) := by
  have hedges {p : Nat} (h : (p, i) ∈ edges t) : parent? t row = some p := by
    obtain ⟨row', hrow', hparent⟩ := mem_edges.mp h
    rwa [Option.some.inj (hrow'.symm.trans hrow)] at hparent
  have hnodup : (edges t).Nodup :=
    (pairwise_edges t).imp fun hlt heq => absurd (congrArg Prod.snd heq) (Nat.ne_of_lt hlt)
  cases hparent : parent? t row with
  | none =>
    refine List.filter_eq_nil_iff.mpr fun e he hi => ?_
    obtain ⟨p, j⟩ := e
    obtain rfl : j = i := of_decide_eq_true hi
    exact absurd (hparent.symm.trans (hedges he)) nofun
  | some p =>
    have hpair : [(p, i)].Nodup := List.nodup_singleton _
    refine List.perm_singleton.mp ((List.perm_ext_iff_of_nodup (hnodup.filter _) hpair).mpr ?_)
    rintro ⟨q, j⟩
    rw [List.mem_filter, List.mem_singleton, decide_eq_true_iff]
    constructor
    · rintro ⟨he, rfl⟩
      rw [Option.some.inj ((hedges he).symm.trans hparent)]
    · intro he
      obtain ⟨rfl, rfl⟩ := Prod.mk.inj he
      exact ⟨mem_edges.mpr ⟨row, hrow, hparent⟩, rfl⟩

theorem position_lt {q : Nat} {row' : Row} (h : t.rows.Pairwise fun a b => a.id < b.id)
    (hrow : t.rows[q]? = some row) (hrow' : t.rows[i]? = some row') (hlt : row.id < row'.id) : q < i := by
  obtain ⟨hq, rfl⟩ := List.getElem?_eq_some_iff.mp hrow
  obtain ⟨hi, rfl⟩ := List.getElem?_eq_some_iff.mp hrow'
  rcases Nat.lt_trichotomy q i with hbefore | rfl | hbehind
  · exact hbefore
  · exact absurd hlt (Nat.lt_irrefl _)
  · exact absurd (List.pairwise_iff_getElem.mp h i q hi hq hbehind) (Nat.lt_asymm hlt)

/-! ## The forest -/

/-- The graph is a forest of the rows that mirrors their names and, unless types share a name, the tree. -/
structure Mirrors (t : NameTable) (unit : CompilationUnit) : Prop where
  /-- Names without an enclosing class are those of the types at the top level. -/
  top : ∀ row ∈ t.rows, row.name.enclosingType? = none ↔ row.declaration ∈ unit.types.map TypeDecl.declaration
  /-- No edge leads to a type at the top level. -/
  root : ∀ i row, t.rows[i]? = some row → row.name.enclosingType? = none →
    (edges t).filter (fun e => e.2 = i) = []
  /-- One edge leads to each other row, from the first row of its enclosing class. -/
  child : ∀ i row outer, t.rows[i]? = some row → row.name.enclosingType? = some outer →
    ∃ p parent, (edges t).filter (fun e => e.2 = i) = [(p, i)] ∧ p < i ∧ t.rows[p]? = some parent ∧
      parent.kind.isClass = true ∧ parent.name = outer ∧
      ∀ j < p, ∀ other, t.rows[j]? = some other → other.name ≠ outer
  /-- All edges lead to rows. -/
  rows : ∀ e ∈ edges t, e.2 < t.rows.length
  /-- Following edges backwards ends in a type at the top level. -/
  rooted : ∀ i < t.rows.length, ∃ r row, Relation.ReflTransGen (fun p i => (p, i) ∈ edges t) r i ∧
    t.rows[r]? = some row ∧ row.name.enclosingType? = none
  /-- Unless types share a name, edges lead from the innermost class around a declaration. -/
  lexical : ((t.rows.filter fun row => row.kind.isType).map Row.name).Nodup →
    ∀ p i parent row, (p, i) ∈ edges t → t.rows[p]? = some parent → t.rows[i]? = some row →
      ⟨row.declaration, parent.declaration⟩ ∈ unit.enclosed

section

variable {unit : CompilationUnit} (h : t.Nests unit)
include h

/-- Only classes have the name of an enclosing class. -/
theorem isClass_of_enclosing {parent : Row} (hparent : parent ∈ t.rows)
    (hname : row.name.enclosingType? = some parent.name) : parent.kind.isClass = true := by
  rw [(h.fits parent hparent).isClass, QualifiedName.isOperation_of_enclosingType? hname]
  rfl

/-- The first row of the enclosing class is one of a class, and comes before. -/
theorem parent?_eq_some (hrow : t.rows[i]? = some row) {outer : QualifiedName}
    (houter : row.name.enclosingType? = some outer) :
    ∃ p parent, parent? t row = some p ∧ p < i ∧ t.rows[p]? = some parent ∧ parent.kind.isClass = true ∧
      parent.name = outer ∧ ∀ j < p, ∀ other, t.rows[j]? = some other → other.name ≠ outer := by
  obtain ⟨lexical, hlexical, hlt, hname, -⟩ := h.enclosed row (List.mem_of_getElem? hrow) outer houter
  obtain ⟨q, hq⟩ := List.mem_iff_getElem?.mp hlexical
  have hbefore : q < i := position_lt h.increasing hq hrow hlt
  have hfound : (position? t outer).isSome := by
    rw [position?, List.findIdx?_isSome, List.any_eq_true]
    exact ⟨lexical, hlexical, decide_eq_true hname⟩
  obtain ⟨p, hp⟩ := Option.isSome_iff_exists.mp hfound
  obtain ⟨parent, hparent, hparentName, hfirst⟩ := position?_eq_some.mp hp
  have hle : p ≤ q := Nat.le_of_not_lt fun hqp => hfirst q hqp lexical hq hname
  have hclass := isClass_of_enclosing h (List.mem_of_getElem? hparent) (hparentName ▸ houter)
  refine ⟨p, parent, ?_, Nat.lt_of_le_of_lt hle hbefore, hparent, hclass, hparentName, hfirst⟩
  rw [parent?, houter]
  exact hp

/-- The way back from a row goes over rows that come before. -/
theorem exists_root (hi : i < t.rows.length) :
    ∃ r row, Relation.ReflTransGen (fun p i => (p, i) ∈ edges t) r i ∧ t.rows[r]? = some row ∧
      row.name.enclosingType? = none := by
  induction i using Nat.strongRecOn with
  | ind i ih =>
    have hrow := List.getElem?_eq_getElem hi
    cases houter : t.rows[i].name.enclosingType? with
    | none => exact ⟨i, _, .refl, hrow, houter⟩
    | some outer =>
      obtain ⟨p, parent, hparent, hlt, -⟩ := parent?_eq_some h hrow houter
      obtain ⟨r, root, hpath, hroot⟩ := ih p hlt (Nat.lt_trans hlt hi)
      exact ⟨r, root, hpath.tail (mem_edges.mpr ⟨_, hrow, hparent⟩), hroot⟩

theorem typeNames_eq : (t.rows.filter fun row => row.kind.isType).map Row.name = Row.typeNames t.rows := by
  rw [Row.typeNames, List.filter_map]
  exact congrArg _ (List.filter_congr fun row hrow => (h.fits row hrow).isType)

/-- Unless types share a name, the row that an edge leads from is that of the class around. -/
theorem enclosed_of_edge (hperm : t.rows ~ unit.numbered) (hnodup : (Row.typeNames unit.numbered).Nodup)
    {parent : Row} (he : (p, i) ∈ edges t) (hparent : t.rows[p]? = some parent)
    (hrow : t.rows[i]? = some row) : ⟨row.declaration, parent.declaration⟩ ∈ unit.enclosed := by
  obtain ⟨row', hrow', hfound⟩ := mem_edges.mp he
  obtain rfl := Option.some.inj (hrow.symm.trans hrow')
  obtain ⟨outer, houter, hposition⟩ := Option.bind_eq_some_iff.mp hfound
  obtain ⟨around, haround, -, rfl, hlisted⟩ := h.enclosed row (List.mem_of_getElem? hrow) outer houter
  obtain ⟨parent', hparent', hname, -⟩ := position?_eq_some.mp hposition
  obtain rfl := Option.some.inj (hparent.symm.trans hparent')
  have hmem := List.mem_of_getElem? hparent
  have hequal : parent = around := by
    by_contra hne
    have hoperation := CompilationUnit.not_isClass_of_name_eq hnodup (hperm.subset hmem)
      (hperm.subset haround) hne hname
    exact absurd ((isClass_of_enclosing h hmem (hname ▸ houter)).symm.trans hoperation) nofun
  exact hequal ▸ hlisted

end

theorem mirrors_ofRows {unit : CompilationUnit} (h : (Node.numbers unit.preorder).Pairwise (· < ·)) :
    Mirrors (.ofRows unit.numbered) unit := by
  have hnests := NameTable.nests_ofRows h
  have hperm := NameTable.perm_ofRows unit.numbered
  refine ⟨hnests.top, fun i row hrow hnone => ?_, fun i row outer hrow houter => ?_, fun e he => ?_,
    fun i hi => exists_root hnests hi, fun hnodup p i parent row he hparent hrow => ?_⟩
  · rw [incoming_eq hrow, parent?, hnone]
    rfl
  · obtain ⟨p, parent, hparent, hrest⟩ := parent?_eq_some hnests hrow houter
    exact ⟨p, parent, by rw [incoming_eq hrow, hparent]; rfl, hrest⟩
  · obtain ⟨row, hrow, -⟩ := mem_edges.mp he
    exact (List.getElem?_eq_some_iff.mp hrow).1
  · rw [typeNames_eq hnests] at hnodup
    exact enclosed_of_edge hnests hperm (((hperm.map _).filter _).nodup_iff.mp hnodup) he hparent hrow

end Nesting

/-- **The graph of nesting is a forest that mirrors the names**, whatever the text. -/
theorem Analysis.ofText_mirrors (text : String) :
    ∃ analysis, Analysis.ofText text = .ok analysis ∧ analysis.unit = (CompilationUnit.parse text).1 ∧
      Nesting.Mirrors analysis.table analysis.unit := by
  have hnumbers : (Node.numbers (CompilationUnit.parse text).1.preorder).Pairwise (· < ·) :=
    CompilationUnit.numbers_ofLexemes (lex text)
  exact ⟨_, ofText_numbered text, rfl, Nesting.mirrors_ofRows hnumbers⟩

/-- The lambda is in the arguments of the anonymous class, and so is enclosed by the class around both. -/
def Analysis.argumentsText : String := "class A { class B {} B b = new B(y -> 1) {}; }"

theorem Analysis.ofText_argumentsText :
    ∃ analysis, Analysis.ofText argumentsText = .ok analysis ∧
      ((analysis.table.rows.filter fun row => row.kind.isType).map Row.name).Nodup ∧
      ∀ p i parent row, (p, i) ∈ Nesting.edges analysis.table → analysis.table.rows[p]? = some parent →
        analysis.table.rows[i]? = some row →
          ⟨row.declaration, parent.declaration⟩ ∈ analysis.unit.enclosed := by
  obtain ⟨analysis, hok, -, hmirrors⟩ := Analysis.ofText_mirrors argumentsText
  have htypes : ((analysis.table.rows.filter fun row => row.kind.isType).map Row.name).Nodup := by
    obtain ⟨names, hnames, hnodup⟩ : ∃ names, ((Analysis.ofText argumentsText).toOption.map fun a =>
        (a.table.rows.filter fun row => row.kind.isType).map Row.name) = some names ∧ names.Nodup :=
      ⟨[⟨[], "A", [], none⟩, ⟨[], "A", [.named "B"], none⟩], by cbv, by decide⟩
    rw [hok] at hnames
    obtain rfl := Option.some.inj hnames
    exact hnodup
  exact ⟨analysis, hok, htypes, hmirrors.lexical htypes⟩

end Nomenclator
