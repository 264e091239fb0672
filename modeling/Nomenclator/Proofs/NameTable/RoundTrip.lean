/-
From a source text to the texts of its names and back.

What is declared in a text is given names whose classes and operations keep
to the name grammar, because the tree can be named and has no more nodes
than an index can count. The packages are as written in the text, and they
alone decide whether the names are read back.
-/
import Mathlib
import Nomenclator.NameTable.Analysis
import Nomenclator.Proofs.Grammar.Shape
import Nomenclator.Proofs.Name.Spelled
import Nomenclator.Proofs.Numbering.Walk

namespace Nomenclator

open Text

/-! ## Names that are well-formed up to their packages -/

namespace QualifiedName

structure Regular (packages : List String) (n : QualifiedName) : Prop where
  packages : n.packages = packages
  classes : ∀ s ∈ n.classes, s.WellFormed
  operation : ∀ o ∈ n.operation, o.WellFormed

namespace Regular

variable {packages : List String} {n : QualifiedName}

/-- Only the packages can keep the name from being read back. -/
theorem read?_render_iff (h : n.Regular packages) :
    read? n.render = some n ↔ ∀ p ∈ packages, isPackage p.toList = true := by
  rw [read?, render, String.toList_ofList, readWritten?_eq_some_iff, ← h.packages]
  exact ⟨fun hn => hn.1.packages, fun hp => ⟨⟨hp, h.classes, h.operation⟩, rfl⟩⟩

/-- If a package is refused, so is the name, and it is not taken for another one either. -/
theorem read?_render_eq_none (h : n.Regular packages)
    (hwords : ∀ p ∈ packages, '.' ∉ p.toList ∧ '#' ∉ p.toList)
    (hbad : ∃ p ∈ packages, isPackage p.toList = false) : read? n.render = none := by
  rw [read?, render, String.toList_ofList, Option.eq_none_iff_forall_ne_some]
  intro m hm
  obtain ⟨hwf, hwritten⟩ := readWritten?_eq_some_iff.mp hm
  obtain rfl := h.packages
  have hpackages : m.packages = n.packages := by
    refine (eq_of_written_eq (fun p hp => ?_) (fun s hs => (hwf.classes s hs).isWord) hwords
      (fun s hs => (h.classes s hs).isWord) hwritten).1
    have hp := hwf.packages p hp
    exact ⟨not_mem_of_isPackage hp rfl, not_mem_of_isPackage hp rfl⟩
  obtain ⟨p, hp, hno⟩ := hbad
  rw [← hpackages] at hp
  rw [hwf.packages p hp] at hno
  exact Bool.noConfusion hno

end Regular

theorem Spelled.regular {packages : List String} {n : QualifiedName} (h : n.Spelled Decimal.bound packages) :
    n.Regular packages :=
  ⟨h.packages, fun s hs => s.spelled_iff.mp (h.classes s hs),
    fun o ho => o.spelled_iff.mp (h.operation o ho)⟩

end QualifiedName

/-! ## How many holdings there are -/

mutual

theorem Member.length_held_le (entry : ClassEntry) : ∀ m : Member, (m.held entry).length ≤ m.nodes
  | .type (.mk ..) _ => Nat.succ_le_succ (Nat.zero_le _)
  | .field _ code _ | .initializer _ code _ => CodeItem.length_heldIn_le _ code
  | .operation _ _ _ _ none _ => Nat.le_refl 1
  | .operation _ _ _ _ (some code) _ => Nat.succ_le_succ (CodeItem.length_heldIn_le _ code)
  | .constant _ _ arguments none _ => Nat.le_succ_of_le (CodeItem.length_heldIn_le _ arguments)
  | .constant _ _ arguments (some members) _ => by
    have h := CodeItem.length_heldIn_le .static arguments
    rw [Member.held, List.length_append, List.length_singleton, Member.nodes]
    omega

theorem Member.length_heldBy_le (entry : ClassEntry) : ∀ ms : List Member,
    (Member.heldBy entry ms).length ≤ Member.nodesOf ms
  | [] => Nat.le_refl 0
  | m :: ms => by
    rw [Member.heldBy, List.length_append, Member.nodesOf]
    exact Nat.add_le_add (Member.length_held_le entry m) (Member.length_heldBy_le entry ms)

theorem CodeItem.length_held_le (host : Host) : ∀ i : CodeItem, (i.held host).length ≤ i.nodes
  | .localType (.mk ..) => Nat.succ_le_succ (Nat.zero_le _)
  | .allocation _ _ arguments none _ => Nat.le_succ_of_le (CodeItem.length_heldIn_le host arguments)
  | .allocation _ _ arguments (some members) _ => by
    have h := CodeItem.length_heldIn_le host arguments
    rw [CodeItem.held, List.length_append, List.length_singleton, CodeItem.nodes]
    omega
  | .lambda _ body _ => Nat.succ_le_succ (CodeItem.length_heldIn_le host body)

theorem CodeItem.length_heldIn_le (host : Host) : ∀ is : List CodeItem,
    (CodeItem.heldIn host is).length ≤ CodeItem.nodesOf is
  | [] => Nat.le_refl 0
  | i :: is => by
    rw [CodeItem.heldIn, List.length_append, CodeItem.nodesOf]
    exact Nat.add_le_add (CodeItem.length_held_le host i) (CodeItem.length_heldIn_le host is)

end

/-! ## Names of rows -/

def RowsSpelled (limit : Nat) (packages : List String) (rows : List Row) : Prop :=
  ∀ row ∈ rows, row.name.Spelled limit packages

/-- The class that is entered so has a name that keeps to the grammar, and gives no other names to
its members. -/
structure ClassEntry.Spelled (limit : Nat) (packages : List String) (inType : Prop) (entry : ClassEntry)
    (c : QualifiedName) : Prop where
  name : c.Spelled limit packages
  fieldHost : ∀ isStatic, (entry.fieldHost isStatic).WellFormed
  simpleName : inType → isIdentifier c.declaredSimpleName.toList = true

theorem IsSimpleName.host {name : String} (h : IsSimpleName name) : (Host.member name).WellFormed :=
  .inr ⟨h.identifier, h.ne_static, h.ne_new⟩

theorem initializerHost_wellFormed (isStatic : Bool) : (initializerHost isStatic).WellFormed := by
  cases isStatic <;> trivial

theorem OperationKind.Named.bodyHost {kind : OperationKind} {inType : Prop} {name : String}
    (h : kind.Named inType name) : (kind.bodyHost name).WellFormed := by
  cases kind with
  | method => exact IsSimpleName.host h
  | constructor => trivial

theorem ClassEntry.fieldHost_ofType {name : String} (h : IsSimpleName name) (isLocal : Bool)
    (kind : TypeKind) (isStatic : Bool) :
    ((ClassEntry.ofType isLocal name kind).fieldHost isStatic).WellFormed := by
  cases isLocal with
  | false =>
    show (if _ then Host.static else Host.new).WellFormed
    split <;> trivial
  | true =>
    show (if _ then Host.static else Host.member name).WellFormed
    split
    · trivial
    · exact h.host

namespace Holding

variable {limit : Nat} {packages : List String} {c : QualifiedName} {before : List Holding}

theorem spelled_ofClass {name : QualifiedName} (hname : name.Spelled limit packages) {held : List Holding}
    (hheld : RowsSpelled limit packages (rowsIn name [] held)) (entry : ClassEntry) (id : Nat)
    (kind : DeclarationKind) (span : Span) :
    RowsSpelled limit packages ((ofClass entry id kind span held).rows name) := by
  rw [rows]
  exact List.forall_mem_cons.mpr ⟨hname, hheld⟩

theorem spelled_operation {entry : ClassEntry} {inType : Prop} (hc : entry.Spelled limit packages inType c)
    {kind : OperationKind} {name : String} (hname : kind.Named inType name) {parameters : List Parameter}
    (hparameters : ∀ p ∈ parameters, p.IsTyped) (id : Nat) (span : Span) :
    ((operation kind id name (parameters.map Parameter.type) span).nameIn c before).Spelled limit packages := by
  have htypes : ∀ t ∈ parameters.map Parameter.type, Operation.isParameter t.toList = true := by
    intro t ht
    obtain ⟨p, hp, rfl⟩ := List.mem_map.mp ht
    exact IsTypeText.isParameter (hparameters p hp)
  cases kind with
  | method => exact hc.name.withOperation ⟨IsSimpleName.identifier hname, htypes⟩
  | constructor => exact hc.name.withOperation ⟨hc.simpleName hname, htypes⟩

theorem spelled_lambda (hc : c.Spelled limit packages) {host : Host} (hh : host.WellFormed)
    (hn : before.length < limit) (id : Nat) (span : Span) :
    ((lambda host id span).nameIn c before).Spelled limit packages :=
  hc.withOperation ⟨hh, Nat.lt_of_le_of_lt List.countP_le_length hn⟩

/-- No constructor is in an anonymous class, which has no name to give it. -/
theorem spelled_anonymous (hc : c.Spelled limit packages) (hn : before.length + 1 < limit) :
    ClassEntry.anonymous.Spelled limit packages False (c.nested (.anonymous (before.countP isAnonymous + 1))) :=
  ⟨hc.nested ⟨Nat.succ_pos _, Nat.lt_of_le_of_lt (Nat.succ_le_succ List.countP_le_length) hn⟩,
    fun _ => Or.inl rfl, False.elim⟩

/-- What an allocation or enum constant with a body holds: what its arguments hold, then the class. -/
theorem spelled_withBody (hc : c.Spelled limit packages) {arguments held : List Holding}
    (hn : before.length + arguments.length + 1 < limit)
    (harguments : RowsSpelled limit packages (rowsIn c before arguments))
    (hheld : ∀ {d : QualifiedName}, ClassEntry.anonymous.Spelled limit packages False d →
      RowsSpelled limit packages (rowsIn d [] held)) (id : Nat) (kind : DeclarationKind) (span : Span) :
    RowsSpelled limit packages (rowsIn c before (arguments ++ [ofClass .anonymous id kind span held])) := by
  have hone : (before ++ arguments).length + 1 < limit := by
    rw [List.length_append]
    exact hn
  have hclass := spelled_anonymous hc hone
  rw [rowsIn_append, rowsIn_singleton]
  exact List.forall_mem_append.mpr
    ⟨harguments, spelled_ofClass hclass.name (hheld hclass) .anonymous id kind span⟩

end Holding

/-- A type declared in class `c` is told apart by a segment that has its name. -/
theorem TypeDecl.nameIn_holding {limit : Nat} (isLocal : Bool) {decl : TypeDecl} (h : IsSimpleName decl.name)
    (c : QualifiedName) {before : List Holding} (hn : before.length + 1 < limit) :
    ∃ s : Segment, (decl.holding isLocal).nameIn c before = c.nested s ∧ s.Spelled limit ∧
      s.declared = decl.name := by
  obtain ⟨id, kind, name, members, span⟩ := decl
  cases isLocal with
  | false => exact ⟨.named name, rfl, h.identifier, rfl⟩
  | true =>
    refine ⟨_, rfl, ⟨Nat.succ_pos _, ?_, h.identifier⟩, rfl⟩
    exact Nat.lt_of_le_of_lt (Nat.succ_le_succ List.countP_le_length) hn

theorem TypeDecl.Named.name {decl : TypeDecl} (h : decl.Named) : IsSimpleName decl.name := by
  obtain ⟨id, kind, name, members, span⟩ := decl
  exact h.1

theorem TypeDecl.spelled_rowsIn {limit : Nat} {packages : List String} {c : QualifiedName}
    (hc : c.Spelled limit packages) {isLocal : Bool} {decl : TypeDecl} (h : decl.Named) {before : List Holding}
    (hn : before.length + 1 < limit)
    (hrows : ∀ {name : QualifiedName}, name.Spelled limit packages → name.declaredSimpleName = decl.name →
      RowsSpelled limit packages ((decl.holding isLocal).rows name)) :
    RowsSpelled limit packages (Holding.rowsIn c before [decl.holding isLocal]) := by
  obtain ⟨s, hs, hwf, hdeclared⟩ := decl.nameIn_holding isLocal h.name c hn
  have hsimple : (c.nested s).declaredSimpleName = decl.name := by
    rw [QualifiedName.declaredSimpleName, QualifiedName.innermost_nested, hdeclared]
  rw [Holding.rowsIn_singleton, hs]
  exact hrows (hc.nested hwf) hsimple

theorem TypeDecl.nodes_pos (decl : TypeDecl) : 0 < decl.nodes := by
  obtain ⟨id, kind, name, members, span⟩ := decl
  exact Nat.succ_pos _

mutual

theorem TypeDecl.spelled_rows {limit : Nat} {packages : List String} (isLocal : Bool) (decl : TypeDecl)
    (h : decl.Named) (hn : decl.nodes < limit) {name : QualifiedName}
    (hname : name.Spelled limit packages) (hsimple : name.declaredSimpleName = decl.name) :
    RowsSpelled limit packages ((decl.holding isLocal).rows name) :=
  match decl, h, hn, hsimple with
  | .mk id kind simple members span, h, hn, hsimple => by
    have hc : (ClassEntry.ofType isLocal simple kind).Spelled limit packages True name :=
      ⟨hname, ClassEntry.fieldHost_ofType h.1 isLocal kind, fun _ => hsimple ▸ h.1.identifier⟩
    rw [TypeDecl.nodes] at hn
    rw [TypeDecl.holding]
    exact Holding.spelled_ofClass hname
      (Member.spelled_rowsIn hc [] members h.2 (by rw [List.length_nil]; omega)) _ _ _ _

theorem Member.spelled_rows {limit : Nat} {packages : List String} {inType : Prop} {entry : ClassEntry}
    {c : QualifiedName} (hc : entry.Spelled limit packages inType c) (before : List Holding) (m : Member)
    (h : m.Named inType) (hn : before.length + m.nodes < limit) :
    RowsSpelled limit packages (Holding.rowsIn c before (m.held entry)) :=
  match m, h, hn with
  | .type decl _, h, hn => by
    have hpos := decl.nodes_pos
    rw [Member.nodes] at hn
    exact TypeDecl.spelled_rowsIn hc.name h (by omega) fun hname hsimple =>
      TypeDecl.spelled_rows false decl h (by omega) hname hsimple
  | .field isStatic code _, h, hn => by
    rw [Member.nodes] at hn
    exact CodeItem.spelled_rowsIn hc.name (hc.fieldHost isStatic) before code h hn
  | .operation kind id name parameters none span, h, hn => by
    rw [Member.held, Holding.rowsIn_singleton, Holding.rows]
    exact List.forall_mem_singleton.mpr (Holding.spelled_operation hc h.1 h.2 id span)
  | .operation kind id name parameters (some code) span, h, hn => by
    rw [Member.nodes] at hn
    rw [Member.held, Holding.rowsIn, Holding.rows]
    refine List.forall_mem_cons.mpr ⟨Holding.spelled_operation hc h.1 h.2.1 id span, ?_⟩
    refine CodeItem.spelled_rowsIn hc.name h.1.bodyHost _ code h.2.2 ?_
    rw [List.length_append, List.length_singleton]
    omega
  | .initializer isStatic code _, h, hn => by
    rw [Member.nodes] at hn
    exact CodeItem.spelled_rowsIn hc.name (initializerHost_wellFormed isStatic) before code h hn
  | .constant _ _ arguments none _, h, hn => by
    have hstatic : Host.static.WellFormed := trivial
    rw [Member.nodes] at hn
    exact CodeItem.spelled_rowsIn hc.name hstatic before arguments h (by omega)
  | .constant id _ arguments (some members) span, h, hn => by
    have hstatic : Host.static.WellFormed := trivial
    have hlength := CodeItem.length_heldIn_le .static arguments
    rw [Member.nodes] at hn
    have hmembers : ([] : List Holding).length + Member.nodesOf members < limit := by
      rw [List.length_nil]
      omega
    have harguments := CodeItem.spelled_rowsIn hc.name hstatic before arguments h.1 (by omega)
    exact Holding.spelled_withBody hc.name (by omega) harguments
      (fun hclass => Member.spelled_rowsIn hclass [] members h.2 hmembers) id _ span

theorem Member.spelled_rowsIn {limit : Nat} {packages : List String} {inType : Prop} {entry : ClassEntry}
    {c : QualifiedName} (hc : entry.Spelled limit packages inType c) (before : List Holding) (ms : List Member)
    (h : Member.AllNamed inType ms) (hn : before.length + Member.nodesOf ms < limit) :
    RowsSpelled limit packages (Holding.rowsIn c before (Member.heldBy entry ms)) :=
  match ms, h, hn with
  | [], _, _ => nofun
  | m :: ms, h, hn => by
    have hlength := Member.length_held_le entry m
    rw [Member.nodesOf] at hn
    rw [Member.heldBy, Holding.rowsIn_append]
    refine List.forall_mem_append.mpr ⟨Member.spelled_rows hc before m h.1 (by omega), ?_⟩
    exact Member.spelled_rowsIn hc _ ms h.2 (by rw [List.length_append]; omega)

theorem CodeItem.spelled_rows {limit : Nat} {packages : List String} {c : QualifiedName}
    (hc : c.Spelled limit packages) {host : Host} (hh : host.WellFormed) (before : List Holding)
    (i : CodeItem) (h : i.Named) (hn : before.length + i.nodes < limit) :
    RowsSpelled limit packages (Holding.rowsIn c before (i.held host)) :=
  match i, h, hn with
  | .localType decl, h, hn => by
    have hpos := decl.nodes_pos
    rw [CodeItem.nodes] at hn
    exact TypeDecl.spelled_rowsIn hc h (by omega) fun hname hsimple =>
      TypeDecl.spelled_rows true decl h (by omega) hname hsimple
  | .allocation _ _ arguments none _, h, hn => by
    rw [CodeItem.nodes] at hn
    exact CodeItem.spelled_rowsIn hc hh before arguments h (by omega)
  | .allocation id _ arguments (some members) span, h, hn => by
    have hlength := CodeItem.length_heldIn_le host arguments
    rw [CodeItem.nodes] at hn
    have hmembers : ([] : List Holding).length + Member.nodesOf members < limit := by
      rw [List.length_nil]
      omega
    have harguments := CodeItem.spelled_rowsIn hc hh before arguments h.1 (by omega)
    exact Holding.spelled_withBody hc (by omega) harguments
      (fun hclass => Member.spelled_rowsIn hclass [] members h.2 hmembers) id _ span
  | .lambda id body span, h, hn => by
    rw [CodeItem.nodes] at hn
    rw [CodeItem.held, Holding.rowsIn, Holding.rows]
    refine List.forall_mem_cons.mpr ⟨Holding.spelled_lambda hc hh (by omega) id span, ?_⟩
    refine CodeItem.spelled_rowsIn hc hh _ body h ?_
    rw [List.length_append, List.length_singleton]
    omega

theorem CodeItem.spelled_rowsIn {limit : Nat} {packages : List String} {c : QualifiedName}
    (hc : c.Spelled limit packages) {host : Host} (hh : host.WellFormed) (before : List Holding)
    (is : List CodeItem) (h : CodeItem.AllNamed is) (hn : before.length + CodeItem.nodesOf is < limit) :
    RowsSpelled limit packages (Holding.rowsIn c before (CodeItem.heldIn host is)) :=
  match is, h, hn with
  | [], _, _ => nofun
  | i :: is, h, hn => by
    have hlength := CodeItem.length_held_le host i
    rw [CodeItem.nodesOf] at hn
    rw [CodeItem.heldIn, Holding.rowsIn_append]
    refine List.forall_mem_append.mpr ⟨CodeItem.spelled_rows hc hh before i h.1 (by omega), ?_⟩
    exact CodeItem.spelled_rowsIn hc hh _ is h.2 (by rw [List.length_append]; omega)

end

/-! ## Texts -/

/-- What is read from a text in which no identifier is missing. -/
theorem CompilationUnit.parse_shape {text : String}
    (h : ∀ d ∈ (CompilationUnit.parse text).2, d.problem.code ≠ "EP01") :
    (∀ name ∈ (CompilationUnit.parse text).1.package, IsName name) ∧
      (∀ decl ∈ (CompilationUnit.parse text).1.types, decl.Named) ∧
      ((CompilationUnit.parse text).1.types.map TypeDecl.nodes).sum ≤ (lex text).length := by
  have hshape : Grammar.Ensures True { rest := lex text }
      (Grammar.compilationUnit (Grammar.rules (lex text).length)) fun unit s' =>
        (∀ name ∈ unit.package, IsName name) ∧
          Grammar.Gain TypeDecl.nodes TypeDecl.Named { rest := lex text } unit.types s' :=
    (Grammar.shaped_rules _).compilationUnit
  obtain ⟨hpackage, hgain⟩ := hshape.answer trivial (lex_names text) fun d hd after he =>
    h d (List.mem_reverse.mpr hd) (he ▸ rfl)
  exact ⟨hpackage, hgain.good, Nat.le_trans (Nat.le_add_right _ _) hgain.weight⟩

/-- All declarations of a unit that can be named get names that are spelled as the grammar has it. -/
theorem CompilationUnit.rows_spelled {limit : Nat} {unit : CompilationUnit}
    (hnamed : ∀ decl ∈ unit.types, decl.Named) (hnodes : (unit.types.map TypeDecl.nodes).sum < limit) :
    ∃ rows, unit.rows = .ok rows ∧ RowsSpelled limit unit.package rows := by
  have hf : ({ packages := unit.package } : Numbering).frames = [] := rfl
  obtain ⟨n, hn⟩ := TypeDecl.rowsOf_of_outside unit.types hf
  refine ⟨_, by rw [CompilationUnit.rows, hn], fun row hrow => ?_⟩
  obtain ⟨decl, hdecl, hrow⟩ := List.mem_flatMap.mp hrow
  have hle : decl.nodes ≤ (unit.types.map TypeDecl.nodes).sum :=
    List.le_sum_of_mem (List.mem_map_of_mem hdecl)
  have hname : (QualifiedName.topLevel unit.package decl.name).Spelled limit unit.package :=
    .topLevel (hnamed decl hdecl).name.identifier
  exact decl.spelled_rows false (hnamed decl hdecl) (Nat.lt_of_le_of_lt hle hnodes) hname rfl row hrow

def RowsRegular (packages : List String) (rows : List Row) : Prop :=
  ∀ row ∈ rows, row.name.Regular packages

/-- Within the bound of indexes, the names are regular. -/
theorem CompilationUnit.rows_regular {unit : CompilationUnit} (hnamed : ∀ decl ∈ unit.types, decl.Named)
    (hnodes : (unit.types.map TypeDecl.nodes).sum < Decimal.bound) :
    ∃ rows, unit.rows = .ok rows ∧ RowsRegular unit.package rows := by
  obtain ⟨rows, hrows, hspelled⟩ := rows_spelled hnamed hnodes
  exact ⟨rows, hrows, fun row hrow => (hspelled row hrow).regular⟩

/-- However large a text is, if no identifier is missing its names are spelled as the grammar has it,
and no separator is in its package. -/
theorem Analysis.ofText_spelled {text : String} {analysis : Analysis} (hok : Analysis.ofText text = .ok analysis)
    (hcomplete : ∀ d ∈ (CompilationUnit.parse text).2, d.problem.code ≠ "EP01") :
    ∃ limit packages, (∀ p ∈ packages, '.' ∉ p.toList ∧ '#' ∉ p.toList) ∧
      ∀ row ∈ analysis.table.rows, row.name.Spelled limit packages := by
  obtain ⟨hpackage, hnamed, -⟩ := CompilationUnit.parse_shape hcomplete
  obtain ⟨rows, hrows, hspelled⟩ := CompilationUnit.rows_spelled hnamed (Nat.lt_succ_self _)
  obtain rfl := Except.ok.inj ((ofText_of_rows hrows).symm.trans hok)
  refine ⟨_, _, fun p hp => ?_, fun row hrow => hspelled row (NameTable.mem_ofRows.mp hrow)⟩
  exact ⟨(hpackage p hp).not_mem (by decide), (hpackage p hp).not_mem (by decide)⟩

/-- **From source to text and back.** In a text without a missing identifier every declaration gets
a name, and whether the names are read back from their texts depends on the package alone: if all
its parts are packages of the name grammar all names are read back, and if not, none is read as a
name at all. -/
theorem Analysis.ofText_read?_render {text : String} (hsize : (lex text).length < Decimal.bound)
    (hcomplete : ∀ d ∈ (CompilationUnit.parse text).2, d.problem.code ≠ "EP01") :
    ∃ analysis, Analysis.ofText text = .ok analysis ∧
      (∀ row ∈ analysis.table.rows, (QualifiedName.read? row.name.render = some row.name ↔
        ∀ p ∈ analysis.unit.package, isPackage p.toList = true)) ∧
      ((∃ p ∈ analysis.unit.package, isPackage p.toList = false) →
        ∀ row ∈ analysis.table.rows, QualifiedName.read? row.name.render = none) := by
  obtain ⟨hpackage, hnamed, hnodes⟩ := CompilationUnit.parse_shape hcomplete
  obtain ⟨rows, hrows, hregular⟩ := CompilationUnit.rows_regular hnamed
    (Nat.lt_of_le_of_lt hnodes hsize)
  have hwords : ∀ p ∈ (CompilationUnit.parse text).1.package, '.' ∉ p.toList ∧ '#' ∉ p.toList := by
    intro p hp
    exact ⟨(hpackage p hp).not_mem (by decide), (hpackage p hp).not_mem (by decide)⟩
  refine ⟨_, ofText_of_rows hrows, fun row hrow => ?_, fun hbad row hrow => ?_⟩
  · exact (hregular row (NameTable.mem_ofRows.mp hrow)).read?_render_iff
  · exact (hregular row (NameTable.mem_ofRows.mp hrow)).read?_render_eq_none hwords hbad

/-- The dollar sign in the name of the class is reported, which does not keep its name from being
read back. -/
def Analysis.dollarText : String :=
  "package a.b; class A$ { A$(int... x) {} void f() { g(y -> 1); } }"

theorem Analysis.ofText_dollarText :
    (lex dollarText).length < Decimal.bound ∧
      (∀ d ∈ (CompilationUnit.parse dollarText).2, d.problem.code ≠ "EP01") ∧
      ∃ analysis, Analysis.ofText dollarText = .ok analysis ∧
        (∀ row ∈ analysis.table.rows, (QualifiedName.read? row.name.render = some row.name ↔
          ∀ p ∈ analysis.unit.package, isPackage p.toList = true)) ∧
        ((∃ p ∈ analysis.unit.package, isPackage p.toList = false) →
          ∀ row ∈ analysis.table.rows, QualifiedName.read? row.name.render = none) := by
  have hsize : (lex dollarText).length = 30 := by cbv
  have hcodes : (CompilationUnit.parse dollarText).2.map (·.problem.code) = ["EP04"] := by cbv
  have hbound : (lex dollarText).length < Decimal.bound := by rw [hsize]; decide
  have hcomplete : ∀ d ∈ (CompilationUnit.parse dollarText).2, d.problem.code ≠ "EP01" := by
    intro d hd he
    have hcode : d.problem.code ∈ ["EP04"] := hcodes ▸ List.mem_map_of_mem hd
    rw [he] at hcode
    exact absurd hcode (by decide)
  exact ⟨hbound, hcomplete, Analysis.ofText_read?_render hbound hcomplete⟩

end Nomenclator
