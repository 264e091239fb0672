/-
Two rows of one name are reported exactly once, at the later of them.

Reports are made in the order of the walk, in which an anonymous class comes
after what is declared in its arguments, and the table is in the order of
the source. The two orders agree on rows of one name: nothing within the
arguments has a name that goes on like the one of the class, and on all
other rows they agree anyway.
-/
import Nomenclator.Proofs.Grammar.Order
import Nomenclator.Proofs.NameTable.SourceOrder
import Nomenclator.Proofs.Numbering.Distinct

namespace Nomenclator

open scoped List

/-! ## The order of the walk -/

/-- Rows of one name are met in the order of their numbers. -/
abbrev Row.InStep (rows : List Row) : Prop :=
  rows.Pairwise fun first second => first.name = second.name → first.id < second.id

theorem Node.id_mem_numbers {nodes : List Node} {d : Declaration} (h : d ∈ declarations nodes) :
    d.id ∈ numbers nodes := by
  obtain ⟨node, hnode, hdecl⟩ := List.mem_filterMap.mp h
  exact List.mem_filterMap.mpr ⟨node, hnode, id?_of_declaration? hdecl⟩

theorem Node.numbers_parts {nodes more : List Node} (h : (numbers (nodes ++ more)).Pairwise (· < ·)) :
    (numbers nodes).Pairwise (· < ·) ∧ (numbers more).Pairwise (· < ·) := by
  rw [numbers_append] at h
  exact ⟨(List.pairwise_append.mp h).1, (List.pairwise_append.mp h).2.1⟩

/-- What is met in a part of the tree has numbers of that part. -/
theorem Row.id_mem_numbers {rows : List Row} {nodes : List Node}
    (h : rows.map Row.declaration ~ Node.declarations nodes) : ∀ row ∈ rows, row.id ∈ Node.numbers nodes :=
  fun _ hrow => Node.id_mem_numbers (h.subset (List.mem_map_of_mem hrow))

theorem Row.InStep.append {rows more : List Row} {nodes nodes' : List Node} (hrows : InStep rows)
    (hmore : InStep more) (h : rows.map Row.declaration ~ Node.declarations nodes)
    (h' : more.map Row.declaration ~ Node.declarations nodes')
    (hnumbers : (Node.numbers (nodes ++ nodes')).Pairwise (· < ·)) : InStep (rows ++ more) := by
  rw [Node.numbers_append] at hnumbers
  refine List.pairwise_append.mpr ⟨hrows, hmore, fun first hfirst second hsecond _ => ?_⟩
  exact (List.pairwise_append.mp hnumbers).2.2 _ (Row.id_mem_numbers h first hfirst) _
    (Row.id_mem_numbers h' second hsecond)

/-- The row of a node is met before those of the nodes below it. -/
theorem Row.InStep.cons {row : Row} {rows : List Row} {nodes : List Node} (hrows : InStep rows)
    (h : rows.map Row.declaration ~ Node.declarations nodes)
    (hnumbers : (row.id :: Node.numbers nodes).Pairwise (· < ·)) : InStep (row :: rows) :=
  List.Pairwise.cons (fun second hsecond _ =>
    List.rel_of_pairwise_cons hnumbers (Row.id_mem_numbers h second hsecond)) hrows

/-- The class of an allocation goes on with a segment that nothing in its arguments goes on with. -/
theorem Holding.name_ne_of_arguments {c : QualifiedName} {before arguments held : List Holding} {id : Nat}
    {kind : DeclarationKind} {span : Span} {first second : Row} (hfirst : first ∈ rowsIn c before arguments)
    (hsecond : second ∈ rowsIn c (before ++ arguments) [ofClass .anonymous id kind span held]) :
    first.name ≠ second.name := by
  intro hname
  obtain ⟨between, h, after, rfl, hmem⟩ := mem_rowsIn hfirst
  rw [rowsIn_singleton, ← List.append_assoc] at hsecond
  have hstep := (goesOn_rows hmem).unique (hname ▸ goesOn_rows hsecond)
  have hother : ∀ name ∈ h.memberType?, (ofClass .anonymous id kind span held).memberType? ≠ some name :=
    fun _ _ => nofun
  exact (operations_of_step_eq hother hstep).2

theorem Row.InStep.withBody {c : QualifiedName} {before arguments held : List Holding}
    (harguments : InStep (Holding.rowsIn c before arguments))
    (hheld : ∀ name, InStep (Holding.rowsIn name [] held)) (id : Nat) (kind : DeclarationKind) (span : Span) :
    InStep (Holding.rowsIn c before (arguments ++ [.ofClass .anonymous id kind span held])) := by
  rw [Holding.rowsIn_append]
  refine List.pairwise_append.mpr ⟨harguments, ?_, fun first hfirst second hsecond hname => ?_⟩
  · rw [Holding.rowsIn_singleton]
    exact Holding.pairwise_rows_ofClass rfl (hheld _) _ _ _ _
  · exact absurd hname (Holding.name_ne_of_arguments hfirst hsecond)

mutual

theorem TypeDecl.inStep_rows (isLocal : Bool) {name : QualifiedName} (hname : name.operation = none) :
    ∀ decl : TypeDecl, (Node.numbers decl.preorder).Pairwise (· < ·) →
      Row.InStep ((decl.holding isLocal).rows name)
  | .mk id kind _ members span, h => by
    rw [TypeDecl.holding]
    exact Holding.pairwise_rows_ofClass hname (Member.inStep_rowsOf _ _ _ members h.of_cons) _ _ _ _

theorem Member.inStep_rows (entry : ClassEntry) (c : QualifiedName) (before : List Holding) :
    ∀ m : Member, (Node.numbers m.preorder).Pairwise (· < ·) →
      Row.InStep (Holding.rowsIn c before (m.held entry))
  | .type decl _, h => by
    obtain ⟨id, kind, name, members, span⟩ := decl
    rw [Member.held, Holding.rowsIn_singleton]
    exact TypeDecl.inStep_rows false rfl _ h
  | .field _ code _, h | .initializer _ code _, h => CodeItem.inStep_rowsOf _ _ _ code h
  | .constant _ _ arguments none _, h => CodeItem.inStep_rowsOf _ _ _ arguments h.of_cons
  | .operation kind id name parameters none span, h => by
    rw [Member.held, Holding.rowsIn_singleton]
    exact List.pairwise_singleton _ _
  | .operation kind id name parameters (some code) span, h => by
    rw [Member.held, Holding.rowsIn, Holding.rows, List.singleton_append]
    exact .cons (CodeItem.inStep_rowsOf _ _ _ code h.of_cons) (CodeItem.rowsOf_perm _ _ _ code) h
  | .constant id _ arguments (some members) span, h => by
    obtain ⟨harguments, hmembers⟩ := Node.numbers_parts h.of_cons
    exact .withBody (CodeItem.inStep_rowsOf _ _ _ arguments harguments)
      (fun _ => Member.inStep_rowsOf _ _ _ members hmembers) id _ span

theorem Member.inStep_rowsOf (entry : ClassEntry) (c : QualifiedName) (before : List Holding) :
    ∀ members : List Member, (Node.numbers (Member.preorders members)).Pairwise (· < ·) →
      Row.InStep (Holding.rowsIn c before (Member.heldBy entry members))
  | [], _ => .nil
  | m :: ms, h => by
    obtain ⟨hfirst, hrest⟩ := Node.numbers_parts h
    rw [Member.heldBy, Holding.rowsIn_append]
    exact .append (Member.inStep_rows entry c _ m hfirst) (Member.inStep_rowsOf entry c _ ms hrest)
      (Member.rows_perm entry c _ m) (Member.rowsOf_perm entry c _ ms) h

theorem CodeItem.inStep_rows (host : Host) (c : QualifiedName) (before : List Holding) :
    ∀ i : CodeItem, (Node.numbers i.preorder).Pairwise (· < ·) →
      Row.InStep (Holding.rowsIn c before (i.held host))
  | .localType decl, h => by
    obtain ⟨id, kind, name, members, span⟩ := decl
    rw [CodeItem.held, Holding.rowsIn_singleton]
    exact TypeDecl.inStep_rows true rfl _ h
  | .allocation _ _ arguments none _, h => CodeItem.inStep_rowsOf _ _ _ arguments h.of_cons
  | .allocation id _ arguments (some members) span, h => by
    obtain ⟨harguments, hmembers⟩ := Node.numbers_parts h.of_cons
    exact .withBody (CodeItem.inStep_rowsOf _ _ _ arguments harguments)
      (fun _ => Member.inStep_rowsOf _ _ _ members hmembers) id _ span
  | .lambda id body span, h => by
    rw [CodeItem.held, Holding.rowsIn, Holding.rows, List.singleton_append]
    exact .cons (CodeItem.inStep_rowsOf _ _ _ body h.of_cons) (CodeItem.rowsOf_perm _ _ _ body) h

theorem CodeItem.inStep_rowsOf (host : Host) (c : QualifiedName) (before : List Holding) :
    ∀ code : List CodeItem, (Node.numbers (CodeItem.preorders code)).Pairwise (· < ·) →
      Row.InStep (Holding.rowsIn c before (CodeItem.heldIn host code))
  | [], _ => .nil
  | i :: is, h => by
    obtain ⟨hfirst, hrest⟩ := Node.numbers_parts h
    rw [CodeItem.heldIn, Holding.rowsIn_append]
    exact .append (CodeItem.inStep_rows host c _ i hfirst) (CodeItem.inStep_rowsOf host c _ is hrest)
      (CodeItem.rows_perm host c _ i) (CodeItem.rowsOf_perm host c _ is) h

end

theorem CompilationUnit.inStep_numbered {unit : CompilationUnit}
    (h : (Node.numbers unit.preorder).Pairwise (· < ·)) : Row.InStep unit.numbered := by
  obtain ⟨package, types⟩ := unit
  show Row.InStep (types.flatMap fun decl => (decl.holding false).rows (.topLevel package decl.name))
  replace h : (Node.numbers (types.flatMap TypeDecl.preorder)).Pairwise (· < ·) := h
  induction types with
  | nil => exact .nil
  | cons decl decls ih =>
    rw [List.flatMap_cons] at h ⊢
    obtain ⟨hfirst, hrest⟩ := Node.numbers_parts h
    exact .append (decl.inStep_rows false rfl hfirst) (ih hrest) (decl.rows_perm false _)
      (numbered_perm ⟨package, decls⟩) h

/-! ## Rows of one name in the table -/

/-- The table finds the rows of a name in the order of the walk. -/
theorem NameTable.find_ofRows {rows : List Row} (h : Row.InStep rows) (name : QualifiedName) :
    (ofRows rows).find name = rows.filter fun row => row.name = name := by
  have hperm : (ofRows rows).find name ~ rows.filter fun row => row.name = name := (perm_ofRows rows).filter _
  have hwalk : (rows.filter fun row => row.name = name).Pairwise fun a b => a.id < b.id := by
    refine List.pairwise_filter.mpr (h.imp fun hid ha hb => hid ?_)
    exact (of_decide_eq_true ha).trans (of_decide_eq_true hb).symm
  have hne : ((ofRows rows).find name).Pairwise fun a b => a.id ≠ b.id :=
    hperm.symm.pairwise (hwalk.imp Nat.ne_of_lt) Ne.symm
  have hle : ((ofRows rows).find name).Pairwise fun a b => a.id ≤ b.id := (pairwise_ofRows rows).filter _
  have htable : ((ofRows rows).find name).Pairwise fun a b => a.id < b.id :=
    hle.imp₂ (fun _ _ hle hne => Nat.lt_of_le_of_ne hle hne) hne
  exact hperm.eq_of_pairwise (fun a b _ _ hab hba => absurd hab (Nat.lt_asymm hba)) htable hwalk

/-- The first of the rows that has the name. -/
abbrev Row.first? (rows : List Row) (name : QualifiedName) : Option Row :=
  rows.find? fun row => row.name = name

namespace Row

theorem first?_ofRows {rows : List Row} (h : InStep rows) (name : QualifiedName) :
    first? (NameTable.ofRows rows).rows name = first? rows name := by
  rw [first?, first?, ← List.head?_filter, ← List.head?_filter]
  exact congrArg List.head? (NameTable.find_ofRows h name)

theorem first?_append (rows more : List Row) (name : QualifiedName) :
    first? (rows ++ more) name = (first? rows name).or (first? more name) := List.find?_append

theorem first?_singleton (row : Row) (name : QualifiedName) :
    first? [row] name = if row.name = name then some row else none := by
  simp [first?]

theorem first?_eq_some {rows : List Row} {name : QualifiedName} {first : Row}
    (h : first? rows name = some first) : first ∈ rows ∧ first.name = name :=
  ⟨List.mem_of_find?_eq_some h, of_decide_eq_true (List.find?_some (p := fun row : Row => row.name = name) h)⟩

theorem exists_first? {rows : List Row} {row : Row} (h : row ∈ rows) :
    ∃ first, first? rows row.name = some first := by
  rw [← Option.isSome_iff_exists, List.find?_isSome]
  exact ⟨row, h, decide_eq_true rfl⟩

/-- A row is behind the first one of its name. -/
theorem first?_before {rows : List Row} {first row : Row} (hrow : row ∈ rows)
    (h : first? rows row.name = some first) (hne : first ≠ row) : [first, row] <+ rows := by
  obtain ⟨-, before, after, rfl, hbefore⟩ := List.find?_eq_some_iff_append.mp h
  have hafter : row ∈ after := by
    rcases List.mem_append.mp hrow with hmem | hmem
    · exact absurd (hbefore row hmem) (by simp)
    · exact (List.mem_cons.mp hmem).resolve_left hne.symm
  exact (List.cons_sublist_cons.mpr (List.singleton_sublist.mpr hafter)).trans (List.sublist_append_right _ _)

/-- A row that is not the first of its name has one of that name in front of it, and conversely. -/
theorem first?_ne_iff {rows : List Row} (h : rows.Pairwise fun a b => a.id < b.id) {row : Row}
    (hrow : row ∈ rows) :
    first? rows row.name ≠ some row ↔ ∃ earlier, [earlier, row] <+ rows ∧ earlier.name = row.name := by
  refine ⟨fun hne => ?_, fun ⟨earlier, hsub, hname⟩ hfirst => ?_⟩
  · obtain ⟨first, hfirst⟩ := exists_first? hrow
    exact ⟨first, first?_before hrow hfirst fun heq => hne (heq ▸ hfirst), (first?_eq_some hfirst).2⟩
  · have hpair : [earlier, row].Pairwise fun a b => a.id < b.id := h.sublist hsub
    have hlt : earlier.id < row.id := List.rel_of_pairwise_cons hpair List.mem_cons_self
    obtain ⟨-, before, after, rfl, hbefore⟩ := List.find?_eq_some_iff_append.mp hfirst
    rcases List.mem_append.mp (hsub.subset List.mem_cons_self) with hmem | hmem
    · exact absurd (hbefore earlier hmem) (by simp [hname])
    rcases List.mem_cons.mp hmem with rfl | hmem
    · exact Nat.lt_irrefl _ hlt
    · exact Nat.lt_asymm hlt (List.rel_of_pairwise_cons (List.pairwise_append.mp h).2.1 hmem)

/-- As many rows are the first of their name as there are names. -/
theorem length_firsts {rows : List Row} (h : rows.Nodup) :
    (rows.filter fun row => first? rows row.name = some row).length = (rows.map Row.name).dedup.length := by
  rw [← List.length_map (f := Row.name)]
  refine List.Perm.length_eq ((List.perm_ext_iff_of_nodup ?_ (List.nodup_dedup _)).mpr fun name => ?_)
  · refine List.Nodup.map_on (fun a ha b hb hname => ?_) (h.filter _)
    have hfirst := of_decide_eq_true (List.mem_filter.mp ha).2
    rw [hname, of_decide_eq_true (List.mem_filter.mp hb).2] at hfirst
    exact (Option.some.inj hfirst).symm
  · rw [List.mem_dedup]
    constructor
    · intro hmem
      obtain ⟨row, hrow, rfl⟩ := List.mem_map.mp hmem
      exact List.mem_map_of_mem (List.mem_filter.mp hrow).1
    · intro hmem
      obtain ⟨row, hrow, rfl⟩ := List.mem_map.mp hmem
      obtain ⟨first, hfirst⟩ := exists_first? hrow
      obtain ⟨hmem, hname⟩ := first?_eq_some hfirst
      exact List.mem_map.mpr ⟨first, List.mem_filter.mpr ⟨hmem, decide_eq_true (hname ▸ hfirst)⟩, hname⟩

theorem length_repeated {rows : List Row} (h : rows.Nodup) :
    (rows.filter fun row => first? rows row.name ≠ some row).length + (rows.map Row.name).dedup.length =
      rows.length := by
  have hsplit := rows.length_eq_length_filter_add fun row => first? rows row.name = some row
  simp only [← decide_not] at hsplit
  rw [← length_firsts h, Nat.add_comm]
  exact hsplit.symm

end Row

/-! ## Reports -/

/-- One report for each row that is not the first of its name, which it points to. -/
theorem Row.forall₂_duplicates {seen : Registry QualifiedName Span} {before rows : List Row}
    (hseen : ∀ name, seen.find? name = (first? before name).map Row.span) (hnodup : (before ++ rows).Nodup) :
    List.Forall₂ (fun row d => ∃ first, first? (before ++ rows) row.name = some first ∧
        d = ⟨.duplicateName row.name first.span, row.span⟩)
      (rows.filter fun row => first? (before ++ rows) row.name ≠ some row) (duplicates seen rows) := by
  induction rows generalizing seen before with
  | nil => exact .nil
  | cons row rows ih =>
    have hnew : row ∉ before := fun hmem => (List.nodup_append.mp hnodup).2.2 _ hmem _ List.mem_cons_self rfl
    rw [List.append_cons] at hnodup ⊢
    have hall : first? (before ++ [row] ++ rows) row.name = (first? before row.name).or (some row) := by
      rw [first?_append, first?_append, first?_singleton, if_pos rfl]
      cases first? before row.name <;> rfl
    rw [duplicates, hseen row.name]
    cases hbefore : first? before row.name with
    | some first =>
      rw [hbefore, Option.some_or] at hall
      have hlater : first? (before ++ [row] ++ rows) row.name ≠ some row := fun hfirst => by
        obtain rfl := Option.some.inj (hall.symm.trans hfirst)
        exact hnew (first?_eq_some hbefore).1
      rw [List.filter_cons_of_pos (by exact decide_eq_true hlater)]
      refine .cons ⟨first, hall, rfl⟩ (ih (fun name => ?_) hnodup)
      rw [hseen, first?_append, first?_singleton]
      split
      next hname =>
        rw [← hname, hbefore]
        rfl
      next => rw [Option.or_none]
    | none =>
      rw [hbefore] at hall
      rw [List.filter_cons_of_neg (by simpa using hall)]
      refine ih (fun name => ?_) hnodup
      rw [Registry.find?_insert, hseen, first?_append, first?_singleton]
      by_cases hname : row.name = name
      · rw [if_pos hname, if_pos hname.symm, ← hname, hbefore]
        rfl
      · rw [if_neg hname, if_neg (Ne.symm hname), Option.or_none]

/-- What is reported about rows whose order agrees with that of the table, said of the table. -/
theorem Row.duplicates_exact {rows : List Row} (hstep : InStep rows) {t : NameTable} (ht : .ofRows rows = t)
    (hids : t.rows.Pairwise fun a b => a.id < b.id) :
    ∃ repeated : List Row, repeated.Nodup ∧
      (∀ row, row ∈ repeated ↔ ∃ earlier, [earlier, row] <+ t.rows ∧ earlier.name = row.name) ∧
      List.Forall₂ (fun row d => ∃ first, first? t.rows row.name = some first ∧ [first, row] <+ t.rows ∧
          d = ⟨.duplicateName row.name first.span, row.span⟩) repeated (duplicates {} rows) ∧
      repeated.length + (t.rows.map Row.name).dedup.length = t.rows.length := by
  have hfirst (name : QualifiedName) : first? t.rows name = first? rows name := ht ▸ first?_ofRows hstep name
  have hperm : t.rows ~ rows := ht ▸ NameTable.perm_ofRows rows
  have hnodup : t.rows.Nodup :=
    hids.imp fun hlt heq => absurd (congrArg Row.id heq) (Nat.ne_of_lt hlt)
  have hempty (name : QualifiedName) : ({} : Registry QualifiedName Span).find? name =
      (first? [] name).map Row.span := rfl
  have hreports := forall₂_duplicates hempty (hperm.nodup_iff.mp hnodup)
  simp only [List.nil_append, ← hfirst] at hreports
  refine ⟨rows.filter fun row => first? t.rows row.name ≠ some row, (hperm.nodup_iff.mp hnodup).filter _,
    fun row => ?_, ?_, ?_⟩
  · rw [List.mem_filter, decide_eq_true_iff]
    constructor
    · intro ⟨hrow, hne⟩
      exact (first?_ne_iff hids (hperm.symm.subset hrow)).mp hne
    · intro ⟨earlier, hsub, hname⟩
      have hrow := hsub.subset (List.mem_cons_of_mem _ List.mem_cons_self)
      exact ⟨hperm.subset hrow, (first?_ne_iff hids hrow).mpr ⟨earlier, hsub, hname⟩⟩
  · refine ((List.forall₂_and_left _ _).mpr ⟨fun row hrow => List.mem_filter.mp hrow, hreports⟩).imp ?_
    rintro row d ⟨⟨hrow, hne⟩, first, hfound, rfl⟩
    refine ⟨first, hfound, first?_before (hperm.symm.subset hrow) hfound fun heq => ?_, rfl⟩
    exact of_decide_eq_true hne (heq ▸ hfound)
  · exact (hperm.filter fun row => first? t.rows row.name ≠ some row).length_eq ▸ length_repeated hnodup

theorem Problem.code_ne_of_notes {p : Problem} (h : p.notes = []) : p.code ≠ "EN00" := by
  cases p with
  | duplicateName => exact absurd h nofun
  | _ => simp [code]

/-- Only what the names are is reported with this code. -/
theorem Analysis.filter_diagnostics (text : String) :
    (Row.duplicates {} (CompilationUnit.parse text).1.numbered ++ (CompilationUnit.parse text).2).filter
      (fun d => d.problem.code = "EN00") = Row.duplicates {} (CompilationUnit.parse text).1.numbered := by
  have hnames : ∀ d ∈ Row.duplicates {} (CompilationUnit.parse text).1.numbered, d.problem.code = "EN00" := by
    intro d hd
    rcases Row.mem_duplicates hd with ⟨_, _, _, _, rfl⟩ | ⟨_, _, _, _, rfl⟩ <;> rfl
  have hgrammar : ∀ d ∈ (CompilationUnit.parse text).2, d.problem.code ≠ "EN00" := fun d hd =>
    Problem.code_ne_of_notes ((CompilationUnit.ofLexemes_laid (lex_isPartition text).inOrder).2 d hd).2
  rw [List.filter_append, List.filter_eq_self.mpr fun d hd => decide_eq_true (hnames d hd),
    List.filter_eq_nil_iff.mpr fun d hd he => hgrammar d hd (of_decide_eq_true he), List.append_nil]

/-- **Reports of names are exact.** Whatever the text, its reports of names are about the rows whose name
a row before them has, one about each, and point to the first row of that name, which begins before it.
So there are as many as there are more rows than names. -/
theorem Analysis.ofText_duplicates (text : String) :
    ∃ analysis, Analysis.ofText text = .ok analysis ∧
      ∃ repeated : List Row, repeated.Nodup ∧
        (∀ row, row ∈ repeated ↔ ∃ earlier, [earlier, row] <+ analysis.table.rows ∧ earlier.name = row.name) ∧
        List.Forall₂ (fun row d => ∃ first,
            analysis.table.rows.find? (fun other => other.name = row.name) = some first ∧
            first.span.start < row.span.start ∧ d.problem = .duplicateName row.name first.span ∧
            d.labels.map (fun label => (label.isPrimary, label.span)) =
              [(true, row.span), (false, first.span)])
          repeated (analysis.diagnostics.filter fun d => d.problem.code = "EN00") ∧
        repeated.length + (analysis.table.rows.map Row.name).dedup.length = analysis.table.rows.length := by
  have hnumbers : (Node.numbers (CompilationUnit.parse text).1.preorder).Pairwise (· < ·) :=
    CompilationUnit.numbers_ofLexemes (lex text)
  have hids := NameTable.increasing_ofRows (CompilationUnit.parse text).1.numbered_perm hnumbers
  have horder := CompilationUnit.rows_inOrder text
  obtain ⟨repeated, hnodup, hmem, hreports, hlength⟩ :=
    Row.duplicates_exact (CompilationUnit.inStep_numbered hnumbers) rfl hids
  refine ⟨_, ofText_numbered text, repeated, hnodup, hmem, ?_, hlength⟩
  rw [Analysis.filter_diagnostics text]
  refine hreports.imp ?_
  rintro row d ⟨first, hfirst, hpair, rfl⟩
  have hstart : [first, row].Pairwise fun a b => a.span.start < b.span.start := horder.sublist hpair
  exact ⟨first, hfirst, List.rel_of_pairwise_cons hstart List.mem_cons_self, rfl, rfl⟩

end Nomenclator
