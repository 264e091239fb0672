/-
All places that are handed out with a text can be cut out of it: those of
its tokens, of the nodes of its tree, of the rows of its table and of
whatever its diagnostics point to.

The places of rows are those of nodes, and two declarations of one name are
reported at their rows, so all rests on the places of nodes and on those
that the grammar reports.
-/
import Nomenclator.Proofs.Grammar.Placed
import Nomenclator.Proofs.NameTable.Index

namespace Nomenclator

/-- The place can be cut out of the text: it is some of its bytes, reaches from the beginning of one
token to the end of one, and divides no character. -/
structure Span.Sliceable (text : String) (s : Span) : Prop extends s.OnTokens (lex text) where
  le : s.stop ≤ text.utf8ByteSize
  isValid_start : (⟨s.start⟩ : String.Pos.Raw).IsValid text
  isValid_stop : (⟨s.stop⟩ : String.Pos.Raw).IsValid text

theorem Span.OnTokens.sliceable {text : String} {s : Span} (h : s.OnTokens (lex text)) : s.Sliceable text := by
  obtain ⟨first, hfirst, hstart⟩ := h.start
  obtain ⟨last, hlast, hstop⟩ := h.stop
  obtain ⟨-, -, hvalid, -⟩ := lex_isValid hfirst
  obtain ⟨-, hle, -, hvalid'⟩ := lex_isValid hlast
  exact ⟨h, hstop ▸ hle, hstart ▸ hvalid, hstop ▸ hvalid'⟩

/-! ## The tree -/

namespace CompilationUnit

/-- The nodes of the tree and the reports about it are where tokens are. -/
theorem ofLexemes_laid {lexemes : List Lexeme} (h : Lexeme.InOrder lexemes) :
    (∃ place, Outline.Laid lexemes place 0 (ofLexemes lexemes).1.outline) ∧
      ∀ d ∈ (ofLexemes lexemes).2, d.span.OnTokens lexemes ∧ d.problem.notes = [] := by
  by_cases hne : lexemes = []
  · subst hne
    rw [ofLexemes_nil]
    exact ⟨⟨⟨0, 0⟩, .nil⟩, nofun⟩
  · have hstart := Grammar.State.Within.start ⟨lexemes, hne, h⟩
    obtain ⟨hreaches, hlaid⟩ := (Grammar.placed_rules lexemes.length).compilationUnit hstart
    exact ⟨⟨_, hlaid 0⟩, fun d hd => hreaches.after.reports d (List.mem_reverse.mp hd)⟩

end CompilationUnit

/-! ## The table -/

theorem Node.span?_of_declaration? {node : Node} {d : Declaration} (h : node.declaration? = some d) :
    node.span? = some d.span := by
  cases node with
  | type | operation | lambda =>
    obtain rfl := Option.some.inj h
    rfl
  | constant _ _ _ hasBody | allocation _ _ _ hasBody =>
    cases hasBody with
    | false => exact absurd h nofun
    | true =>
      obtain rfl := Option.some.inj h
      rfl
  | memberType | localType | field | initializer | body => exact absurd h nofun

/-- A row stands where its node does. -/
theorem CompilationUnit.span_of_numbered {unit : CompilationUnit} {row : Row} (h : row ∈ unit.numbered) :
    ∃ d ∈ unit.outline, d.2.span? = some row.span := by
  have hdeclared := unit.numbered_perm.subset (List.mem_map_of_mem h)
  obtain ⟨node, hnode, hdeclaration⟩ := List.mem_filterMap.mp hdeclared
  rw [← unit.map_outline] at hnode
  obtain ⟨d, hd, rfl⟩ := List.mem_map.mp hnode
  exact ⟨d, hd, Node.span?_of_declaration? hdeclaration⟩

/-- Declarations of one name are reported at places of rows. -/
theorem Row.labels_of_duplicates {P : Span → Prop} {seen : Registry QualifiedName Span} {rows : List Row}
    (hseen : ∀ name, ∀ first ∈ seen.find? name, P first) (hrows : ∀ row ∈ rows, P row.span) :
    ∀ d ∈ duplicates seen rows, ∀ label ∈ d.labels, P label.span := by
  induction rows generalizing seen with
  | nil => exact nofun
  | cons row rows ih =>
    obtain ⟨hrow, hrows⟩ := List.forall_mem_cons.mp hrows
    rw [duplicates]
    cases hfirst : seen.find? row.name with
    | some first =>
      refine List.forall_mem_cons.mpr ⟨?_, ih hseen hrows⟩
      exact List.forall_mem_cons.mpr ⟨hrow, List.forall_mem_singleton.mpr (hseen row.name first hfirst)⟩
    | none =>
      refine ih (fun name first hf => ?_) hrows
      rw [Registry.find?_insert] at hf
      split at hf
      · exact Option.mem_some_iff.mp hf ▸ hrow
      · exact hseen name first hf

/-! ## All places -/

/-- **Every place can be cut out of the text.** Whatever the text, its tokens, the nodes of its tree,
the rows of its table and all labels of its diagnostics stand on whole tokens, and no node reaches
out of one above it. -/
theorem Analysis.ofText_sliceable (text : String) :
    (∀ l ∈ lex text, l.span.Sliceable text) ∧
    ∃ analysis, Analysis.ofText text = .ok analysis ∧ analysis.unit = (CompilationUnit.parse text).1 ∧
      (∀ d ∈ analysis.unit.outline, ∀ place ∈ d.2.span?, place.Sliceable text) ∧
      (∀ depth node after, (depth, node) :: after <:+ analysis.unit.outline → ∀ outer ∈ node.span?,
        ∀ d ∈ Outline.below depth after, ∀ inner ∈ d.2.span?, outer.Covers inner) ∧
      (∀ row ∈ analysis.table.rows, row.span.Sliceable text) ∧
      (CompilationUnit.parse text).2 <:+ analysis.diagnostics ∧
      ∀ d ∈ analysis.diagnostics, ∀ label ∈ d.labels, label.span.Sliceable text := by
  have hinOrder := (lex_isPartition text).inOrder
  obtain ⟨⟨place, hlaid⟩, hreports⟩ := CompilationUnit.ofLexemes_laid hinOrder
  have hnodes : ∀ d ∈ (CompilationUnit.parse text).1.outline, ∀ place ∈ d.2.span?, place.Sliceable text :=
    fun d hd place hplace => (hlaid.places d hd place hplace).1.sliceable
  have hrows : ∀ row ∈ (CompilationUnit.parse text).1.numbered, row.span.Sliceable text := fun row hrow => by
    obtain ⟨d, hd, hspan⟩ := CompilationUnit.span_of_numbered hrow
    exact hnodes d hd row.span hspan
  have hproblems : ∀ d ∈ (CompilationUnit.parse text).2, ∀ label ∈ d.labels, label.span.Sliceable text := by
    intro d hd
    obtain ⟨hspan, hnotes⟩ := hreports d hd
    rw [Diagnostic.labels, hnotes]
    exact List.forall_mem_singleton.mpr hspan.sliceable
  refine ⟨fun l hl => ?_, _, ofText_numbered text, rfl, hnodes, ?_, ?_, List.suffix_append _ _, ?_⟩
  · exact Span.OnTokens.sliceable ⟨⟨l, hl, rfl⟩, ⟨l, hl, rfl⟩, hinOrder.nonempty l hl⟩
  · exact fun depth node after hsuffix => hlaid.nested.of_suffix hsuffix
  · exact fun row hrow => hrows row (NameTable.mem_ofRows.mp hrow)
  · exact List.forall_mem_append.mpr ⟨Row.labels_of_duplicates nofun hrows, hproblems⟩

end Nomenclator
