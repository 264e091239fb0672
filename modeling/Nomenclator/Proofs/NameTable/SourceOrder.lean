/-
The rows of the table begin one behind the other, and so the lines that are
printed for one file never go back.

A row begins where its node does. The nodes are in preorder, and numbered
ones begin in that order.
-/
import Nomenclator.Command.Run
import Nomenclator.Proofs.Grammar.Begins
import Nomenclator.Proofs.NameTable.Places

namespace Nomenclator

/-! ## Where rows begin -/

theorem Node.start?_of_declaration? {node : Node} {d : Declaration} (h : node.declaration? = some d) :
    node.start? = some d.span.start := by
  rw [start?, id?_of_declaration? h, span?_of_declaration? h]
  rfl

theorem Node.declarations_inOrder {nodes : List Node} (h : (starts nodes).Pairwise (· < ·)) :
    (declarations nodes).Pairwise fun d d' => d.span.start < d'.span.start := by
  refine List.pairwise_filterMap.mpr ((List.pairwise_filterMap.mp h).imp fun hlt d hd d' hd' => ?_)
  exact hlt _ (start?_of_declaration? hd) _ (start?_of_declaration? hd')

theorem CompilationUnit.rows_inOrder (text : String) :
    (NameTable.ofRows (parse text).1.numbered).rows.Pairwise fun a b => a.span.start < b.span.start := by
  have hnumbers : (Node.numbers (parse text).1.preorder).Pairwise (· < ·) := numbers_ofLexemes (lex text)
  have hstarts : (Node.starts (parse text).1.preorder).Pairwise (· < ·) :=
    starts_ofLexemes (lex_isPartition text).inOrder
  have hrows := NameTable.declarations_ofRows (parse text).1.numbered_perm hnumbers
  have hdeclarations := Node.declarations_inOrder hstarts
  rw [← hrows] at hdeclarations
  exact (List.pairwise_map (f := Row.declaration)).mp hdeclarations

/-! ## Lines -/

/-- What begins later is not on an earlier line. -/
theorem Text.line_mono (text : List Char) {m n : Nat} (h : m ≤ n) : line text m ≤ line text n :=
  Nat.succ_le_succ ((before_isPrefix_of_le text h).sublist.count_le '\n')

theorem Row.lines_mono (text : String) {rows : List Row}
    (h : rows.Pairwise fun a b => a.span.start < b.span.start) :
    (rows.map fun row => row.span.line text).Pairwise (· ≤ ·) :=
  List.pairwise_map.mpr (h.imp fun hlt => Text.line_mono text.toList (Nat.le_of_lt hlt))

/-- **Rows are in source order.** Whatever the text, the places of the rows begin one behind the other,
so the lines that `names` and `find` print for it never decrease, under whatever path it is read. -/
theorem Analysis.ofText_inOrder (text : String) :
    ∃ analysis, Analysis.ofText text = .ok analysis ∧
      (analysis.table.rows.map (·.span.start)).Pairwise (· < ·) ∧
      ∀ path,
        (∃ lines : List Nat, lines.Pairwise (· ≤ ·) ∧
          File.nameLines ⟨path, analysis⟩ = List.zipWith (fun line row =>
            path ++ ":" ++ toString line ++ ": " ++ row.kind.phrase ++ " " ++ row.name.render)
              lines analysis.table.rows) ∧
        ∀ name, ∃ lines : List Nat, lines.Pairwise (· ≤ ·) ∧
          File.findLines name ⟨path, analysis⟩ = List.zipWith (fun line row =>
            path ++ ":" ++ toString line ++ ": " ++ row.kind.phrase) lines (analysis.table.find name) := by
  have hrows := CompilationUnit.rows_inOrder text
  refine ⟨_, ofText_numbered text, List.pairwise_map.mpr hrows, fun path => ⟨?_, fun name => ?_⟩⟩
  · refine ⟨_, Row.lines_mono text hrows, ?_⟩
    rw [List.zipWith_map_left, List.zipWith_self]
    rfl
  · have hfound := hrows.sublist (List.filter_sublist (p := fun row : Row => row.name = name))
    refine ⟨_, Row.lines_mono text hfound, ?_⟩
    rw [NameTable.find, List.zipWith_map_left, List.zipWith_self]
    rfl

end Nomenclator
