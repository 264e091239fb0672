/-
Everything there is to say about a text: its tree, the names in it, and
what is wrong with it. Names that are declared twice are reported before
what the grammar misses.
-/
import Nomenclator.Grammar.Unit
import Nomenclator.NameTable.Naming

namespace Nomenclator

/-- A report for each row whose name an earlier row has, given the first places of names so far. -/
def Row.duplicates (seen : Registry QualifiedName Span) : List Row → List Diagnostic
  | [] => []
  | row :: rows =>
    match seen.find? row.name with
    | some first => ⟨.duplicateName row.name first, row.span⟩ :: duplicates seen rows
    | none => duplicates (seen.insert row.name row.span) rows

structure Analysis where
  text : String
  unit : CompilationUnit
  table : NameTable
  diagnostics : List Diagnostic

def Analysis.ofText (text : String) : Except Misuse Analysis := do
  let (unit, problems) := CompilationUnit.parse text
  let rows ← unit.rows
  return ⟨text, unit, .ofRows rows, Row.duplicates {} rows ++ problems⟩

theorem Analysis.ofText_of_rows {text : String} {rows : List Row}
    (h : (CompilationUnit.parse text).1.rows = .ok rows) :
    Analysis.ofText text = .ok ⟨text, (CompilationUnit.parse text).1, .ofRows rows,
      Row.duplicates {} rows ++ (CompilationUnit.parse text).2⟩ := by
  simp only [Analysis.ofText, h]
  rfl

end Nomenclator
