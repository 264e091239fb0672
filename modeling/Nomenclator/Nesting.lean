/-
How the declarations of a table nest, as a graph from each class to what it
declares, and its text for Graphviz.

A declaration hangs below the first row that has the name of its enclosing
class, so classes that share a name share what is declared in either.
-/
import Nomenclator.Name.Render
import Nomenclator.NameTable.Basic

namespace Nomenclator.Nesting

/-- The position of the first row with the given name. -/
def position? (t : NameTable) (name : QualifiedName) : Option Nat :=
  t.rows.findIdx? fun row => row.name = name

/-- The position of the row that a row hangs below. -/
def parent? (t : NameTable) (row : Row) : Option Nat := row.name.enclosingType?.bind (position? t)

/-- From parents to children, in the order of the children. -/
def edges (t : NameTable) : List (Nat × Nat) :=
  t.rows.zipIdx.filterMap fun (row, child) => (parent? t row).map fun parent => (parent, child)

/-! ## Text -/

/-- A label's text between quotes, with a backslash before quotes and backslashes. -/
def quoted (text : String) : String :=
  "\"" ++ String.ofList (text.toList.flatMap fun c => if c = '"' || c = '\\' then ['\\', c] else [c]) ++
    "\""

def nodeName (position : Nat) : String := "d" ++ toString position

def nodeLine (row : Row) (position : Nat) : String :=
  "    " ++ nodeName position ++ "[label=" ++ quoted (row.kind.phrase ++ " " ++ row.name.render) ++
    "];"

def edgeLine (parent child : Nat) : String :=
  "    " ++ nodeName parent ++ " -> " ++ nodeName child ++ "[label=\"\"];"

/-- The graph in the language of Graphviz, line by line: all nodes, then all edges. -/
def graphviz (t : NameTable) : List String :=
  ["digraph nesting \x7b"] ++
    (t.rows.zipIdx.map fun (row, position) => nodeLine row position) ++
    ((edges t).map fun (parent, child) => edgeLine parent child) ++
    ["\x7d"]

end Nomenclator.Nesting
