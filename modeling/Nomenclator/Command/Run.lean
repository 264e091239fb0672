/-
What a command prints, given what reading a file answers.

Files are taken in order. One that cannot be read ends the command, which
keeps what it printed for the files before.
-/
import Nomenclator.Command.Arguments
import Nomenclator.Command.Reader
import Nomenclator.Name.Read
import Nomenclator.NameTable.Analysis
import Nomenclator.Nesting

namespace Nomenclator

/-! ## Failures -/

inductive Failure
  | unreadable (path : String) (cause : ReadError)
  | malformedName (text : String)
  | notDeclared (name : QualifiedName)
  | malformedNames (malformed total : Nat)
  | misuse (cause : Misuse)
deriving DecidableEq

def Failure.message : Failure → String
  | unreadable path cause => "could not read `" ++ path ++ "`\n\nCaused by:\n    " ++ cause.message
  | malformedName text => "`" ++ text ++ "` is not a well-formed qualified name"
  | notDeclared name => "`" ++ name.render ++ "` is not declared in any of the given files"
  | malformedNames malformed total =>
    toString malformed ++ " of " ++ toString total ++ " names are malformed"
  | misuse cause => cause.message

/-! ## Files -/

structure File where
  path : String
  analysis : Analysis

def File.read (reader : Reader) (path : String) : Except Failure File :=
  match reader path with
  | .error cause => .error (.unreadable path cause)
  | .ok text =>
    match Analysis.ofText text with
    | .error cause => .error (.misuse cause)
    | .ok analysis => .ok ⟨path, analysis⟩

/-- The files up to the first that fails, and its failure. -/
def File.readAll (reader : Reader) : List String → List File × Option Failure
  | [] => ([], none)
  | path :: paths =>
    match read reader path with
    | .error failure => ([], some failure)
    | .ok file =>
      let (files, failure) := readAll reader paths
      (file :: files, failure)

/-! ## Reports -/

/-- A diagnostic in words: what is wrong, and where. -/
structure Report where
  headline : String
  place : String
deriving DecidableEq

def Report.of (file : File) (d : Diagnostic) : Report :=
  let level := match d.problem.level with
    | .error => "error"
    | .warning => "warning"
  let text := file.analysis.text.toList
  { headline := level ++ "[" ++ d.problem.code ++ "]: " ++ d.problem.message
    place := file.path ++ ":" ++ toString (Text.line text d.span.start) ++ ":" ++
      toString (Text.column text d.span.start) }

def File.reports (file : File) : List Report := file.analysis.diagnostics.map (.of file)

/-! ## Output -/

structure Outcome where
  lines : List String
  reports : List Report := []
  failure : Option Failure := none

def Outcome.output (o : Outcome) : String := String.join (o.lines.map (· ++ "\n"))

def Outcome.exitCode (o : Outcome) : Nat :=
  match o.failure with
  | none => 0
  | some (.misuse _) => 101
  | some _ => 1

/-- Where a row stands and what it is. -/
def File.placeLine (file : File) (row : Row) : String :=
  file.path ++ ":" ++ toString (row.span.line file.analysis.text) ++ ": " ++ row.kind.phrase

def File.nameLine (file : File) (row : Row) : String :=
  file.placeLine row ++ " " ++ row.name.render

def File.nameLines (file : File) : List String := file.analysis.table.rows.map file.nameLine

def File.findLines (name : QualifiedName) (file : File) : List String :=
  (file.analysis.table.find name).map file.placeLine

/-- What a class or operation is besides being declared by name. -/
def QualifiedName.traits (n : QualifiedName) : List String :=
  (if n.isLocalType then ["local class"] else []) ++
  (if n.isAnonymousClass then ["anonymous class"] else []) ++
  (if n.isLambda then ["lambda"] else [])

def checkLines (text : String) : List String :=
  match QualifiedName.read? text with
  | none => [text ++ ": malformed"]
  | some n =>
    [text ++ ":",
      "  packages:  " ++ ".".intercalate n.packages,
      "  classes:   " ++ " $ ".intercalate (n.classes.map Segment.render)] ++
    (n.operation.toList.map fun o => "  operation: " ++ o.render) ++
    (if n.traits.isEmpty then [] else ["  kind:      " ++ ", ".intercalate n.traits])

namespace Command

def runNames (reader : Reader) (paths : List String) : Outcome :=
  let (files, failure) := File.readAll reader paths
  ⟨files.flatMap File.nameLines, files.flatMap File.reports, failure⟩

def runFind (reader : Reader) (text : String) (paths : List String) : Outcome :=
  match QualifiedName.read? text with
  | none => ⟨[], [], some (.malformedName text)⟩
  | some name =>
    let (files, failure) := File.readAll reader paths
    let lines := files.flatMap (File.findLines name)
    let missing := if lines.isEmpty then some (Failure.notDeclared name) else none
    ⟨lines, files.flatMap File.reports, failure <|> missing⟩

def runCheck (texts : List String) : Outcome :=
  let malformed := (texts.filter fun text => (QualifiedName.read? text).isNone).length
  ⟨texts.flatMap checkLines, [],
    if malformed = 0 then none else some (.malformedNames malformed texts.length)⟩

def runDot (reader : Reader) (path : String) : Outcome :=
  match File.read reader path with
  | .error failure => ⟨[], [], some failure⟩
  | .ok file => ⟨Nesting.graphviz file.analysis.table, file.reports, none⟩

def run (reader : Reader) : Command → Outcome
  | names paths => runNames reader paths
  | find text paths => runFind reader text paths
  | check texts => runCheck texts
  | dot path => runDot reader path

end Command

end Nomenclator
