/-
The command that looks for a name finds what the one that prints names prints.

Both read the files in order, up to the first that cannot be read. One
compares names and the other renders them, but in a text without a missing
identifier no two names are rendered alike.
-/
import Nomenclator.Command.Run
import Nomenclator.Proofs.NameTable.RoundTrip

namespace Nomenclator

/-! ## Reading files -/

namespace File

variable {reader : Reader}

/-- A text can always be analysed, so only reading it can fail. -/
theorem read_of_text {path text : String} (h : reader path = .ok text) :
    ∃ analysis, Analysis.ofText text = .ok analysis ∧ read reader path = .ok ⟨path, analysis⟩ := by
  have hok := Analysis.ofText_numbered text
  refine ⟨_, hok, ?_⟩
  rw [read, h]
  simp only [hok]

theorem readAll_append {before : List String} (h : ∀ path ∈ before, ∃ text, reader path = .ok text) :
    ∃ files, (∀ after, readAll reader (before ++ after) =
        (files ++ (readAll reader after).1, (readAll reader after).2)) ∧
      ∀ file ∈ files, ∃ path ∈ before, ∃ text, reader path = .ok text ∧
        Analysis.ofText text = .ok file.analysis := by
  induction before with
  | nil => exact ⟨[], fun _ => rfl, nofun⟩
  | cons path before ih =>
    obtain ⟨⟨text, htext⟩, hbefore⟩ := List.forall_mem_cons.mp h
    obtain ⟨analysis, hok, hread⟩ := read_of_text htext
    obtain ⟨files, hfiles, hall⟩ := ih hbefore
    refine ⟨⟨path, analysis⟩ :: files, fun after => ?_, List.forall_mem_cons.mpr ⟨?_, fun file hfile => ?_⟩⟩
    · rw [List.cons_append, readAll, hread]
      simp only [hfiles after, List.cons_append]
    · exact ⟨path, List.mem_cons_self, text, htext, hok⟩
    · obtain ⟨p, hp, hrest⟩ := hall file hfile
      exact ⟨p, List.mem_cons_of_mem _ hp, hrest⟩

theorem readAll_of_error {path : String} {cause : ReadError} (h : reader path = .error cause)
    (after : List String) : readAll reader (path :: after) = ([], some (.unreadable path cause)) := by
  have hread : read reader path = .error (.unreadable path cause) := by rw [read, h]
  rw [readAll, hread]

theorem exists_first_error {paths : List String} (h : ∃ path ∈ paths, ∃ cause, reader path = .error cause) :
    ∃ before path after cause, paths = before ++ path :: after ∧
      (∀ p ∈ before, ∃ text, reader p = .ok text) ∧ reader path = .error cause := by
  induction paths with
  | nil => exact absurd h (by simp)
  | cons p paths ih =>
    cases hp : reader p with
    | error cause => exact ⟨[], p, paths, cause, rfl, nofun, hp⟩
    | ok text =>
      obtain ⟨path, hmem, cause, herror⟩ := h
      have hlater : path ∈ paths := by
        refine (List.mem_cons.mp hmem).resolve_left fun he => ?_
        rw [he, hp] at herror
        exact absurd herror nofun
      obtain ⟨before, path, after, cause, rfl, hbefore, hpath⟩ := ih ⟨path, hlater, cause, herror⟩
      exact ⟨p :: before, path, after, cause, rfl, List.forall_mem_cons.mpr ⟨⟨text, hp⟩, hbefore⟩, hpath⟩

end File

namespace Command

theorem exitCode_eq_zero_iff (o : Outcome) : o.exitCode = 0 ↔ o.failure = none := by
  rw [Outcome.exitCode]
  split
  next h => simp [h]
  next h => simp [h]
  next h => simp [h]

/-! ## What is printed -/

/-- The rows that are printed, each with its file. -/
def entries (reader : Reader) (paths : List String) : List (File × Row) :=
  (File.readAll reader paths).1.flatMap fun file => file.analysis.table.rows.map fun row => (file, row)

variable {reader : Reader} {text : String} {name : QualifiedName}

theorem lines_runNames (reader : Reader) (paths : List String) :
    (runNames reader paths).lines = (entries reader paths).map fun e => e.1.nameLine e.2 := by
  rw [entries, List.map_flatMap]
  simp only [List.map_map]
  rfl

theorem lines_runFind (hname : QualifiedName.read? text = some name) (paths : List String) :
    (runFind reader text paths).lines =
      ((entries reader paths).filter fun e => e.2.name = name).map fun e => e.1.placeLine e.2 := by
  rw [runFind, hname, entries, List.filter_flatMap, List.map_flatMap]
  simp only [List.filter_map, List.map_map]
  rfl

theorem reports_runFind (hname : QualifiedName.read? text = some name) (paths : List String) :
    (runFind reader text paths).reports = (runNames reader paths).reports := by
  rw [runFind, hname]
  rfl

theorem failure_runFind (hname : QualifiedName.read? text = some name) (paths : List String) :
    (runFind reader text paths).failure = ((File.readAll reader paths).2 <|>
      if (runFind reader text paths).lines.isEmpty then some (.notDeclared name) else none) := by
  rw [runFind, hname]

/-- Where nothing fails, the command does so only if it finds nothing. -/
theorem failure_runFind_eq_none_iff (hname : QualifiedName.read? text = some name) {paths : List String}
    (h : (File.readAll reader paths).2 = none) :
    (runFind reader text paths).failure = none ↔ (runFind reader text paths).lines ≠ [] := by
  have hfailure : (runFind reader text paths).failure =
      if (runFind reader text paths).lines.isEmpty then some (.notDeclared name) else none := by
    rw [failure_runFind hname, h]
    rfl
  rw [hfailure, ite_eq_right_iff, List.isEmpty_iff]
  exact ⟨fun hnone hlines => absurd (hnone hlines) nofun, fun hne hlines => absurd hlines hne⟩

/-- The file that cannot be read is the last one that is looked at. -/
theorem readAll_of_first_error {before : List String} (hbefore : ∀ p ∈ before, ∃ source, reader p = .ok source)
    {path : String} {cause : ReadError} (hpath : reader path = .error cause) (after : List String) :
    File.readAll reader (before ++ path :: after) =
      ((File.readAll reader before).1, some (.unreadable path cause)) := by
  obtain ⟨files, hfiles, -⟩ := File.readAll_append hbefore
  have hall := hfiles []
  rw [List.append_nil] at hall
  rw [hfiles, File.readAll_of_error hpath, hall]
  rfl

/-! ## Agreement -/

/-- The reader has a text for the file, and no identifier is missing in it. -/
def Complete (reader : Reader) (path : String) : Prop :=
  ∃ source, reader path = .ok source ∧ ∀ d ∈ (CompilationUnit.parse source).2, d.problem.code ≠ "EP01"

theorem failure_readAll {paths : List String} (h : ∀ path ∈ paths, Complete reader path) :
    (File.readAll reader paths).2 = none := by
  have hread : ∀ path ∈ paths, ∃ source, reader path = .ok source := fun path hpath =>
    (h path hpath).imp fun _ => And.left
  obtain ⟨files, hfiles, -⟩ := File.readAll_append hread
  have hall := hfiles []
  rw [List.append_nil] at hall
  rw [hall]
  rfl

/-- To have the text of the name that is looked for is to be that name. -/
theorem render_eq_iff_of_mem_entries (hname : QualifiedName.read? text = some name) {paths : List String}
    (h : ∀ path ∈ paths, Complete reader path) :
    ∀ e ∈ entries reader paths, e.2.name.render = text ↔ e.2.name = name := by
  have hread : ∀ path ∈ paths, ∃ source, reader path = .ok source := fun path hpath =>
    (h path hpath).imp fun _ => And.left
  obtain ⟨files, hfiles, hanalyses⟩ := File.readAll_append hread
  have hall := hfiles []
  rw [List.append_nil] at hall
  have hfiles : (File.readAll reader paths).1 = files := by
    rw [hall]
    exact List.append_nil files
  intro e he
  rw [entries, hfiles] at he
  obtain ⟨file, hfile, he⟩ := List.mem_flatMap.mp he
  obtain ⟨row, hrow, rfl⟩ := List.mem_map.mp he
  obtain ⟨path, hpath, source, hsource, hok⟩ := hanalyses file hfile
  obtain ⟨source', hsource', hcomplete⟩ := h path hpath
  obtain rfl := Except.ok.inj (hsource.symm.trans hsource')
  obtain ⟨limit, packages, hwords, hspelled⟩ := Analysis.ofText_spelled hok hcomplete
  exact (hspelled row hrow).render_eq_iff hwords hname

/-- **Looking for a name is reading the list of names.** For files that can all be read, and in which no
identifier is missing, what is found are the rows that are printed with the text looked for, and the
reports are the same: all diagnostics, file by file. If a file cannot be read, both commands fail for the
first such file, having done what they do for the files before it. -/
theorem run_find_names (reader : Reader) {text : String} {name : QualifiedName}
    (hname : QualifiedName.read? text = some name) :
    (∀ paths, (∀ path ∈ paths, Complete reader path) →
      (run reader (.names paths)).lines =
        (entries reader paths).map (fun e => e.1.path ++ ":" ++ toString (e.2.span.line e.1.analysis.text) ++
          ": " ++ e.2.kind.phrase ++ " " ++ e.2.name.render) ∧
      (run reader (.find text paths)).lines =
        ((entries reader paths).filter fun e => e.2.name.render = text).map (fun e => e.1.path ++ ":" ++
          toString (e.2.span.line e.1.analysis.text) ++ ": " ++ e.2.kind.phrase) ∧
      (run reader (.find text paths)).reports = (run reader (.names paths)).reports ∧
      (run reader (.names paths)).reports =
        (File.readAll reader paths).1.flatMap (fun file => file.analysis.diagnostics.map (.of file)) ∧
      ((run reader (.find text paths)).exitCode = 0 ↔ ∃ e ∈ entries reader paths, e.2.name.render = text) ∧
      (run reader (.names paths)).exitCode = 0) ∧
    ∀ paths, (∃ path ∈ paths, ∃ cause, reader path = .error cause) →
      ∃ before path after cause, paths = before ++ path :: after ∧
        (∀ p ∈ before, ∃ source, reader p = .ok source) ∧ reader path = .error cause ∧
        run reader (.names paths) =
          { run reader (.names before) with failure := some (.unreadable path cause) } ∧
        run reader (.find text paths) =
          { run reader (.find text before) with failure := some (.unreadable path cause) } := by
  refine ⟨fun paths hpaths => ?_, fun paths herror => ?_⟩
  · have hlines : (run reader (.find text paths)).lines =
        ((entries reader paths).filter fun e => e.2.name.render = text).map fun e => e.1.placeLine e.2 := by
      rw [run, lines_runFind hname]
      refine congrArg _ (List.filter_congr fun e he => ?_)
      exact decide_eq_decide.mpr (render_eq_iff_of_mem_entries hname hpaths e he).symm
    refine ⟨lines_runNames reader paths, hlines, reports_runFind hname paths, rfl, ?_, ?_⟩
    · rw [exitCode_eq_zero_iff]
      refine (failure_runFind_eq_none_iff hname (failure_readAll hpaths)).trans ?_
      rw [run] at hlines
      rw [hlines, ne_eq, List.map_eq_nil_iff, List.filter_eq_nil_iff]
      simp only [decide_eq_true_eq, not_forall, not_not, exists_prop]
    · rw [exitCode_eq_zero_iff]
      exact failure_readAll hpaths
  · obtain ⟨before, path, after, cause, rfl, hbefore, hpath⟩ := File.exists_first_error herror
    have hread := readAll_of_first_error hbefore hpath after
    refine ⟨before, path, after, cause, rfl, hbefore, hpath, ?_, ?_⟩
    · simp only [run, runNames, hread]
    · simp only [run, runFind, hname, hread]
      rfl

def twoFiles : Reader
  | "A.java" => .ok "class A { void f() {} A() {} }"
  | "B.java" => .ok "package b; class A { void f() {} }"
  | _ => .error .notFound

theorem run_find_names_twoFiles :
    QualifiedName.read? "A#f()" = some ⟨[], "A", [], some (.method "f" [])⟩ ∧
      (∀ path ∈ ["A.java", "B.java", "A.java"], Complete twoFiles path) ∧
      (run twoFiles (.names ["A.java", "B.java", "A.java"])).lines =
        ["A.java:1: class A", "A.java:1: method A#f()", "A.java:1: constructor A#A()", "B.java:1: class b.A",
          "B.java:1: method b.A#f()", "A.java:1: class A", "A.java:1: method A#f()",
          "A.java:1: constructor A#A()"] ∧
      (run twoFiles (.find "A#f()" ["A.java", "B.java", "A.java"])).lines =
        ["A.java:1: method", "A.java:1: method"] := by
  have hname : QualifiedName.read? "A#f()" = some ⟨[], "A", [], some (.method "f" [])⟩ := by decide
  have hcomplete : ∀ path ∈ ["A.java", "B.java", "A.java"], Complete twoFiles path := by
    have hfirst : (CompilationUnit.parse "class A { void f() {} A() {} }").2 = [] := by cbv
    have hsecond : (CompilationUnit.parse "package b; class A { void f() {} }").2 = [] := by cbv
    have ha : Complete twoFiles "A.java" :=
      ⟨_, rfl, by rw [hfirst]; exact fun _ hd => absurd hd List.not_mem_nil⟩
    have hb : Complete twoFiles "B.java" :=
      ⟨_, rfl, by rw [hsecond]; exact fun _ hd => absurd hd List.not_mem_nil⟩
    simp only [List.forall_mem_cons, List.not_mem_nil, false_imp_iff, implies_true, and_true]
    exact ⟨ha, hb, ha⟩
  obtain ⟨hnames, hfind, -⟩ := (run_find_names twoFiles hname).1 _ hcomplete
  exact ⟨hname, hcomplete, hnames.trans (by cbv), hfind.trans (by cbv)⟩

end Command

end Nomenclator
