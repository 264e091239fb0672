/-
Names do not depend on places: declarations at other places get the same
names, in the same order, and the same reports about them.

Two texts with the same tokens become the same text where all places are
forgotten, so whatever analysis says about them is the same but for places.
-/
import Nomenclator.NameTable.Analysis
import Nomenclator.Proofs.Grammar.AlongsideRules
import Nomenclator.Proofs.Numbering.Stability
import Nomenclator.Proofs.Numbering.Walk

namespace Nomenclator

variable {f : Relocation}

def Row.relocate (f : Relocation) (row : Row) : Row := { row with span := f.map row.span }

/-! ## Holdings -/

namespace Holding

mutual

def relocate (f : Relocation) : Holding → Holding
  | operation kind id name parameters span => operation kind id name parameters (f.map span)
  | lambda host id span => lambda host id (f.map span)
  | ofClass entry id kind span held => ofClass entry id kind (f.map span) (relocateAll f held)

def relocateAll (f : Relocation) : List Holding → List Holding
  | [] => []
  | h :: hs => h.relocate f :: relocateAll f hs

end

theorem relocateAll_append (held more : List Holding) :
    relocateAll f (held ++ more) = relocateAll f held ++ relocateAll f more := by
  induction held with
  | nil => rfl
  | cons h held ih => rw [List.cons_append, relocateAll, ih, relocateAll, List.cons_append]

theorem counted_relocate (h : Holding) : Counted [h.relocate f] [h] := by
  cases h with
  | operation | lambda => exact ⟨rfl, rfl, fun _ => rfl⟩
  | ofClass entry id kind span held => cases entry <;> exact ⟨rfl, rfl, fun _ => rfl⟩

theorem nameIn_relocate (c : QualifiedName) {before before' : List Holding} (hb : Counted before' before)
    (h : Holding) : (h.relocate f).nameIn c before' = h.nameIn c before := by
  rw [← nameIn_congr c hb h]
  cases h with
  | operation kind => cases kind <;> rfl
  | lambda => rfl
  | ofClass entry => cases entry <;> rfl

mutual

theorem rows_relocate (name : QualifiedName) : ∀ h : Holding,
    (h.relocate f).rows name = (h.rows name).map (Row.relocate f)
  | operation .. | lambda .. => rfl
  | ofClass _ _ _ _ held => by
    rw [relocate, rows, rows, rowsIn_relocate name (.refl []) held]
    rfl

theorem rowsIn_relocate (c : QualifiedName) {before before' : List Holding} (hb : Counted before' before) :
    ∀ held : List Holding, rowsIn c before' (relocateAll f held) = (rowsIn c before held).map (Row.relocate f)
  | [] => rfl
  | h :: held => by
    have hb' := hb.append (counted_relocate (f := f) h)
    rw [relocateAll, rowsIn, rowsIn, nameIn_relocate c hb, rows_relocate, rowsIn_relocate c hb' held,
      List.map_append]

end

end Holding

/-! ## Trees -/

mutual

theorem TypeDecl.holding_relocate (isLocal : Bool) : ∀ decl : TypeDecl,
    (decl.relocate f).holding isLocal = (decl.holding isLocal).relocate f
  | .mk _ _ _ members _ => by
    rw [TypeDecl.relocate, TypeDecl.holding, TypeDecl.holding, Member.heldBy_relocate, Holding.relocate]

theorem Member.held_relocate (entry : ClassEntry) : ∀ m : Member,
    (m.relocate f).held entry = Holding.relocateAll f (m.held entry)
  | .type decl _ => by
    rw [Member.relocate, Member.held, Member.held, TypeDecl.holding_relocate]
    rfl
  | .field _ code _ | .initializer _ code _ | .constant _ _ code none _ => by
    rw [Member.relocate, Member.held, Member.held, CodeItem.heldIn_relocate]
  | .operation _ _ _ _ none _ => rfl
  | .operation _ _ _ _ (some code) _ => by
    rw [Member.relocate, Member.held, Member.held, CodeItem.heldIn_relocate]
    rfl
  | .constant _ _ arguments (some members) _ => by
    rw [Member.relocate, Member.held, Member.held, CodeItem.heldIn_relocate, Member.heldBy_relocate,
      Holding.relocateAll_append]
    rfl

theorem Member.heldBy_relocate (entry : ClassEntry) : ∀ members : List Member,
    Member.heldBy entry (Member.relocateAll f members) = Holding.relocateAll f (Member.heldBy entry members)
  | [] => rfl
  | m :: members => by
    rw [Member.relocateAll, Member.heldBy, Member.heldBy, Member.held_relocate, Member.heldBy_relocate,
      Holding.relocateAll_append]

theorem CodeItem.held_relocate (host : Host) : ∀ i : CodeItem,
    (i.relocate f).held host = Holding.relocateAll f (i.held host)
  | .localType decl => by
    rw [CodeItem.relocate, CodeItem.held, CodeItem.held, TypeDecl.holding_relocate]
    rfl
  | .allocation _ _ arguments none _ => by
    rw [CodeItem.relocate, CodeItem.held, CodeItem.held, CodeItem.heldIn_relocate]
  | .allocation _ _ arguments (some members) _ => by
    rw [CodeItem.relocate, CodeItem.held, CodeItem.held, CodeItem.heldIn_relocate, Member.heldBy_relocate,
      Holding.relocateAll_append]
    rfl
  | .lambda _ body _ => by
    rw [CodeItem.relocate, CodeItem.held, CodeItem.held, CodeItem.heldIn_relocate]
    rfl

theorem CodeItem.heldIn_relocate (host : Host) : ∀ code : List CodeItem,
    CodeItem.heldIn host (CodeItem.relocateAll f code) = Holding.relocateAll f (CodeItem.heldIn host code)
  | [] => rfl
  | i :: code => by
    rw [CodeItem.relocateAll, CodeItem.heldIn, CodeItem.heldIn, CodeItem.held_relocate,
      CodeItem.heldIn_relocate, Holding.relocateAll_append]

end

theorem CompilationUnit.numbered_relocate (unit : CompilationUnit) :
    (unit.relocate f).numbered = unit.numbered.map (Row.relocate f) := by
  have hdecl (decl : TypeDecl) :
      ((decl.relocate f).holding false).rows (.topLevel unit.package (decl.relocate f).name) =
        ((decl.holding false).rows (.topLevel unit.package decl.name)).map (Row.relocate f) := by
    rw [TypeDecl.name_relocate, TypeDecl.holding_relocate, Holding.rows_relocate]
  rw [numbered, numbered, relocate, List.flatMap_map, List.map_flatMap]
  exact List.flatMap_congr fun decl _ => hdecl decl

/-! ## Tables and reports -/

theorem Row.insert_relocate (row : Row) (rows : List Row) :
    (row.relocate f).insert (rows.map (Row.relocate f)) = (row.insert rows).map (Row.relocate f) := by
  induction rows with
  | nil => rfl
  | cons first rows ih =>
    rw [List.map_cons, insert, insert, ih, apply_ite (List.map (Row.relocate f))]
    rfl

theorem NameTable.rows_ofRows_relocate (rows : List Row) :
    (ofRows (rows.map (Row.relocate f))).rows = (ofRows rows).rows.map (Row.relocate f) := by
  induction rows with
  | nil => rfl
  | cons row rows ih =>
    have hcons (row : Row) (rows : List Row) : (ofRows (row :: rows)).rows = row.insert (ofRows rows).rows := rfl
    rw [List.map_cons, hcons, hcons, ih, Row.insert_relocate]

theorem Row.duplicates_relocate {seen seen' : Registry QualifiedName Span}
    (hseen : ∀ name, seen'.find? name = (seen.find? name).map f.map) (rows : List Row) :
    Row.duplicates seen' (rows.map (Row.relocate f)) = (Row.duplicates seen rows).map (Diagnostic.relocate f) := by
  induction rows generalizing seen seen' with
  | nil => rfl
  | cons row rows ih =>
    have hname : (row.relocate f).name = row.name := rfl
    rw [List.map_cons, duplicates, duplicates, hname, hseen]
    cases hfirst : seen.find? row.name with
    | some first =>
      dsimp only [Option.map_some]
      rw [ih hseen]
      rfl
    | none =>
      refine ih fun name => ?_
      rw [Registry.find?_insert, Registry.find?_insert, hseen]
      split <;> rfl

/-! ## Texts with the same tokens -/

/-- The same tokens at other places make the same tree and the same reports at the other places. -/
theorem CompilationUnit.ofLexemes_relocate (f : Relocation) (lexemes : List Lexeme) :
    ofLexemes (lexemes.map (Lexeme.relocate f)) =
      ((ofLexemes lexemes).1.relocate f, (ofLexemes lexemes).2.map (Diagnostic.relocate f)) := by
  have halongside := (Grammar.rules_alongside f 0 0 lexemes.length).compilationUnit (s := { rest := lexemes })
  obtain ⟨-, hunit, hstate⟩ := halongside (Nat.lt_succ_self _)
  rw [ofLexemes, List.length_map]
  refine Prod.ext hunit ?_
  have hreported := congrArg (fun s => s.reported.reverse) hstate
  exact hreported.trans List.map_reverse.symm

/-- What is the same of two analyses that differ in places: the tree without its places, the
numbers, kinds and names of what is declared, and what the diagnostics say. -/
structure Analysis.SameButPlaces (a b : Analysis) : Prop where
  unit : a.unit.relocate .erasing = b.unit.relocate .erasing
  rows : a.table.rows.map (fun row => (row.id, row.kind, row.name)) =
    b.table.rows.map fun row => (row.id, row.kind, row.name)
  said : a.diagnostics.map Diagnostic.said = b.diagnostics.map Diagnostic.said

/-- Analysis is never refused, and what it says about a text, moved to other places, is what there is
to say about the tokens at the other places. -/
theorem Analysis.ofText_relocate (f : Relocation) (text : String) {unit : CompilationUnit}
    {problems : List Diagnostic}
    (h : CompilationUnit.ofLexemes ((lex text).map (Lexeme.relocate f)) = (unit, problems)) :
    ∃ a, Analysis.ofText text = .ok a ∧ a.unit.relocate f = unit ∧
      a.table.rows.map (Row.relocate f) = (NameTable.ofRows unit.numbered).rows ∧
      a.diagnostics.map (Diagnostic.relocate f) = Row.duplicates {} unit.numbered ++ problems := by
  have hparse : CompilationUnit.ofLexemes (lex text) = CompilationUnit.parse text := rfl
  rw [CompilationUnit.ofLexemes_relocate, hparse] at h
  obtain ⟨rfl, rfl⟩ := Prod.mk.inj h
  refine ⟨_, ofText_numbered text, rfl, ?_, ?_⟩
  · rw [CompilationUnit.numbered_relocate, NameTable.rows_ofRows_relocate]
  · have hnew : ∀ name, ({} : Registry QualifiedName Span).find? name =
        (({} : Registry QualifiedName Span).find? name).map f.map := fun _ => rfl
    rw [CompilationUnit.numbered_relocate, Row.duplicates_relocate hnew, List.map_append]

/-- Only the tokens of a text matter to what is said about it. -/
theorem Analysis.ofText_of_tokens {text text' : String}
    (h : (lex text).map Lexeme.token = (lex text').map Lexeme.token) :
    ∃ a b, Analysis.ofText text = .ok a ∧ Analysis.ofText text' = .ok b ∧ a.SameButPlaces b := by
  have hforget (lexemes : List Lexeme) : lexemes.map (Lexeme.relocate .erasing) =
      (lexemes.map Lexeme.token).map fun token => ⟨token, ⟨0, 0⟩⟩ := by
    rw [List.map_map]
    rfl
  have herased : (lex text').map (Lexeme.relocate .erasing) = (lex text).map (Lexeme.relocate .erasing) := by
    rw [hforget, hforget, h]
  cases hread : CompilationUnit.ofLexemes ((lex text).map (Lexeme.relocate .erasing)) with
  | mk unit problems =>
    obtain ⟨a, ha, hunit, hrows, hsaid⟩ := ofText_relocate .erasing text hread
    obtain ⟨b, hb, hunit', hrows', hsaid'⟩ := ofText_relocate .erasing text' (herased ▸ hread)
    refine ⟨a, b, ha, hb, hunit.trans hunit'.symm, ?_, ?_⟩
    · have hkey (rows : List Row) : rows.map (fun row => (row.id, row.kind, row.name)) =
          (rows.map (Row.relocate .erasing)).map fun row => (row.id, row.kind, row.name) := by
        rw [List.map_map]
        rfl
      rw [hkey a.table.rows, hkey b.table.rows, hrows, hrows']
    · have hsame (ds : List Diagnostic) :
          ds.map Diagnostic.said = (ds.map (Diagnostic.relocate .erasing)).map Diagnostic.said := by
        rw [List.map_map]
        exact List.map_congr_left fun d _ => (d.said_relocate .erasing).symm
      rw [hsame a.diagnostics, hsame b.diagnostics, hsaid, hsaid']

end Nomenclator
