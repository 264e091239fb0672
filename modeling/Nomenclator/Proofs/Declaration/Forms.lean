/-
What every declaration tree that is read looks like, however malformed the
text: which nodes stand where, and what names and types are written as.

A name is judged by the place where it stands or was missed, so the tree is
compared with the tokens it was read from and with what was reported.
-/
import Nomenclator.Declaration.Basic
import Nomenclator.Diagnostic
import Nomenclator.Proofs.Declaration.Placement
import Nomenclator.Proofs.Name.TypeText

namespace Nomenclator

open Grammar Text

/-- The tokens of a text, and what is wrong with them. -/
structure Reading where
  lexemes : List Lexeme
  diagnostics : List Diagnostic

namespace Reading

variable (r : Reading)

/-- It was reported that a name is missing at this place. -/
def Misses (after : Anchor) (spot : Span) : Prop := ⟨.expectedIdentifier after, spot⟩ ∈ r.diagnostics

/-- The name declared at this place: the identifier there with its `$` replaced, and none if that is
reported to be missing. -/
structure Names (after : Anchor) (spot : Span) (name : String) : Prop where
  plain : '$' ∉ name.toList
  missing : r.Misses after spot → name = ""
  found : ¬ r.Misses after spot → isIdentifier name.toList = true ∧
    ∃ written, ⟨.identifier written, spot⟩ ∈ r.lexemes ∧ name = plainName written

end Reading

/-! ## Places of names -/

/-- Where the name of a type declaration is looked for that begins with these tokens: behind its
keyword, or at the keyword if that is the last token. -/
def TypeKind.nameSpot? (kind : TypeKind) (lexemes : List Lexeme) : Option Span :=
  let keyword := if kind = .annotationType then 1 else 0
  (lexemes[keyword + 1]?.or lexemes[keyword]?).map Lexeme.span

/-- Where the name of a method is looked for: right before its parameters, or else where these begin. -/
inductive MethodSpot : List Lexeme → Span → Prop
  | named {written spot opener rest} :
    MethodSpot (⟨.identifier written, spot⟩ :: ⟨.opener .paren, opener⟩ :: rest) spot
  | unnamed {spot rest} : MethodSpot (⟨.opener .paren, spot⟩ :: rest) spot

/-! ## Parameters -/

/-- The type of a parameter as it is written: names joined by points, square brackets, and dots for any
number of arguments, maybe with more brackets behind them. -/
structure Parameter.Formed (p : Parameter) : Prop where
  written : ∃ (names : List String) (count : Nat) (variadic : Bool) (more : Nat), names ≠ [] ∧
    (∀ name ∈ names, IsName name) ∧
    p.type = typeText names count ++ (if variadic then "..." else "") ++ dimensionText more
  ne_empty : p.type ≠ ""
  not_separator : ∀ c ∈ p.type.toList, c ≠ ',' ∧ c ≠ ')' ∧ Text.isBlank c = false

theorem Parameter.Formed.of_names {names : List String} (hne : names ≠ []) (hnames : ∀ name ∈ names, IsName name)
    (count : Nat) (variadic : Bool) (more : Nat) (name : String) :
    Parameter.Formed ⟨typeText names count ++ (if variadic then "..." else "") ++ dimensionText more, name⟩ := by
  have hdots : (if variadic then "..." else "").toList.all isTypeChar = true := by
    cases variadic <;> rfl
  have htext := ((IsTypeText.typeText hne hnames count).append (List.all_eq_true.mp hdots)).append
    (isTypeChar_of_mem_dimensionText more)
  exact ⟨⟨names, count, variadic, more, hne, hnames, rfl⟩, htext.1, htext.not_separator⟩

/-! ## Trees -/

def Member.isConstant : Member → Bool
  | .constant .. => true
  | _ => false

/-- Constants come before all other members, and only in an enum. -/
def ConstantsFirst (kind : TypeKind) (members : List Member) : Prop :=
  ∃ constants others, members = constants ++ others ∧ (∀ m ∈ constants, m.isConstant = true) ∧
    (∀ m ∈ others, m.isConstant = false) ∧ (constants ≠ [] → kind = .enumType)

theorem ConstantsFirst.nil {kind : TypeKind} : ConstantsFirst kind [] :=
  ⟨[], [], rfl, nofun, nofun, fun hne => absurd rfl hne⟩

/-- A method is named by the text. A constructor has the name of its class, and so that has one. -/
def OperationKind.Formed (r : Reading) (ofClass : String → Prop) (place : Span) (name : String) :
    OperationKind → Prop
  | method => ∃ lexemes spot, lexemes <:+ r.lexemes ∧ MethodSpot lexemes spot ∧ place.Covers spot ∧
      r.Names .type spot name
  | constructor => ofClass name ∧ '$' ∉ name.toList ∧ isIdentifier name.toList = true

mutual

def TypeDecl.Formed (r : Reading) : TypeDecl → Prop
  | .mk _ kind name members place =>
    (∃ lexemes spot, lexemes <:+ r.lexemes ∧ typeStart? lexemes = some kind ∧
      lexemes.head?.map (·.span.start) = some place.start ∧ kind.nameSpot? lexemes = some spot ∧
      r.Names .typeKeyword spot name) ∧
    ConstantsFirst kind members ∧ Member.AllFormed r (· = name) members

/-- A member of a class whose constructors have such names. An anonymous class has no constructors. -/
def Member.Formed (r : Reading) (ofClass : String → Prop) : Member → Prop
  | .type decl _ => decl.Formed r
  | .field _ code _ | .initializer _ code _ => CodeItem.AllFormed r code
  | .operation kind _ name parameters none place =>
    kind.Formed r ofClass place name ∧ ∀ p ∈ parameters, p.Formed
  | .operation kind _ name parameters (some code) place =>
    kind.Formed r ofClass place name ∧ (∀ p ∈ parameters, p.Formed) ∧ CodeItem.AllFormed r code
  | .constant _ _ arguments none _ => CodeItem.AllFormed r arguments
  | .constant _ _ arguments (some members) _ =>
    CodeItem.AllFormed r arguments ∧ (∀ m ∈ members, m.isConstant = false) ∧
      Member.AllFormed r (fun _ => False) members

def Member.AllFormed (r : Reading) (ofClass : String → Prop) : List Member → Prop
  | [] => True
  | m :: ms => m.Formed r ofClass ∧ Member.AllFormed r ofClass ms

def CodeItem.Formed (r : Reading) : CodeItem → Prop
  | .localType decl => decl.kind ≠ .annotationType ∧ decl.Formed r
  | .allocation _ _ arguments none _ => CodeItem.AllFormed r arguments
  | .allocation _ _ arguments (some members) _ =>
    CodeItem.AllFormed r arguments ∧ (∀ m ∈ members, m.isConstant = false) ∧
      Member.AllFormed r (fun _ => False) members
  | .lambda _ body _ => CodeItem.AllFormed r body

def CodeItem.AllFormed (r : Reading) : List CodeItem → Prop
  | [] => True
  | i :: is => i.Formed r ∧ CodeItem.AllFormed r is

end

def CompilationUnit.Formed (r : Reading) (unit : CompilationUnit) : Prop := ∀ decl ∈ unit.types, decl.Formed r

section

variable {r : Reading} {ofClass ofClass' : String → Prop}

theorem Member.allFormed_iff {members : List Member} :
    AllFormed r ofClass members ↔ ∀ m ∈ members, m.Formed r ofClass := by
  induction members with
  | nil => exact ⟨fun _ => nofun, fun _ => trivial⟩
  | cons m ms ih => rw [AllFormed, ih, List.forall_mem_cons]

theorem CodeItem.allFormed_iff {code : List CodeItem} : AllFormed r code ↔ ∀ i ∈ code, i.Formed r := by
  induction code with
  | nil => exact ⟨fun _ => nofun, fun _ => trivial⟩
  | cons i is ih => rw [AllFormed, ih, List.forall_mem_cons]

/-- Only the names of constructors depend on the class. -/
theorem Member.Formed.mono {m : Member} (h : m.Formed r ofClass) (hclass : ∀ name, ofClass name → ofClass' name) :
    m.Formed r ofClass' := by
  have hkind {kind : OperationKind} {place : Span} {name : String} (hk : kind.Formed r ofClass place name) :
      kind.Formed r ofClass' place name := by
    cases kind with
    | method => exact hk
    | constructor => exact ⟨hclass name hk.1, hk.2⟩
  cases m with
  | operation kind id name parameters body span =>
    cases body with
    | none => exact ⟨hkind h.1, h.2⟩
    | some code => exact ⟨hkind h.1, h.2⟩
  | constant id name arguments body span => cases body <;> exact h
  | _ => exact h

theorem Member.formed_operation {kind : OperationKind} {id : Nat} {name : String} {parameters : List Parameter}
    {body : Option (List CodeItem)} {place : Span} (hname : kind.Formed r ofClass place name)
    (hparameters : ∀ p ∈ parameters, p.Formed) (hbody : ∀ code ∈ body, ∀ i ∈ code, i.Formed r) :
    (operation kind id name parameters body place).Formed r ofClass := by
  cases body with
  | none => exact ⟨hname, hparameters⟩
  | some code => exact ⟨hname, hparameters, CodeItem.allFormed_iff.mpr (hbody code rfl)⟩

/-- The body of an anonymous class. -/
def Member.AnonymousFormed (r : Reading) (members : List Member) : Prop :=
  (∀ m ∈ members, m.isConstant = false) ∧ ∀ m ∈ members, m.Formed r fun _ => False

theorem Member.formed_constant {id : Nat} {name : String} {arguments : List CodeItem}
    {body : Option (List Member)} {place : Span} (harguments : ∀ i ∈ arguments, i.Formed r)
    (hbody : ∀ members ∈ body, AnonymousFormed r members) :
    (constant id name arguments body place).Formed r ofClass := by
  cases body with
  | none => exact CodeItem.allFormed_iff.mpr harguments
  | some members =>
    exact ⟨CodeItem.allFormed_iff.mpr harguments, (hbody members rfl).1, allFormed_iff.mpr (hbody members rfl).2⟩

theorem CodeItem.formed_allocation {id : Nat} {type : String} {arguments : List CodeItem}
    {body : Option (List Member)} {place : Span} (harguments : ∀ i ∈ arguments, i.Formed r)
    (hbody : ∀ members ∈ body, Member.AnonymousFormed r members) :
    (allocation id type arguments body place).Formed r := by
  cases body with
  | none => exact allFormed_iff.mpr harguments
  | some members =>
    exact ⟨allFormed_iff.mpr harguments, (hbody members rfl).1, Member.allFormed_iff.mpr (hbody members rfl).2⟩

/-- Only an enum has constants. -/
theorem ConstantsFirst.not_constant {kind : TypeKind} {members : List Member} (h : ConstantsFirst kind members)
    (hkind : kind ≠ .enumType) : ∀ m ∈ members, m.isConstant = false := by
  obtain ⟨constants, others, rfl, -, hothers, henum⟩ := h
  have hnil : constants = [] := by
    by_contra hne
    exact hkind (henum hne)
  rw [hnil]
  exact hothers

end

end Nomenclator
