/-
Names are stable: what a member type is called, and where it stands among
the members of its class, matters to no name outside it.

A class numbers its lambdas, its anonymous classes and its local types. A
member type takes no number, so to all that comes after it the counts are
what they would be without it (`Counted`). What stands around the members of
one class is a tree with a gap (`Gap`), and the members in the gap are met
within one class: so the rows around theirs do not depend on them
(`Surrounds`).
-/
import Nomenclator.Proofs.NameTable.Index

namespace Nomenclator

open scoped List

/-! ## Counts -/

namespace Holding

/-- Both lists move the numbers of a class to the same place. -/
structure Counted (held held' : List Holding) : Prop where
  lambda : held.countP isLambda = held'.countP isLambda
  anonymous : held.countP isAnonymous = held'.countP isAnonymous
  localType : ∀ name, held.countP (isLocalNamed name) = held'.countP (isLocalNamed name)

namespace Counted

variable {held held' more more' : List Holding}

theorem refl (held : List Holding) : Counted held held := ⟨rfl, rfl, fun _ => rfl⟩

theorem append (h : Counted held held') (h' : Counted more more') :
    Counted (held ++ more) (held' ++ more') where
  lambda := by rw [List.countP_append, List.countP_append, h.lambda, h'.lambda]
  anonymous := by rw [List.countP_append, List.countP_append, h.anonymous, h'.anonymous]
  localType name := by rw [List.countP_append, List.countP_append, h.localType, h'.localType]

/-- A class counts by the way it is entered. -/
theorem ofClass (entry : ClassEntry) (id : Nat) (kind : DeclarationKind) (span : Span)
    (held held' : List Holding) :
    Counted [.ofClass entry id kind span held] [.ofClass entry id kind span held'] := by
  cases entry <;> exact ⟨rfl, rfl, fun _ => rfl⟩

/-- A member type does not count. -/
theorem memberType (name : String) (kind : TypeKind) (id : Nat) (rowKind : DeclarationKind) (span : Span)
    (held : List Holding) : Counted [.ofClass (.named name kind) id rowKind span held] [] :=
  ⟨rfl, rfl, fun _ => rfl⟩

end Counted

theorem nameIn_congr (c : QualifiedName) {before before' : List Holding} (h : Counted before before')
    (holding : Holding) : holding.nameIn c before = holding.nameIn c before' := by
  cases holding with
  | operation kind => cases kind <;> rfl
  | lambda => rw [nameIn, nameIn, h.lambda]
  | ofClass entry =>
    cases entry with
    | named => rfl
    | localType => rw [nameIn, nameIn, h.localType]
    | anonymous => rw [nameIn, nameIn, h.anonymous]

/-- Only the counts of what comes before matter. -/
theorem rowsIn_congr (c : QualifiedName) {before before' : List Holding} (h : Counted before before')
    (held : List Holding) : rowsIn c before held = rowsIn c before' held := by
  induction held generalizing before before' with
  | nil => rfl
  | cons holding held ih =>
    rw [rowsIn, rowsIn, nameIn_congr c h holding, ih (h.append (.refl [holding]))]

end Holding

theorem Member.heldBy_append (entry : ClassEntry) (members more : List Member) :
    heldBy entry (members ++ more) = heldBy entry members ++ heldBy entry more := by
  induction members with
  | nil => rfl
  | cons m ms ih => rw [List.cons_append, heldBy, heldBy, ih, List.append_assoc]

theorem CodeItem.heldIn_append (host : Host) (code more : List CodeItem) :
    heldIn host (code ++ more) = heldIn host code ++ heldIn host more := by
  induction code with
  | nil => rfl
  | cons i is ih => rw [List.cons_append, heldIn, heldIn, ih, List.append_assoc]

/-! ## Trees with a gap

In each of these trees the members of one class are left out: of a type, or of the body of an
allocation or enum constant. -/

mutual

inductive TypeGap
  | mk (id : Nat) (kind : TypeKind) (name : String) (members : MembersGap) (span : Span)

inductive MembersGap
  /-- These are the members. -/
  | here
  | within (before : List Member) (gap : MemberGap) (after : List Member)

inductive MemberGap
  | type (gap : TypeGap) (span : Span)
  | field (isStatic : Bool) (gap : CodeGap) (span : Span)
  | operation (kind : OperationKind) (id : Nat) (name : String) (parameters : List Parameter)
      (gap : CodeGap) (span : Span)
  | initializer (isStatic : Bool) (gap : CodeGap) (span : Span)
  | constantArguments (id : Nat) (name : String) (gap : CodeGap) (body : Option (List Member))
      (span : Span)
  | constantBody (id : Nat) (name : String) (arguments : List CodeItem) (gap : MembersGap) (span : Span)

inductive CodeGap
  | within (before : List CodeItem) (gap : ItemGap) (after : List CodeItem)

inductive ItemGap
  | localType (gap : TypeGap)
  | allocationArguments (id : Nat) (type : String) (gap : CodeGap) (body : Option (List Member))
      (span : Span)
  | allocationBody (id : Nat) (type : String) (arguments : List CodeItem) (gap : MembersGap) (span : Span)
  | lambda (id : Nat) (gap : CodeGap) (span : Span)

end

mutual

/-- The tree with the given members in its gap. -/
def TypeGap.fill (members : List Member) : TypeGap → TypeDecl
  | .mk id kind name gap span => .mk id kind name (gap.fill members) span

def MembersGap.fill (members : List Member) : MembersGap → List Member
  | .here => members
  | .within before gap after => before ++ gap.fill members :: after

def MemberGap.fill (members : List Member) : MemberGap → Member
  | .type gap span => .type (gap.fill members) span
  | .field isStatic gap span => .field isStatic (gap.fill members) span
  | .operation kind id name parameters gap span =>
    .operation kind id name parameters (some (gap.fill members)) span
  | .initializer isStatic gap span => .initializer isStatic (gap.fill members) span
  | .constantArguments id name gap body span => .constant id name (gap.fill members) body span
  | .constantBody id name arguments gap span => .constant id name arguments (some (gap.fill members)) span

def CodeGap.fill (members : List Member) : CodeGap → List CodeItem
  | .within before gap after => before ++ gap.fill members :: after

def ItemGap.fill (members : List Member) : ItemGap → CodeItem
  | .localType gap => .localType (gap.fill members)
  | .allocationArguments id type gap body span => .allocation id type (gap.fill members) body span
  | .allocationBody id type arguments gap span => .allocation id type arguments (some (gap.fill members)) span
  | .lambda id gap span => .lambda id (gap.fill members) span

end

/-- A unit with a gap in one of its types. -/
structure UnitGap where
  package : List String
  before : List TypeDecl
  gap : TypeGap
  after : List TypeDecl

def UnitGap.fill (members : List Member) (unit : UnitGap) : CompilationUnit :=
  ⟨unit.package, unit.before ++ unit.gap.fill members :: unit.after⟩

/-! ## Rows around a gap -/

/-- The members have their rows within one class, and what comes before and after these is the
same whatever the members are. -/
def Surrounds (rows : List Member → List Row) : Prop :=
  ∃ (first : List Row) (c : QualifiedName) (entry : ClassEntry) (last : List Row), ∀ members,
    rows members = first ++ Holding.rowsIn c [] (Member.heldBy entry members) ++ last

theorem Surrounds.append {rows : List Member → List Row} (h : Surrounds rows) (front back : List Row) :
    Surrounds fun members => front ++ rows members ++ back := by
  obtain ⟨first, c, entry, last, hrows⟩ := h
  refine ⟨front ++ first, c, entry, last ++ back, fun members => ?_⟩
  simp only [hrows, List.append_assoc]

theorem Surrounds.cons {rows : List Member → List Row} (h : Surrounds rows) (row : Row) :
    Surrounds fun members => row :: rows members := by
  simpa only [List.singleton_append, List.append_nil] using h.append [row] []

/-- What is held does not depend on the members, but for what one class of it holds. -/
structure Framed (held : List Member → List Holding) : Prop where
  counted : ∀ members members', Holding.Counted (held members) (held members')
  rows : ∀ c before, Surrounds fun members => Holding.rowsIn c before (held members)

namespace Framed

variable {held : List Member → List Holding}

theorem within (h : Framed held) (before after : List Holding) :
    Framed fun members => before ++ held members ++ after where
  counted members members' := ((Holding.Counted.refl before).append (h.counted members members')).append
    (.refl after)
  rows c outer := by
    have hafter (members : List Member) :
        Holding.rowsIn c (outer ++ (before ++ held members)) after =
          Holding.rowsIn c (outer ++ (before ++ held [])) after :=
      Holding.rowsIn_congr c ((Holding.Counted.refl outer).append
        ((Holding.Counted.refl before).append (h.counted members []))) after
    simp only [Holding.rowsIn_append, hafter]
    exact (h.rows c (outer ++ before)).append _ _

theorem after (h : Framed held) (before : List Holding) : Framed fun members => before ++ held members := by
  have hall := h.within before []
  simpa only [List.append_nil] using hall

theorem before (h : Framed held) (after : List Holding) : Framed fun members => held members ++ after :=
  h.within [] after

/-- A class is named by what comes before it. -/
theorem ofClass (entry : ClassEntry) (id : Nat) (kind : DeclarationKind) (span : Span)
    (h : ∀ c, Surrounds fun members => Holding.rowsIn c [] (held members)) :
    Framed fun members => [.ofClass entry id kind span (held members)] where
  counted members members' := .ofClass entry id kind span (held members) (held members')
  rows c before := by
    have hname (members : List Member) :
        (Holding.ofClass entry id kind span (held members)).nameIn c before =
          (Holding.ofClass entry id kind span (held [])).nameIn c before := by
      cases entry <;> rfl
    simp only [Holding.rowsIn, Holding.rows, hname, List.append_nil]
    exact (h _).cons _

end Framed

mutual

theorem TypeGap.framed (isLocal : Bool) : ∀ gap : TypeGap,
    Framed fun members => [(gap.fill members).holding isLocal]
  | .mk id kind name gap span => by
    simp only [TypeGap.fill, TypeDecl.holding]
    exact .ofClass _ id (.type kind) span (gap.surrounds _)

theorem MembersGap.surrounds (entry : ClassEntry) : ∀ (gap : MembersGap) (c : QualifiedName),
    Surrounds fun members => Holding.rowsIn c [] (Member.heldBy entry (gap.fill members))
  | .here, c => ⟨[], c, entry, [], fun members => by
      simp only [MembersGap.fill, List.nil_append, List.append_nil]⟩
  | .within before gap after, c => by
    simp only [MembersGap.fill, Member.heldBy_append, Member.heldBy]
    simpa only [List.append_assoc] using ((gap.framed entry).within _ _).rows c []

theorem MemberGap.framed (entry : ClassEntry) : ∀ gap : MemberGap,
    Framed fun members => (gap.fill members).held entry
  | .type gap span => by
    simp only [MemberGap.fill, Member.held]
    exact gap.framed false
  | .field isStatic gap span => by
    simp only [MemberGap.fill, Member.held]
    exact gap.framed _
  | .operation kind id name parameters gap span => by
    simp only [MemberGap.fill, Member.held]
    exact (gap.framed _).after [_]
  | .initializer isStatic gap span => by
    simp only [MemberGap.fill, Member.held]
    exact gap.framed _
  | .constantArguments id name gap none span => by
    simp only [MemberGap.fill, Member.held]
    exact gap.framed _
  | .constantArguments id name gap (some body) span => by
    simp only [MemberGap.fill, Member.held]
    exact (gap.framed _).before _
  | .constantBody id name arguments gap span => by
    simp only [MemberGap.fill, Member.held]
    exact (Framed.ofClass _ id .anonymousClass span (gap.surrounds _)).after _

theorem CodeGap.framed (host : Host) : ∀ gap : CodeGap,
    Framed fun members => CodeItem.heldIn host (gap.fill members)
  | .within before gap after => by
    simp only [CodeGap.fill, CodeItem.heldIn_append, CodeItem.heldIn]
    simpa only [List.append_assoc] using (gap.framed host).within _ _

theorem ItemGap.framed (host : Host) : ∀ gap : ItemGap,
    Framed fun members => (gap.fill members).held host
  | .localType gap => by
    simp only [ItemGap.fill, CodeItem.held]
    exact gap.framed true
  | .allocationArguments id type gap none span => by
    simp only [ItemGap.fill, CodeItem.held]
    exact gap.framed _
  | .allocationArguments id type gap (some body) span => by
    simp only [ItemGap.fill, CodeItem.held]
    exact (gap.framed _).before _
  | .allocationBody id type arguments gap span => by
    simp only [ItemGap.fill, CodeItem.held]
    exact (Framed.ofClass _ id .anonymousClass span (gap.surrounds _)).after _
  | .lambda id gap span => by
    simp only [ItemGap.fill, CodeItem.held]
    exact (gap.framed host).after [_]

end

/-- The rows of a type at the top level. -/
def TypeDecl.topLevelRows (package : List String) (decl : TypeDecl) : List Row :=
  (decl.holding false).rows (.topLevel package decl.name)

theorem CompilationUnit.rows_eq_topLevelRows (unit : CompilationUnit) :
    unit.rows = .ok (unit.types.flatMap (TypeDecl.topLevelRows unit.package)) := unit.rows_eq_flatMap

theorem TypeGap.surrounds_topLevelRows (package : List String) : ∀ gap : TypeGap,
    Surrounds fun members => (gap.fill members).topLevelRows package
  | .mk id kind name gap span => by
    simp only [TypeGap.fill, TypeDecl.topLevelRows, TypeDecl.holding, Holding.rows, TypeDecl.name]
    exact (gap.surrounds _ _).cons _

theorem UnitGap.rows_fill (unit : UnitGap) : ∃ rows : List Member → List Row,
    Surrounds rows ∧ ∀ members, (unit.fill members).rows = .ok (rows members) := by
  refine ⟨_, (unit.gap.surrounds_topLevelRows unit.package).append
    (unit.before.flatMap (TypeDecl.topLevelRows unit.package))
    (unit.after.flatMap (TypeDecl.topLevelRows unit.package)), fun members => ?_⟩
  rw [CompilationUnit.rows_eq_topLevelRows, fill, List.flatMap_append, List.flatMap_cons, List.append_assoc]

/-! ## A member type among members -/

namespace Member

variable (c : QualifiedName) (entry : ClassEntry)

theorem rowsIn_append (before members more : List Member) :
    Holding.rowsIn c (heldBy entry before) (heldBy entry (members ++ more)) =
      Holding.rowsIn c (heldBy entry before) (heldBy entry members) ++
        Holding.rowsIn c (heldBy entry (before ++ members)) (heldBy entry more) := by
  rw [heldBy_append, Holding.rowsIn_append, heldBy_append]

/-- A member type has its rows in one block, and the rows that follow do not tell that it is there. -/
theorem rowsIn_type (decl : TypeDecl) (span : Span) (before after : List Member) :
    Holding.rowsIn c (heldBy entry before) (heldBy entry (type decl span :: after)) =
      (decl.holding false).rows (c.nested (.named decl.name)) ++
        Holding.rowsIn c (heldBy entry before) (heldBy entry after) := by
  obtain ⟨id, kind, name, members, place⟩ := decl
  have hcounted : Holding.Counted
      (heldBy entry before ++ [(TypeDecl.mk id kind name members place).holding false])
      (heldBy entry before ++ []) :=
    (Holding.Counted.refl _).append (.memberType name kind id (.type kind) place _)
  rw [List.append_nil] at hcounted
  rw [heldBy, held, List.singleton_append, Holding.rowsIn, Holding.rowsIn_congr c hcounted]
  rfl

end Member

/-- **Stability of names.** A type that is a member of a class, wherever the class stands, has its rows
in one block. Moving the type among the members moves the block, and deleting it deletes the block; no
row of the block and no row around it changes. The types at the top level have a block each, which
depends on the type and the package alone. -/
theorem CompilationUnit.rows_stable :
    (∀ (unit : UnitGap) (decl : TypeDecl) (span : Span) (before between after : List Member),
      ∃ first block middle last : List Row,
        block.map Row.declaration ~ Node.declarations decl.preorder ∧
        (unit.fill (before ++ .type decl span :: (between ++ after))).rows =
          .ok (first ++ block ++ middle ++ last) ∧
        (unit.fill (before ++ (between ++ .type decl span :: after))).rows =
          .ok (first ++ middle ++ block ++ last) ∧
        (unit.fill (before ++ (between ++ after))).rows = .ok (first ++ middle ++ last)) ∧
    ∀ package : List String, ∃ block : TypeDecl → List Row,
      (∀ decl, (block decl).map Row.declaration ~ Node.declarations decl.preorder) ∧
      ∀ types, (CompilationUnit.mk package types).rows = .ok (types.flatMap block) := by
  constructor
  · intro unit decl span before between after
    obtain ⟨_, ⟨first, c, entry, last, hrows⟩, hfill⟩ := unit.rows_fill
    have hfront (members : List Member) : Holding.rowsIn c [] (Member.heldBy entry (before ++ members)) =
        Holding.rowsIn c [] (Member.heldBy entry before) ++
          Holding.rowsIn c (Member.heldBy entry before) (Member.heldBy entry members) :=
      Member.rowsIn_append c entry [] before members
    refine ⟨first ++ Holding.rowsIn c [] (Member.heldBy entry before),
      (decl.holding false).rows (c.nested (.named decl.name)),
      Holding.rowsIn c (Member.heldBy entry before) (Member.heldBy entry between),
      Holding.rowsIn c (Member.heldBy entry (before ++ between)) (Member.heldBy entry after) ++ last,
      decl.rows_perm false _, ?_, ?_, ?_⟩
    · rw [hfill, hrows, hfront, Member.rowsIn_type, Member.rowsIn_append]
      simp only [List.append_assoc]
    · rw [hfill, hrows, hfront, Member.rowsIn_append, Member.rowsIn_type]
      simp only [List.append_assoc]
    · rw [hfill, hrows, hfront, Member.rowsIn_append]
      simp only [List.append_assoc]
  · intro package
    exact ⟨TypeDecl.topLevelRows package, fun decl => decl.rows_perm false _,
      fun types => CompilationUnit.rows_eq_topLevelRows ⟨package, types⟩⟩

end Nomenclator
