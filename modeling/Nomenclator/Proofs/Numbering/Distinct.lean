/-
No two classes or lambdas of a unit have the same name, as long as no two
types that are declared side by side do.

Indices start anew in every class, so they tell apart only what one class
holds. What carries the rest are the chains: whatever is named within a
class extends the chain of that class, and two holdings of one class that
are not operations extend it in two ways. So if two declarations have the
same name, they are operations, and one class holds them both.
-/
import Mathlib.Data.List.Nodup
import Nomenclator.NameTable.Analysis
import Nomenclator.Proofs.Numbering.Walk

namespace Nomenclator

open scoped List

/-! ## Class bodies -/

/-- The simple name of a type that is declared as a member. -/
def Member.typeName? : Member → Option String
  | .type decl _ => some decl.name
  | .field .. | .operation .. | .initializer .. | .constant .. => none

/-- The simple name that an operation of class `c` has in qualified names. -/
def OperationKind.simpleName (c : QualifiedName) (written : String) : OperationKind → String
  | method => written
  | constructor => c.declaredSimpleName

/-- The row of a method or constructor that class `c` declares. -/
def Member.operationRow? (c : QualifiedName) : Member → Option Row
  | .operation kind id name parameters _ span =>
    some ⟨id, kind.declarationKind, span,
      c.withOperation (.method (kind.simpleName c name) (parameters.map Parameter.type))⟩
  | .type .. | .field .. | .initializer .. | .constant .. => none

mutual

/-- The members of all classes in a declaration, those of the declared type first. -/
def TypeDecl.bodies : TypeDecl → List (List Member)
  | .mk _ _ _ members _ => members :: Member.bodiesOf members

def Member.bodies : Member → List (List Member)
  | .type decl _ => decl.bodies
  | .field _ code _ | .initializer _ code _ => CodeItem.bodiesOf code
  | .operation _ _ _ _ none _ => []
  | .operation _ _ _ _ (some code) _ => CodeItem.bodiesOf code
  | .constant _ _ arguments none _ => CodeItem.bodiesOf arguments
  | .constant _ _ arguments (some members) _ =>
    CodeItem.bodiesOf arguments ++ members :: Member.bodiesOf members

def Member.bodiesOf : List Member → List (List Member)
  | [] => []
  | m :: ms => m.bodies ++ Member.bodiesOf ms

def CodeItem.bodies : CodeItem → List (List Member)
  | .localType decl => decl.bodies
  | .allocation _ _ arguments none _ => CodeItem.bodiesOf arguments
  | .allocation _ _ arguments (some members) _ =>
    CodeItem.bodiesOf arguments ++ members :: Member.bodiesOf members
  | .lambda _ body _ => CodeItem.bodiesOf body

def CodeItem.bodiesOf : List CodeItem → List (List Member)
  | [] => []
  | i :: is => i.bodies ++ CodeItem.bodiesOf is

end

def CompilationUnit.bodies (unit : CompilationUnit) : List (List Member) :=
  unit.types.flatMap TypeDecl.bodies

/-- Types that are declared side by side have different simple names. -/
structure CompilationUnit.TypesDiffer (unit : CompilationUnit) : Prop where
  topLevel : (unit.types.map TypeDecl.name).Nodup
  members : ∀ body ∈ unit.bodies, (body.filterMap Member.typeName?).Nodup

/-! ## What lies within a class -/

namespace QualifiedName

/-- `n` names the class `c` or something within it. -/
structure Encloses (c n : QualifiedName) : Prop where
  packages : n.packages = c.packages
  outermost : n.outermost = c.outermost
  inner : c.inner <+: n.inner

namespace Encloses

variable {c n : QualifiedName} {s : Segment}

theorem refl (c : QualifiedName) : c.Encloses c := ⟨rfl, rfl, List.prefix_refl _⟩

theorem trans {m : QualifiedName} (h : c.Encloses n) (h' : n.Encloses m) : c.Encloses m :=
  ⟨h'.packages.trans h.packages, h'.outermost.trans h.outermost, h.inner.trans h'.inner⟩

theorem of_nested (h : (c.nested s).Encloses n) : c.Encloses n :=
  ⟨h.packages, h.outermost, (List.prefix_append _ _).trans h.inner⟩

theorem length_lt (h : (c.nested s).Encloses n) : c.inner.length < n.inner.length := by
  have hle := h.inner.length_le
  rw [c.nested_longer s] at hle
  omega

/-- Nothing lies within two classes of `c`. -/
theorem segment_eq {t : Segment} (hs : (c.nested s).Encloses n) (ht : (c.nested t).Encloses n) :
    s = t := by
  have hlength : (c.nested s).inner.length = (c.nested t).inner.length := by
    rw [c.nested_longer, c.nested_longer]
  have heq : c.inner ++ [s] = c.inner ++ [t] :=
    (List.prefix_of_prefix_length_le hs.inner ht.inner (Nat.le_of_eq hlength)).eq_of_length hlength
  simpa using heq

end Encloses

/-- From the class `c` the name `n` goes on with this segment, or is `c` with this operation. -/
def GoesOn (c n : QualifiedName) : Segment ⊕ Operation → Prop
  | .inl s => (c.nested s).Encloses n
  | .inr o => n = c.withOperation o

namespace GoesOn

variable {c n : QualifiedName} {e e' : Segment ⊕ Operation}

theorem ne (h : c.GoesOn n e) (hc : c.operation = none) : n ≠ c := by
  rintro rfl
  match e, h with
  | .inl s, h => exact absurd h.length_lt (Nat.lt_irrefl _)
  | .inr o, h =>
    have hn : n.operation = some o := congrArg operation h
    rw [hc] at hn
    exact absurd hn nofun

/-- A name goes on from `c` in one way only. -/
theorem unique (h : c.GoesOn n e) (h' : c.GoesOn n e') : e = e' := by
  have himpossible {s : Segment} {o : Operation} (hs : (c.nested s).Encloses n)
      (ho : n = c.withOperation o) : False := by
    have hlt := hs.length_lt
    rw [ho] at hlt
    exact Nat.lt_irrefl _ hlt
  match e, e', h, h' with
  | .inl s, .inl t, h, h' => rw [h.segment_eq h']
  | .inl s, .inr o, h, h' => exact (himpossible h h').elim
  | .inr o, .inl s, h, h' => exact (himpossible h' h).elim
  | .inr o, .inr o', h, h' =>
    have ho : n.operation = some o := congrArg operation h
    have ho' : n.operation = some o' := congrArg operation h'
    rw [Option.some.inj (ho.symm.trans ho')]

end GoesOn

end QualifiedName

/-! ## What a class holds goes on from its name -/

/-- The segment of a class that is entered so in a class that holds `before` already. -/
def ClassEntry.segmentAfter (before : List Holding) : ClassEntry → Segment
  | named name _ => .named name
  | localType name _ => .localType (before.countP (Holding.isLocalNamed name) + 1) name
  | anonymous => .anonymous (before.countP Holding.isAnonymous + 1)

namespace Holding

/-- The simple name of a member type. -/
def memberType? : Holding → Option String
  | ofClass (.named name _) .. => some name
  | _ => none

def operationRow? (c : QualifiedName) : Holding → Option Row
  | operation kind id name parameters span =>
    some ⟨id, kind.declarationKind, span, c.withOperation (.method (kind.simpleName c name) parameters)⟩
  | lambda .. | ofClass .. => none

def isOperation : Holding → Prop
  | operation .. => True
  | lambda .. | ofClass .. => False

/-- What comes behind the name of class `c` in that of the holding. -/
def step (c : QualifiedName) (before : List Holding) : Holding → Segment ⊕ Operation
  | operation kind _ name parameters _ => .inr (.method (kind.simpleName c name) parameters)
  | lambda host _ _ => .inr (.lambda host (before.countP isLambda))
  | ofClass entry .. => .inl (entry.segmentAfter before)

theorem nameIn_ofClass_eq (entry : ClassEntry) (id : Nat) (kind : DeclarationKind) (span : Span)
    (held : List Holding) (c : QualifiedName) (before : List Holding) :
    (ofClass entry id kind span held).nameIn c before = c.nested (entry.segmentAfter before) := by
  cases entry <;> rfl

theorem nameIn_operation_eq (kind : OperationKind) (id : Nat) (name : String)
    (parameters : List String) (span : Span) (c : QualifiedName) (before : List Holding) :
    (operation kind id name parameters span).nameIn c before =
      c.withOperation (.method (kind.simpleName c name) parameters) := by
  cases kind <;> rfl

theorem encloses_nameIn (c : QualifiedName) (before : List Holding) (h : Holding) :
    c.Encloses (h.nameIn c before) := by
  match h with
  | operation kind id name parameters span =>
    rw [nameIn_operation_eq]
    exact ⟨rfl, rfl, List.prefix_refl _⟩
  | lambda .. => exact ⟨rfl, rfl, List.prefix_refl _⟩
  | ofClass entry id kind span held =>
    rw [nameIn_ofClass_eq]
    exact (QualifiedName.Encloses.refl _).of_nested

mutual

theorem encloses_rows (h : Holding) {name : QualifiedName} :
    ∀ row ∈ h.rows name, name.Encloses row.name :=
  match h with
  | operation .. | lambda .. => by
    rw [rows]
    exact List.forall_mem_singleton.mpr (.refl name)
  | ofClass entry id kind span held => by
    rw [rows]
    exact List.forall_mem_cons.mpr ⟨.refl name, encloses_rowsIn held⟩

theorem encloses_rowsIn (held : List Holding) {c : QualifiedName} {before : List Holding} :
    ∀ row ∈ rowsIn c before held, c.Encloses row.name :=
  match held with
  | [] => nofun
  | h :: hs => by
    rw [rowsIn]
    refine List.forall_mem_append.mpr ⟨fun row hrow => ?_, encloses_rowsIn hs⟩
    exact (encloses_nameIn c before h).trans (encloses_rows h row hrow)

end

theorem goesOn_rows {c : QualifiedName} {before : List Holding} {h : Holding} {row : Row}
    (hrow : row ∈ h.rows (h.nameIn c before)) : c.GoesOn row.name (h.step c before) := by
  match h with
  | operation kind id name parameters span =>
    rw [nameIn_operation_eq, rows] at hrow
    rw [List.mem_singleton.mp hrow]
    rfl
  | lambda host id span =>
    rw [nameIn, rows] at hrow
    rw [List.mem_singleton.mp hrow]
    rfl
  | ofClass entry id kind span held =>
    rw [nameIn_ofClass_eq] at hrow
    exact encloses_rows _ row hrow

/-- Every further row comes from one holding, which has others before it. -/
theorem mem_rowsIn {c : QualifiedName} {before held : List Holding} {row : Row}
    (hrow : row ∈ rowsIn c before held) :
    ∃ between h after, held = between ++ h :: after ∧ row ∈ h.rows (h.nameIn c (before ++ between)) := by
  induction held generalizing before with
  | nil => exact absurd hrow nofun
  | cons h hs ih =>
    rw [rowsIn] at hrow
    rcases List.mem_append.mp hrow with hrow | hrow
    · exact ⟨[], h, hs, rfl, by rwa [List.append_nil]⟩
    · obtain ⟨between, h', after, rfl, hrow⟩ := ih hrow
      exact ⟨h :: between, h', after, rfl, by rwa [List.append_cons]⟩

/-- Two classes that one class holds go on with different segments. -/
theorem segmentAfter_ne {before between : List Holding} {entry entry' : ClassEntry} {id : Nat}
    {kind : DeclarationKind} {span : Span} {held : List Holding}
    (hd : ∀ name ∈ (ofClass entry id kind span held).memberType?,
      ∀ kind', entry' ≠ .named name kind') :
    entry.segmentAfter before ≠
      entry'.segmentAfter (before ++ ofClass entry id kind span held :: between) := by
  intro hs
  cases entry with
  | named name kind =>
    cases entry' with
    | named name' kind' => exact hd name rfl kind' (by rw [Segment.named.inj hs])
    | localType | anonymous => cases hs
  | localType name kind =>
    cases entry' with
    | localType name' kind' =>
      obtain ⟨hindex, rfl⟩ := Segment.localType.inj hs
      simp [isLocalNamed] at hindex
    | named | anonymous => cases hs
  | anonymous =>
    cases entry' with
    | anonymous =>
      have hindex := Segment.anonymous.inj hs
      simp [isAnonymous] at hindex
    | named | localType => cases hs

/-- Of two holdings that go on in the same way, both are operations. -/
theorem operations_of_step_eq {c : QualifiedName} {before between : List Holding} {h h' : Holding}
    (hd : ∀ name ∈ h.memberType?, h'.memberType? ≠ some name)
    (hs : h.step c before = h'.step c (before ++ h :: between)) :
    h.isOperation ∧ h'.isOperation := by
  match h, h' with
  | operation .., operation .. => exact ⟨trivial, trivial⟩
  | operation .., lambda .. | lambda .., operation .. => exact absurd hs nofun
  | operation .., ofClass .. | lambda .., ofClass .. => exact absurd hs nofun
  | ofClass .., operation .. | ofClass .., lambda .. => exact absurd hs nofun
  | lambda host id span, lambda host' id' span' =>
    obtain ⟨-, hindex⟩ := Operation.lambda.inj (Sum.inr.inj hs)
    simp [isLambda] at hindex
  | ofClass entry id kind span held, ofClass entry' id' kind' span' held' =>
    refine absurd (Sum.inl.inj hs) (segmentAfter_ne fun name hname kind he => ?_)
    exact hd name hname (by rw [he]; rfl)

theorem operationRow?_of_mem_rows {c : QualifiedName} {before : List Holding} {h : Holding}
    (ho : h.isOperation) {row : Row} (hrow : row ∈ h.rows (h.nameIn c before)) :
    h.operationRow? c = some row := by
  match h, ho with
  | operation kind id name parameters span, _ =>
    rw [nameIn_operation_eq, rows] at hrow
    rw [List.mem_singleton.mp hrow]
    rfl

/-! ## Two declarations of one name -/

mutual

/-- What is held by each class among the holdings and within them. -/
def bodies : Holding → List (List Holding)
  | operation .. | lambda .. => []
  | ofClass _ _ _ _ held => held :: bodiesOf held

def bodiesOf : List Holding → List (List Holding)
  | [] => []
  | h :: hs => h.bodies ++ bodiesOf hs

end

/-- The rows are of operations that one class holds, in this order. -/
def Overload (bodies : List (List Holding)) (first second : Row) : Prop :=
  ∃ c, ∃ body ∈ bodies, [first, second] <+ body.filterMap (operationRow? c)

theorem Overload.mono {bodies bodies' : List (List Holding)} {first second : Row}
    (h : Overload bodies first second)
    (hsub : ∀ body ∈ bodies, ∃ body' ∈ bodies', body <+ body') : Overload bodies' first second := by
  obtain ⟨c, body, hbody, hrows⟩ := h
  obtain ⟨body', hbody', hle⟩ := hsub body hbody
  exact ⟨c, body', hbody', hrows.trans (hle.filterMap _)⟩

/-- The member types that each class holds have different names. -/
def TypesDiffer (bodies : List (List Holding)) : Prop :=
  ∀ body ∈ bodies, (body.filterMap memberType?).Nodup

theorem overload_of_siblings {c : QualifiedName} {before : List Holding} {h : Holding}
    {hs : List Holding} (hd : ((h :: hs).filterMap memberType?).Nodup) {first second : Row}
    (hfirst : first ∈ h.rows (h.nameIn c before)) (hsecond : second ∈ rowsIn c (before ++ [h]) hs)
    (hname : first.name = second.name) : Overload [h :: hs] first second := by
  obtain ⟨between, h', after, rfl, hlast⟩ := mem_rowsIn hsecond
  rw [← List.append_cons] at hlast
  have hstep : h.step c before = h'.step c (before ++ h :: between) := by
    have hgoes := goesOn_rows hlast
    rw [← hname] at hgoes
    exact (goesOn_rows hfirst).unique hgoes
  have hother : ∀ name ∈ h.memberType?, h'.memberType? ≠ some name := by
    intro name hn hn'
    rw [List.filterMap_cons_some hn] at hd
    refine (List.nodup_cons.mp hd).1 (List.mem_filterMap.mpr ⟨h', ?_, hn'⟩)
    simp
  obtain ⟨ho, ho'⟩ := operations_of_step_eq hother hstep
  refine ⟨c, _, List.mem_singleton_self _, ?_⟩
  have hrow := operationRow?_of_mem_rows ho hfirst
  have hrow' := operationRow?_of_mem_rows ho' hlast
  rw [List.filterMap_cons_some hrow, List.filterMap_append, List.filterMap_cons_some hrow']
  exact .cons_cons _ (List.singleton_sublist.mpr (by simp))

/-- Nothing within a class has the name of the class. -/
theorem pairwise_rows_ofClass {name : QualifiedName} (hn : name.operation = none)
    {r : Row → Row → Prop} {held : List Holding}
    (h : (rowsIn name [] held).Pairwise fun first second => first.name = second.name → r first second)
    (entry : ClassEntry) (id : Nat) (kind : DeclarationKind) (span : Span) :
    ((ofClass entry id kind span held).rows name).Pairwise fun first second =>
      first.name = second.name → r first second := by
  rw [rows, List.pairwise_cons]
  refine ⟨fun row hrow hname => ?_, h⟩
  obtain ⟨between, h, after, rfl, hmem⟩ := mem_rowsIn hrow
  exact absurd hname.symm ((goesOn_rows hmem).ne hn)

mutual

theorem pairwise_rows (h : Holding) (hd : TypesDiffer h.bodies) {c : QualifiedName}
    {before : List Holding} : (h.rows (h.nameIn c before)).Pairwise fun first second =>
      first.name = second.name → Overload h.bodies first second :=
  match h with
  | operation .. | lambda .. => by
    rw [rows]
    exact List.pairwise_singleton _ _
  | ofClass entry id kind span held => by
    rw [nameIn_ofClass_eq]
    exact pairwise_rows_ofClass rfl (pairwise_rowsIn held hd) entry id kind span

theorem pairwise_rowsIn (held : List Holding) (hd : TypesDiffer (held :: bodiesOf held))
    {c : QualifiedName} {before : List Holding} :
    (rowsIn c before held).Pairwise fun first second =>
      first.name = second.name → Overload (held :: bodiesOf held) first second :=
  match held with
  | [] => .nil
  | h :: hs => by
    obtain ⟨hbody, hbodies⟩ := List.forall_mem_cons.mp hd
    obtain ⟨hfirst, hrest⟩ := List.forall_mem_append.mp hbodies
    have htail : TypesDiffer (hs :: bodiesOf hs) := List.forall_mem_cons.mpr
      ⟨hbody.sublist ((List.sublist_cons_self h hs).filterMap _), hrest⟩
    rw [rowsIn, List.pairwise_append]
    refine ⟨?_, ?_, fun first hf second hs hname => ?_⟩
    · refine (pairwise_rows h hfirst).imp fun himp hname => (himp hname).mono fun body hb => ?_
      exact ⟨body, List.mem_cons_of_mem _ (List.mem_append_left _ hb), .refl _⟩
    · refine (pairwise_rowsIn hs htail).imp fun himp hname => (himp hname).mono ?_
      refine List.forall_mem_cons.mpr ⟨⟨_, List.mem_cons_self, List.sublist_cons_self h hs⟩, ?_⟩
      exact fun body hb => ⟨body, List.mem_cons_of_mem _ (List.mem_append_right _ hb), .refl _⟩
    · refine (overload_of_siblings hbody hf hs hname).mono fun body hb => ?_
      exact ⟨body, List.mem_singleton.mp hb ▸ List.mem_cons_self, .refl _⟩

end

theorem bodiesOf_append (hs hs' : List Holding) : bodiesOf (hs ++ hs') = bodiesOf hs ++ bodiesOf hs' := by
  induction hs with
  | nil => rfl
  | cons h hs ih => rw [List.cons_append, bodiesOf, bodiesOf, ih, List.append_assoc]

end Holding

/-! ## From the tree to what is held -/

/-- A member type or an operation. -/
def Holding.isMember : Holding → Bool
  | .operation .. | .ofClass (.named ..) .. => true
  | .lambda .. | .ofClass (.localType ..) .. | .ofClass .anonymous .. => false

/-- What a member declares itself, and not in its code. -/
def Member.declared? : Member → Option Holding
  | .type decl _ => some (decl.holding false)
  | .operation kind id name parameters _ span =>
    some (.operation kind id name (parameters.map Parameter.type) span)
  | .field .. | .initializer .. | .constant .. => none

mutual

theorem CodeItem.not_isMember_held (host : Host) (i : CodeItem) :
    ∀ h ∈ i.held host, ¬ h.isMember = true :=
  match i with
  | .localType (.mk ..) => List.forall_mem_singleton.mpr nofun
  | .allocation _ _ arguments none _ => CodeItem.not_isMember_heldIn host arguments
  | .allocation _ _ arguments (some _) _ => List.forall_mem_append.mpr
    ⟨CodeItem.not_isMember_heldIn host arguments, List.forall_mem_singleton.mpr nofun⟩
  | .lambda _ body _ => List.forall_mem_cons.mpr ⟨nofun, CodeItem.not_isMember_heldIn host body⟩

theorem CodeItem.not_isMember_heldIn (host : Host) (is : List CodeItem) :
    ∀ h ∈ CodeItem.heldIn host is, ¬ h.isMember = true :=
  match is with
  | [] => nofun
  | i :: is => List.forall_mem_append.mpr
    ⟨CodeItem.not_isMember_held host i, CodeItem.not_isMember_heldIn host is⟩

end

theorem Member.filter_held (entry : ClassEntry) (m : Member) :
    (m.held entry).filter Holding.isMember = m.declared?.toList := by
  have hcode (host : Host) (code : List CodeItem) :
      (CodeItem.heldIn host code).filter Holding.isMember = [] :=
    List.filter_eq_nil_iff.mpr (CodeItem.not_isMember_heldIn host code)
  match m with
  | .type (.mk ..) _ | .operation _ _ _ _ none _ => rfl
  | .field .. | .initializer .. | .constant _ _ _ none _ => exact hcode _ _
  | .operation _ _ _ _ (some code) _ =>
    rw [Member.held, List.filter_cons_of_pos rfl, hcode]
    rfl
  | .constant _ _ arguments (some _) _ =>
    rw [Member.held, List.filter_append, hcode]
    rfl

theorem Member.filter_heldBy (entry : ClassEntry) (ms : List Member) :
    (Member.heldBy entry ms).filter Holding.isMember = ms.filterMap Member.declared? := by
  induction ms with
  | nil => rfl
  | cons m ms ih =>
    rw [Member.heldBy, List.filter_append, m.filter_held, ih]
    cases hm : m.declared? with
    | none => rw [List.filterMap_cons_none hm]; rfl
    | some h => rw [List.filterMap_cons_some hm]; rfl

/-- What matters only of members is the same for the members and for what their class holds. -/
theorem Member.filterMap_heldBy {α : Type} {f : Holding → Option α}
    (hf : ∀ h : Holding, h.isMember = false → f h = none) (entry : ClassEntry) (ms : List Member) :
    (Member.heldBy entry ms).filterMap f = ms.filterMap fun m => m.declared?.bind f := by
  rw [← List.filterMap_filterMap, ← filter_heldBy entry, List.filterMap_filter]
  refine List.filterMap_congr fun h _ => ?_
  cases hm : h.isMember with
  | true => rfl
  | false => exact hf h hm

theorem Member.filterMap_memberType? (entry : ClassEntry) (ms : List Member) :
    (Member.heldBy entry ms).filterMap Holding.memberType? = ms.filterMap Member.typeName? := by
  have hf (h : Holding) (hm : h.isMember = false) : h.memberType? = none := by
    match h, hm with
    | .lambda .., _ | .ofClass (.localType ..) .., _ | .ofClass .anonymous .., _ => rfl
  rw [filterMap_heldBy hf]
  refine List.filterMap_congr fun m _ => ?_
  match m with
  | .type (.mk ..) _ | .field .. | .operation .. | .initializer .. | .constant .. => rfl

theorem Member.filterMap_operationRow? (c : QualifiedName) (entry : ClassEntry) (ms : List Member) :
    (Member.heldBy entry ms).filterMap (Holding.operationRow? c) =
      ms.filterMap (Member.operationRow? c) := by
  have hf (h : Holding) (hm : h.isMember = false) : h.operationRow? c = none := by
    match h, hm with
    | .lambda .., _ | .ofClass (.localType ..) .., _ | .ofClass .anonymous .., _ => rfl
  rw [filterMap_heldBy hf]
  refine List.filterMap_congr fun m _ => ?_
  match m with
  | .type (.mk ..) _ | .field .. | .operation .. | .initializer .. | .constant .. => rfl

/-- All that is held by a class is held by members of a class of the tree. -/
def HeldIn (bodies : List (List Member)) (held : List (List Holding)) : Prop :=
  ∀ h ∈ held, ∃ entry, ∃ body ∈ bodies, h = Member.heldBy entry body

namespace HeldIn

variable {bodies bodies' : List (List Member)} {held held' : List (List Holding)}

theorem nil : HeldIn bodies [] := nofun

theorem mono (h : HeldIn bodies held) (hsub : bodies ⊆ bodies') : HeldIn bodies' held := by
  intro body hbody
  obtain ⟨entry, members, hm, he⟩ := h body hbody
  exact ⟨entry, members, hsub hm, he⟩

theorem append (h : HeldIn bodies held) (h' : HeldIn bodies' held') :
    HeldIn (bodies ++ bodies') (held ++ held') :=
  List.forall_mem_append.mpr
    ⟨h.mono (List.subset_append_left _ _), h'.mono (List.subset_append_right _ _)⟩

theorem cons (h : HeldIn bodies held) (entry : ClassEntry) (members : List Member) :
    HeldIn (members :: bodies) (Member.heldBy entry members :: held) :=
  List.forall_mem_cons.mpr
    ⟨⟨entry, members, List.mem_cons_self, rfl⟩, h.mono (List.subset_cons_self _ _)⟩

end HeldIn

theorem Holding.bodiesOf_singleton (h : Holding) : bodiesOf [h] = h.bodies := List.append_nil _

mutual

theorem TypeDecl.heldIn_bodies (isLocal : Bool) (decl : TypeDecl) :
    HeldIn decl.bodies (decl.holding isLocal).bodies :=
  match decl with
  | .mk _ _ _ members _ => (Member.heldIn_bodiesOf _ members).cons _ members

theorem Member.heldIn_bodies (entry : ClassEntry) (m : Member) :
    HeldIn m.bodies (Holding.bodiesOf (m.held entry)) :=
  match m with
  | .type decl _ => by
    rw [Member.held, Holding.bodiesOf_singleton]
    exact TypeDecl.heldIn_bodies false decl
  | .field _ code _ | .initializer _ code _ => CodeItem.heldIn_bodiesOf _ code
  | .operation _ _ _ _ none _ => .nil
  | .operation _ _ _ _ (some code) _ => CodeItem.heldIn_bodiesOf _ code
  | .constant _ _ arguments none _ => CodeItem.heldIn_bodiesOf _ arguments
  | .constant _ _ arguments (some members) _ => by
    rw [Member.held, Holding.bodiesOf_append, Holding.bodiesOf_singleton]
    exact (CodeItem.heldIn_bodiesOf _ arguments).append
      ((Member.heldIn_bodiesOf .anonymous members).cons _ members)

theorem Member.heldIn_bodiesOf (entry : ClassEntry) (ms : List Member) :
    HeldIn (Member.bodiesOf ms) (Holding.bodiesOf (Member.heldBy entry ms)) :=
  match ms with
  | [] => .nil
  | m :: ms => by
    rw [Member.heldBy, Holding.bodiesOf_append]
    exact (Member.heldIn_bodies entry m).append (Member.heldIn_bodiesOf entry ms)

theorem CodeItem.heldIn_bodies (host : Host) (i : CodeItem) :
    HeldIn i.bodies (Holding.bodiesOf (i.held host)) :=
  match i with
  | .localType decl => by
    rw [CodeItem.held, Holding.bodiesOf_singleton]
    exact TypeDecl.heldIn_bodies true decl
  | .allocation _ _ arguments none _ => CodeItem.heldIn_bodiesOf host arguments
  | .allocation _ _ arguments (some members) _ => by
    rw [CodeItem.held, Holding.bodiesOf_append, Holding.bodiesOf_singleton]
    exact (CodeItem.heldIn_bodiesOf host arguments).append
      ((Member.heldIn_bodiesOf .anonymous members).cons _ members)
  | .lambda _ body _ => CodeItem.heldIn_bodiesOf host body

theorem CodeItem.heldIn_bodiesOf (host : Host) (is : List CodeItem) :
    HeldIn (CodeItem.bodiesOf is) (Holding.bodiesOf (CodeItem.heldIn host is)) :=
  match is with
  | [] => .nil
  | i :: is => by
    rw [CodeItem.heldIn, Holding.bodiesOf_append]
    exact (CodeItem.heldIn_bodies host i).append (CodeItem.heldIn_bodiesOf host is)

end

theorem HeldIn.typesDiffer {bodies : List (List Member)} {held : List (List Holding)}
    (h : HeldIn bodies held) (hd : ∀ body ∈ bodies, (body.filterMap Member.typeName?).Nodup) :
    Holding.TypesDiffer held := by
  intro body hbody
  obtain ⟨entry, members, hm, rfl⟩ := h body hbody
  rw [Member.filterMap_memberType?]
  exact hd members hm

/-- The rows are of operations that one class body declares, in this order. -/
def Member.Overload (bodies : List (List Member)) (first second : Row) : Prop :=
  ∃ c, ∃ body ∈ bodies, [first, second] <+ body.filterMap (operationRow? c)

theorem HeldIn.overload {bodies : List (List Member)} {held : List (List Holding)}
    (h : HeldIn bodies held) {first second : Row} (ho : Holding.Overload held first second) :
    Member.Overload bodies first second := by
  obtain ⟨c, body, hbody, hrows⟩ := ho
  obtain ⟨entry, members, hm, rfl⟩ := h body hbody
  rw [Member.filterMap_operationRow?] at hrows
  exact ⟨c, members, hm, hrows⟩

/-! ## Whole units -/

theorem TypeDecl.pairwise_rows (decl : TypeDecl) (hd : Holding.TypesDiffer (decl.holding false).bodies)
    (packages : List String) :
    ((decl.holding false).rows (.topLevel packages decl.name)).Pairwise fun first second =>
      first.name = second.name → Member.Overload decl.bodies first second := by
  have hheld := decl.heldIn_bodies false
  obtain ⟨id, kind, name, members, span⟩ := decl
  refine (Holding.pairwise_rows_ofClass rfl (Holding.pairwise_rowsIn _ hd) _ _ _ _).imp fun himp hname => ?_
  exact hheld.overload (himp hname)

theorem CompilationUnit.TypesDiffer.held {unit : CompilationUnit} (h : unit.TypesDiffer) :
    ∀ decl ∈ unit.types, Holding.TypesDiffer (decl.holding false).bodies := fun decl hdecl =>
  (decl.heldIn_bodies false).typesDiffer fun body hb => h.members body (List.mem_flatMap_of_mem hdecl hb)

theorem CompilationUnit.pairwise_numbered {unit : CompilationUnit} (htop : (unit.types.map TypeDecl.name).Nodup)
    (hheld : ∀ decl ∈ unit.types, Holding.TypesDiffer (decl.holding false).bodies) :
    unit.numbered.Pairwise fun first second =>
      first.name = second.name → Member.Overload unit.bodies first second := by
  rw [numbered, List.pairwise_flatMap]
  refine ⟨fun decl hdecl => ?_, ?_⟩
  · refine (decl.pairwise_rows (hheld decl hdecl) unit.package).imp ?_
    rintro first second himp hname
    obtain ⟨c, body, hbody, hrows⟩ := himp hname
    exact ⟨c, body, List.mem_flatMap_of_mem hdecl hbody, hrows⟩
  · refine (List.pairwise_map.mp htop).imp fun hne first hf second hs hname => ?_
    have hfirst := (Holding.encloses_rows _ first hf).outermost
    have hsecond := (Holding.encloses_rows _ second hs).outermost
    rw [hname] at hfirst
    exact absurd (hfirst.symm.trans hsecond) hne

/-! ## Reports -/

/-- A report is about two rows of one name, the first of which has come before. -/
theorem Row.mem_duplicates {rows : List Row} {seen : Registry QualifiedName Span} {d : Diagnostic}
    (hd : d ∈ duplicates seen rows) :
    (∃ second ∈ rows, ∃ span, seen.find? second.name = some span ∧
        d = ⟨.duplicateName second.name span, second.span⟩) ∨
      ∃ first second, [first, second] <+ rows ∧ first.name = second.name ∧
        d = ⟨.duplicateName second.name first.span, second.span⟩ := by
  induction rows generalizing seen with
  | nil => exact absurd hd nofun
  | cons row rows ih =>
    -- what a report about a later row says of the rows behind this one
    have later {seen' : Registry QualifiedName Span} (hd : d ∈ duplicates seen' rows) :
        (∃ second ∈ rows, ∃ span, seen'.find? second.name = some span ∧
            d = ⟨.duplicateName second.name span, second.span⟩) ∨
          ∃ first second, [first, second] <+ row :: rows ∧ first.name = second.name ∧
            d = ⟨.duplicateName second.name first.span, second.span⟩ :=
      (ih hd).imp_right fun ⟨first, second, hsub, hrest⟩ => ⟨first, second, hsub.cons row, hrest⟩
    rw [duplicates] at hd
    split at hd
    next span hspan =>
      rcases List.mem_cons.mp hd with rfl | hd
      · exact .inl ⟨row, List.mem_cons_self, span, hspan, rfl⟩
      · exact (later hd).imp_left fun ⟨second, hs, h⟩ => ⟨second, List.mem_cons_of_mem row hs, h⟩
    next =>
      rcases later hd with ⟨second, hs, span, hspan, rfl⟩ | h
      · rw [Registry.find?_insert] at hspan
        split at hspan
        next hname =>
          obtain rfl := Option.some.inj hspan
          exact .inr ⟨row, second, .cons_cons row (List.singleton_sublist.mpr hs), hname.symm, rfl⟩
        next => exact .inl ⟨second, List.mem_cons_of_mem row hs, span, hspan, rfl⟩
      · exact .inr h

/-- Methods and constructors are told apart by their parameters, all else by its place. -/
def DeclarationKind.hasParameters : DeclarationKind → Bool
  | method | constructor => true
  | type _ | anonymousClass | lambda => false

/-- What the row of an operation says. -/
theorem Member.operationRow?_eq_some {c : QualifiedName} {m : Member} {row : Row}
    (h : m.operationRow? c = some row) : row.kind.hasParameters = true ∧
      ∃ name types, row.name = c.withOperation (.method name types) := by
  match m with
  | .operation kind id name parameters body span =>
    obtain rfl := Option.some.inj h
    refine ⟨?_, _, _, rfl⟩
    cases kind <;> rfl

theorem Member.Overload.operations {bodies : List (List Member)} {first second : Row}
    (h : Overload bodies first second) : ∃ c, ∃ body ∈ bodies,
      [first, second] <+ body.filterMap (operationRow? c) ∧
      (first.kind.hasParameters = true ∧ ∃ name types, first.name = c.withOperation (.method name types)) ∧
      second.kind.hasParameters = true := by
  obtain ⟨c, body, hbody, hrows⟩ := h
  obtain ⟨m, -, hm⟩ := List.mem_filterMap.mp (hrows.subset List.mem_cons_self)
  obtain ⟨m', -, hm'⟩ := List.mem_filterMap.mp (hrows.subset (List.mem_cons_of_mem _ List.mem_cons_self))
  exact ⟨c, body, hbody, hrows, operationRow?_eq_some hm, (operationRow?_eq_some hm').1⟩

/-- **Names are unique.** If types that are declared side by side have different simple names, then
all types, anonymous classes and lambdas of the unit have different qualified names. What is left to
report are operations that one class body declares with the same name and the same types of
parameters. -/
theorem CompilationUnit.rows_distinct {unit : CompilationUnit} (h : unit.TypesDiffer) :
    ∃ rows, unit.rows = .ok rows ∧
      ((rows.filter fun row => !row.kind.hasParameters).map Row.name).Nodup ∧
      ∀ d ∈ Row.duplicates {} rows, ∃ c, ∃ body ∈ unit.bodies, ∃ first second name types,
        [first, second] <+ rows ∧ [first, second] <+ body.filterMap (Member.operationRow? c) ∧
        first.name = c.withOperation (.method name types) ∧
        second.name = c.withOperation (.method name types) ∧
        d = ⟨.duplicateName second.name first.span, second.span⟩ := by
  have hpairs := CompilationUnit.pairwise_numbered h.topLevel h.held
  refine ⟨unit.numbered, unit.rows_eq_flatMap, ?_, fun d hd => ?_⟩
  · refine List.pairwise_map.mpr (List.pairwise_filter.mpr (hpairs.imp fun himp hfirst _ hname => ?_))
    obtain ⟨c, body, hbody, hrows, ⟨hkind, -⟩, -⟩ := (himp hname).operations
    rw [hkind] at hfirst
    exact absurd hfirst nofun
  · rcases Row.mem_duplicates hd with ⟨second, -, span, hspan, -⟩ | ⟨first, second, hsub, hname, rfl⟩
    · exact absurd hspan nofun
    · have hoverload := (List.pairwise_pair.mp (hpairs.sublist hsub)) hname
      obtain ⟨c, body, hbody, hrows, ⟨-, name, types, hfirst⟩, -⟩ := hoverload.operations
      exact ⟨c, body, hbody, first, second, name, types, hsub, hrows, hfirst, hname ▸ hfirst, rfl⟩

/-- A class with a member type `B`, a local type `B` and two methods that cannot be told apart. -/
def CompilationUnit.twoMethods : CompilationUnit :=
  ⟨["p"], [.mk 0 .classType "A" [
    .type (.mk 1 .classType "B" [] ⟨1, 2⟩) ⟨1, 2⟩,
    .operation .method 2 "f" [⟨"int", "x"⟩] (some [
      .localType (.mk 3 .classType "B" [] ⟨3, 4⟩),
      .allocation 4 "C" [.lambda 5 [] ⟨5, 6⟩] (some [.field false [.lambda 6 [] ⟨6, 7⟩] ⟨6, 7⟩])
        ⟨4, 7⟩]) ⟨2, 7⟩,
    .operation .method 7 "f" [⟨"int", "y"⟩] none ⟨7, 8⟩] ⟨0, 9⟩]⟩

theorem CompilationUnit.rows_twoMethods :
    twoMethods.TypesDiffer ∧ ∃ rows, twoMethods.rows = .ok rows ∧
      ((rows.filter fun row => !row.kind.hasParameters).map Row.name).Nodup ∧
      ∀ d ∈ Row.duplicates {} rows, ∃ c, ∃ body ∈ twoMethods.bodies, ∃ first second name types,
        [first, second] <+ rows ∧ [first, second] <+ body.filterMap (Member.operationRow? c) ∧
        first.name = c.withOperation (.method name types) ∧
        second.name = c.withOperation (.method name types) ∧
        d = ⟨.duplicateName second.name first.span, second.span⟩ := by
  have h : twoMethods.TypesDiffer := ⟨by decide, by decide⟩
  exact ⟨h, rows_distinct h⟩

end Nomenclator
