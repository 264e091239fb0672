/-
The walk that drives the numbering names a declaration tree as counting
within each class does.

The counters of all classes are in one registry, keyed by name, and entering
a class starts its counters anew. So what carries the proof is that a walk
through anything within class `c` enters only classes whose chains are longer
than that of `c`: the counters of every other class on the stack stay as they
were (`Elsewhere`). With that, the counters of `c` always agree with what `c`
holds up to the place that the walk has reached (`At`).
-/
import Nomenclator.NameTable.Analysis
import Nomenclator.Proofs.Numbering.Holding

namespace Nomenclator

/-! ## Counters and counts -/

/-- The counters stand where the holdings met so far have moved them. -/
structure Counters.Count (k : Counters) (before : List Holding) : Prop where
  anonymous : k.nextAnonymous = before.countP Holding.isAnonymous + 1
  lambda : k.nextLambda = before.countP Holding.isLambda
  localType : ∀ name, (k.nextLocal.find? name).getD 1 = before.countP (Holding.isLocalNamed name) + 1

theorem Counters.count_nil : Counters.Count {} [] := ⟨rfl, rfl, fun _ => rfl⟩

namespace Counters.Count

variable {k : Counters} {before : List Holding} (h : k.Count before)
include h

/-- Operations and member types move no counter. -/
theorem uncounted {holding : Holding} (ha : holding.isAnonymous = false) (hl : holding.isLambda = false)
    (hn : ∀ name, holding.isLocalNamed name = false) : k.Count (before ++ [holding]) :=
  ⟨by simp [h.anonymous, ha], by simp [h.lambda, hl], by simp [h.localType, hn]⟩

theorem takeLambda {host id span} : k.takeLambda.2.Count (before ++ [.lambda host id span]) :=
  ⟨by simp [Counters.takeLambda, h.anonymous, Holding.isAnonymous],
    by simp [Counters.takeLambda, h.lambda, Holding.isLambda],
    by simp [Counters.takeLambda, h.localType, Holding.isLocalNamed]⟩

theorem takeAnonymous {id rowKind span held} :
    k.takeAnonymous.2.Count (before ++ [.ofClass .anonymous id rowKind span held]) :=
  ⟨by simp [Counters.takeAnonymous, h.anonymous, Holding.isAnonymous],
    by simp [Counters.takeAnonymous, h.lambda, Holding.isLambda],
    by simp [Counters.takeAnonymous, h.localType, Holding.isLocalNamed]⟩

theorem takeLocal {name kind id rowKind span held} :
    (k.takeLocal name).2.Count (before ++ [.ofClass (.localType name kind) id rowKind span held]) := by
  refine ⟨by simp [Counters.takeLocal, h.anonymous, Holding.isAnonymous],
    by simp [Counters.takeLocal, h.lambda, Holding.isLambda], fun other => ?_⟩
  have ho := h.localType other
  simp only [Counters.takeLocal, Registry.find?_insert, List.countP_append, List.countP_singleton,
    Holding.isLocalNamed, beq_iff_eq]
  by_cases hn : other = name
  · subst hn
    simp [ho]
  · simp [hn, Ne.symm hn, ho]

end Counters.Count

/-! ## Where a walk stands -/

/-- A walk is within class `c`, which is entered in the given form, and has met the given holdings. -/
structure Numbering.At (n : Numbering) (c : QualifiedName) (form : Form) (site : Site)
    (outer : List Frame) (before : List Holding) : Prop where
  frames : n.frames = ⟨c, form, site⟩ :: outer
  counted : ∃ k, n.counters.find? c = some k ∧ k.Count before

/-- Only the counters of `c` and of classes with longer chains may differ. -/
structure Numbering.Elsewhere (c : QualifiedName) (n n' : Numbering) : Prop where
  packages : n'.packages = n.packages
  counters : ∀ q : QualifiedName, q.inner.length ≤ c.inner.length → q ≠ c →
    n'.counters.find? q = n.counters.find? q

theorem QualifiedName.nested_longer (c : QualifiedName) (s : Segment) :
    (c.nested s).inner.length = c.inner.length + 1 := by simp [nested]

theorem QualifiedName.ne_nested {c q : QualifiedName} (h : q.inner.length ≤ c.inner.length)
    (s : Segment) : q ≠ c.nested s := by
  intro he
  have hlen := c.nested_longer s
  rw [← he] at hlen
  omega

namespace Numbering.Elsewhere

theorem refl (c : QualifiedName) (n : Numbering) : Elsewhere c n n := ⟨rfl, fun _ _ _ => rfl⟩

theorem trans {c : QualifiedName} {n₁ n₂ n₃ : Numbering} (h : Elsewhere c n₁ n₂)
    (h' : Elsewhere c n₂ n₃) : Elsewhere c n₁ n₃ :=
  ⟨h'.packages.trans h.packages, fun q hq hne => (h'.counters q hq hne).trans (h.counters q hq hne)⟩

/-- What changes within a class of `c` is elsewhere for `c`. -/
theorem of_nested {c : QualifiedName} {s : Segment} {n n' : Numbering}
    (h : Elsewhere (c.nested s) n n') : Elsewhere c n n' := by
  have hlen := c.nested_longer s
  exact ⟨h.packages, fun q hq _ => h.counters q (by omega) (QualifiedName.ne_nested hq s)⟩

/-- The counters of `c` itself are kept while a class of `c` is walked through. -/
theorem find?_outer {c : QualifiedName} {s : Segment} {n n' : Numbering}
    (h : Elsewhere (c.nested s) n n') : n'.counters.find? c = n.counters.find? c := by
  have hlen := c.nested_longer s
  exact h.counters c (by omega) (QualifiedName.ne_nested (Nat.le_refl _) s)

end Numbering.Elsewhere

/-! ## Single operations -/

/-- A local class has the name it was entered with. -/
def ClassEntry.Names (entry : ClassEntry) (c : QualifiedName) : Prop :=
  match entry with
  | localType name _ => c.declaredSimpleName = name
  | named .. | anonymous => True

theorem Holding.nameIn_ofClass (entry : ClassEntry) (id : Nat) (rowKind : DeclarationKind) (span : Span)
    (held : List Holding) (c : QualifiedName) (before : List Holding) :
    ∃ s, (Holding.ofClass entry id rowKind span held).nameIn c before = c.nested s ∧
      entry.Names (c.nested s) := by
  cases entry with
  | named name kind => exact ⟨.named name, rfl, trivial⟩
  | localType name kind =>
    refine ⟨.localType _ name, rfl, ?_⟩
    rw [ClassEntry.Names, QualifiedName.declaredSimpleName, QualifiedName.innermost_nested]
    rfl
  | anonymous => exact ⟨.anonymous _, rfl, trivial⟩

namespace Namer

theorem bind_of_ok {α β : Type} {x : Namer α} {f : α → Namer β} {n n' : Numbering} {a : α}
    (h : x n = .ok a n') : (x >>= f) n = f a n' := by
  simp only [bind, EStateM.bind, h]

theorem get_bind {β : Type} (f : Numbering → Namer β) (n : Numbering) : (get >>= f) n = f n n := rfl

theorem innermost_eq {n : Numbering} {frame : Frame} {outer : List Frame}
    (hf : n.frames = frame :: outer) (what : Declarable) : innermost what n = .ok frame n := by
  rw [innermost, get_bind, hf]
  rfl

theorem takeIndex_eq {n : Numbering} {frame : Frame} {outer : List Frame} {k : Counters}
    (hf : n.frames = frame :: outer) (hk : n.counters.find? frame.name = some k) (what : Declarable)
    (take : Counters → Nat × Counters) :
    takeIndex what take n =
      .ok (frame, (take k).1) { n with counters := n.counters.insert frame.name (take k).2 } := by
  rw [takeIndex, bind_of_ok (innermost_eq hf what), get_bind, hk]
  rfl

theorem className_of_at {n : Numbering} {c form site outer before} (h : n.At c form site outer before)
    (entry : ClassEntry) {id rowKind span held} :
    ∃ counters, className entry n =
        .ok ((Holding.ofClass entry id rowKind span held).nameIn c before) { n with counters } ∧
      (∃ k, counters.find? c = some k ∧ k.Count (before ++ [.ofClass entry id rowKind span held])) ∧
      ∀ q, q ≠ c → counters.find? q = n.counters.find? q := by
  obtain ⟨k, hk, hc⟩ := h.counted
  cases entry with
  | named name kind =>
    refine ⟨n.counters, ?_, ⟨k, hk, hc.uncounted rfl rfl fun _ => rfl⟩, fun _ _ => rfl⟩
    show className (.named name kind) n = .ok (c.nested (.named name)) n
    rw [className, get_bind, h.frames]
    rfl
  | localType name kind =>
    refine ⟨n.counters.insert c (k.takeLocal name).2, ?_,
      ⟨_, Registry.find?_insert_self .., hc.takeLocal⟩, fun q hq => Registry.find?_insert_of_ne _ _ hq⟩
    rw [className, bind_of_ok (takeIndex_eq h.frames hk .localClass _)]
    simp only [Counters.takeLocal, hc.localType]
    rfl
  | anonymous =>
    refine ⟨n.counters.insert c k.takeAnonymous.2, ?_,
      ⟨_, Registry.find?_insert_self .., hc.takeAnonymous⟩, fun q hq => Registry.find?_insert_of_ne _ _ hq⟩
    rw [className, bind_of_ok (takeIndex_eq h.frames hk .anonymousClass _)]
    simp only [Counters.takeAnonymous, hc.anonymous]
    rfl

theorem enterType_eq {entry : ClassEntry} {n n' : Numbering} {name : QualifiedName}
    (h : className entry n = .ok name n') :
    enterType entry n = .ok name { n' with
      counters := n'.counters.insert name {}
      frames := ⟨name, entry.form, .typeBody⟩ :: n'.frames } := by
  rw [enterType, bind_of_ok h]
  rfl

/-- A class that is entered has counters of its own; those of `c` count it as a holding. -/
theorem enterType_of_at {n : Numbering} {c form site outer before} (h : n.At c form site outer before)
    {entry : ClassEntry} {id rowKind span held} {s : Segment}
    (hs : (Holding.ofClass entry id rowKind span held).nameIn c before = c.nested s) :
    ∃ n', enterType entry n = .ok (c.nested s) n' ∧
      n'.At (c.nested s) entry.form .typeBody (⟨c, form, site⟩ :: outer) [] ∧
      (∃ k, n'.counters.find? c = some k ∧ k.Count (before ++ [.ofClass entry id rowKind span held])) ∧
      Numbering.Elsewhere c n n' := by
  obtain ⟨counters, hname, ⟨k, hk, hcount⟩, hother⟩ := className_of_at h entry
  rw [hs] at hname
  have hne : c ≠ c.nested s := QualifiedName.ne_nested (Nat.le_refl _) s
  refine ⟨_, enterType_eq hname, ⟨by rw [h.frames], {}, ?_, Counters.count_nil⟩, ⟨k, ?_, hcount⟩, rfl,
    fun q hq hqc => ?_⟩
  · exact Registry.find?_insert_self ..
  · exact (Registry.find?_insert_of_ne _ _ hne).trans hk
  · exact (Registry.find?_insert_of_ne _ _ (QualifiedName.ne_nested hq s)).trans (hother q hqc)

theorem exitType_eq {n : Numbering} {frame : Frame} {outer : List Frame}
    (hf : n.frames = frame :: outer) : exitType n = .ok () { n with frames := outer } := by
  rw [exitType, get_bind, hf]
  rfl

theorem expectDepth_eq {n : Numbering} {before : Nat} (h : n.depth = before) :
    expectDepth before n = .ok () n := by
  rw [expectDepth, get_bind, if_neg (not_not_intro h)]
  rfl

theorem setSite_eq {n : Numbering} {frame : Frame} {outer : List Frame}
    (hf : n.frames = frame :: outer) (site : Frame → Site) :
    setSite site n = .ok () { n with frames := { frame with site := site frame } :: outer } := by
  rw [setSite, get_bind, hf]
  rfl

end Namer

/-! ## Walks -/

/-- Within class `c` the walk answers the rows of the given holdings, comes back to where it was,
and leaves all other classes on the stack alone. -/
def Walks (walk : Namer (List Row)) (c : QualifiedName) (form : Form) (site : Site)
    (held : List Holding) : Prop :=
  ∀ (n : Numbering) (outer : List Frame) (before : List Holding), n.At c form site outer before →
    ∃ n', walk n = .ok (Holding.rowsIn c before held) n' ∧ n'.At c form site outer (before ++ held) ∧
      Numbering.Elsewhere c n n'

theorem Holding.rowsIn_singleton {c : QualifiedName} {before : List Holding} (h : Holding) :
    rowsIn c before [h] = h.rows (h.nameIn c before) := by
  rw [rowsIn, rowsIn, List.append_nil]

theorem Holding.rowsIn_append (c : QualifiedName) (before first second : List Holding) :
    rowsIn c before (first ++ second) = rowsIn c before first ++ rowsIn c (before ++ first) second := by
  induction first generalizing before with
  | nil => rw [List.nil_append, rowsIn, List.nil_append, List.append_nil]
  | cons h first ih =>
    rw [List.cons_append, rowsIn, rowsIn, ih, List.append_assoc, List.append_assoc, List.singleton_append]

namespace Walks

open Namer

variable {c : QualifiedName} {form : Form} {site : Site}

theorem nil : Walks (pure []) c form site [] := by
  intro n outer before h
  exact ⟨n, rfl, by rwa [List.append_nil], .refl c n⟩

theorem append {walk₁ walk₂ : Namer (List Row)} {held₁ held₂ : List Holding}
    (h₁ : Walks walk₁ c form site held₁) (h₂ : Walks walk₂ c form site held₂) :
    Walks (do return (← walk₁) ++ (← walk₂)) c form site (held₁ ++ held₂) := by
  intro n outer before h
  obtain ⟨n₁, hr₁, ha₁, he₁⟩ := h₁ n outer before h
  obtain ⟨n₂, hr₂, ha₂, he₂⟩ := h₂ n₁ outer (before ++ held₁) ha₁
  refine ⟨n₂, ?_, by rwa [← List.append_assoc], he₁.trans he₂⟩
  rw [bind_of_ok hr₁, bind_of_ok hr₂, Holding.rowsIn_append]
  rfl

/-- A lambda takes its number before its body is walked through. -/
theorem lambda {walk : Namer (List Row)} {held : List Holding} (h : Walks walk c form site held)
    (id : Nat) (span : Span) :
    Walks (do
      let name ← Namer.lambda
      let rows ← walk
      return ⟨id, .lambda, span, name⟩ :: rows) c form site (.lambda site.host id span :: held) := by
  intro n outer before hat
  obtain ⟨k, hk, hc⟩ := hat.counted
  have hname : Namer.lambda n = .ok (c.withOperation (.lambda site.host k.nextLambda))
      { n with counters := n.counters.insert c k.takeLambda.2 } := by
    rw [Namer.lambda, bind_of_ok (takeIndex_eq hat.frames hk .lambda _)]
    rfl
  have hat' : Numbering.At { n with counters := n.counters.insert c k.takeLambda.2 } c form site outer
      (before ++ [.lambda site.host id span]) :=
    ⟨hat.frames, _, Registry.find?_insert_self .., hc.takeLambda⟩
  obtain ⟨n', hr, ha, he⟩ := h _ outer _ hat'
  refine ⟨n', ?_, by simpa using ha, ⟨he.packages, fun q hq hne => ?_⟩⟩
  · rw [bind_of_ok hname, bind_of_ok hr, Holding.rowsIn, hc.lambda]
    rfl
  · exact (he.counters q hq hne).trans (Registry.find?_insert_of_ne _ _ hne)

/-- A class is walked through with counters of its own. -/
theorem declareType {walk : Namer (List Row)} {entry : ClassEntry} {held : List Holding}
    (h : ∀ c' : QualifiedName, entry.Names c' → Walks walk c' entry.form .typeBody held)
    (id : Nat) (kind : DeclarationKind) (span : Span) :
    Walks (Namer.declareType entry id kind span walk) c form site [.ofClass entry id kind span held] := by
  intro n outer before hat
  obtain ⟨s, hs, hnames⟩ := Holding.nameIn_ofClass entry id kind span held c before
  obtain ⟨n₁, hr₁, ha₁, ⟨k, hk, hc⟩, he₁⟩ := enterType_of_at hat hs
  obtain ⟨n₂, hr₂, ha₂, he₂⟩ := h _ hnames n₁ _ [] ha₁
  refine ⟨{ n₂ with frames := ⟨c, form, site⟩ :: outer }, ?_, ⟨rfl, k, ?_, hc⟩, ?_⟩
  · have hdepth : Numbering.depth { n₂ with frames := ⟨c, form, site⟩ :: outer } = n.depth := by
      rw [Numbering.depth, Numbering.depth, hat.frames]
    rw [Namer.declareType, get_bind, bind_of_ok hr₁, bind_of_ok hr₂, bind_of_ok (exitType_eq ha₂.frames),
      bind_of_ok (expectDepth_eq hdepth), Holding.rowsIn, Holding.rowsIn, hs, Holding.rows, List.append_nil]
    rfl
  · exact he₂.find?_outer.trans hk
  · exact he₁.trans ⟨he₂.packages, he₂.of_nested.counters⟩

/-- A member is walked through at its own site, between members at none. -/
theorem within {walk : Namer (List Row)} {entry : MemberEntry} {held : List Holding}
    (h : Walks walk c form ((⟨c, form, .typeBody⟩ : Frame).siteOf entry) held) :
    Walks (Namer.within entry walk) c form .typeBody held := by
  intro n outer before hat
  have hin := setSite_eq hat.frames (·.siteOf entry)
  have hat' : Numbering.At { n with frames := ⟨c, form, _⟩ :: outer } c form
      ((⟨c, form, .typeBody⟩ : Frame).siteOf entry) outer before := ⟨rfl, hat.counted⟩
  obtain ⟨n', hr, ha, he⟩ := h _ outer before hat'
  refine ⟨{ n' with frames := ⟨c, form, .typeBody⟩ :: outer }, ?_, ⟨rfl, ha.counted⟩,
    ⟨he.packages, he.counters⟩⟩
  rw [Namer.within, enterMember, bind_of_ok hin, bind_of_ok hr, exitMember,
    bind_of_ok (setSite_eq ha.frames _)]
  rfl

/-- An operation comes before what its code holds. It takes no number. -/
theorem operation {walk : Namer (List Row)} {held : List Holding} (h : Walks walk c form site held)
    (kind : OperationKind) (id : Nat) (name : String) (parameters : List Parameter) (span : Span) :
    Walks (do
      let full ← Namer.operation kind name parameters
      let rows ← walk
      return ⟨id, kind.declarationKind, span, full⟩ :: rows) c form site
      (.operation kind id name (parameters.map Parameter.type) span :: held) := by
  intro n outer before hat
  obtain ⟨k, hk, hc⟩ := hat.counted
  have hname : Namer.operation kind name parameters n = .ok
      ((Holding.operation kind id name (parameters.map Parameter.type) span).nameIn c before) n := by
    have hi (what : Declarable) : innermost what n = .ok ⟨c, form, site⟩ n := innermost_eq hat.frames what
    cases kind
    · rw [Namer.operation, method, bind_of_ok (hi .method)]
      rfl
    · rw [Namer.operation, Namer.constructor, bind_of_ok (hi .constructor)]
      rfl
  have hcount : k.Count (before ++ [.operation kind id name (parameters.map Parameter.type) span]) :=
    hc.uncounted rfl rfl fun _ => rfl
  obtain ⟨n', hr, ha, he⟩ := h n outer _ ⟨hat.frames, k, hk, hcount⟩
  refine ⟨n', ?_, by simpa using ha, he⟩
  rw [bind_of_ok hname, bind_of_ok hr, Holding.rowsIn]
  rfl

end Walks

/-! ## The whole tree -/

theorem Frame.host_siteOf_field {entry : ClassEntry} {c : QualifiedName} (h : entry.Names c)
    (isStatic : Bool) :
    ((⟨c, entry.form, .typeBody⟩ : Frame).siteOf (.field isStatic)).host = entry.fieldHost isStatic := by
  cases entry with
  | named name kind =>
    simp only [siteOf, ClassEntry.form, Form.fieldSite, ClassEntry.fieldHost]
    split <;> rfl
  | localType name kind =>
    have hn : c.declaredSimpleName = name := h
    simp only [siteOf, ClassEntry.form, Form.fieldSite, ClassEntry.fieldHost, hn]
    split <;> rfl
  | anonymous => rfl

theorem Frame.host_siteOf_operation (frame : Frame) (kind : OperationKind) (name : String) :
    (frame.siteOf (kind.entry name)).host = kind.bodyHost name := by
  cases kind <;> rfl

theorem Frame.host_siteOf_initializer (frame : Frame) (isStatic : Bool) :
    (frame.siteOf (initializerEntry isStatic)).host = initializerHost isStatic := by
  cases isStatic <;> rfl

mutual

theorem TypeDecl.walks (isLocal : Bool) (decl : TypeDecl) {c form site} :
    Walks (decl.rows isLocal) c form site [decl.holding isLocal] :=
  match decl with
  | .mk id kind name members span => by
    rw [TypeDecl.rows, TypeDecl.holding]
    exact Walks.declareType (fun c' h => Member.walksOf members h) id (.type kind) span

theorem Member.walks (m : Member) {entry : ClassEntry} {c} (h : entry.Names c) :
    Walks m.rows c entry.form .typeBody (m.held entry) :=
  match m with
  | .type decl _ => by
    rw [Member.rows, Member.held]
    exact TypeDecl.walks false decl
  | .field isStatic code _ => by
    rw [Member.rows, Member.held, ← Frame.host_siteOf_field h]
    exact (CodeItem.walksOf code).within
  | .operation kind id name parameters none span => by
    rw [Member.rows, Member.held]
    exact Walks.nil.within.operation kind id name parameters span
  | .operation kind id name parameters (some code) span => by
    rw [Member.rows, Member.held, ← Frame.host_siteOf_operation]
    exact (CodeItem.walksOf code).within.operation kind id name parameters span
  | .initializer isStatic code _ => by
    rw [Member.rows, Member.held, ← Frame.host_siteOf_initializer]
    exact (CodeItem.walksOf code).within
  | .constant _ _ arguments none _ => by
    rw [Member.rows, Member.held]
    exact (CodeItem.walksOf arguments).within
  | .constant id _ arguments (some members) span => by
    rw [Member.rows, Member.held]
    exact ((CodeItem.walksOf arguments).append
      (Walks.declareType (fun c' h => Member.walksOf members h) id .anonymousClass span)).within

theorem Member.walksOf (ms : List Member) {entry : ClassEntry} {c} (h : entry.Names c) :
    Walks (Member.rowsOf ms) c entry.form .typeBody (Member.heldBy entry ms) :=
  match ms with
  | [] => by
    rw [Member.rowsOf, Member.heldBy]
    exact Walks.nil
  | m :: ms => by
    rw [Member.rowsOf, Member.heldBy]
    exact (Member.walks m h).append (Member.walksOf ms h)

theorem CodeItem.walks (i : CodeItem) {c form site} : Walks i.rows c form site (i.held site.host) :=
  match i with
  | .localType decl => by
    rw [CodeItem.rows, CodeItem.held]
    exact TypeDecl.walks true decl
  | .allocation _ _ arguments none _ => by
    rw [CodeItem.rows, CodeItem.held]
    exact CodeItem.walksOf arguments
  | .allocation id _ arguments (some members) span => by
    rw [CodeItem.rows, CodeItem.held]
    exact (CodeItem.walksOf arguments).append
      (Walks.declareType (fun c' h => Member.walksOf members h) id .anonymousClass span)
  | .lambda id body span => by
    rw [CodeItem.rows, CodeItem.held]
    exact (CodeItem.walksOf body).lambda id span

theorem CodeItem.walksOf (is : List CodeItem) {c form site} :
    Walks (CodeItem.rowsOf is) c form site (CodeItem.heldIn site.host is) :=
  match is with
  | [] => by
    rw [CodeItem.rowsOf, CodeItem.heldIn]
    exact Walks.nil
  | i :: is => by
    rw [CodeItem.rowsOf, CodeItem.heldIn]
    exact (CodeItem.walks i).append (CodeItem.walksOf is)

end

/-- A type that is not local takes no number, so wherever it stands only its own name matters: it
starts with counters of its own and leaves those of all classes around it alone. -/
theorem TypeDecl.rows_of_className (decl : TypeDecl) {n : Numbering} {c : QualifiedName}
    (hname : Namer.className (.named decl.name decl.kind) n = .ok c n) :
    ∃ n', decl.rows false n = .ok ((decl.holding false).rows c) n' ∧ n'.frames = n.frames ∧
      Numbering.Elsewhere c n n' := by
  obtain ⟨id, kind, name, members, span⟩ := decl
  obtain ⟨n₁, henter, hin, hcounters, hp⟩ : ∃ n₁, Namer.enterType (.named name kind) n = .ok c n₁ ∧
      n₁.At c (.named kind) .typeBody n.frames [] ∧ n₁.counters = n.counters.insert c {} ∧
      n₁.packages = n.packages :=
    ⟨_, Namer.enterType_eq hname, ⟨rfl, {}, Registry.find?_insert_self .., Counters.count_nil⟩, rfl, rfl⟩
  have hnames : (ClassEntry.named name kind).Names c := trivial
  obtain ⟨n₂, hr, ha, he⟩ := Member.walksOf members hnames _ _ _ hin
  have hdepth : Numbering.depth { n₂ with frames := n.frames } = n.depth := rfl
  refine ⟨{ n₂ with frames := n.frames }, ?_, rfl, he.packages.trans hp, fun q hq hne => ?_⟩
  · rw [TypeDecl.rows, Namer.declareType, Namer.get_bind, if_neg (by decide), Namer.bind_of_ok henter,
      Namer.bind_of_ok hr, Namer.bind_of_ok (Namer.exitType_eq ha.frames),
      Namer.bind_of_ok (Namer.expectDepth_eq hdepth), TypeDecl.holding, Holding.rows]
    rfl
  · rw [← Registry.find?_insert_of_ne n.counters {} hne, ← hcounters]
    exact he.counters q hq hne

/-- Outside any class only the package of the state matters. -/
theorem TypeDecl.rows_of_outside (decl : TypeDecl) {n : Numbering} (hf : n.frames = []) :
    ∃ n', decl.rows false n = .ok ((decl.holding false).rows (.topLevel n.packages decl.name)) n' ∧
      n'.frames = [] ∧ n'.packages = n.packages := by
  have hname : Namer.className (.named decl.name decl.kind) n = .ok (.topLevel n.packages decl.name) n := by
    rw [Namer.className, Namer.get_bind, hf]
    rfl
  obtain ⟨n', hr, hframes, he⟩ := decl.rows_of_className hname
  exact ⟨n', hr, hframes.trans hf, he.packages⟩

theorem TypeDecl.rowsOf_of_outside (decls : List TypeDecl) {n : Numbering} (hf : n.frames = []) :
    ∃ n', TypeDecl.rowsOf decls n = .ok (decls.flatMap fun decl =>
      (decl.holding false).rows (.topLevel n.packages decl.name)) n' := by
  induction decls generalizing n with
  | nil =>
    have hdepth : n.depth = 0 := by rw [Numbering.depth, hf, List.length_nil]
    exact ⟨n, Namer.bind_of_ok (Namer.expectDepth_eq hdepth)⟩
  | cons decl decls ih =>
    obtain ⟨n₁, hr₁, hf₁, hp₁⟩ := decl.rows_of_outside hf
    obtain ⟨n₂, hr₂⟩ := ih hf₁
    refine ⟨n₂, ?_⟩
    rw [TypeDecl.rowsOf, Namer.bind_of_ok hr₁, Namer.bind_of_ok hr₂, hp₁]
    rfl

/-- The walk through a unit walks through its types, each from outside any class. -/
theorem CompilationUnit.rows_eq_flatMap (unit : CompilationUnit) :
    unit.rows = .ok (unit.types.flatMap fun decl =>
      (decl.holding false).rows (.topLevel unit.package decl.name)) := by
  have hf : ({ packages := unit.package } : Numbering).frames = [] := rfl
  obtain ⟨n, hn⟩ := TypeDecl.rowsOf_of_outside unit.types hf
  rw [CompilationUnit.rows, hn]

/-- A text can always be analysed, and its table has the rows that the walk names. -/
theorem Analysis.ofText_numbered (text : String) :
    Analysis.ofText text = .ok ⟨text, (CompilationUnit.parse text).1,
      .ofRows (CompilationUnit.parse text).1.numbered,
      Row.duplicates {} (CompilationUnit.parse text).1.numbered ++ (CompilationUnit.parse text).2⟩ :=
  ofText_of_rows (CompilationUnit.parse text).1.rows_eq_flatMap

/-- **Naming by counting.** The walk through a unit is never refused, and what it names, in the order
of the walk, is named as counting within each class names it. -/
theorem CompilationUnit.rows_eq_numbered (unit : CompilationUnit) : unit.rows = .ok unit.numbered :=
  unit.rows_eq_flatMap

end Nomenclator
