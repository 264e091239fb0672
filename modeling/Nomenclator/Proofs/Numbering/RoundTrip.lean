/-
The names that a run of actions makes are read back from their texts.

What is entered keeps to the name grammar, and so do the classes that are
made of it: a counter goes up by one with each action at most, so that no
index is too large for a text. The host of a lambda is the one thing that
need not come back. A method may be entered under the name `static` or `new`,
and its lambdas then have the texts of those in an initializer.
-/
import Nomenclator.Proofs.NameTable.RoundTrip
import Nomenclator.Proofs.Numbering.Epoch

namespace Nomenclator

open Text

/-! ## What a text is read as -/

/-- The host that the tag stands for. -/
def Host.asRead (host : Host) : Host := .ofTag host.tag

def Operation.asRead : Operation → Operation
  | .method name parameters => .method name parameters
  | .lambda host index => .lambda host.asRead index

/-- The name with the host of a lambda as its text tells it. -/
def QualifiedName.asRead (n : QualifiedName) : QualifiedName :=
  { n with operation := n.operation.map Operation.asRead }

theorem Host.asRead_eq_iff (host : Host) :
    host.asRead = host ↔ host ≠ .member "static" ∧ host ≠ .member "new" := by
  cases host with
  | static | new => simp [asRead, tag, ofTag]
  | member name =>
    by_cases hs : name = "static"
    · simp [asRead, tag, ofTag, hs]
    · by_cases hn : name = "new"
      · simp [asRead, tag, ofTag, hn]
      · simp [asRead, tag, ofTag, hs, hn]

theorem Operation.written_asRead (o : Operation) : o.asRead.written = o.written := by
  cases o with
  | method name parameters => rfl
  | lambda host index => rw [asRead, written, Host.asRead, Host.tag_ofTag, written]

namespace QualifiedName

theorem render_asRead (n : QualifiedName) : n.asRead.render = n.render := by
  have hoperation : writtenOperation (n.operation.map Operation.asRead) = writtenOperation n.operation := by
    cases n.operation with
    | none => rfl
    | some o => rw [Option.map_some, writtenOperation, o.written_asRead, writtenOperation]
  rw [render, written, asRead, hoperation]
  rfl

theorem asRead_eq_iff (n : QualifiedName) : n.asRead = n ↔
    ∀ index, n.operation ≠ some (.lambda (.member "static") index) ∧
      n.operation ≠ some (.lambda (.member "new") index) := by
  obtain ⟨packages, outermost, inner, operation⟩ := n
  have hparts : (⟨packages, outermost, inner, operation.map Operation.asRead⟩ : QualifiedName) =
      ⟨packages, outermost, inner, operation⟩ ↔ operation.map Operation.asRead = operation := by simp
  refine hparts.trans ?_
  match operation with
  | none | some (.method name parameters) => simp [Operation.asRead]
  | some (.lambda host index) =>
    simp only [Option.map_some, Operation.asRead, Option.some.injEq, Operation.lambda.injEq, and_true,
      host.asRead_eq_iff, ne_eq]
    exact ⟨fun h _ => ⟨fun he => h.1 he.1, fun he => h.2 he.1⟩,
      fun h => ⟨fun he => (h index).1 ⟨he, rfl⟩, fun he => (h index).2 ⟨he, rfl⟩⟩⟩

theorem Spelled.asRead_withOperation {limit : Nat} {packages : List String} {c : QualifiedName}
    (h : c.Spelled limit packages) {o : Operation} (ho : o.asRead.Spelled limit) : (c.withOperation o).asRead.Spelled limit packages :=
  h.withOperation ho

end QualifiedName

/-! ## What is put into names -/

/-- All names, parameters and packages keep to the grammar of qualified names. -/
def Action.isGrammatical : Action → Bool
  | .enterType (.named name _) | .enterType (.localType name _) | .enterMember (.method name) =>
    isIdentifier name.toList
  | .method name parameters =>
    isIdentifier name.toList && parameters.all fun p => Operation.isParameter p.toList
  | .constructor parameters => parameters.all fun p => Operation.isParameter p.toList
  | .beginUnit packages => packages.all fun p => isPackage p.toList
  | _ => true

/-- The event asks for a constructor of an anonymous class, which has no name for it. -/
def Event.constructsAnonymous (e : Event) : Bool :=
  match e.action, e.current with
  | .constructor _, some c => c.isAnonymousClass
  | _, _ => false

/-! ## Counters -/

/-- All counters have begun where they should and are not beyond the limit. -/
def Counters.Within (limit : Nat) (k : Counters) : Prop :=
  ∀ what, what.first ≤ k.next what ∧ k.next what ≤ limit

namespace Counters

variable {k : Counters} {limit : Nat}

theorem within_empty (h : 0 < limit) : Within limit {} := by
  intro what
  rw [next_empty]
  have hone : what.first ≤ 1 := by cases what <;> simp [Numbered.first]
  exact ⟨Nat.le_refl _, Nat.le_trans hone h⟩

theorem Within.succ (h : k.Within limit) : k.Within (limit + 1) :=
  fun what => ⟨(h what).1, Nat.le_succ_of_le (h what).2⟩

theorem Within.take (h : k.Within limit) (what : Numbered) : (k.take what).2.Within (limit + 1) := by
  intro other
  obtain ⟨hfirst, hle⟩ := h other
  rw [next_take]
  split <;> omega

end Counters

/-! ## The state -/

/-- The tag of lambdas' host there is one that the grammar admits. -/
def Site.isGrammatical (site : Site) : Bool :=
  site.host.tag.toList.isEmpty || isIdentifier site.host.tag.toList

theorem Site.wellFormed_asRead {site : Site} (h : site.isGrammatical = true) : site.host.asRead.WellFormed := by
  have hwf := Host.wellFormed_ofTag h
  rwa [String.ofList_toList] at hwf

theorem QualifiedName.innermost_mem_classes (n : QualifiedName) : n.innermost ∈ n.classes := by
  rw [innermost, classes]
  cases h : n.inner.getLast? with
  | none => exact List.mem_cons_self
  | some s => exact List.mem_cons_of_mem _ (List.mem_of_getLast? h)

theorem QualifiedName.Spelled.declaredSimpleName {limit : Nat} {packages : List String} {n : QualifiedName}
    (h : n.Spelled limit packages) (hn : n.isAnonymousClass = false) :
    isIdentifier n.declaredSimpleName.toList = true := by
  have hwf := h.classes _ n.innermost_mem_classes
  rw [isAnonymousClass] at hn
  rw [QualifiedName.declaredSimpleName]
  cases hs : n.innermost with
  | named name => rw [hs] at hwf; exact hwf
  | localType index name => rw [hs] at hwf; exact hwf.2.2
  | anonymous index => rw [hs] at hn; cases hn

/-- Wherever one goes within a class, lambdas have a host that can be written. -/
theorem Frame.isGrammatical_siteOf {limit : Nat} {packages : List String} {frame : Frame}
    (h : frame.name.Spelled limit packages) {entry : MemberEntry} (hentry : (Action.enterMember entry).isGrammatical = true) :
    (frame.siteOf entry).isGrammatical = true := by
  have hdeclared : Site.isGrammatical (.localClassField frame.name.declaredSimpleName) = true := by
    rcases (h.classes _ frame.name.innermost_mem_classes).declared with he | hi
    · have he : frame.name.declaredSimpleName = "" := he
      rw [he]
      rfl
    · exact Bool.or_eq_true_iff.mpr (.inr hi)
  cases entry with
  | method name => exact Bool.or_eq_true_iff.mpr (.inr hentry)
  | field isStatic =>
    show (frame.form.fieldSite frame.name.declaredSimpleName isStatic).isGrammatical = true
    cases frame.form with
    | named kind =>
      rw [Form.fieldSite]
      split <;> rfl
    | localType kind =>
      rw [Form.fieldSite]
      split
      · rfl
      · exact hdeclared
    | anonymous => rfl
  | staticInitializer | instanceInitializer | constructor | enumConstant =>
    rw [siteOf]
    rfl

namespace Numbering

/-- All that names are made of keeps to the grammar, and no counter is beyond the limit. -/
structure Grammatical (limit : Nat) (n : Numbering) : Prop where
  packages : ∀ p ∈ n.packages, isPackage p.toList = true
  names : ∀ frame ∈ n.frames, frame.name.Spelled Decimal.bound n.packages
  sites : ∀ frame ∈ n.frames, frame.site.isGrammatical = true
  counters : ∀ c k, n.counters.find? c = some k → k.Within limit

namespace Grammatical

variable {limit : Nat} {n : Numbering}

theorem empty {packages : List String} (h : ∀ p ∈ packages, isPackage p.toList = true) (limit : Nat) :
    Grammatical limit { packages } :=
  ⟨h, fun _ hf => absurd hf List.not_mem_nil, fun _ hf => absurd hf List.not_mem_nil,
    fun c _ hk => absurd ((Registry.find?_empty c).symm.trans hk) nofun⟩

theorem succ (h : n.Grammatical limit) : n.Grammatical (limit + 1) :=
  { h with counters := fun c k hk => (h.counters c k hk).succ }

theorem takeFor (h : n.Grammatical limit) {c : QualifiedName} {k : Counters}
    (hk : n.counters.find? c = some k) (what : Numbered) : (n.takeFor c k what).Grammatical (limit + 1) := by
  refine { h with counters := fun d l hl => ?_ }
  rw [Numbering.takeFor, Registry.find?_insert] at hl
  split at hl
  · exact Option.some.inj hl ▸ (h.counters c k hk).take what
  · exact (h.counters d l hl).succ

theorem enter (h : n.Grammatical limit) (hlimit : 0 < limit) {name : QualifiedName}
    (hname : name.Spelled Decimal.bound n.packages) (form : Form) : (n.enter name form).Grammatical limit := by
  have hsite : Site.isGrammatical .typeBody = true := rfl
  refine ⟨h.packages, List.forall_mem_cons.mpr ⟨hname, h.names⟩, List.forall_mem_cons.mpr ⟨hsite, h.sites⟩,
    fun c k hk => ?_⟩
  rw [Numbering.enter, Registry.find?_insert] at hk
  split at hk
  · exact Option.some.inj hk ▸ Counters.within_empty hlimit
  · exact h.counters c k hk

/-- The innermost class may move on to another member. -/
theorem setSite (h : n.Grammatical limit) {frame : Frame} {outer : List Frame} (hf : n.frames = frame :: outer)
    {site : Site} (hsite : site.isGrammatical = true) :
    Grammatical limit { n with frames := { frame with site } :: outer } := by
  have hnames := h.names
  have hsites := h.sites
  rw [hf] at hnames hsites
  exact { h with
    names := List.forall_mem_cons.mpr (List.forall_mem_cons.mp hnames)
    sites := List.forall_mem_cons.mpr ⟨hsite, (List.forall_mem_cons.mp hsites).2⟩ }

theorem exitType (h : n.Grammatical limit) {frame : Frame} {outer : List Frame} (hf : n.frames = frame :: outer) :
    Grammatical limit { n with frames := outer } := by
  have hmem : ∀ other ∈ outer, other ∈ n.frames := fun other ho => by
    rw [hf]
    exact List.mem_cons_of_mem _ ho
  exact { h with
    names := fun other ho => h.names other (hmem other ho)
    sites := fun other ho => h.sites other (hmem other ho) }

end Grammatical

/-! ## Actions -/

variable {limit : Nat} {n n' : Numbering} {action : Action} {answer : Except Misuse (Option QualifiedName)}

/-- An action that is given parts that keep to the grammar keeps the state to it, and makes a name that
is read back but for a lambda's host. -/
theorem Step.grammatical (h : n.Step action answer n') (hn : n.Grammatical limit)
    (hbound : limit < Decimal.bound) (ha : action.isGrammatical = true)
    (hc : Event.constructsAnonymous ⟨n.currentType?, action, answer⟩ = false) :
    n'.Grammatical (limit + 1) ∧
      ∀ name, answer = .ok (some name) → name.asRead.Spelled Decimal.bound n.packages := by
  have hframe {frame : Frame} {outer : List Frame} (hf : n.frames = frame :: outer) : frame ∈ n.frames := by
    rw [hf]
    exact List.mem_cons_self
  have hindex {c : QualifiedName} {k : Counters} (hk : n.counters.find? c = some k) (what : Numbered) :
      what.first ≤ k.next what ∧ k.next what < Decimal.bound :=
    ⟨(hn.counters c k hk what).1, Nat.lt_of_le_of_lt (hn.counters c k hk what).2 hbound⟩
  have hanswer {made name : QualifiedName} (hmade : made.asRead.Spelled Decimal.bound n.packages)
      (he : (.ok (some made) : Except Misuse (Option QualifiedName)) = .ok (some name)) :
      name.asRead.Spelled Decimal.bound n.packages := by
    obtain rfl := Option.some.inj (Except.ok.inj he)
    exact hmade
  cases h with
  | refused => exact ⟨hn.succ, nofun⟩
  | @outermost name kind hf =>
    have hname : (QualifiedName.topLevel n.packages name).Spelled Decimal.bound n.packages := .topLevel ha
    exact ⟨hn.succ.enter (Nat.succ_pos _) hname _, fun _ => hanswer hname⟩
  | @memberType frame outer name kind hf =>
    have hsegment : (Segment.named name).Spelled Decimal.bound := ha
    have hname := (hn.names frame (hframe hf)).nested hsegment
    exact ⟨hn.succ.enter (Nat.succ_pos _) hname _, fun _ => hanswer hname⟩
  | @localType frame outer k name kind hf hk =>
    have hsegment : (Segment.localType (k.next (.localType name)) name).Spelled Decimal.bound :=
      ⟨(hindex hk (.localType name)).1, (hindex hk _).2, ha⟩
    have hname := (hn.names frame (hframe hf)).nested hsegment
    exact ⟨(hn.takeFor hk _).enter (Nat.succ_pos _) hname _, fun _ => hanswer hname⟩
  | @anonymous frame outer k hf hk =>
    have hsegment : (Segment.anonymous (k.next .anonymous)).Spelled Decimal.bound := hindex hk .anonymous
    have hname := (hn.names frame (hframe hf)).nested hsegment
    exact ⟨(hn.takeFor hk _).enter (Nat.succ_pos _) hname _, fun _ => hanswer hname⟩
  | exitType hf => exact ⟨hn.succ.exitType hf, nofun⟩
  | enterMember hf =>
    exact ⟨hn.succ.setSite hf (Frame.isGrammatical_siteOf (hn.names _ (hframe hf)) ha), nofun⟩
  | exitMember hf =>
    have hsite : Site.isGrammatical .typeBody = true := rfl
    exact ⟨hn.succ.setSite hf hsite, nofun⟩
  | @method frame outer name parameters hf =>
    obtain ⟨hname, hparameters⟩ := Bool.and_eq_true_iff.mp ha
    have hoperation : (Operation.method name parameters).asRead.Spelled Decimal.bound :=
      ⟨hname, List.all_eq_true.mp hparameters⟩
    exact ⟨hn.succ, fun _ => hanswer ((hn.names frame (hframe hf)).asRead_withOperation hoperation)⟩
  | @constructor frame outer parameters hf =>
    rw [Event.constructsAnonymous, currentType?, hf] at hc
    have hoperation : (Operation.method frame.name.declaredSimpleName parameters).asRead.Spelled Decimal.bound :=
      ⟨(hn.names frame (hframe hf)).declaredSimpleName hc, List.all_eq_true.mp ha⟩
    exact ⟨hn.succ, fun _ => hanswer ((hn.names frame (hframe hf)).asRead_withOperation hoperation)⟩
  | @lambda frame outer k hf hk =>
    have hoperation : (Operation.lambda frame.site.host (k.next .lambda)).asRead.Spelled Decimal.bound :=
      ⟨Site.wellFormed_asRead (hn.sites frame (hframe hf)), (hindex hk _).2⟩
    exact ⟨hn.takeFor hk _,
      fun _ => hanswer ((hn.names frame (hframe hf)).asRead_withOperation hoperation)⟩
  | beginUnit => exact ⟨.empty (List.all_eq_true.mp ha) _, nofun⟩
  | reset => exact ⟨.empty hn.packages _, nofun⟩

/-! ## Runs -/

theorem Grammatical.read?_answer {name : QualifiedName} (hn : n.Grammatical limit)
    (h : name.asRead.Spelled Decimal.bound n.packages) :
    QualifiedName.read? name.render = some name.asRead := by
  rw [← name.render_asRead]
  exact h.regular.read?_render_iff.mpr hn.packages

theorem Grammatical.events (hn : n.Grammatical limit) {actions : List Action}
    (hbound : limit + actions.length ≤ Decimal.bound) (hactions : ∀ a ∈ actions, a.isGrammatical = true)
    (hconstructors : ∀ e ∈ n.events actions, e.constructsAnonymous = false) :
    ∀ e ∈ n.events actions, ∀ name, e.answer = .ok (some name) →
      QualifiedName.read? name.render = some name.asRead := by
  induction actions generalizing n limit with
  | nil => exact fun _ he => absurd he List.not_mem_nil
  | cons action actions ih =>
    rw [List.length_cons] at hbound
    rw [Numbering.events] at hconstructors ⊢
    obtain ⟨ha, hactions⟩ := List.forall_mem_cons.mp hactions
    obtain ⟨hc, hconstructors⟩ := List.forall_mem_cons.mp hconstructors
    obtain ⟨hafter, hname⟩ := (n.step_perform action).grammatical hn (by omega) ha hc
    refine List.forall_mem_cons.mpr ⟨fun name he => hn.read?_answer (hname name he), ?_⟩
    exact ih hafter (by omega) hactions hconstructors

/-- **From parts to text and back.** In a run with grammatical parts every name that is made is read
from its text, with all its classes, indexes and parameters. It is the name that was made just if
its lambda is not in a method, or a field of a local class, called `static` or `new`. -/
theorem events_read?_render {packages : List String} (hpackages : ∀ p ∈ packages, isPackage p.toList = true)
    {actions : List Action} (hlength : actions.length < Decimal.bound - 1)
    (hactions : ∀ a ∈ actions, a.isGrammatical = true)
    (hconstructors : ∀ e ∈ Numbering.events { packages } actions, e.constructsAnonymous = false) :
    ∀ e ∈ Numbering.events { packages } actions, ∀ name, e.answer = .ok (some name) →
      QualifiedName.read? name.render = some name.asRead ∧
        (QualifiedName.read? name.render = some name ↔
          ∀ index, name.operation ≠ some (.lambda (.member "static") index) ∧
            name.operation ≠ some (.lambda (.member "new") index)) := by
  intro e he name hname
  have hread := (Grammatical.empty hpackages 0).events (by omega) hactions hconstructors e he name hname
  refine ⟨hread, ?_⟩
  rw [hread, Option.some.injEq, name.asRead_eq_iff]

/-- Lambdas in a method that is called `static` and in a field of a local class, and other names. -/
def staticRun : List Action :=
  [.enterType (.named "A" .classType), .constructor ["int", "String..."], .enterMember (.method "static"),
    .lambda, .enterType (.localType "L" .classType), .enterMember (.field false), .lambda,
    .enterType .anonymous, .method "run" [], .exitType, .exitType, .exitMember, .lambda]

theorem events_read?_staticRun :
    (∀ p ∈ ["p"], isPackage p.toList = true) ∧ staticRun.length < Decimal.bound - 1 ∧
      (∀ a ∈ staticRun, a.isGrammatical = true) ∧
      (∀ e ∈ Numbering.events ⟨["p"], {}, []⟩ staticRun, e.constructsAnonymous = false) ∧
      ∀ e ∈ Numbering.events ⟨["p"], {}, []⟩ staticRun, ∀ name, e.answer = .ok (some name) →
        QualifiedName.read? name.render = some name.asRead ∧
          (QualifiedName.read? name.render = some name ↔
            ∀ index, name.operation ≠ some (.lambda (.member "static") index) ∧
              name.operation ≠ some (.lambda (.member "new") index)) := by
  have hpackages : ∀ p ∈ ["p"], isPackage p.toList = true := by decide
  have hlength : staticRun.length < Decimal.bound - 1 := by decide
  have hactions : ∀ a ∈ staticRun, a.isGrammatical = true := by decide
  have hconstructors : ∀ e ∈ Numbering.events ⟨["p"], {}, []⟩ staticRun, e.constructsAnonymous = false := by
    decide
  exact ⟨hpackages, hlength, hactions, hconstructors,
    events_read?_render hpackages hlength hactions hconstructors⟩

def staticMethod : List Action :=
  [.enterType (.named "A" .classType), .enterMember (.method "static"), .lambda]

/-- A name that is made of grammatical parts and is not the one that is read from its text. -/
theorem not_read?_staticMethod :
    (∀ a ∈ staticMethod, a.isGrammatical = true) ∧
      ∃ e ∈ Numbering.events {} staticMethod, ∃ name, e.answer = .ok (some name) ∧
        name.render = "A#lambda$static$0" ∧ QualifiedName.read? name.render ≠ some name := by
  refine ⟨by decide, ⟨some (.topLevel [] "A"), .lambda,
    .ok (some ⟨[], "A", [], some (.lambda (.member "static") 0)⟩)⟩, .tail _ (.tail _ (.head _)), _, rfl, ?_, ?_⟩
  · decide
  · decide

end Numbering

end Nomenclator
