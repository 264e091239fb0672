/-
What a single action does to the state of numbering, and what this keeps of
the stack of classes.

An action that is refused leaves the state as it was. Every other one moves
counters of the innermost class, enters a class or leaves it, moves on to
another member of it, only makes a name, or clears all (`Step`). The classes on the stack
are nested in one another (`Stacked`), so that no two of them have the same
name and a class that is entered has the name of none.
-/
import Nomenclator.Proofs.Numbering.Walk

namespace Nomenclator

/-! ## What is numbered -/

/-- What the counters of a class count. -/
inductive Numbered
  | lambda
  | anonymous
  | localType (name : String)
deriving DecidableEq

namespace Numbered

/-- Lambdas count from zero, classes from one. -/
def first : Numbered → Nat
  | lambda => 0
  | anonymous | localType _ => 1

end Numbered

namespace Counters

def next (k : Counters) : Numbered → Nat
  | .lambda => k.nextLambda
  | .anonymous => k.nextAnonymous
  | .localType name => (k.nextLocal.find? name).getD 1

def take (k : Counters) : Numbered → Nat × Counters
  | .lambda => k.takeLambda
  | .anonymous => k.takeAnonymous
  | .localType name => k.takeLocal name

theorem next_empty (what : Numbered) : ({} : Counters).next what = what.first := by
  cases what <;> rfl

/-- Taking an index moves one counter and no other. -/
theorem next_take (k : Counters) (what other : Numbered) :
    (k.take what).2.next other = k.next other + if what = other then 1 else 0 := by
  cases what with
  | lambda => cases other <;> simp [take, takeLambda, next]
  | anonymous => cases other <;> simp [take, takeAnonymous, next]
  | localType name =>
    cases other with
    | lambda | anonymous => simp [take, takeLocal, next]
    | localType other =>
      by_cases h : name = other
      · subst h
        simp [take, takeLocal, next]
      · simp [take, takeLocal, next, Registry.find?_insert, h, Ne.symm h]

end Counters

/-- What the action takes an index for. -/
def Action.numbered? : Action → Option Numbered
  | .lambda => some .lambda
  | .enterType .anonymous => some .anonymous
  | .enterType (.localType name _) => some (.localType name)
  | _ => none

/-! ## One action -/

namespace Numbering

/-- The state with an index taken for class `c`, whose counters are `k`. -/
def takeFor (n : Numbering) (c : QualifiedName) (k : Counters) (what : Numbered) : Numbering :=
  { n with counters := n.counters.insert c (k.take what).2 }

def enter (n : Numbering) (name : QualifiedName) (form : Form) : Numbering :=
  { n with
    counters := n.counters.insert name {}
    frames := ⟨name, form, .typeBody⟩ :: n.frames }

/-- The state is refused all that needs a class, or counters of the innermost one. -/
def Bare (n : Numbering) : Prop :=
  ∀ frame ∈ n.frames.head?, n.counters.find? frame.name = none

/-- What an action answers and which state it leaves. -/
inductive Step (n : Numbering) : Action → Except Misuse (Option QualifiedName) → Numbering → Prop
  | refused {action misuse} (h : n.Bare) : Step n action (.error misuse) n
  | outermost {name kind} (hf : n.frames = []) :
    Step n (.enterType (.named name kind)) (.ok (some (.topLevel n.packages name)))
      (n.enter (.topLevel n.packages name) (.named kind))
  | memberType {frame outer name kind} (hf : n.frames = frame :: outer) :
    Step n (.enterType (.named name kind)) (.ok (some (frame.name.nested (.named name))))
      (n.enter (frame.name.nested (.named name)) (.named kind))
  | localType {frame outer k name kind} (hf : n.frames = frame :: outer)
      (hk : n.counters.find? frame.name = some k) :
    Step n (.enterType (.localType name kind))
      (.ok (some (frame.name.nested (.localType (k.next (.localType name)) name))))
      ((n.takeFor frame.name k (.localType name)).enter
        (frame.name.nested (.localType (k.next (.localType name)) name)) (.localType kind))
  | anonymous {frame outer k} (hf : n.frames = frame :: outer)
      (hk : n.counters.find? frame.name = some k) :
    Step n (.enterType .anonymous) (.ok (some (frame.name.nested (.anonymous (k.next .anonymous)))))
      ((n.takeFor frame.name k .anonymous).enter
        (frame.name.nested (.anonymous (k.next .anonymous))) .anonymous)
  | exitType {frame outer} (hf : n.frames = frame :: outer) :
    Step n .exitType (.ok none) { n with frames := outer }
  | enterMember {frame outer entry} (hf : n.frames = frame :: outer) :
    Step n (.enterMember entry) (.ok none)
      { n with frames := { frame with site := frame.siteOf entry } :: outer }
  | exitMember {frame outer} (hf : n.frames = frame :: outer) :
    Step n .exitMember (.ok none) { n with frames := { frame with site := .typeBody } :: outer }
  | method {frame outer name parameters} (hf : n.frames = frame :: outer) :
    Step n (.method name parameters)
      (.ok (some (frame.name.withOperation (.method name parameters)))) n
  | constructor {frame outer parameters} (hf : n.frames = frame :: outer) :
    Step n (.constructor parameters)
      (.ok (some (frame.name.withOperation (.method frame.name.declaredSimpleName parameters)))) n
  | lambda {frame outer k} (hf : n.frames = frame :: outer)
      (hk : n.counters.find? frame.name = some k) :
    Step n .lambda (.ok (some (frame.name.withOperation (.lambda frame.site.host (k.next .lambda)))))
      (n.takeFor frame.name k .lambda)
  | beginUnit {packages} :
    Step n (.beginUnit packages) (.ok none) { packages, counters := {}, frames := [] }
  | reset : Step n .reset (.ok none) { n with counters := {}, frames := [] }

end Numbering

namespace Namer

open Nomenclator.Numbering (Bare)

variable {α β : Type} {n n' : Numbering}

theorem bind_of_error {x : Namer α} {f : α → Namer β} {misuse : Misuse} (h : x n = .error misuse n') :
    (x >>= f) n = .error misuse n' := by
  simp only [bind, EStateM.bind, h]

theorem bare_of_nil (hf : n.frames = []) : n.Bare := by
  rw [Bare, hf]
  nofun

theorem innermost_cases (n : Numbering) (what : Declarable) :
    (n.Bare ∧ ∃ misuse, innermost what n = .error misuse n) ∨
      ∃ frame outer, n.frames = frame :: outer ∧ innermost what n = .ok frame n := by
  cases hf : n.frames with
  | nil =>
    refine .inl ⟨bare_of_nil hf, .outsideType what, ?_⟩
    rw [innermost, get_bind, hf]
    rfl
  | cons frame outer => exact .inr ⟨frame, outer, rfl, innermost_eq hf what⟩

theorem takeIndex_cases (n : Numbering) (what : Declarable) (take : Counters → Nat × Counters) :
    (n.Bare ∧ ∃ misuse, takeIndex what take n = .error misuse n) ∨
      ∃ frame outer k, n.frames = frame :: outer ∧ n.counters.find? frame.name = some k ∧
        takeIndex what take n =
          .ok (frame, (take k).1) { n with counters := n.counters.insert frame.name (take k).2 } := by
  rcases innermost_cases n what with ⟨hb, misuse, h⟩ | ⟨frame, outer, hf, h⟩
  · exact .inl ⟨hb, misuse, by rw [takeIndex, bind_of_error h]⟩
  · cases hk : n.counters.find? frame.name with
    | none =>
      refine .inl ⟨?_, .uncountedType, ?_⟩
      · rw [Bare, hf]
        intro other ho
        rwa [← Option.some.inj ho]
      · rw [takeIndex, bind_of_ok h, get_bind, hk]
        rfl
    | some k => exact .inr ⟨frame, outer, k, hf, hk, takeIndex_eq hf hk what take⟩

theorem setSite_cases (n : Numbering) (site : Frame → Site) :
    (n.Bare ∧ ∃ misuse, setSite site n = .error misuse n) ∨
      ∃ frame outer, n.frames = frame :: outer ∧
        setSite site n = .ok () { n with frames := { frame with site := site frame } :: outer } := by
  cases hf : n.frames with
  | nil =>
    refine .inl ⟨bare_of_nil hf, .memberOutsideType, ?_⟩
    rw [setSite, get_bind, hf]
    rfl
  | cons frame outer => exact .inr ⟨frame, outer, rfl, setSite_eq hf site⟩

end Namer

namespace Numbering

open Namer

variable {n n' : Numbering} {action : Action}

theorem step_of_ok {name : Option QualifiedName} (h : action.perform n = .ok name n')
    (hs : n.Step action (.ok name) n') : n.Step action (n.perform action).1 (n.perform action).2 := by
  rw [perform, h]
  exact hs

theorem step_of_error (misuse : Misuse) (hb : n.Bare) (h : action.perform n = .error misuse n) :
    n.Step action (n.perform action).1 (n.perform action).2 := by
  rw [perform, h]
  exact .refused hb

theorem step_enterType (n : Numbering) (entry : ClassEntry) :
    n.Step (.enterType entry) (n.perform (.enterType entry)).1 (n.perform (.enterType entry)).2 := by
  have hok {name n'} (h : className entry n = .ok name n') :
      Action.perform (.enterType entry) n = .ok (some name) (n'.enter name entry.form) := by
    rw [Action.perform, bind_of_ok (enterType_eq h)]
    rfl
  have herror {misuse} (h : className entry n = .error misuse n) :
      Action.perform (.enterType entry) n = .error misuse n := by
    rw [Action.perform, bind_of_error (by rw [enterType, bind_of_error h])]
  cases entry with
  | named name kind =>
    cases hf : n.frames with
    | nil =>
      refine step_of_ok (hok ?_) (.outermost hf)
      rw [className, get_bind, hf]
      rfl
    | cons frame outer =>
      refine step_of_ok (hok ?_) (.memberType hf)
      rw [className, get_bind, hf]
      rfl
  | localType name kind =>
    rcases takeIndex_cases n .localClass (·.takeLocal name) with
      ⟨hb, misuse, h⟩ | ⟨frame, outer, k, hf, hk, h⟩
    · exact step_of_error misuse hb (herror (by rw [className, bind_of_error h]))
    · refine step_of_ok (hok ?_) (.localType hf hk)
      rw [className, bind_of_ok h]
      rfl
  | anonymous =>
    rcases takeIndex_cases n .anonymousClass (·.takeAnonymous) with
      ⟨hb, misuse, h⟩ | ⟨frame, outer, k, hf, hk, h⟩
    · exact step_of_error misuse hb (herror (by rw [className, bind_of_error h]))
    · refine step_of_ok (hok ?_) (.anonymous hf hk)
      rw [className, bind_of_ok h]
      rfl

/-- Every action takes one of these steps. -/
theorem step_perform (n : Numbering) (action : Action) :
    n.Step action (n.perform action).1 (n.perform action).2 := by
  cases action with
  | enterType entry => exact step_enterType n entry
  | exitType =>
    cases hf : n.frames with
    | nil =>
      refine step_of_error .exitOutsideType (bare_of_nil hf) ?_
      rw [Action.perform, Namer.exitType, bind_of_error (by rw [get_bind, hf]; rfl)]
    | cons frame outer =>
      refine step_of_ok ?_ (.exitType hf)
      rw [Action.perform, bind_of_ok (exitType_eq hf)]
      rfl
  | enterMember entry =>
    rcases setSite_cases n (·.siteOf entry) with ⟨hb, misuse, h⟩ | ⟨frame, outer, hf, h⟩
    · exact step_of_error misuse hb (by rw [Action.perform, Namer.enterMember, bind_of_error h])
    · exact step_of_ok (by rw [Action.perform, Namer.enterMember, bind_of_ok h]; rfl) (.enterMember hf)
  | exitMember =>
    rcases setSite_cases n fun _ => .typeBody with ⟨hb, misuse, h⟩ | ⟨frame, outer, hf, h⟩
    · exact step_of_error misuse hb (by rw [Action.perform, Namer.exitMember, bind_of_error h])
    · exact step_of_ok (by rw [Action.perform, Namer.exitMember, bind_of_ok h]; rfl) (.exitMember hf)
  | method name parameters =>
    rcases innermost_cases n .method with ⟨hb, misuse, h⟩ | ⟨frame, outer, hf, h⟩
    · refine step_of_error misuse hb ?_
      rw [Action.perform, bind_of_error (by rw [Namer.method, bind_of_error h])]
    · refine step_of_ok ?_ (.method hf)
      rw [Action.perform, bind_of_ok (by rw [Namer.method, bind_of_ok h]; rfl)]
      rfl
  | constructor parameters =>
    rcases innermost_cases n .constructor with ⟨hb, misuse, h⟩ | ⟨frame, outer, hf, h⟩
    · refine step_of_error misuse hb ?_
      rw [Action.perform, bind_of_error (by rw [Namer.constructor, bind_of_error h])]
    · refine step_of_ok ?_ (.constructor hf)
      rw [Action.perform, bind_of_ok (by rw [Namer.constructor, bind_of_ok h]; rfl)]
      rfl
  | lambda =>
    rcases takeIndex_cases n .lambda (·.takeLambda) with
      ⟨hb, misuse, h⟩ | ⟨frame, outer, k, hf, hk, h⟩
    · refine step_of_error misuse hb ?_
      rw [Action.perform, bind_of_error (by rw [Namer.lambda, bind_of_error h])]
    · refine step_of_ok ?_ (.lambda hf hk)
      rw [Action.perform, bind_of_ok (by rw [Namer.lambda, bind_of_ok h]; rfl)]
      rfl
  | beginUnit packages => exact .beginUnit
  | reset => exact .reset

/-! ## Answers with a class that has counters -/

section

variable {frame : Frame} {outer : List Frame} {k : Counters} (hf : n.frames = frame :: outer)
  (hk : n.counters.find? frame.name = some k)
include hf hk

theorem not_bare : ¬ n.Bare := by
  intro hb
  have hnone := hb frame (by rw [hf]; rfl)
  rw [hk] at hnone
  exact absurd hnone nofun

theorem answer_lambda : (n.perform .lambda).1 =
    .ok (some (frame.name.withOperation (.lambda frame.site.host (k.next .lambda)))) := by
  have hstep := n.step_perform .lambda
  generalize (n.perform .lambda).1 = answer, (n.perform .lambda).2 = n' at hstep ⊢
  cases hstep with
  | refused hb => exact absurd hb (not_bare hf hk)
  | lambda hf' hk' =>
    obtain ⟨rfl, rfl⟩ := List.cons.inj (hf.symm.trans hf')
    rw [Option.some.inj (hk.symm.trans hk')]

theorem answer_anonymous : (n.perform (.enterType .anonymous)).1 =
    .ok (some (frame.name.nested (.anonymous (k.next .anonymous)))) := by
  have hstep := n.step_perform (.enterType .anonymous)
  generalize (n.perform (.enterType .anonymous)).1 = answer,
    (n.perform (.enterType .anonymous)).2 = n' at hstep ⊢
  cases hstep with
  | refused hb => exact absurd hb (not_bare hf hk)
  | anonymous hf' hk' =>
    obtain ⟨rfl, rfl⟩ := List.cons.inj (hf.symm.trans hf')
    rw [Option.some.inj (hk.symm.trans hk')]

theorem answer_localType (name : String) (kind : TypeKind) :
    (n.perform (.enterType (.localType name kind))).1 =
      .ok (some (frame.name.nested (.localType (k.next (.localType name)) name))) := by
  have hstep := n.step_perform (.enterType (.localType name kind))
  generalize (n.perform (.enterType (.localType name kind))).1 = answer,
    (n.perform (.enterType (.localType name kind))).2 = n' at hstep ⊢
  cases hstep with
  | refused hb => exact absurd hb (not_bare hf hk)
  | localType hf' hk' =>
    obtain ⟨rfl, rfl⟩ := List.cons.inj (hf.symm.trans hf')
    rw [Option.some.inj (hk.symm.trans hk')]

end

/-! ## The stack -/

/-- A class of that name can be entered when the classes `outer` are. -/
def Declares (packages : List String) (outer : List Frame) (name : QualifiedName) : Prop :=
  match outer with
  | [] => ∃ simpleName, name = .topLevel packages simpleName
  | frame :: _ => ∃ s, name = frame.name.nested s

/-- Every class on the stack is declared directly within the next one. -/
def Stacked (packages : List String) : List Frame → Prop
  | [] => True
  | frame :: outer => Declares packages outer frame.name ∧ Stacked packages outer

variable {packages : List String} {frames outer : List Frame} {frame : Frame} {name : QualifiedName}

theorem Declares.length (hd : Declares packages frames name) (hs : Stacked packages frames) :
    name.inner.length = frames.length := by
  induction frames generalizing name with
  | nil =>
    obtain ⟨simpleName, rfl⟩ := hd
    rfl
  | cons frame outer ih =>
    obtain ⟨s, rfl⟩ := hd
    rw [frame.name.nested_longer, ih hs.1 hs.2, List.length_cons]

theorem Stacked.length_lt (hs : Stacked packages frames) :
    ∀ frame ∈ frames, frame.name.inner.length < frames.length := by
  induction frames with
  | nil => nofun
  | cons first outer ih =>
    refine List.forall_mem_cons.mpr ⟨?_, fun frame hf => Nat.lt_succ_of_lt (ih hs.2 frame hf)⟩
    rw [hs.1.length hs.2]
    exact Nat.lt_succ_self _

/-- A class that is entered has the name of none that is on the stack. -/
theorem Declares.ne (hd : Declares packages frames name) (hs : Stacked packages frames) :
    ∀ frame ∈ frames, frame.name ≠ name := by
  intro frame hf he
  have hlt := hs.length_lt frame hf
  rw [he, hd.length hs] at hlt
  exact Nat.lt_irrefl _ hlt

theorem Step.stacked {answer : Except Misuse (Option QualifiedName)} (h : n.Step action answer n')
    (hs : Stacked n.packages n.frames) : Stacked n'.packages n'.frames := by
  cases h with
  | refused | method | constructor | lambda => exact hs
  | outermost hf =>
    refine ⟨?_, hs⟩
    rw [hf]
    exact ⟨_, rfl⟩
  | memberType hf | localType hf hk | anonymous hf hk =>
    refine ⟨?_, hs⟩
    show Declares n.packages n.frames _
    rw [hf]
    exact ⟨_, rfl⟩
  | exitType hf =>
    rw [hf] at hs
    exact hs.2
  | enterMember hf | exitMember hf =>
    rw [hf] at hs
    exact hs
  | beginUnit | reset => trivial

end Numbering

end Nomenclator
