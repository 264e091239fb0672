/-
The operations of numbering. Each either answers, with the state after it,
or is refused, with the state it leaves behind.
-/
import Nomenclator.Numbering.Basic

namespace Nomenclator

/-- Something done to a `Numbering`. -/
abbrev Namer := EStateM Misuse Numbering

namespace Namer

/-! ## The innermost class -/

/-- The innermost class, in which `what` is to be declared. -/
def innermost (what : Declarable) : Namer Frame := do
  match (← get).frames with
  | frame :: _ => return frame
  | [] => throw (.outsideType what)

/-- Takes an index for `what` from the counters of the innermost class. -/
def takeIndex (what : Declarable) (take : Counters → Nat × Counters) : Namer (Frame × Nat) := do
  let frame ← innermost what
  match (← get).counters.find? frame.name with
  | some counters =>
    let (index, counters) := take counters
    modify fun n => { n with counters := n.counters.insert frame.name counters }
    return (frame, index)
  | none => throw .uncountedType

/-! ## Classes -/

/-- The name of a class about to be entered. Only a named class can be entered outside any other. -/
def className (entry : ClassEntry) : Namer QualifiedName := do
  match entry with
  | .named name _ =>
    let n ← get
    match n.frames with
    | frame :: _ => return frame.name.nested (.named name)
    | [] => return .topLevel n.packages name
  | .localType name _ =>
    let (frame, index) ← takeIndex .localClass (·.takeLocal name)
    return frame.name.nested (.localType index name)
  | .anonymous =>
    let (frame, index) ← takeIndex .anonymousClass (·.takeAnonymous)
    return frame.name.nested (.anonymous index)

/-- Enters a class, with counters of its own, and names it. -/
def enterType (entry : ClassEntry) : Namer QualifiedName := do
  let name ← className entry
  modify fun n => { n with
    counters := n.counters.insert name {}
    frames := ⟨name, entry.form, .typeBody⟩ :: n.frames }
  return name

def exitType : Namer Unit := do
  match (← get).frames with
  | _ :: outer => modify fun n => { n with frames := outer }
  | [] => throw .exitOutsideType

/-! ## Members -/

def setSite (site : Frame → Site) : Namer Unit := do
  match (← get).frames with
  | frame :: outer => modify fun n => { n with frames := { frame with site := site frame } :: outer }
  | [] => throw .memberOutsideType

def enterMember (entry : MemberEntry) : Namer Unit := setSite (·.siteOf entry)

/-- Goes back between the members of the innermost class. -/
def exitMember : Namer Unit := setSite fun _ => .typeBody

/-! ## Operations -/

def method (name : String) (parameters : List String) : Namer QualifiedName := do
  let frame ← innermost .method
  return frame.name.withOperation (.method name parameters)

/-- A constructor has the simple name of its class. -/
def constructor (parameters : List String) : Namer QualifiedName := do
  let frame ← innermost .constructor
  return frame.name.withOperation (.method frame.name.declaredSimpleName parameters)

def lambda : Namer QualifiedName := do
  let (frame, index) ← takeIndex .lambda (·.takeLambda)
  return frame.name.withOperation (.lambda frame.site.host index)

/-! ## Starting over -/

/-- Forgets all counters and classes. -/
def reset : Namer Unit := modify fun n => { n with counters := {}, frames := [] }

def beginUnit (packages : List String) : Namer Unit := do
  modify fun n => { n with packages }
  reset

end Namer

/-! ## Runs -/

/-- An operation of numbering as a value. -/
inductive Action
  | enterType (entry : ClassEntry)
  | exitType
  | enterMember (entry : MemberEntry)
  | exitMember
  | method (name : String) (parameters : List String)
  | constructor (parameters : List String)
  | lambda
  | beginUnit (packages : List String)
  | reset
deriving DecidableEq

/-- The name that the action makes, if it is one that makes names. -/
def Action.perform : Action → Namer (Option QualifiedName)
  | enterType entry => return some (← Namer.enterType entry)
  | exitType => do Namer.exitType; return none
  | enterMember entry => do Namer.enterMember entry; return none
  | exitMember => do Namer.exitMember; return none
  | method name parameters => return some (← Namer.method name parameters)
  | constructor parameters => return some (← Namer.constructor parameters)
  | lambda => return some (← Namer.lambda)
  | beginUnit packages => do Namer.beginUnit packages; return none
  | reset => do Namer.reset; return none

namespace Numbering

/-- What an action answers, or why it is refused, and the state after it. -/
def perform (n : Numbering) (action : Action) :
    Except Misuse (Option QualifiedName) × Numbering :=
  match action.perform n with
  | .ok name n' => (.ok name, n')
  | .error misuse n' => (.error misuse, n')

/-- The state after all actions, refused ones among them. -/
def run (n : Numbering) (actions : List Action) : Numbering :=
  actions.foldl (fun n action => (n.perform action).2) n

end Numbering

end Nomenclator
