/-
What numbering refuses, and what is left behind where it does.

An action that needs a class is refused where none is entered. Nothing else
is ever refused: every class on the stack has counters, since they are made
when the class is entered and only given up when the stack is emptied too.
So an action finds out whether it is refused before it changes anything.
-/
import Nomenclator.Proofs.Numbering.Epoch

namespace Nomenclator

/-- Why the action is refused where no class is entered. Some actions need none. -/
def Action.misuse? : Action → Option Misuse
  | .enterType (.named ..) | .beginUnit _ | .reset => none
  | .enterType (.localType ..) => some (.outsideType .localClass)
  | .enterType .anonymous => some (.outsideType .anonymousClass)
  | .exitType => some .exitOutsideType
  | .enterMember _ | .exitMember => some .memberOutsideType
  | .method .. => some (.outsideType .method)
  | .constructor _ => some (.outsideType .constructor)
  | .lambda => some (.outsideType .lambda)

theorem Action.misuse?_ne_uncountedType (action : Action) : action.misuse? ≠ some .uncountedType := by
  cases action with
  | enterType entry => cases entry <;> nofun
  | _ => nofun

namespace Numbering

variable {n : Numbering} {action : Action} {misuse : Misuse}

/-! ## Outside any class -/

theorem perform_of_misuse? (hf : n.frames = []) (h : action.misuse? = some misuse) :
    n.perform action = (.error misuse, n) := by
  obtain ⟨packages, counters, frames⟩ := n
  obtain rfl : frames = [] := hf
  cases action with
  | enterType entry =>
    cases entry with
    | named => exact absurd h nofun
    | localType | anonymous =>
      obtain rfl := Option.some.inj h
      rfl
  | exitType | enterMember | exitMember | method | constructor | lambda =>
    obtain rfl := Option.some.inj h
    rfl
  | beginUnit | reset => exact absurd h nofun

theorem perform_of_misuse?_eq_none (hf : n.frames = []) (h : action.misuse? = none) :
    ∃ name, (n.perform action).1 = .ok name := by
  obtain ⟨packages, counters, frames⟩ := n
  obtain rfl : frames = [] := hf
  cases action with
  | enterType entry =>
    cases entry with
    | named name kind => exact ⟨some (.topLevel packages name), rfl⟩
    | localType | anonymous => exact absurd h nofun
  | exitType | enterMember | exitMember | method | constructor | lambda => exact absurd h nofun
  | beginUnit | reset => exact ⟨none, rfl⟩

/-! ## Refusals -/

/-- What is refused, is so before anything is changed. -/
theorem Step.eq_of_error {answer : Except Misuse (Option QualifiedName)} {n' : Numbering}
    (h : n.Step action answer n') (he : answer = .error misuse) : n.Bare ∧ n' = n := by
  cases h with
  | refused hb => exact ⟨hb, rfl⟩
  | _ => exact absurd he nofun

theorem Tracks.perform_eq_error_iff {events : List Event} (h : n.Tracks events) :
    (n.perform action).1 = .error misuse ↔ n.frames = [] ∧ action.misuse? = some misuse := by
  refine ⟨fun he => ?_, fun ⟨hf, hm⟩ => by rw [perform_of_misuse? hf hm]⟩
  have hf : n.frames = [] := h.frames_eq_nil ((n.step_perform action).eq_of_error he).1
  refine ⟨hf, ?_⟩
  cases hm : action.misuse? with
  | none =>
    obtain ⟨name, hok⟩ := perform_of_misuse?_eq_none hf hm
    rw [hok] at he
    exact absurd he nofun
  | some other =>
    rw [perform_of_misuse? hf hm] at he
    rw [Except.error.inj he]

/-! ## The chain of classes -/

/-- A class on the stack lies as deep as it stands on it, directly within the next one. -/
theorem Stacked.chain {packages : List String} {frames : List Frame} (hs : Stacked packages frames) :
    ∀ frame outer, frame :: outer <:+ frames →
      frame.name.classes.length = outer.length + 1 ∧ frame.name.packages = packages ∧
        frame.name.operation = none ∧ frame.name.enclosingType? = outer.head?.map Frame.name := by
  induction frames with
  | nil => exact fun frame outer h => absurd (List.suffix_nil.mp h) nofun
  | cons first rest ih =>
    intro frame outer h
    rcases List.suffix_cons_iff.mp h with he | h
    · obtain ⟨rfl, rfl⟩ := List.cons.inj he
      obtain ⟨hd, hrest⟩ := hs
      refine ⟨congrArg (· + 1) (hd.length hrest), ?_⟩
      cases outer with
      | nil =>
        obtain ⟨simpleName, hname⟩ := hd
        rw [hname]
        exact ⟨rfl, rfl, rfl⟩
      | cons next outer =>
        obtain ⟨s, hname⟩ := hd
        obtain ⟨-, hpackages, hoperation, -⟩ := ih hrest next outer (List.suffix_refl _)
        have htype : next.name.typeName = next.name := by rw [QualifiedName.typeName, ← hoperation]
        rw [hname, QualifiedName.enclosingType?_nested, htype]
        exact ⟨hpackages, rfl, rfl⟩
    · exact ih hs.2 frame outer h

/-- **Misuse is refused, and nothing else.** After any run of actions, refused ones among them, the
classes on the stack form a chain and all have counters. An action is refused exactly if no class is
entered and it needs one, never for want of counters, and a refused action leaves the state as it was. -/
theorem run_refuses (packages : List String) (actions : List Action) :
    (∀ frame outer, frame :: outer <:+ (run { packages } actions).frames →
      frame.name.classes.length = outer.length + 1 ∧
      frame.name.packages = (run { packages } actions).packages ∧ frame.name.operation = none ∧
      frame.name.enclosingType? = outer.head?.map Frame.name) ∧
    (∀ frame ∈ (run { packages } actions).frames,
      ((run { packages } actions).counters.find? frame.name).isSome) ∧
    ∀ action misuse,
      (((run { packages } actions).perform action).1 = .error misuse ↔
        (run { packages } actions).frames = [] ∧ action.misuse? = some misuse) ∧
      (((run { packages } actions).perform action).1 = .error misuse →
        misuse ≠ .uncountedType ∧
          ((run { packages } actions).perform action).2 = run { packages } actions) := by
  have htracks := (Tracks.empty packages).run actions
  generalize run { packages } actions = n at htracks ⊢
  refine ⟨htracks.stacked.chain, fun frame hf => ?_, fun action misuse =>
    ⟨htracks.perform_eq_error_iff, fun he => ⟨?_, ?_⟩⟩⟩
  · obtain ⟨k, hk, -⟩ := htracks.counted frame hf
    exact Option.isSome_of_eq_some hk
  · rintro rfl
    exact action.misuse?_ne_uncountedType (htracks.perform_eq_error_iff.mp he).2
  · exact ((n.step_perform action).eq_of_error he).2

end Numbering

end Nomenclator
