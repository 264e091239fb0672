/-
The numbers that a run of actions makes, whatever the actions are and in
whatever order they come.

An epoch of a class begins where the class is entered, and all epochs end where
everything is cleared. Within its epoch a class gives out the next number
of each sort to whoever asks while it is the innermost one, and to nobody
else: the classes on the stack have different names, so no class that is
entered while it is on the stack can begin its epoch anew.
-/
import Mathlib.Data.List.DropRight
import Mathlib.Data.List.Infix
import Nomenclator.Proofs.Numbering.Step

namespace Nomenclator

open scoped List

/-! ## Runs by their events -/

/-- An action of a run, with the innermost class before it and what it answered. -/
structure Event where
  current : Option QualifiedName
  action : Action
  answer : Except Misuse (Option QualifiedName)

/-- The events of a run of actions from the state `n`. -/
def Numbering.events (n : Numbering) : List Action → List Event
  | [] => []
  | action :: actions =>
    ⟨n.currentType?, action, (n.perform action).1⟩ :: (n.perform action).2.events actions

namespace Event

/-- The event enters class `c`, or clears all. -/
def begins (c : QualifiedName) (e : Event) : Bool :=
  match e.action, e.answer with
  | .enterType _, .ok (some name) => name = c
  | .beginUnit _, .ok _ | .reset, .ok _ => true
  | _, _ => false

/-- The event asks for a number of that sort while `c` is the innermost class. -/
def asks (c : QualifiedName) (what : Numbered) (e : Event) : Bool :=
  e.current = some c && e.action.numbered? = some what

/-- The events since class `c` was entered for the last time, if nothing was cleared since. -/
def epoch (c : QualifiedName) (events : List Event) : List Event :=
  events.rtakeWhile fun e => !e.begins c

/-- How many numbers of that sort were asked for in the epoch of `c` that goes on at the end. -/
def asked (c : QualifiedName) (what : Numbered) (events : List Event) : Nat :=
  (epoch c events).countP (asks c what)

variable {c : QualifiedName} {what : Numbered} {events : List Event} {e : Event}

theorem asked_of_begins (h : e.begins c = true) (events : List Event) (what : Numbered) :
    asked c what (events ++ [e]) = 0 := by
  rw [asked, epoch, List.rtakeWhile_concat, h]
  rfl

theorem asked_concat (h : e.begins c = false) (events : List Event) (what : Numbered) :
    asked c what (events ++ [e]) = asked c what events + if e.asks c what then 1 else 0 := by
  rw [asked, epoch, List.rtakeWhile_concat, h]
  simp only [Bool.not_false, if_true, List.countP_append, List.countP_singleton]
  rfl

/-- As long as no epoch of `c` begins, what is asked for adds up. -/
theorem asked_append {more : List Event} (h : ∀ e ∈ more, e.begins c = false) (events : List Event)
    (what : Numbered) :
    asked c what (events ++ more) = asked c what events + more.countP (asks c what) := by
  induction more generalizing events with
  | nil => rw [List.append_nil]; rfl
  | cons e more ih =>
    obtain ⟨he, hmore⟩ := List.forall_mem_cons.mp h
    rw [List.append_cons, ih hmore, asked_concat he, List.countP_cons]
    omega

end Event

/-! ## Counters and events -/

/-- The counters stand where the requests in the epoch of `c` have moved them. -/
def Counters.Agrees (k : Counters) (c : QualifiedName) (events : List Event) : Prop :=
  ∀ what, k.next what = what.first + Event.asked c what events

namespace Counters

variable {k : Counters} {c : QualifiedName} {events : List Event} {e : Event}

theorem agrees_of_begins (h : e.begins c = true) (events : List Event) :
    Agrees {} c (events ++ [e]) := by
  intro what
  rw [next_empty, Event.asked_of_begins h]
  rfl

namespace Agrees

theorem of_not_asks (hk : k.Agrees c events) (hb : e.begins c = false)
    (ha : ∀ what, e.asks c what = false) : k.Agrees c (events ++ [e]) := by
  intro what
  rw [hk what, Event.asked_concat hb, ha what]
  rfl

theorem take (hk : k.Agrees c events) (hb : e.begins c = false) {what : Numbered}
    (hc : e.current = some c) (hn : e.action.numbered? = some what) :
    (k.take what).2.Agrees c (events ++ [e]) := by
  intro other
  rw [next_take, hk other, Event.asked_concat hb, Nat.add_assoc]
  simp [Event.asks, hc, hn]

end Agrees

end Counters

namespace Numbering

/-- The counters of all classes on the stack agree with the events. -/
def Counted (n : Numbering) (events : List Event) : Prop :=
  ∀ frame ∈ n.frames, ∃ k, n.counters.find? frame.name = some k ∧ k.Agrees frame.name events

/-- The event begins the epoch of no class on the stack. -/
def Keeps (n : Numbering) (e : Event) : Prop := ∀ frame ∈ n.frames, e.begins frame.name = false

namespace Counted

variable {n : Numbering} {events : List Event} {e : Event}

theorem of_frames_eq_nil (h : n.frames = []) (events : List Event) : n.Counted events := by
  intro frame hf
  rw [h] at hf
  exact absurd hf List.not_mem_nil

theorem of_not_numbered (h : n.Counted events) (hk : n.Keeps e) (hn : e.action.numbered? = none) :
    n.Counted (events ++ [e]) := by
  intro frame hf
  obtain ⟨k, hfind, hagrees⟩ := h frame hf
  exact ⟨k, hfind, hagrees.of_not_asks (hk frame hf) fun what => by simp [Event.asks, hn]⟩

/-- An index is taken for the innermost class alone. -/
theorem takeFor (h : n.Counted events) (hs : Stacked n.packages n.frames) (hk : n.Keeps e)
    {frame : Frame} {outer : List Frame} (hf : n.frames = frame :: outer) {k : Counters}
    (hfind : n.counters.find? frame.name = some k) {what : Numbered}
    (hc : e.current = some frame.name) (hn : e.action.numbered? = some what) :
    (n.takeFor frame.name k what).Counted (events ++ [e]) := by
  rw [Counted, Numbering.takeFor, hf]
  rw [Counted, hf] at h
  rw [Keeps, hf] at hk
  rw [hf] at hs
  refine List.forall_mem_cons.mpr ⟨⟨_, Registry.find?_insert_self .., ?_⟩, fun other ho => ?_⟩
  · obtain ⟨k', hk', hagrees⟩ := h frame List.mem_cons_self
    obtain rfl := Option.some.inj (hfind.symm.trans hk')
    exact hagrees.take (hk frame List.mem_cons_self) hc hn
  · have hne : other.name ≠ frame.name := hs.1.ne hs.2 other ho
    obtain ⟨k', hk', hagrees⟩ := h other (List.mem_cons_of_mem _ ho)
    refine ⟨k', (Registry.find?_insert_of_ne _ _ hne).trans hk', ?_⟩
    refine hagrees.of_not_asks (hk other (List.mem_cons_of_mem _ ho)) fun what => ?_
    simp [Event.asks, hc, Ne.symm hne]

/-- A class that is entered begins to count. -/
theorem enter (h : n.Counted events) {name : QualifiedName} (hd : ∀ frame ∈ n.frames, frame.name ≠ name)
    (hb : Counters.Agrees {} name events) (form : Form) : (n.enter name form).Counted events := by
  refine List.forall_mem_cons.mpr ⟨⟨_, Registry.find?_insert_self .., hb⟩, fun frame hf => ?_⟩
  obtain ⟨k, hfind, hagrees⟩ := h frame hf
  exact ⟨k, (Registry.find?_insert_of_ne _ _ (hd frame hf)).trans hfind, hagrees⟩

/-- Counters belong to names, so the rest of a frame does not matter. -/
theorem setFrames (h : n.Counted events) {frames : List Frame}
    (hsub : ∀ frame ∈ frames, ∃ other ∈ n.frames, other.name = frame.name) :
    Counted { n with frames } events := by
  intro frame hf
  obtain ⟨other, ho, hname⟩ := hsub frame hf
  rw [← hname]
  exact h other ho

end Counted

/-- What is known of a state that is reached by these events. -/
structure Tracks (n : Numbering) (events : List Event) : Prop where
  stacked : Stacked n.packages n.frames
  counted : n.Counted events

namespace Tracks

variable {n : Numbering} {events : List Event}

theorem empty (packages : List String) : Tracks { packages } [] :=
  ⟨trivial, .of_frames_eq_nil rfl _⟩

theorem frames_eq_nil (h : n.Tracks events) (hb : n.Bare) : n.frames = [] := by
  cases hf : n.frames with
  | nil => rfl
  | cons frame outer =>
    obtain ⟨k, hk, -⟩ := h.counted frame (by rw [hf]; exact List.mem_cons_self)
    rw [hb frame (by rw [hf]; rfl)] at hk
    exact absurd hk nofun

/-- The class that is entered begins its epoch and counts from the beginning. -/
theorem counted_enter {n' : Numbering} {e : Event} (hc : n'.Counted (events ++ [e])) {name : QualifiedName}
    (hd : Declares n'.packages n'.frames name) (hs : Stacked n'.packages n'.frames)
    (hb : e.begins name = true) (form : Form) : (n'.enter name form).Counted (events ++ [e]) :=
  hc.enter (hd.ne hs) (Counters.agrees_of_begins hb events) form

theorem perform (h : n.Tracks events) (action : Action) :
    (n.perform action).2.Tracks (events ++ [⟨n.currentType?, action, (n.perform action).1⟩]) := by
  have hstep := n.step_perform action
  generalize (n.perform action).1 = answer, (n.perform action).2 = n' at hstep ⊢
  refine ⟨hstep.stacked h.stacked, ?_⟩
  have hcurrent {frame : Frame} {outer : List Frame} (hf : n.frames = frame :: outer) :
      n.currentType? = some frame.name := by rw [currentType?, hf]; rfl
  have hkeeps {entry : ClassEntry} {name : QualifiedName} (hd : Declares n.packages n.frames name) :
      n.Keeps ⟨n.currentType?, .enterType entry, .ok (some name)⟩ :=
    fun frame hf => decide_eq_false (Ne.symm (hd.ne h.stacked frame hf))
  have hnested {frame : Frame} {outer : List Frame} (hf : n.frames = frame :: outer) (s : Segment) :
      Declares n.packages n.frames (frame.name.nested s) := by rw [hf]; exact ⟨s, rfl⟩
  have hbegins {entry : ClassEntry} (name : QualifiedName) :
      Event.begins name ⟨n.currentType?, .enterType entry, .ok (some name)⟩ = true :=
    decide_eq_true rfl
  cases hstep with
  | refused hb => exact .of_frames_eq_nil (h.frames_eq_nil hb) _
  | @outermost simpleName kind hf =>
    have hd : Declares n.packages n.frames (.topLevel n.packages simpleName) := by
      rw [hf]
      exact ⟨simpleName, rfl⟩
    exact counted_enter (h.counted.of_not_numbered (hkeeps hd) rfl) hd h.stacked (hbegins _) _
  | memberType hf =>
    exact counted_enter (h.counted.of_not_numbered (hkeeps (hnested hf _)) rfl) (hnested hf _)
      h.stacked (hbegins _) _
  | localType hf hk | anonymous hf hk =>
    exact counted_enter (h.counted.takeFor h.stacked (hkeeps (hnested hf _)) hf hk (hcurrent hf) rfl)
      (hnested hf _) h.stacked (hbegins _) _
  | exitType hf =>
    refine (h.counted.of_not_numbered (fun _ _ => rfl) rfl).setFrames fun frame hframe => ?_
    exact ⟨frame, by rw [hf]; exact List.mem_cons_of_mem _ hframe, rfl⟩
  | enterMember hf | exitMember hf =>
    refine (h.counted.of_not_numbered (fun _ _ => rfl) rfl).setFrames ?_
    rw [hf]
    exact List.forall_mem_cons.mpr ⟨⟨_, List.mem_cons_self, rfl⟩, fun frame hframe =>
      ⟨frame, List.mem_cons_of_mem _ hframe, rfl⟩⟩
  | method hf | constructor hf => exact h.counted.of_not_numbered (fun _ _ => rfl) rfl
  | lambda hf hk => exact h.counted.takeFor h.stacked (fun _ _ => rfl) hf hk (hcurrent hf) rfl
  | beginUnit | reset => exact .of_frames_eq_nil rfl _

theorem run (h : n.Tracks events) (actions : List Action) :
    (n.run actions).Tracks (events ++ n.events actions) := by
  induction actions generalizing n events with
  | nil => rwa [Numbering.events, List.append_nil]
  | cons action actions ih =>
    rw [Numbering.events, List.append_cons]
    exact ih (h.perform action)

end Tracks

/-! ## The law -/

theorem run_append (n : Numbering) (first more : List Action) :
    n.run (first ++ more) = (n.run first).run more := List.foldl_append

theorem events_append (n : Numbering) (first more : List Action) :
    n.events (first ++ more) = n.events first ++ (n.run first).events more := by
  induction first generalizing n with
  | nil => rfl
  | cons action first ih =>
    rw [List.cons_append, events, events, ih, List.cons_append]
    rfl

/-- No action begins the epoch of a class that is on the stack before it and after it. -/
theorem not_begins_of_mem {n : Numbering} (hs : Stacked n.packages n.frames) {c : QualifiedName}
    {action : Action} (hbefore : c ∈ n.frames.map Frame.name)
    (hafter : c ∈ (n.perform action).2.frames.map Frame.name) :
    Event.begins c ⟨n.currentType?, action, (n.perform action).1⟩ = false := by
  obtain ⟨frame, hframe, rfl⟩ := List.mem_map.mp hbefore
  have hne {name : QualifiedName} (hd : Declares n.packages n.frames name) :
      decide (name = frame.name) = false := decide_eq_false (Ne.symm (hd.ne hs frame hframe))
  have hstep := n.step_perform action
  generalize (n.perform action).1 = answer, (n.perform action).2 = n' at hstep hafter ⊢
  cases hstep with
  | refused hb => cases action <;> rfl
  | outermost hf =>
    rw [hf] at hframe
    exact absurd hframe nofun
  | memberType hf | localType hf hk | anonymous hf hk => exact hne (by rw [hf]; exact ⟨_, rfl⟩)
  | exitType hf | enterMember hf | exitMember hf | method hf | constructor hf | lambda hf hk => rfl
  | beginUnit | reset => exact absurd hafter nofun

/-- While `c` stays on the stack, its epoch goes on. -/
theorem not_begins_of_stays {n : Numbering} {events : List Event} (h : n.Tracks events)
    {c : QualifiedName} {more : List Action}
    (hc : ∀ first, first <+: more → c ∈ (n.run first).frames.map Frame.name) :
    ∀ e ∈ n.events more, e.begins c = false := by
  induction more generalizing n events with
  | nil => exact fun e he => absurd he List.not_mem_nil
  | cons action more ih =>
    have hbefore := hc [] List.nil_prefix
    have hafter := hc [action] (List.prefix_append [action] more)
    refine List.forall_mem_cons.mpr ⟨not_begins_of_mem h.stacked hbefore hafter, ?_⟩
    exact ih (h.perform action) fun first hfirst =>
      hc (action :: first) (List.cons_prefix_cons.mpr ⟨rfl, hfirst⟩)

/-- **The numbering law.** After any run of actions, refused ones among them, the innermost class `c`
gives out numbers by what was asked for in its epoch: lambdas from zero, anonymous classes and local
types of each name from one. What is done elsewhere adds nothing, for while `c` stays on the stack
only what is asked for with `c` as the innermost class is added to that. -/
theorem run_answers (packages : List String) (actions : List Action) {c : QualifiedName}
    (hc : (run { packages } actions).currentType? = some c) :
    (∃ site, (run { packages } actions).currentSite? = some site ∧
      ((run { packages } actions).perform .lambda).1 = .ok (some (c.withOperation
        (.lambda site.host (Event.asked c .lambda (events { packages } actions)))))) ∧
    ((run { packages } actions).perform (.enterType .anonymous)).1 = .ok (some (c.nested
      (.anonymous (1 + Event.asked c .anonymous (events { packages } actions))))) ∧
    (∀ name kind, ((run { packages } actions).perform (.enterType (.localType name kind))).1 =
      .ok (some (c.nested
        (.localType (1 + Event.asked c (.localType name) (events { packages } actions)) name)))) ∧
    ∀ more, (∀ first, first <+: more →
        c ∈ (run { packages } (actions ++ first)).frames.map Frame.name) →
      ∀ what, Event.asked c what (events { packages } (actions ++ more)) =
        Event.asked c what (events { packages } actions) +
          (events (run { packages } actions) more).countP (Event.asks c what) := by
  have htracks := (Tracks.empty packages).run actions
  rw [List.nil_append] at htracks
  simp only [run_append, events_append]
  generalize run { packages } actions = n, events { packages } actions = past at hc htracks ⊢
  cases hf : n.frames with
  | nil =>
    rw [currentType?, hf] at hc
    exact absurd hc nofun
  | cons frame outer =>
    rw [currentType?, hf] at hc
    obtain rfl : frame.name = c := Option.some.inj hc
    obtain ⟨k, hk, hagrees⟩ := htracks.counted frame (by rw [hf]; exact List.mem_cons_self)
    refine ⟨⟨frame.site, by rw [currentSite?, hf]; rfl, ?_⟩, ?_, fun name kind => ?_, fun more hmore what => ?_⟩
    · rw [answer_lambda hf hk, hagrees .lambda, Numbered.first, Nat.zero_add]
    · rw [answer_anonymous hf hk, hagrees .anonymous, Numbered.first]
    · rw [answer_localType hf hk, hagrees (.localType name), Numbered.first]
    · exact Event.asked_append (not_begins_of_stays htracks hmore) past what

/-- A refused action, and then requests in a class, in the ones nested in it and in the class again. -/
def nestedRun : List Action :=
  [.lambda, .enterType (.named "A" .classType), .lambda, .enterType (.named "B" .classType), .lambda,
    .enterType .anonymous, .exitType, .exitType, .enterMember (.method "m"),
    .enterType (.localType "L" .classType), .exitType, .lambda]

theorem run_answers_nestedRun :
    (run ⟨["p"], {}, []⟩ nestedRun).currentType? = some (.topLevel ["p"] "A") ∧
    ((run ⟨["p"], {}, []⟩ nestedRun).perform .lambda).1 =
      .ok (some (.withOperation (.topLevel ["p"] "A") (.lambda (.member "m") 2))) ∧
    ((run ⟨["p"], {}, []⟩ nestedRun).perform (.enterType .anonymous)).1 =
      .ok (some (.nested (.topLevel ["p"] "A") (.anonymous 1))) ∧
    ((run ⟨["p"], {}, []⟩ nestedRun).perform (.enterType (.localType "L" .enumType))).1 =
      .ok (some (.nested (.topLevel ["p"] "A") (.localType 2 "L"))) ∧
    Event.asked (.topLevel ["p"] "A") .lambda (events ⟨["p"], {}, []⟩
      (nestedRun ++ [.enterType .anonymous, .lambda, .exitType])) = 2 := by
  have hc : (run ⟨["p"], {}, []⟩ nestedRun).currentType? = some (.topLevel ["p"] "A") := by decide
  have hstays : ∀ first ∈ List.inits [Action.enterType .anonymous, .lambda, .exitType],
      QualifiedName.topLevel ["p"] "A" ∈
        (run ⟨["p"], {}, []⟩ (nestedRun ++ first)).frames.map Frame.name := by decide
  obtain ⟨⟨site, hsite, hlambda⟩, hanonymous, hlocal, hmore⟩ := run_answers ["p"] nestedRun hc
  obtain rfl : Site.method "m" = site := Option.some.inj (Eq.trans (by decide) hsite)
  exact ⟨hc, hlambda, hanonymous, hlocal "L" .enumType,
    hmore _ (fun first hfirst => hstays first ((List.mem_inits first _).mpr hfirst)) .lambda⟩

end Numbering

end Nomenclator
