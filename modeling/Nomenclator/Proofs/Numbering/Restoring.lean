/-
A walk through any part of a tree leaves the stack of classes as it was.

No operation does that by itself: leaving a member goes back to the site
between members, whichever the site was before, and leaving a class takes
off whatever class is innermost. That the right site and the right class
come back is due to how the walks contain each other, and `Walks` has it,
for a class whose counters agree with a list of holdings. After any run of
actions there is such a list: what was asked for in the epoch of the class.
-/
import Nomenclator.NameTable.Analysis
import Nomenclator.Proofs.Numbering.Epoch

namespace Nomenclator

/-! ## Requests as holdings -/

namespace Numbered

/-- A holding that takes such a number. Nothing but that matters of it. -/
def holding : Numbered → Holding
  | lambda => .lambda .new 0 ⟨0, 0⟩
  | anonymous => .ofClass .anonymous 0 .anonymousClass ⟨0, 0⟩ []
  | localType name => .ofClass (.localType name .classType) 0 (.type .classType) ⟨0, 0⟩ []

def counts : Numbered → Holding → Bool
  | lambda => Holding.isLambda
  | anonymous => Holding.isAnonymous
  | localType name => Holding.isLocalNamed name

theorem counts_holding (what other : Numbered) : what.counts other.holding = (other == what) := by
  cases what <;> cases other <;> simp [counts, holding, Holding.isLambda, Holding.isAnonymous, Holding.isLocalNamed]

end Numbered

/-- What was asked for in the epoch of `c` that goes on at the end, in order. -/
def Event.requests (c : QualifiedName) (events : List Event) : List Numbered :=
  (epoch c events).filterMap fun e => if e.current = some c then e.action.numbered? else none

theorem Event.asked_eq_count (c : QualifiedName) (what : Numbered) (events : List Event) :
    asked c what events = (requests c events).count what := by
  simp only [asked, requests, List.count, List.countP_filterMap]
  congr 1
  funext e
  by_cases hc : e.current = some c
  · cases hn : e.action.numbered? with
    | none => simp [asks, hc, hn]
    | some other => by_cases he : other = what <;> simp [asks, hc, hn, he]
  · simp [asks, hc]

/-- Counters that agree with the events agree with holdings that take the same numbers. -/
theorem Counters.Agrees.count {k : Counters} {c : QualifiedName} {events : List Event}
    (h : k.Agrees c events) : k.Count ((Event.requests c events).map Numbered.holding) := by
  have hcount (what : Numbered) :
      ((Event.requests c events).map Numbered.holding).countP what.counts + what.first = k.next what := by
    rw [h what, Event.asked_eq_count, List.countP_map, List.count, Nat.add_comm]
    congr 2
    funext other
    exact what.counts_holding other
  exact ⟨(hcount .anonymous).symm, (hcount .lambda).symm, fun name => (hcount (.localType name)).symm⟩

/-- Every frame could have been put on the stack by an entry. -/
theorem Frame.exists_entry (frame : Frame) :
    ∃ entry : ClassEntry, entry.form = frame.form ∧ entry.Names frame.name := by
  obtain ⟨name, form, site⟩ := frame
  cases form with
  | named kind => exact ⟨.named "" kind, rfl, trivial⟩
  | localType kind => exact ⟨.localType name.declaredSimpleName kind, rfl, rfl⟩
  | anonymous => exact ⟨.anonymous, rfl, trivial⟩

namespace Numbering

variable {n : Numbering} {events : List Event} {walk : Namer (List Row)}

theorem Tracks.exists_at (h : n.Tracks events) {frame : Frame} {outer : List Frame}
    (hf : n.frames = frame :: outer) : ∃ before, n.At frame.name frame.form frame.site outer before := by
  obtain ⟨k, hk, hagrees⟩ := h.counted frame (by simp [hf])
  exact ⟨_, hf, k, hk, hagrees.count⟩

/-! ## Walks that restore the stack -/

/-- The walk is not refused from here. It ends with the stack that it began with, names, forms and
sites alike, and leaves the counters of the given classes alone. -/
def Restores (n : Numbering) (walk : Namer (List Row)) (kept : List Frame) : Prop :=
  ∃ rows n', walk n = .ok rows n' ∧ n'.frames = n.frames ∧
    ∀ frame ∈ kept, n'.counters.find? frame.name = n.counters.find? frame.name

/-- What is walked through within the innermost class moves no counters but those of that class. -/
theorem Tracks.restores_of_walks (h : n.Tracks events) {frame : Frame} {outer : List Frame}
    (hf : n.frames = frame :: outer) {held : List Holding}
    (hwalk : Walks walk frame.name frame.form frame.site held) : n.Restores walk outer := by
  obtain ⟨before, hat⟩ := h.exists_at hf
  obtain ⟨n', hok, hat', helse⟩ := hwalk n outer before hat
  refine ⟨_, n', hok, by rw [hat'.frames, hf], fun other hother => ?_⟩
  have hs := h.stacked
  rw [hf] at hs
  have hlt := hs.2.length_lt other hother
  have hlen := hs.1.length hs.2
  exact helse.counters other.name (by omega) (hs.1.ne hs.2 other hother)

theorem exists_className (n : Numbering) (name : String) (kind : TypeKind) :
    ∃ c, Namer.className (.named name kind) n = .ok c n ∧ Declares n.packages n.frames c := by
  rw [Namer.className, Namer.get_bind]
  cases hf : n.frames with
  | nil => exact ⟨.topLevel n.packages name, rfl, name, rfl⟩
  | cons frame outer => exact ⟨frame.name.nested (.named name), rfl, .named name, rfl⟩

/-- A type that is not local takes no number of the class that it stands in. -/
theorem Tracks.restores_type (h : n.Tracks events) (decl : TypeDecl) :
    n.Restores (decl.rows false) n.frames := by
  obtain ⟨c, hname, hd⟩ := n.exists_className decl.name decl.kind
  obtain ⟨n', hok, hframes, helse⟩ := decl.rows_of_className hname
  refine ⟨_, n', hok, hframes, fun frame hframe => ?_⟩
  have hlt := h.stacked.length_lt frame hframe
  have hlen := hd.length h.stacked
  exact helse.counters frame.name (by omega) (hd.ne h.stacked frame hframe)

/-- **Walks restore the stack.** Take any state that a run of actions reaches. A type declaration
that is not local can be walked through there, and a local one, code, or, between its members, a list
of members, if a class is entered. None of these walks is refused, neither for misuse nor because it
has left more or fewer classes than it has entered. Each ends with the stack that it began with, and
moves no counters of classes on it but of the innermost one, and of that one only where something
is numbered. So the names of every text can be told. -/
theorem run_restores (packages : List String) (actions : List Action) :
    (∀ decl : TypeDecl,
      (run { packages } actions).Restores (decl.rows false) (run { packages } actions).frames) ∧
    ((run { packages } actions).frames ≠ [] →
      (∀ decl : TypeDecl,
        (run { packages } actions).Restores (decl.rows true) (run { packages } actions).frames.tail) ∧
      (∀ code : List CodeItem,
        (run { packages } actions).Restores (CodeItem.rowsOf code) (run { packages } actions).frames.tail) ∧
      ((run { packages } actions).currentSite? = some .typeBody → ∀ members : List Member,
        (run { packages } actions).Restores (Member.rowsOf members)
          (run { packages } actions).frames.tail)) ∧
    ∀ text : String, ∃ analysis, Analysis.ofText text = .ok analysis := by
  have htracks := (Tracks.empty packages).run actions
  generalize run { packages } actions = n at htracks ⊢
  refine ⟨htracks.restores_type, fun hne => ?_, fun text => ?_⟩
  · obtain ⟨frame, outer, hf⟩ := List.exists_cons_of_ne_nil hne
    rw [hf, List.tail_cons]
    refine ⟨fun decl => htracks.restores_of_walks hf (TypeDecl.walks true decl),
      fun code => htracks.restores_of_walks hf (CodeItem.walksOf code), fun hsite members => ?_⟩
    obtain ⟨entry, hform, hnames⟩ := frame.exists_entry
    have hbetween : frame.site = .typeBody := by simpa [currentSite?, hf] using hsite
    have hwalk := Member.walksOf members hnames
    rw [hform, ← hbetween] at hwalk
    exact htracks.restores_of_walks hf hwalk
  · exact ⟨_, Analysis.ofText_numbered text⟩

/-- In a method of a class, an anonymous class is entered for the second time. -/
def secondAnonymous : List Action :=
  [.enterType (.named "A" .classType), .enterMember (.method "m"), .enterType .anonymous, .exitType, .lambda,
    .enterType .anonymous]

theorem run_restores_secondAnonymous :
    (run ⟨["p"], {}, []⟩ secondAnonymous).frames ≠ [] ∧
    (run ⟨["p"], {}, []⟩ secondAnonymous).currentSite? = some .typeBody ∧
    (run ⟨["p"], {}, []⟩ secondAnonymous).Restores
      (Member.rowsOf [.field false [.lambda 0 [] ⟨0, 0⟩, .allocation 1 "B" [] (some []) ⟨0, 0⟩] ⟨0, 0⟩])
      [⟨.topLevel ["p"] "A", .named .classType, .method "m"⟩] := by
  have hne : (run ⟨["p"], {}, []⟩ secondAnonymous).frames ≠ [] := by decide
  have hsite : (run ⟨["p"], {}, []⟩ secondAnonymous).currentSite? = some .typeBody := by decide
  exact ⟨hne, hsite, ((run_restores ["p"] secondAnonymous).2.1 hne).2.2 hsite _⟩

end Numbering

end Nomenclator
