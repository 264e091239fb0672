/-
What the grammar answers, whatever it reads, as long as no identifier turns
out to be missing.

A statement is about one state, and may rest on what the steps before have
answered. Whether an identifier is missing shows only at the end, so what a
step has answered is known from there on, but the way forward is known in
any case.
-/
import Mathlib.Algebra.GroupWithZero.Nat
import Nomenclator.Proofs.Grammar.Moves
import Nomenclator.Proofs.Name.TypeText

namespace Nomenclator.Grammar

variable {α β : Type}

/-! ## The triple -/

/-- All identifiers that are left are identifiers of the source language. -/
def State.Words (s : State) : Prop :=
  ∀ l ∈ s.rest, ∀ name, l.token = .identifier name → IsName name

/-- No identifier was missing so far. -/
def State.Complete (s : State) : Prop :=
  ∀ d ∈ s.reported, ∀ after, d.problem ≠ .expectedIdentifier after

namespace State.Leads

variable {s s' : State}

theorem words (h : s.Leads s') (hw : s.Words) : s'.Words := fun l hl => hw l (h.rest.subset hl)

theorem complete (h : s.Leads s') (hc : s'.Complete) : s.Complete :=
  fun d hd => hc d (h.reported.subset hd)

end State.Leads

/-- From `s` the parser goes forward, and given `c` its answer is as required. -/
structure Ensures (c : Prop) (s : State) (p : Parser α) (answer : α → State → Prop) : Prop where
  leads : s.Leads (p s).2
  answer : c → s.Words → (p s).2.Complete → answer (p s).1 (p s).2

namespace Ensures

variable {c d : Prop} {s : State} {p : Parser α} {f : α → Parser β} {P P' : α → State → Prop}
  {Q : β → State → Prop}

theorem pure {a : α} (h : c → s.Words → P a s) : Ensures c s (Pure.pure a) P :=
  ⟨.refl s, fun hc hw _ => h hc hw⟩

theorem bind (hp : Ensures c s p P)
    (hf : ∀ a s', s.Leads s' → Ensures (c ∧ P a s') s' (f a) Q) : Ensures c s (p >>= f) Q := by
  have h := hf (p s).1 (p s).2 hp.leads
  refine ⟨hp.leads.trans h.leads, fun hc hw hcomplete => ?_⟩
  exact h.answer ⟨hc, hp.answer hc hw (h.leads.complete hcomplete)⟩ (hp.leads.words hw) hcomplete

theorem get {f : State → Parser β} (h : Ensures c s (f s) Q) : Ensures c s (MonadState.get >>= f) Q :=
  ⟨h.leads, h.answer⟩

/-- What is left at the beginning is known to the end. -/
theorem words (h : Ensures (c ∧ s.Words) s p P) : Ensures c s p P :=
  ⟨h.leads, fun hc hw => h.answer ⟨hc, hw⟩ hw⟩

/-- The answer is required only where the tokens are those of a text. -/
theorem mono (hp : Ensures d s p P) (hd : c → d)
    (h : ∀ a s', s.Leads s' → c → s.Words → P a s' → P' a s') : Ensures c s p P' :=
  ⟨hp.leads, fun hc hw hcomplete => h _ _ hp.leads hc hw (hp.answer (hd hc) hw hcomplete)⟩

/-- What the answer may rest on may as well be given beforehand. -/
theorem given (h : Ensures (c ∧ d) s p P) : Ensures c s p fun a s' => d → P a s' :=
  ⟨h.leads, fun hc hw hcomplete hd => h.answer ⟨hc, hd⟩ hw hcomplete⟩

theorem of_moves (h : Moves p) : Ensures c s p fun _ _ => True := ⟨h s, fun _ _ _ => trivial⟩

/-- A step of which only the way forward matters. -/
theorem step (hp : Moves p) (hf : ∀ a s', s.Leads s' → Ensures c s' (f a) Q) :
    Ensures c s (p >>= f) Q :=
  bind (of_moves hp) fun a s' hl => (hf a s' hl).mono And.left fun _ _ _ _ _ h => h

theorem moves {P : State → α → State → Prop} (h : ∀ s, Ensures c s p (P s)) : Moves p :=
  fun s => (h s).leads

end Ensures

/-! ## Lists of what was found

Each thing that was found weighs some tokens, at most those that were read for it. -/

/-- What was found between two states, how much it weighs and that it is good. -/
structure Gain (weight : α → Nat) (good : α → Prop) (s : State) (found : List α) (s' : State) : Prop where
  weight : (found.map weight).sum + s'.rest.length ≤ s.rest.length
  good : ∀ x ∈ found, good x

namespace Gain

variable {weight : α → Nat} {good : α → Prop} {s s' s'' : State} {found more : List α}

theorem nil (h : s.Leads s') : Gain weight good s [] s' :=
  ⟨by simpa using h.length_le, nofun⟩

theorem single {x : α} (hw : weight x + s'.rest.length ≤ s.rest.length) (hx : good x) :
    Gain weight good s [x] s' :=
  ⟨by simpa using hw, fun y hy => List.mem_singleton.mp hy ▸ hx⟩

theorem append (h : Gain weight good s found s') (h' : Gain weight good s' more s'') :
    Gain weight good s (found ++ more) s'' := by
  refine ⟨?_, fun x hx => ?_⟩
  · have h₁ := h.weight
    have h₂ := h'.weight
    rw [List.map_append, List.sum_append]
    omega
  · rcases List.mem_append.mp hx with hx | hx
    · exact h.good x hx
    · exact h'.good x hx

/-- Nothing was found on the way to the first state. -/
theorem after (h : Gain weight good s' found s'') (hl : s.Leads s') : Gain weight good s found s'' :=
  (nil hl).append h

/-- Nothing was found on the way from the second state. -/
theorem before (h : Gain weight good s found s') (hl : s'.Leads s'') : Gain weight good s found s'' := by
  have hall := h.append (nil hl)
  rwa [List.append_nil] at hall

end Gain

theorem Ensures.collect {c : Prop} {weight : α → Nat} {good : α → Prop} {round : Parser (List α × Bool)}
    (h : ∀ s, Ensures c s round fun r s' => Gain weight good s r.1 s') (s : State) :
    Ensures c s (collect round) (Gain weight good s) := by
  refine ⟨Moves.collect (Ensures.moves h) s, ?_⟩
  fun_induction Grammar.collect round s with
  | case1 s found s' he =>
    have hanswer := (h s).answer
    rw [he] at hanswer
    exact hanswer
  | case2 s found s' he hlt more s'' hmore ih =>
    have hanswer := (h s).answer
    have hleads := (h s).leads
    have hrest := Moves.collect (Ensures.moves h) s'
    rw [he] at hanswer hleads
    rw [hmore] at ih hrest
    intro hc hw hcomplete
    have hfound := hanswer hc hw (hrest.complete hcomplete)
    exact hfound.append (ih hc (hleads.words hw) hcomplete)
  | case3 s found s' he hge =>
    have hanswer := (h s).answer
    rw [he] at hanswer
    exact hanswer

/-! ## Tokens -/

section Tokens

variable {c : Prop} {s : State}

theorem ensures_advance : Ensures c s advance fun _ s' => s'.rest = s.rest.tail :=
  ⟨moves_advance s, fun _ _ _ => s.advance_eq.1⟩

theorem ensures_here : Ensures c s here fun _ s' => s' = s := ⟨moves_here s, fun _ _ _ => rfl⟩

theorem ensures_fresh : Ensures c s fresh fun _ s' => s'.rest = s.rest := ⟨moves_fresh s, fun _ _ _ => rfl⟩

theorem ensures_identifier (after : Anchor) : Ensures c s (identifier after) fun r _ => IsName r.1 := by
  refine .step moves_here fun span s' hl => .get ?_
  split
  next name place tail hr =>
    refine .words (.step moves_advance fun _ s'' _ => .pure fun h _ => ?_)
    exact h.2 ⟨.identifier name, place⟩ (hr ▸ List.mem_cons_self) name rfl
  next =>
    refine ⟨((moves_report _ _).bind fun _ => Moves.pure _) s', fun _ _ hcomplete => ?_⟩
    exact absurd rfl (hcomplete _ List.mem_cons_self after)

end Tokens

/-! ## Names -/

section Names

variable {c : Prop} {s : State}

theorem ensures_dottedName (after : Anchor) :
    Ensures c s (dottedName after) fun names _ => ∀ name ∈ names, IsName name := by
  have hround (s' : State) : Ensures c s' dottedRound fun r s'' =>
      Gain (fun _ => 0) IsName s' r.1 s'' := by
    refine .step (moves_accept _) fun b s₁ h₁ => ?_
    split
    · refine .bind (ensures_identifier _) fun r s₂ h₂ => .pure fun h _ => ?_
      exact .single (by simpa using (h₁.trans h₂).length_le) h.2
    · exact .pure fun _ _ => .nil h₁
  refine .bind (ensures_identifier after) fun r s₁ h₁ => ?_
  refine .bind (Ensures.collect (c := c ∧ IsName r.1) (fun s' => (hround s').mono And.left
    fun _ _ _ _ _ h => h) s₁) fun names s₂ h₂ => .pure fun h _ => ?_
  intro name hname
  rcases List.mem_cons.mp hname with rfl | hname
  · exact h.1.2
  · exact h.2.good name hname

end Names

/-! ## Types and parameters -/

section Types

variable {c : Prop} {s : State}

theorem ensures_typeNameRound : Ensures c s typeNameRound fun r s' =>
    Gain (fun _ => 0) IsName s r.1 s' := by
  refine .step moves_skipAnyAngles fun _ s₁ h₁ => .get ?_
  split
  next name span tail hr =>
    refine .words (.step moves_advance fun _ s₂ h₂ => .step moves_advance fun _ s₃ h₃ => ?_)
    refine .pure fun h _ => ?_
    have hname : IsName name := h.2 ⟨.identifier name, span⟩ (by rw [hr]; simp) name rfl
    exact .single (by simpa using (h₁.trans (h₂.trans h₃)).length_le) hname
  next => exact .pure fun _ _ => .nil h₁

/-- A type takes at least one token. -/
theorem ensures_type : Ensures c s type? fun r s' =>
    ∀ text ∈ r, IsTypeText text ∧ s'.rest.length < s.rest.length := by
  refine .step (.skipWhile moves_annotationRound) fun _ s₁ h₁ => .get ?_
  split
  next first span tail hr =>
    refine .words (.bind ensures_advance fun _ s₂ h₂ => ?_)
    refine .bind (Ensures.collect (fun _ => ensures_typeNameRound) s₂) fun names s₃ h₃ => ?_
    refine .step moves_dimensions fun count s₄ h₄ => .pure fun h _ text htext => ?_
    obtain ⟨⟨⟨-, hwords⟩, hadvance⟩, hnames⟩ := h
    have hfirst : IsName first := hwords ⟨.identifier first, span⟩ (by rw [hr]; simp) first rfl
    have hlength : s₂.rest.length + 1 = s₁.rest.length := by rw [hadvance, hr]; rfl
    have hle₁ := h₁.length_le
    have hle₂ := (h₃.trans h₄).length_le
    obtain rfl := Option.mem_some_iff.mp htext
    refine ⟨.typeText (by simp) (fun name hname => ?_) count, by omega⟩
    rcases List.mem_cons.mp hname with rfl | hname
    · exact hfirst
    · exact hnames.good name hname
  next => exact .step moves_here fun _ _ _ => .step (moves_report _ _) fun _ _ _ => .pure fun _ _ => nofun

theorem ensures_parameter : Ensures c s parameter? fun r _ => ∀ p ∈ r, IsTypeText p.type := by
  refine .step moves_modifiers fun _ s₁ h₁ => .bind ensures_type fun r s₂ h₂ => ?_
  cases r with
  | none => exact .pure fun _ _ => nofun
  | some text =>
    refine .step (moves_accept _) fun variadic s₃ h₃ => ?_
    refine .step (moves_identifier _) fun name s₄ h₄ => ?_
    refine .step moves_dimensions fun count s₅ h₅ => .pure fun h _ p hp => ?_
    obtain rfl := Option.mem_some_iff.mp hp
    have htext := (h.2 text rfl).1
    have hdots : (if variadic then "..." else "").toList.all isTypeChar = true := by
      cases variadic <;> rfl
    exact (htext.append (List.all_eq_true.mp hdots)).append (isTypeChar_of_mem_dimensionText count)

theorem ensures_parameters : Ensures c s parameters fun ps _ => ∀ p ∈ ps, IsTypeText p.type := by
  have hround (opener : Span) (s' : State) : Ensures c s' (parameterRound opener) fun r s'' =>
      Gain (fun _ => 0) (fun p => IsTypeText p.type) s' r.1 s'' := by
    refine .bind ensures_parameter fun found s₁ h₁ => ?_
    have hfound {s₂ : State} (h₂ : s₁.Leads s₂) (h : ∀ p ∈ found, IsTypeText p.type) :
        Gain (fun _ => 0) (fun p : Parameter => IsTypeText p.type) s' found.toList s₂ :=
      ⟨by simpa using (h₁.trans h₂).length_le, fun p hp => h p (Option.mem_toList.mp hp)⟩
    refine .step (moves_accept _) fun b s₂ h₂ => ?_
    split
    · exact .pure fun h _ => hfound h₂ h.2
    refine .step (moves_accept _) fun b s₃ h₃ => ?_
    split
    · exact .pure fun h _ => hfound (h₂.trans h₃) h.2
    refine .step (moves_report _ _) fun _ s₄ h₄ => .step moves_skipParameters fun _ s₅ h₅ => ?_
    exact .pure fun h _ => hfound (h₂.trans (h₃.trans (h₄.trans h₅))) h.2
  refine .step (moves_take _) fun opener s₁ h₁ => ?_
  cases opener with
  | none => exact .pure fun _ _ => nofun
  | some opener =>
    refine .step (moves_accept _) fun b s₂ h₂ => ?_
    split
    · exact .pure fun _ _ => nofun
    · exact (Ensures.collect (hround opener) s₂).mono id fun ps _ _ _ _ h => h.good

end Types

/-! ## The way forward alone -/

theorem moves_type : Moves type? := Ensures.moves fun _ => ensures_type (c := True)

theorem moves_parameters : Moves parameters := Ensures.moves fun _ => ensures_parameters (c := True)

theorem moves_declaredName (written : String) (span : Span) : Moves (declaredName written span) :=
  .ite ((moves_report _ _).bind fun _ => .pure _) (.pure _)

theorem moves_components (kind : TypeKind) : Moves (components kind) :=
  .ite (moves_skipAnyAngles.bind fun _ => moves_parameters.map) (.pure _)

end Nomenclator.Grammar
