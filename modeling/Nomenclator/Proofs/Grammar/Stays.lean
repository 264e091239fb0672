/-
Parsers that stay inside the braces they are in.

A parser that looks at a token before it reads it can tell a brace from the
others, and nearly all do. The two that do not are no concern here: they
only come in with operations and members.
-/
import Nomenclator.Proofs.Grammar.Brackets
import Nomenclator.Proofs.Grammar.Ensures

namespace Nomenclator.Grammar

variable {α β : Type} {n : Nat} {s : State}

/-! ## The triple -/

/-- The parser goes forward from `s`. If at most `n` tokens are left there, inside braces that `tail` comes
behind, it comes out as required. -/
structure Carries (n : Nat) (s : State) (p : Parser α) (post : List Lexeme → α → State → Prop) : Prop where
  leads : s.Leads (p s).2
  post : s.rest.length ≤ n → ∀ tail, Within tail s.rest → post tail (p s).1 (p s).2

/-- The parser stays inside the braces. -/
abbrev Stays (n : Nat) (s : State) (p : Parser α) : Prop :=
  Carries n s p fun tail _ s' => Within tail s'.rest

/-- It also reads a token. -/
abbrev Advances (n : Nat) (s : State) (p : Parser α) : Prop :=
  Carries n s p fun tail _ s' => Within tail s'.rest ∧ s'.rest.length < s.rest.length

/-- It also reads a token, unless one of these comes next. -/
abbrev AdvancesUnless (stops : List Token) (n : Nat) (s : State) (p : Parser α) : Prop :=
  Carries n s p fun tail _ s' => Within tail s'.rest ∧
    ((∀ l ∈ s.rest.head?, l.token ∉ stops) → s'.rest.length < s.rest.length)

/-- It reads up to the closing brace and this one, too. -/
abbrev Exits (n : Nat) (s : State) (p : Parser α) : Prop :=
  Carries n s p fun tail _ s' => s'.rest = tail

/-- One round of a loop: it asks for more inside the braces once it has read a token, or it ends as the
loop is to end. -/
abbrev Rounds (n : Nat) (s : State) (round : Parser (List α × Bool))
    (ends : List Lexeme → List Lexeme → Prop) : Prop :=
  Carries n s round fun tail r s' =>
    (r.2 = true → Within tail s'.rest ∧ s'.rest.length < s.rest.length) ∧ (r.2 = false → ends tail s'.rest)

namespace Carries

variable {p : Parser α} {f : α → Parser β} {P : List Lexeme → α → State → Prop}
  {Q : List Lexeme → β → State → Prop} {l : Lexeme} {rest : List Lexeme}

theorem pure {a : α} : Stays n s (Pure.pure a) := ⟨.refl s, fun _ _ h => h⟩

theorem mono (h : Carries n s p P) {P' : List Lexeme → α → State → Prop}
    (hP : ∀ tail a s', s.Leads s' → P tail a s' → P' tail a s') : Carries n s p P' :=
  ⟨h.leads, fun hn tail hw => hP _ _ _ h.leads (h.post hn tail hw)⟩

theorem level (h : Carries n s p P) {m : Nat} (hm : m ≤ n) : Carries m s p P :=
  ⟨h.leads, fun hn => h.post (Nat.le_trans hn hm)⟩

theorem bind (hp : Stays n s p)
    (hf : ∀ a s', s.Leads s' → Carries n s' (f a) Q) : Carries n s (p >>= f) Q := by
  have h := hf (p s).1 (p s).2 hp.leads
  exact ⟨hp.leads.trans h.leads, fun hn tail hw =>
    h.post (Nat.le_trans hp.leads.length_le hn) tail (hp.post hn tail hw)⟩

theorem get {f : State → Parser β} (h : Carries n s (f s) Q) :
    Carries n s (MonadState.get >>= f) Q := ⟨h.leads, h.post⟩

theorem here {f : Span → Parser β} (h : Carries n s (f s.here) Q) :
    Carries n s (Grammar.here >>= f) Q := ⟨h.leads, h.post⟩

theorem fresh {f : Nat → Parser β}
    (h : ∀ s', s'.rest = s.rest → Carries n s' (f s.nextId) Q) :
    Carries n s (Grammar.fresh >>= f) Q := by
  have hnext := h { s with nextId := s.nextId + 1 } rfl
  exact ⟨(moves_fresh s).trans hnext.leads, hnext.post⟩

/-- Inside braces there is a token left. -/
theorem of_nil (hp : s.Leads (p s).2) (hs : s.rest = []) : Carries n s p P :=
  ⟨hp, fun _ _ hw => absurd hs hw.ne_nil⟩

/-- A parser that reads nothing. -/
theorem of_rest_eq (hp : Moves p) (hs : (p s).2.rest = s.rest) : Stays n s p :=
  ⟨hp s, fun _ _ hw => hs ▸ hw⟩

theorem advancesUnless (h : Advances n s p) (stops : List Token) : AdvancesUnless stops n s p :=
  h.mono fun _ _ _ _ h => ⟨h.1, fun _ => h.2⟩

/-- What is found has been read. Where nothing is found, either something has been read all the same, or
nothing has changed what comes next. -/
theorem unlessFound {found : α → Prop} {stops : List Token}
    (hp : Carries n s p fun tail a s' => Within tail s'.rest ∧ (found a → s'.rest.length < s.rest.length))
    (hfound : ∀ a s', found a → Stays n s' (f a))
    (hnot : ∀ a s', ¬ found a → AdvancesUnless stops n s' (f a)) : AdvancesUnless stops n s (p >>= f) := by
  by_cases ha : found (p s).1
  · have h := hfound (p s).1 (p s).2 ha
    refine ⟨hp.leads.trans h.leads, fun hn tail hw => ?_⟩
    obtain ⟨hw', hlt⟩ := hp.post hn tail hw
    refine ⟨h.post (Nat.le_trans hp.leads.length_le hn) tail hw', fun _ => ?_⟩
    exact Nat.lt_of_le_of_lt h.leads.length_le (hlt ha)
  · have h := hnot (p s).1 (p s).2 ha
    refine ⟨hp.leads.trans h.leads, fun hn tail hw => ?_⟩
    obtain ⟨hw', hlt⟩ := h.post (Nat.le_trans hp.leads.length_le hn) tail (hp.post hn tail hw).1
    refine ⟨hw', fun hnext => ?_⟩
    rcases Nat.lt_or_eq_of_le hp.leads.length_le with hshorter | hsame
    · exact Nat.lt_of_le_of_lt h.leads.length_le hshorter
    · rw [hp.leads.rest.eq_of_length hsame] at hlt
      exact hlt hnext

/-- First something may be read, and if nothing is, a token is read then. -/
theorem later {stops : List Token} (hp : Stays n s p) (hf : ∀ a s', AdvancesUnless stops n s' (f a)) :
    AdvancesUnless stops n s (p >>= f) := by
  have hnothing : Carries n s p fun tail _ s' =>
      Within tail s'.rest ∧ (False → s'.rest.length < s.rest.length) := hp.mono fun _ _ _ _ hw => ⟨hw, nofun⟩
  exact unlessFound hnothing (fun _ _ => False.elim) fun a s' _ => hf a s'

/-- Once a token is read, one less is left. -/
theorem lower {m : Nat} (hm : n ≤ m + 1) (hp : Advances n s p)
    (hf : ∀ a s', Stays m s' (f a)) : Advances n s (p >>= f) := by
  have h := hf (p s).1 (p s).2
  refine ⟨hp.leads.trans h.leads, fun hn tail hw => ?_⟩
  obtain ⟨hw', hlt⟩ := hp.post hn tail hw
  exact ⟨h.post (by omega) tail hw', Nat.lt_of_le_of_lt h.leads.length_le hlt⟩

/-- First a token is read, then nothing is lost. -/
theorem first (hp : Advances n s p) (hf : ∀ a s', Stays n s' (f a)) :
    Advances n s (p >>= f) := lower (Nat.le_succ n) hp hf

theorem stays (h : Advances n s p) : Stays n s p := h.mono fun _ _ _ _ hw => hw.1

/-- A token that is no brace is read. -/
theorem advance (hs : s.rest = l :: rest) (hl : l.token.isBrace = false) {f : Unit → Parser β}
    (hf : ∀ s', s'.rest = rest → Stays n s' (f ())) :
    Advances (n + 1) s (Grammar.advance >>= f) := by
  obtain ⟨hrest, hlt⟩ := State.advance_cons hs
  have h := hf s.advance hrest
  have hleads := moves_advance s
  refine ⟨hleads.trans h.leads, fun hn tail hw => ?_⟩
  have hw' : Within tail s.advance.rest := by
    rw [hs] at hw
    rw [hrest]
    exact hw.of_not_brace hl
  exact ⟨h.post (by omega) tail hw', Nat.lt_of_le_of_lt h.leads.length_le hlt⟩

/-- As `advance`, where it does not matter that a token is read. -/
theorem step (hs : s.rest = l :: rest) (hl : l.token.isBrace = false) {f : Unit → Parser β}
    (hf : ∀ s', s'.rest = rest → Stays n s' (f ())) :
    Stays n s (Grammar.advance >>= f) :=
  ((advance hs hl hf).level (Nat.le_succ n)).stays

/-- Whatever comes next is read, as long as it is no brace. -/
theorem next (hopener : ∀ span rest, s.rest = ⟨.opener .brace, span⟩ :: rest → False)
    (hcloser : ∀ span rest, s.rest = ⟨.closer .brace, span⟩ :: rest → False) {f : Unit → Parser β}
    (hf : ∀ s', Stays n s' (f ())) : Advances (n + 1) s (Grammar.advance >>= f) := by
  cases hs : s.rest with
  | nil => exact .of_nil ((moves_advance s).trans (hf s.advance).leads) hs
  | cons l rest =>
    refine advance hs ?_ fun s' _ => hf s'
    obtain ⟨t, span⟩ := l
    cases t with
    | opener bracket =>
      cases bracket with
      | brace => exact (hopener span rest hs).elim
      | paren | square => rfl
    | closer bracket =>
      cases bracket with
      | brace => exact (hcloser span rest hs).elim
      | paren | square => rfl
    | _ => rfl

theorem skip (hopener : ∀ span rest, s.rest = ⟨.opener .brace, span⟩ :: rest → False)
    (hcloser : ∀ span rest, s.rest = ⟨.closer .brace, span⟩ :: rest → False) {f : Unit → Parser β}
    (hf : ∀ s', Stays n s' (f ())) : Stays n s (Grammar.advance >>= f) :=
  ((next hopener hcloser hf).level (Nat.le_succ n)).stays

/-! ### Decisions by the next token -/

theorem congr {q : Parser α} (hq : Carries n s q P) (he : p s = q s) : Carries n s p P := by
  obtain ⟨hleads, hpost⟩ := hq
  rw [← he] at hleads hpost
  exact ⟨hleads, hpost⟩

theorem isAt {t : Token} {f : Bool → Parser β}
    (hyes : ∀ span rest, s.rest = ⟨t, span⟩ :: rest → Carries n s (f true) Q)
    (hno : (∀ span rest, s.rest ≠ ⟨t, span⟩ :: rest) → Carries n s (f false) Q) :
    Carries n s (Grammar.isAt t >>= f) Q := by
  have hb : (Grammar.isAt t >>= f) s = f (s.rest.head?.any (·.token = t)) s := rfl
  cases hs : s.rest with
  | nil =>
    rw [hs] at hb
    exact (hno fun _ _ he => absurd (hs.symm.trans he) nofun).congr hb
  | cons l rest =>
    rw [hs, List.head?_cons, Option.any_some] at hb
    obtain ⟨t', span⟩ := l
    by_cases ht : t' = t
    · subst ht
      rw [decide_eq_true rfl] at hb
      exact (hyes span rest hs).congr hb
    · rw [decide_eq_false ht] at hb
      refine (hno fun span' rest' he => ht ?_).congr hb
      exact congrArg Lexeme.token (List.cons.inj (hs.symm.trans he)).1

end Carries

theorem take?_bind_of_cons {f : Option Span → Parser β} {t : Token} {span : Span} {rest : List Lexeme}
    (hs : s.rest = ⟨t, span⟩ :: rest) : (take? t >>= f) s = (advance >>= fun _ => f (some span)) s := by
  obtain ⟨previous, _, nextId, reported⟩ := s
  obtain rfl := hs
  show ((if decide (t = t) = true then _ else _ : Parser (Option Span)) >>= f) _ = _
  rw [if_pos (decide_eq_true rfl)]
  rfl

namespace Carries

variable {p : Parser α} {f : α → Parser β} {P : List Lexeme → α → State → Prop}
  {Q : List Lexeme → β → State → Prop} {l : Lexeme} {rest : List Lexeme}

/-- A token is read if it comes next. -/
theorem take {t : Token} {f : Option Span → Parser β}
    (hyes : ∀ span rest, s.rest = ⟨t, span⟩ :: rest →
      Carries n s (Grammar.advance >>= fun _ => f (some span)) Q)
    (hno : (∀ span rest, s.rest ≠ ⟨t, span⟩ :: rest) → Carries n s (f none) Q) :
    Carries n s (take? t >>= f) Q := by
  by_cases hat : ∃ span rest, s.rest = ⟨t, span⟩ :: rest
  · obtain ⟨span, rest, hs⟩ := hat
    exact (hyes span rest hs).congr (take?_bind_of_cons hs)
  · exact isAt (f := fun b => (if b then _ else _) >>= f)
      (fun span rest hs => absurd ⟨span, rest, hs⟩ hat) hno

theorem accept {t : Token} {f : Bool → Parser β}
    (hyes : ∀ span rest, s.rest = ⟨t, span⟩ :: rest →
      Carries n s (Grammar.advance >>= fun _ => f true) Q)
    (hno : (∀ span rest, s.rest ≠ ⟨t, span⟩ :: rest) → Carries n s (f false) Q) :
    Carries n s (Grammar.accept t >>= f) Q :=
  (take (f := fun r => f r.isSome) hyes hno).congr rfl

/-! ### Loops -/

theorem iterate {round : α → Parser (Turn α)} (h : ∀ a s, Stays n s (round a)) (a : α) (s : State) :
    Stays n s (iterate round a) := by
  have hmoves := Moves.iterate (fun a s => (h a s).leads)
  refine ⟨hmoves a s, ?_⟩
  fun_induction Grammar.iterate round a s with
  | case1 a s b s' he | case3 a s b s' he hge =>
    have hpost := (h a s).post
    rw [he] at hpost
    exact hpost
  | case2 a s b s' he hlt ih =>
    obtain ⟨hleads, hpost⟩ := h a s
    rw [he] at hleads hpost
    intro hn tail hw
    exact ih (Nat.le_trans hleads.length_le hn) tail (hpost hn tail hw)

theorem skipWhile {round : Parser Bool} (h : ∀ s, Stays n s round) (s : State) :
    Stays n s (skipWhile round) :=
  iterate (fun _ s => (h s).bind fun _ _ _ => pure) () s

/-- What is answered does not matter. -/
theorem map {g : α → β} {ends : List Lexeme → List Lexeme → Prop}
    (hp : Carries n s p fun tail _ s' => ends tail s'.rest) :
    Carries n s (do return g (← p)) fun tail _ s' => ends tail s'.rest := ⟨hp.leads, hp.post⟩

theorem again {found : α → List β} {ends : List Lexeme → List Lexeme → Prop}
    (hp : Advances n s p) : Rounds n s (do return (found (← p), true)) ends :=
  ⟨hp.leads, fun hn tail hw => ⟨fun _ => hp.post hn tail hw, nofun⟩⟩

theorem last {found : α → List β} {ends : List Lexeme → List Lexeme → Prop}
    (hp : Carries n s p fun tail _ s' => ends tail s'.rest) :
    Rounds n s (do return (found (← p), false)) ends :=
  ⟨hp.leads, fun hn tail hw => ⟨nofun, fun _ => hp.post hn tail hw⟩⟩

theorem ended {found : List α} {ends : List Lexeme → List Lexeme → Prop}
    (h : ∀ tail, Within tail s.rest → ends tail s.rest) :
    Rounds n s (Pure.pure (found, false)) ends :=
  ⟨.refl s, fun _ tail hw => ⟨nofun, fun _ => h tail hw⟩⟩

/-- A loop ends as its last round does, or as one that has read no token does. -/
theorem collectBy {ends : List Lexeme → List Lexeme → Prop} {round : Parser (List α × Bool)}
    (h : ∀ s, Carries n s round fun tail r s' =>
      (r.2 = true → Within tail s'.rest ∧ (s'.rest.length < s.rest.length ∨ ends tail s'.rest)) ∧
      (r.2 = false → ends tail s'.rest)) (s : State) :
    Carries n s (Grammar.collect round) fun tail _ s' => ends tail s'.rest := by
  have hmoves := Moves.collect (fun s => (h s).leads)
  refine ⟨hmoves s, ?_⟩
  fun_induction Grammar.collect round s with
  | case1 s found s' he =>
    have hpost := (h s).post
    rw [he] at hpost
    intro hn tail hw
    exact (hpost hn tail hw).2 rfl
  | case2 s found s' he hlt more s'' hmore ih =>
    obtain ⟨hleads, hpost⟩ := h s
    rw [he] at hleads hpost
    rw [hmore] at ih
    intro hn tail hw
    obtain ⟨hw', -⟩ := (hpost hn tail hw).1 rfl
    exact ih (Nat.le_trans hleads.length_le hn) tail hw'
  | case3 s found s' he hge =>
    have hpost := (h s).post
    rw [he] at hpost
    intro hn tail hw
    exact ((hpost hn tail hw).1 rfl).2.resolve_left hge

/-- All rounds but the last one read a token. -/
theorem collectTo {ends : List Lexeme → List Lexeme → Prop} {round : Parser (List α × Bool)}
    (h : ∀ s, Rounds n s round ends) (s : State) :
    Carries n s (Grammar.collect round) fun tail _ s' => ends tail s'.rest :=
  collectBy (fun s => (h s).mono fun _ _ _ _ hr => ⟨fun hb => (hr.1 hb).imp_right .inl, hr.2⟩) s

theorem collect {round : Parser (List α × Bool)} (h : ∀ s, Stays n s round) (s : State) :
    Stays n s (collect round) :=
  collectBy (fun s => (h s).mono fun _ _ _ _ hw => ⟨fun _ => ⟨hw, .inr hw⟩, fun _ => hw⟩) s

end Carries

/-! ## Single tokens -/

theorem advances_advance {l : Lexeme} {rest : List Lexeme} (hs : s.rest = l :: rest)
    (hl : l.token.isBrace = false) : Advances n s advance :=
  ((Carries.advance (f := Pure.pure) hs hl fun _ _ => .pure).congr rfl).level (Nat.le_succ n)

theorem stays_here : Stays n s here := .of_rest_eq moves_here rfl

theorem stays_fresh : Stays n s fresh := .of_rest_eq moves_fresh rfl

theorem stays_report (problem : Problem) (span : Span) : Stays n s (report problem span) :=
  .of_rest_eq (moves_report _ _) rfl

theorem stays_take {t : Token} (ht : t.isBrace = false) : Stays n s (take? t) :=
  (Carries.take (f := Pure.pure) (fun _ _ hs => .step hs ht fun _ _ => .pure) fun _ => .pure).congr rfl

theorem stays_accept {t : Token} (ht : t.isBrace = false) : Stays n s (accept t) :=
  (stays_take ht).bind fun _ _ _ => .pure

theorem stays_identifier (after : Anchor) : Stays n s (identifier after) := by
  refine .bind stays_here fun span s₁ _ => .get ?_
  split
  next hs => exact .step hs rfl fun _ _ => .pure
  next => exact .bind (stays_report _ _) fun _ _ _ => .pure

/-! ## Names and annotations -/

theorem stays_dottedRound : Stays n s dottedRound := by
  refine .bind (stays_accept rfl) fun b s₁ _ => ?_
  split
  · exact .bind (stays_identifier _) fun _ _ _ => .pure
  · exact .pure

theorem stays_dottedName (after : Anchor) : Stays n s (dottedName after) := by
  refine .bind (stays_identifier after) fun _ s₁ _ => ?_
  exact .bind (.collect (fun _ => stays_dottedRound) s₁) fun _ _ _ => .pure

theorem stays_skipGroup {span : Span} {rest : List Lexeme} (hs : s.rest = ⟨.opener .paren, span⟩ :: rest) :
    Stays n s skipGroup :=
  ⟨moves_skipGroup s, fun _ _ hw => within_skipGroup hs hw⟩

theorem stays_skipAnnotation : Stays n s skipAnnotation := by
  refine .bind (stays_accept rfl) fun b s₁ _ => ?_
  split
  · refine .bind (stays_dottedName _) fun _ s₂ _ => ?_
    exact .isAt (fun _ _ hs => stays_skipGroup hs) fun _ => .pure
  · exact .pure

/-! ## Type arguments -/

theorem stays_angleRound (opener : Span) (depth : Nat) : Stays n s (angleRound opener depth) := by
  refine .get ?_
  split
  next hs => exact .step hs rfl fun _ _ => .pure
  next hs => exact .step hs rfl fun _ _ => .pure
  next => exact .bind stays_skipAnnotation fun _ _ _ => .pure
  iterate 6 exact .bind (stays_report _ _) fun _ _ _ => .pure
  next hopener hcloser _ _ _ => exact .skip hopener hcloser fun _ => .pure

theorem stays_skipAngles : Stays n s skipAngles := by
  refine .bind (stays_take rfl) fun opener s₁ _ => ?_
  cases opener with
  | none => exact .pure
  | some opener => exact .bind (.iterate (fun _ _ => stays_angleRound _ _) 1 s₁) fun _ _ _ => .pure

theorem stays_skipAnyAngles : Stays n s skipAnyAngles :=
  .isAt (fun _ _ _ => stays_skipAngles) fun _ => .pure

/-! ## Modifiers -/

theorem modifier?_eq_some {lexemes : List Lexeme} {m : Modifier} (h : modifier? lexemes = some m) :
    ∃ l rest, lexemes = l :: rest ∧ l.token.isBrace = false := by
  rw [modifier?.eq_def] at h
  split at h
  · exact ⟨_, _, rfl, rfl⟩
  · exact absurd h nofun
  · exact ⟨_, _, rfl, rfl⟩
  · exact ⟨_, _, rfl, rfl⟩
  · exact absurd h nofun

theorem modifier?_eq_nonSealed {lexemes : List Lexeme} (h : modifier? lexemes = some .nonSealed) :
    ∃ first second span span' span'' rest, lexemes =
      ⟨.identifier first, span⟩ :: ⟨.operator, span'⟩ :: ⟨.identifier second, span''⟩ :: rest := by
  rw [modifier?.eq_def] at h
  split at h
  · split at h <;> exact absurd h nofun
  · exact absurd h nofun
  · exact absurd h nofun
  · split at h
    · exact absurd h nofun
    split at h
    · exact ⟨_, _, _, _, _, _, rfl⟩
    · exact absurd h nofun
  · exact absurd h nofun

theorem stays_modifierRound (isStatic : Bool) : Stays n s (modifierRound isStatic) := by
  refine .get ?_
  split
  next hm =>
    obtain ⟨l, rest, hs, hl⟩ := modifier?_eq_some hm
    exact .step hs hl fun _ _ => .pure
  next hm =>
    obtain ⟨l, rest, hs, hl⟩ := modifier?_eq_some hm
    exact .step hs hl fun _ _ => .pure
  next hm =>
    obtain ⟨_, _, _, _, _, _, hs⟩ := modifier?_eq_nonSealed hm
    exact .step hs rfl fun _ hs => .step hs rfl fun _ hs => .step hs rfl fun _ _ => .pure
  next => exact .bind stays_skipAnnotation fun _ _ _ => .pure
  next => exact .pure

theorem stays_modifiers : Stays n s modifiers := .iterate (fun _ _ => stays_modifierRound _) false s

/-! ## Types and parameters -/

theorem stays_dimensionRound (count : Nat) : Stays n s (dimensionRound count) := by
  refine .get ?_
  split
  next hs => exact .step hs rfl fun _ hs => .step hs rfl fun _ _ => .pure
  next => exact .pure

theorem stays_dimensions : Stays n s dimensions := .iterate (fun _ _ => stays_dimensionRound _) 0 s

theorem stays_typeNameRound : Stays n s typeNameRound := by
  refine .bind stays_skipAnyAngles fun _ s₁ _ => .get ?_
  split
  next hs => exact .step hs rfl fun _ hs => .step hs rfl fun _ _ => .pure
  next => exact .pure

theorem stays_annotationRound : Stays n s annotationRound := by
  refine .bind (.of_rest_eq (moves_isAt _) rfl) fun b s₁ _ => ?_
  split
  · exact .bind stays_skipAnnotation fun _ _ _ => .pure
  · exact .pure

/-- A type that is found has been read. -/
theorem carries_type : Carries n s type? fun tail type s' => Within tail s'.rest ∧
    (type.isSome = true → s'.rest.length < s.rest.length) := by
  refine .bind (.skipWhile (fun _ => stays_annotationRound) s) fun _ s₁ h₁ => .get ?_
  split
  next first span rest hs =>
    have hread : Advances n s₁ (do
        advance
        let names ← collect typeNameRound
        let count ← dimensions
        return some (typeText (first :: names) count)) :=
      (Carries.advance hs rfl fun s₂ _ => .bind (.collect (fun _ => stays_typeNameRound) s₂) fun _ _ _ =>
        .bind stays_dimensions fun _ _ _ => .pure).level (Nat.le_succ n)
    exact hread.mono fun _ _ _ _ h => ⟨h.1, fun _ => Nat.lt_of_lt_of_le h.2 h₁.length_le⟩
  next =>
    have hread : Stays n s₁ (do
        report .expectedType (← here)
        return (none : Option String)) := .bind stays_here fun _ _ _ => .bind (stays_report _ _) fun _ _ _ => .pure
    exact ⟨hread.leads, fun hn tail hw => ⟨hread.post hn tail hw, nofun⟩⟩

theorem stays_type : Stays n s type? := carries_type.mono fun _ _ _ _ h => h.1

theorem stays_parameter : Stays n s parameter? := by
  refine .bind stays_modifiers fun _ s₁ _ => .bind stays_type fun type s₂ _ => ?_
  cases type with
  | none => exact .pure
  | some type =>
    refine .bind (stays_accept rfl) fun _ s₃ _ => .bind (stays_identifier _) fun _ s₄ _ => ?_
    exact .bind stays_dimensions fun _ _ _ => .pure

theorem stays_skipParameters : Stays n s skipParameters := by
  refine .skipWhile (fun s₁ => .get ?_) s
  split
  next hs => exact .step hs rfl fun _ _ => .pure
  iterate 4 exact .pure
  next hs => exact .bind (stays_skipGroup hs) fun _ _ _ => .pure
  next hopener hcloser _ _ _ => exact .skip hopener hcloser fun _ => .pure

theorem stays_parameterRound (opener : Span) : Stays n s (parameterRound opener) := by
  refine .bind stays_parameter fun found s₁ _ => .bind (stays_accept rfl) fun b s₂ _ => ?_
  split
  · exact .pure
  refine .bind (stays_accept rfl) fun b s₃ _ => ?_
  split
  · exact .pure
  · exact .bind (stays_report _ _) fun _ _ _ => .bind stays_skipParameters fun _ _ _ => .pure

theorem stays_parameters : Stays n s parameters := by
  refine .bind (stays_take rfl) fun opener s₁ _ => ?_
  cases opener with
  | none => exact .pure
  | some opener =>
    refine .bind (stays_accept rfl) fun b s₂ _ => ?_
    split
    · exact .pure
    · exact .collect (fun _ => stays_parameterRound opener) s₂

theorem stays_components (kind : TypeKind) : Stays n s (components kind) := by
  rw [components]
  split
  · exact .bind stays_skipAnyAngles fun _ _ _ => .bind stays_parameters fun _ _ _ => .pure
  · exact .pure

theorem stays_declaredName (written : String) (span : Span) :
    Stays n s (declaredName written span) := by
  rw [declaredName]
  split
  · exact .bind (stays_report _ _) fun _ _ _ => .pure
  · exact .pure

/-! ## What is skipped -/

theorem stays_skipHeader : Stays n s skipHeader := by
  refine .skipWhile (fun s₁ => .get ?_) s
  split
  · exact .pure
  · exact .pure
  · exact .bind (stays_report _ _) fun _ _ _ => .pure
  · exact .bind (stays_report _ _) fun _ _ _ => .pure
  · exact .bind stays_skipAngles fun _ _ _ => .pure
  next hs => exact .bind (stays_skipGroup hs) fun _ _ _ => .pure
  next hopener _ _ hcloser _ _ => exact .skip hopener hcloser fun _ => .pure

theorem stays_labelRound : Stays n s labelRound := by
  refine .get ?_
  split
  next hs => exact .step hs rfl fun _ _ => .pure
  next hs => exact .step hs rfl fun _ _ => .pure
  next hs => exact .bind (stays_skipGroup hs) fun _ _ _ => .pure
  iterate 4 exact .pure
  next hopener hcloser _ _ => exact .skip hopener hcloser fun _ => .pure

/-- A label begins with a word. -/
theorem advances_skipLabel {k : Keyword} {span : Span} {rest : List Lexeme}
    (hs : s.rest = ⟨.keyword k, span⟩ :: rest) : Advances (n + 1) s skipLabel :=
  .advance hs rfl fun s₁ _ => .skipWhile (fun _ => stays_labelRound) s₁

/-- Before its arrow a list of parameters holds no brace. -/
theorem closesBeforeArrow_cons {l : Lexeme} {rest : List Lexeme} {depth : Nat}
    (h : closesBeforeArrow depth (l :: rest) = true) :
    l.token.isBrace = false ∧ l.token ≠ .arrow ∧ ((∃ depth', closesBeforeArrow depth' rest = true) ∨
      ∃ span after, rest = ⟨.arrow, span⟩ :: after) := by
  obtain ⟨t, span⟩ := l
  cases t with
  | opener bracket =>
    cases bracket with
    | brace => exact absurd h nofun
    | paren | square => exact ⟨rfl, nofun, .inl ⟨_, h⟩⟩
  | closer bracket =>
    cases bracket with
    | brace => exact absurd h nofun
    | square => exact ⟨rfl, nofun, .inl ⟨_, h⟩⟩
    | paren =>
      rw [closesBeforeArrow] at h
      refine ⟨rfl, nofun, ?_⟩
      split at h
      · cases rest with
        | nil => exact absurd h nofun
        | cons next after =>
          obtain ⟨t, span⟩ := next
          obtain rfl : t = .arrow := of_decide_eq_true h
          exact .inr ⟨span, after, rfl⟩
      · exact .inl ⟨_, h⟩
  | semicolon | arrow => exact absurd h nofun
  | _ => exact ⟨rfl, nofun, .inl ⟨_, h⟩⟩

theorem within_skipWhile_arrowRound {tail rest : List Lexeme} (hs : s.rest = rest)
    (harrow : (∃ depth, closesBeforeArrow depth rest = true) ∨
      ∃ span after, rest = ⟨.arrow, span⟩ :: after) (hw : Within tail rest) :
    Within tail (skipWhile arrowRound s).2.rest := by
  induction rest generalizing s with
  | nil => exact absurd rfl hw.ne_nil
  | cons l rest ih =>
    obtain ⟨hrest, hlt⟩ := State.advance_cons hs
    have hround := arrowRound_cons hs
    rcases harrow with ⟨depth, hdepth⟩ | ⟨span, after, heq⟩
    · obtain ⟨hl, hne, hafter⟩ := closesBeforeArrow_cons hdepth
      rw [decide_eq_true hne] at hround
      rw [skipWhile_of_true hround hlt]
      exact ih hrest hafter (hw.of_not_brace hl)
    · obtain ⟨rfl, rfl⟩ := List.cons.inj heq
      rw [skipWhile_of_false hround, hrest]
      exact hw.of_not_brace rfl

/-- From where a lambda begins, no brace comes before its arrow. -/
theorem advances_toArrow (h : startsLambda s.rest = true) :
    Advances n s (skipWhile arrowRound) := by
  refine ⟨Moves.skipWhile moves_arrowRound s, fun _ tail hw => ⟨?_, ?_⟩⟩
  · rw [startsLambda.eq_def] at h
    split at h
    next name span span' after hs =>
      obtain ⟨hrest, hlt⟩ := State.advance_cons hs
      rw [hs] at hw
      rw [skipWhile_of_true (arrowRound_cons hs) hlt]
      exact within_skipWhile_arrowRound hrest (.inr ⟨_, _, rfl⟩) (hw.of_not_brace rfl)
    next span after hs =>
      obtain ⟨hrest, hlt⟩ := State.advance_cons hs
      rw [hs] at hw
      rw [skipWhile_of_true (arrowRound_cons hs) hlt]
      exact within_skipWhile_arrowRound hrest (.inl ⟨_, h⟩) (hw.of_not_brace rfl)
    next => exact absurd h nofun
  · have hle := (skipWhile_arrowRound_suffix s).length_le
    have hpos := List.length_pos_iff.mpr hw.ne_nil
    rw [List.length_tail] at hle
    omega

theorem stays_squareRound : Stays n s squareRound := by
  refine .bind (stays_accept rfl) fun b s₁ _ => ?_
  split
  · exact .bind (stays_accept rfl) fun _ _ _ => .pure
  · exact .pure

end Nomenclator.Grammar
