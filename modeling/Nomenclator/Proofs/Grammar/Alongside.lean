/-
Two readings side by side: the same tokens at different places, maybe under
different rules.

Nothing that is read depends on where it stands, so the second reading does
what the first one does, and its answers and reports are those of the first
one at the other places. The rules of the two may differ where they are not
asked: what is said about a state holds as long as it has fewer than `n`
tokens, so it is enough that the rules go alongside for fewer tokens still.
-/
import Nomenclator.Proofs.Declaration.Relocation
import Nomenclator.Proofs.Grammar.Ensures
import Nomenclator.Proofs.Grammar.Reads

namespace Nomenclator

def Lexeme.relocate (f : Relocation) (l : Lexeme) : Lexeme := ⟨l.token, f.map l.span⟩

namespace Grammar

variable {α β : Type} {f : Relocation} {n : Nat} {s : State}

def State.relocate (f : Relocation) (s : State) : State where
  previous := s.previous.map (Lexeme.relocate f)
  rest := s.rest.map (Lexeme.relocate f)
  nextId := s.nextId
  reported := s.reported.map (Diagnostic.relocate f)

theorem State.length_relocate (s : State) : (s.relocate f).rest.length = s.rest.length := List.length_map _

theorem State.advance_relocate (s : State) : (s.relocate f).advance = s.advance.relocate f := by
  obtain ⟨previous, rest, nextId, reported⟩ := s
  cases rest <;> rfl

theorem State.here_relocate (s : State) : (s.relocate f).here = f.map s.here := by
  obtain ⟨previous, rest, nextId, reported⟩ := s
  cases rest with
  | cons => rfl
  | nil =>
    cases previous with
    | some => rfl
    | none => exact f.map_origin.symm

/-! ## The triple -/

/-- The first result goes forward from `s`, and the second one is the same at the other places. -/
structure Matches (f : Relocation) (s : State) (post : α → α → State → Prop) (r r' : α × State) : Prop where
  leads : s.Leads r.2
  post : post r.1 r'.1 r.2
  state : r'.2 = r.2.relocate f

/-- From `s` and from the same state at other places, the parsers match if fewer than `n` tokens are
left. -/
def Alongside (f : Relocation) (n : Nat) (s : State) (p p' : Parser α) (post : α → α → State → Prop) :
    Prop := s.rest.length < n → Matches f s post (p s) (p' (s.relocate f))

/-- The answers are the same. -/
abbrev Echoes (f : Relocation) (n : Nat) (s : State) (p p' : Parser α) : Prop :=
  Alongside f n s p p' fun a a' _ => a' = a

/-- The second answer is made from the first one. -/
abbrev Maps (f : Relocation) (n : Nat) (s : State) (g : α → α) (p p' : Parser α) : Prop :=
  Alongside f n s p p' fun a a' _ => a' = g a

namespace Alongside

variable {p p' : Parser α} {k k' : α → Parser β} {P P' : α → α → State → Prop} {Q : β → β → State → Prop}
  {g : α → α}

/-- What the second parser comes to, where the first one is known. -/
theorem run {a : α} {s' : State} (hp : Alongside f n s p p' P) (hn : s.rest.length < n) (he : p s = (a, s')) :
    ∃ a', p' (s.relocate f) = (a', s'.relocate f) ∧ s.Leads s' ∧ P a a' s' := by
  obtain ⟨hleads, hpost, hstate⟩ := hp hn
  rw [he] at hleads hpost hstate
  exact ⟨_, Prod.ext rfl hstate, hleads, hpost⟩

theorem pure {a a' : α} (h : P a a' s) : Alongside f n s (Pure.pure a) (Pure.pure a') P :=
  fun _ => ⟨.refl s, h, rfl⟩

theorem mono (hp : Alongside f n s p p' P) (h : ∀ a a' s', s.Leads s' → P a a' s' → P' a a' s') :
    Alongside f n s p p' P' := fun hn =>
  have hm := hp hn
  ⟨hm.leads, h _ _ _ hm.leads hm.post, hm.state⟩

/-- What is known of the first run. -/
theorem known {K : α → State → Prop} (hp : Alongside f n s p p' P) (hK : K (p s).1 (p s).2) :
    Alongside f n s p p' fun a a' s' => P a a' s' ∧ K a s' := fun hn =>
  { hp hn with post := ⟨(hp hn).post, hK⟩ }

theorem level {m : Nat} (hp : Alongside f n s p p' P) (hm : m ≤ n) : Alongside f m s p p' P :=
  fun hn => hp (Nat.lt_of_lt_of_le hn hm)

/-- The second parser may be known for fewer tokens, if the first one has read some. -/
theorem bindFrom (hp : Alongside f n s p p' P)
    (hk : ∀ a a' s', s.Leads s' → P a a' s' →
      ∃ m, (s.rest.length < n → s'.rest.length < m) ∧ Alongside f m s' (k a) (k' a') Q) :
    Alongside f n s (p >>= k) (p' >>= k') Q := fun hn => by
  obtain ⟨hleads, hpost, hstate⟩ := hp hn
  obtain ⟨m, hlt, hnext⟩ := hk _ _ _ hleads hpost
  obtain ⟨hleads', hpost', hstate'⟩ := hnext (hlt hn)
  have hsecond : (p' >>= k') (s.relocate f) =
      k' (p' (s.relocate f)).1 ((p s).2.relocate f) := hstate ▸ rfl
  exact ⟨hleads.trans hleads', hsecond ▸ hpost', hsecond ▸ hstate'⟩

theorem bind (hp : Alongside f n s p p' P)
    (hk : ∀ a a' s', s.Leads s' → P a a' s' → Alongside f n s' (k a) (k' a') Q) :
    Alongside f n s (p >>= k) (p' >>= k') Q :=
  hp.bindFrom fun a a' s' hl ha => ⟨n, Nat.lt_of_le_of_lt hl.length_le, hk a a' s' hl ha⟩

/-- Wherever the first parser has read a token, the second one is known for one token less. -/
theorem lower (hp : Alongside f (n + 1) s p p' P)
    (hk : ∀ a a' s', s.Leads s' → P a a' s' →
      s'.rest.length < s.rest.length ∧ Alongside f n s' (k a) (k' a') Q ∨
      Alongside f (n + 1) s' (k a) (k' a') Q) :
    Alongside f (n + 1) s (p >>= k) (p' >>= k') Q := by
  refine hp.bindFrom fun a a' s' hl ha => ?_
  rcases hk a a' s' hl ha with ⟨hlt, hnext⟩ | hnext
  · exact ⟨n, fun hn => Nat.lt_of_lt_of_le hlt (Nat.le_of_lt_succ hn), hnext⟩
  · exact ⟨n + 1, Nat.lt_of_le_of_lt hl.length_le, hnext⟩

theorem same (hp : Echoes f n s p p') (hk : ∀ a s', s.Leads s' → Alongside f n s' (k a) (k' a) Q) :
    Alongside f n s (p >>= k) (p' >>= k') Q :=
  hp.bind fun a _ s' hl ha => ha ▸ hk a s' hl

theorem mapped (hp : Maps f n s g p p') (hk : ∀ a s', s.Leads s' → Alongside f n s' (k a) (k' (g a)) Q) :
    Alongside f n s (p >>= k) (p' >>= k') Q :=
  hp.bind fun a _ s' hl ha => ha ▸ hk a s' hl

theorem get {k k' : State → Parser β} (h : Alongside f n s (k s) (k' (s.relocate f)) Q) :
    Alongside f n s (MonadState.get >>= k) (MonadState.get >>= k') Q := h

theorem ite {c : Prop} [Decidable c] {q q' : Parser α} (hp : c → Alongside f n s p p' P)
    (hq : ¬c → Alongside f n s q q' P) :
    Alongside f n s (if c then p else q) (if c then p' else q') P := by
  split
  next hc => exact hp hc
  next hc => exact hq hc

theorem cond {b b' : Bool} {q q' : Parser α} (hb : b' = b) (hp : b = true → Alongside f n s p p' P)
    (hq : ¬b = true → Alongside f n s q q' P) :
    Alongside f n s (if b then p else q) (if b' then p' else q') P := by
  subst hb
  exact ite hp hq

end Alongside

/-! ## Single tokens -/

theorem alongside_advance : Alongside f n s advance advance fun _ _ s' => s' = s.advance :=
  fun _ => ⟨moves_advance s, rfl, s.advance_relocate⟩

theorem echoes_advance : Echoes f n s advance advance := alongside_advance.mono fun _ _ _ _ _ => rfl

/-- Where a token is left, one less is left behind it. -/
theorem Alongside.step {k k' : Unit → Parser β} {Q : β → β → State → Prop} (hs : s.rest ≠ [])
    (hk : ∀ s', s.Leads s' → s'.rest.length < s.rest.length → Alongside f n s' (k ()) (k' ()) Q) :
    Alongside f (n + 1) s (advance >>= k) (advance >>= k') Q := by
  refine alongside_advance.lower fun _ _ s' hl he => ?_
  have hlt : s'.rest.length < s.rest.length := by
    rw [he, s.advance_eq.1, List.length_tail]
    exact Nat.sub_one_lt (mt List.length_eq_zero_iff.mp hs)
  exact .inl ⟨hlt, hk s' hl hlt⟩

theorem alongside_here : Alongside f n s here here fun span span' s' => span' = f.map span ∧ s' = s :=
  fun _ => ⟨moves_here s, ⟨s.here_relocate, rfl⟩, rfl⟩

theorem maps_here : Maps f n s f.map here here := alongside_here.mono fun _ _ _ _ h => h.1

theorem alongside_fresh : Alongside f n s fresh fresh fun id id' s' => id' = id ∧ s'.rest = s.rest :=
  fun _ => ⟨moves_fresh s, ⟨rfl, rfl⟩, rfl⟩

theorem echoes_fresh : Echoes f n s fresh fresh := alongside_fresh.mono fun _ _ _ _ h => h.1

theorem echoes_report (problem : Problem) (span : Span) :
    Echoes f n s (report problem span) (report (problem.relocate f) (f.map span)) :=
  fun _ => ⟨moves_report problem span s, rfl, rfl⟩

theorem echoes_isAt (t : Token) : Echoes f n s (isAt t) (isAt t) := by
  refine fun _ => ⟨moves_isAt t s, ?_, rfl⟩
  obtain ⟨previous, rest, nextId, reported⟩ := s
  cases rest <;> rfl

theorem take?_apply (t : Token) (s : State) :
    take? t s = if s.rest.head?.any (·.token = t) then (some s.here, s.advance) else (none, s) := by
  show (if s.rest.head?.any (·.token = t) then _ else _ : Parser (Option Span)) s = _
  split <;> rfl

theorem take?_lt {t : Token} (h : (take? t s).1 ≠ none) : (take? t s).2.rest.length < s.rest.length := by
  rw [take?_apply] at h ⊢
  by_cases hat : s.rest.head?.any (·.token = t)
  · rw [if_pos hat]
    obtain ⟨previous, rest, nextId, reported⟩ := s
    cases rest with
    | nil => exact absurd hat nofun
    | cons l rest => exact Nat.lt_succ_self _
  · rw [if_neg hat] at h
    exact absurd rfl h

/-- A token that is taken is one token less. -/
theorem alongside_take (t : Token) : Alongside f n s (take? t) (take? t) fun r r' s' =>
    r' = r.map f.map ∧ (r ≠ none → s'.rest.length < s.rest.length) :=
  have hmaps : Maps f n s (Option.map f.map) (take? t) (take? t) :=
    .same (echoes_isAt t) fun _ _ _ => .ite
      (fun _ => .mapped maps_here fun _ _ _ => .same echoes_advance fun _ _ _ => .pure rfl)
      fun _ => .pure rfl
  hmaps.known take?_lt

theorem maps_take (t : Token) : Maps f n s (Option.map f.map) (take? t) (take? t) :=
  (alongside_take t).mono fun _ _ _ _ h => h.1

theorem echoes_accept (t : Token) : Echoes f n s (accept t) (accept t) :=
  .mapped (maps_take t) fun span _ _ => .pure (by cases span <;> rfl)

theorem maps_identifier (after : Anchor) :
    Maps f n s (Prod.map id f.map) (identifier after) (identifier after) := by
  refine .mapped maps_here fun span s₁ _ => ?_
  obtain ⟨previous, rest, nextId, reported⟩ := s₁
  refine .get ?_
  have hmissing {s : State} : Maps f n s (Prod.map id f.map)
      (do report (.expectedIdentifier after) span; return ("", span))
      (do report (.expectedIdentifier after) (f.map span); return ("", f.map span)) :=
    .same (echoes_report _ span) fun _ _ _ => .pure rfl
  cases rest with
  | nil => exact hmissing
  | cons l rest =>
    obtain ⟨t, place⟩ := l
    cases t with
    | identifier name => exact .same echoes_advance fun _ _ _ => .pure rfl
    | _ => exact hmissing

theorem echoes_reportUnclosed (bracket : Bracket) (opener : Span) :
    Echoes f n s (reportUnclosed bracket opener) (reportUnclosed bracket (f.map opener)) := by
  cases bracket <;> exact echoes_report _ opener

/-! ## Loops -/

/-- Both loops go on or both are done, with related states. -/
inductive Turn.Rel (R : α → α → Prop) : Turn α → Turn α → Prop
  | again {a a' : α} (h : R a a') : Rel R (.again a) (.again a')
  | done {a a' : α} (h : R a a') : Rel R (.done a) (.done a')

theorem Turn.Rel.of_eq {t t' : Turn α} (h : t' = t) : Turn.Rel (fun a a' => a' = a) t t' := by
  subst h
  cases t' with
  | again => exact .again rfl
  | done => exact .done rfl

theorem iterate_of_stuck {round : α → Parser (Turn α)} {a b : α} {s' : State}
    (h : round a s = (.again b, s')) (hle : ¬s'.rest.length < s.rest.length) : iterate round a s = (b, s') := by
  rw [iterate, h]
  exact if_neg hle

theorem collect_of_stuck {round : Parser (List α × Bool)} {found : List α} {s' : State}
    (h : round s = ((found, true), s')) (hle : ¬s'.rest.length < s.rest.length) :
    collect round s = (found, s') := by
  rw [collect, h]
  exact if_neg hle

theorem Alongside.iterate {R : α → α → Prop} {round round' : α → Parser (Turn α)}
    (h : ∀ a a' s, R a a' → Alongside f n s (round a) (round' a') fun t t' _ => t.Rel R t')
    {a a' : α} (ha : R a a') (s : State) :
    Alongside f n s (iterate round a) (iterate round' a') fun b b' _ => R b b' := by
  show s.rest.length < n → Matches f s _ (Grammar.iterate round a s) (Grammar.iterate round' a' (s.relocate f))
  fun_induction Grammar.iterate round a s generalizing a' with
  | case1 a s b s' he =>
    intro hn
    obtain ⟨t, hr, hleads, ht⟩ := (h a a' s ha).run hn he
    cases ht with
    | done hb =>
      rw [iterate_of_done hr]
      exact ⟨hleads, hb, rfl⟩
  | case2 a s b s' he hlt ih =>
    intro hn
    obtain ⟨t, hr, hleads, ht⟩ := (h a a' s ha).run hn he
    cases ht with
    | again hb =>
      rw [iterate_of_again hr (by rwa [State.length_relocate, State.length_relocate])]
      have hm := ih hb (Nat.lt_trans hlt hn)
      exact ⟨hleads.trans hm.leads, hm.post, hm.state⟩
  | case3 a s b s' he hge =>
    intro hn
    obtain ⟨t, hr, hleads, ht⟩ := (h a a' s ha).run hn he
    cases ht with
    | again hb =>
      rw [iterate_of_stuck hr (by rwa [State.length_relocate, State.length_relocate])]
      exact ⟨hleads, hb, rfl⟩

/-- A loop whose state holds no places. -/
theorem Alongside.loop {round round' : α → Parser (Turn α)} (h : ∀ a s, Echoes f n s (round a) (round' a))
    (a : α) (s : State) : Echoes f n s (Grammar.iterate round a) (Grammar.iterate round' a) := by
  refine Alongside.iterate (R := fun b b' => b' = b) (fun b b' s hb => ?_) rfl s
  subst hb
  exact (h b' s).mono fun _ _ _ _ ht => .of_eq ht

theorem Alongside.skipWhile {round round' : Parser Bool} (h : ∀ s, Echoes f n s round round') (s : State) :
    Echoes f n s (skipWhile round) (skipWhile round') :=
  .loop (fun _ s => .same (h s) fun _ _ _ => .pure rfl) () s

theorem Alongside.collect {g : List α → List α} (happend : ∀ a b, g (a ++ b) = g a ++ g b)
    {round round' : Parser (List α × Bool)} (h : ∀ s, Maps f n s (Prod.map g id) round round') (s : State) :
    Maps f n s g (collect round) (collect round') := by
  show s.rest.length < n → Matches f s _ (Grammar.collect round s) (Grammar.collect round' (s.relocate f))
  fun_induction Grammar.collect round s with
  | case1 s found s' he =>
    intro hn
    obtain ⟨_, hr, hleads, rfl⟩ := (h s).run hn he
    rw [collect_of_false hr]
    exact ⟨hleads, rfl, rfl⟩
  | case2 s found s' he hlt more s'' hmore ih =>
    intro hn
    obtain ⟨_, hr, hleads, rfl⟩ := (h s).run hn he
    rw [collect_of_true hr (by rwa [State.length_relocate, State.length_relocate])]
    have hm := ih (Nat.lt_trans hlt hn)
    rw [hmore] at hm
    exact ⟨hleads.trans hm.leads, (congrArg _ hm.post).trans (happend _ _).symm, hm.state⟩
  | case3 s found s' he hge =>
    intro hn
    obtain ⟨_, hr, hleads, rfl⟩ := (h s).run hn he
    rw [collect_of_stuck hr (by rwa [State.length_relocate, State.length_relocate])]
    exact ⟨hleads, rfl, rfl⟩

/-- A list of things that have no places. -/
theorem Alongside.list {round round' : Parser (List α × Bool)} (h : ∀ s, Echoes f n s round round')
    (s : State) : Echoes f n s (Grammar.collect round) (Grammar.collect round') :=
  Alongside.collect (g := id) (fun _ _ => rfl) h s

/-! ## Looking ahead -/

section Lookahead

variable {lexemes lexemes' : List Lexeme}

theorem startsRecord_of_tokens (h : lexemes.map Lexeme.token = lexemes'.map Lexeme.token)
    (hr : startsRecord lexemes = true) : startsRecord lexemes' = true := by
  rw [startsRecord.eq_def] at hr
  split at hr
  iterate 2
    obtain ⟨_, _, rfl, h₁⟩ := map_token_eq_cons h.symm
    obtain ⟨_, _, rfl, h₂⟩ := map_token_eq_cons h₁
    obtain ⟨_, _, rfl, -⟩ := map_token_eq_cons h₂
    exact hr
  exact absurd hr nofun

theorem typeStart?_of_startsRecord (hr : startsRecord lexemes = true) :
    typeStart? lexemes = some .recordType := by
  rw [startsRecord.eq_def] at hr
  split at hr
  · exact if_pos hr
  · exact if_pos hr
  · exact absurd hr nofun

theorem typeStart?_of_tokens (h : lexemes.map Lexeme.token = lexemes'.map Lexeme.token) {kind : TypeKind}
    (hk : typeStart? lexemes = some kind) : typeStart? lexemes' = some kind := by
  rw [typeStart?.eq_def] at hk
  split at hk
  iterate 3
    obtain ⟨_, _, rfl, -⟩ := map_token_eq_cons h.symm
    exact hk
  · obtain ⟨_, _, rfl, h₁⟩ := map_token_eq_cons h.symm
    obtain ⟨_, _, rfl, -⟩ := map_token_eq_cons h₁
    exact hk
  · split at hk
    next hr => exact hk ▸ typeStart?_of_startsRecord (startsRecord_of_tokens h hr)
    next => exact absurd hk nofun

theorem followsSealed_of_tokens (h : lexemes.map Lexeme.token = lexemes'.map Lexeme.token)
    (hs : followsSealed lexemes = true) : followsSealed lexemes' = true := by
  rw [followsSealed.eq_def] at hs
  split at hs
  iterate 2
    obtain ⟨_, _, rfl, -⟩ := map_token_eq_cons h.symm
    exact hs
  exact absurd hs nofun

/-- An annotation is a modifier unless it declares an annotation type. -/
theorem modifier?_atSign (span : Span) (after : List Lexeme) : modifier? (⟨.atSign, span⟩ :: after) =
    if (after.map Lexeme.token).head? = some (.keyword .interfaceKw) then none else some .annotated := by
  cases after with
  | nil => rfl
  | cons l after =>
    obtain ⟨t, place⟩ := l
    cases t with
    | keyword k => cases k <;> rfl
    | _ => rfl

theorem modifier?_of_tokens (h : lexemes.map Lexeme.token = lexemes'.map Lexeme.token) {m : Modifier}
    (hm : modifier? lexemes = some m) : modifier? lexemes' = some m := by
  have hsealed {after after' : List Lexeme} (h : after.map Lexeme.token = after'.map Lexeme.token) :
      followsSealed after = followsSealed after' :=
    Bool.eq_iff_iff.mpr ⟨followsSealed_of_tokens h, followsSealed_of_tokens h.symm⟩
  rw [modifier?.eq_def] at hm
  split at hm
  · obtain ⟨_, _, rfl, -⟩ := map_token_eq_cons h.symm
    exact hm
  · exact absurd hm nofun
  next after hother =>
    obtain ⟨_, _, rfl, h₁⟩ := map_token_eq_cons h.symm
    rw [modifier?_atSign, h₁, ← modifier?_atSign ⟨0, 0⟩, modifier?]
    · exact hm
    · exact hother
  · obtain ⟨_, _, rfl, h₁⟩ := map_token_eq_cons h.symm
    split at hm
    next hs =>
      rw [hsealed h₁.symm] at hs
      exact hm ▸ if_pos hs
    next hs =>
      rw [hsealed h₁.symm] at hs
      split at hm
      · obtain ⟨_, _, rfl, h₂⟩ := map_token_eq_cons h₁
        obtain ⟨_, _, rfl, -⟩ := map_token_eq_cons h₂
        exact (if_neg hs).trans hm
      · exact absurd hm nofun
  · exact absurd hm nofun

theorem constructorStart?_of_tokens (h : lexemes.map Lexeme.token = lexemes'.map Lexeme.token)
    {heading : Heading} {start : ConstructorStart} (hc : constructorStart? heading lexemes = some start) :
    constructorStart? heading lexemes' = some start := by
  rw [constructorStart?.eq_def] at hc
  split at hc
  · obtain ⟨_, _, rfl, h₁⟩ := map_token_eq_cons h.symm
    obtain ⟨_, _, rfl, -⟩ := map_token_eq_cons h₁
    exact hc
  · exact absurd hc nofun

theorem closesBeforeArrow_relocate (depth : Nat) (lexemes : List Lexeme) :
    closesBeforeArrow depth (lexemes.map (Lexeme.relocate f)) = closesBeforeArrow depth lexemes := by
  induction lexemes generalizing depth with
  | nil => rfl
  | cons l after ih =>
    obtain ⟨t, span⟩ := l
    cases t with
    | opener b =>
      cases b with
      | paren => exact ih _
      | square => exact ih _
      | brace => rfl
    | closer b =>
      cases b with
      | paren =>
        rw [List.map_cons, Lexeme.relocate, closesBeforeArrow, closesBeforeArrow, ih]
        cases after <;> rfl
      | square => exact ih _
      | brace => rfl
    | semicolon | arrow => rfl
    | _ => exact ih _

theorem map_token_relocate (lexemes : List Lexeme) :
    (lexemes.map (Lexeme.relocate f)).map Lexeme.token = lexemes.map Lexeme.token := List.map_map

theorem startsRecord_relocate (lexemes : List Lexeme) :
    startsRecord (lexemes.map (Lexeme.relocate f)) = startsRecord lexemes :=
  Bool.eq_iff_iff.mpr ⟨startsRecord_of_tokens (map_token_relocate _),
    startsRecord_of_tokens (map_token_relocate _).symm⟩

theorem typeStart?_relocate (lexemes : List Lexeme) :
    typeStart? (lexemes.map (Lexeme.relocate f)) = typeStart? lexemes :=
  Option.ext fun _ => ⟨typeStart?_of_tokens (map_token_relocate _),
    typeStart?_of_tokens (map_token_relocate _).symm⟩

theorem modifier?_relocate (lexemes : List Lexeme) :
    modifier? (lexemes.map (Lexeme.relocate f)) = modifier? lexemes :=
  Option.ext fun _ => ⟨modifier?_of_tokens (map_token_relocate _),
    modifier?_of_tokens (map_token_relocate _).symm⟩

theorem constructorStart?_relocate (heading : Heading) (lexemes : List Lexeme) :
    constructorStart? heading (lexemes.map (Lexeme.relocate f)) = constructorStart? heading lexemes :=
  Option.ext fun _ => ⟨constructorStart?_of_tokens (map_token_relocate _),
    constructorStart?_of_tokens (map_token_relocate _).symm⟩

theorem startsLambda_relocate (lexemes : List Lexeme) :
    startsLambda (lexemes.map (Lexeme.relocate f)) = startsLambda lexemes := by
  cases lexemes with
  | nil => rfl
  | cons l after =>
    obtain ⟨t, span⟩ := l
    cases t with
    | identifier =>
      cases after with
      | nil => rfl
      | cons l after =>
        obtain ⟨t, span⟩ := l
        cases t <;> rfl
    | opener b =>
      cases b with
      | paren => exact closesBeforeArrow_relocate 1 after
      | _ => rfl
    | _ => rfl

end Lookahead

end Grammar

end Nomenclator
