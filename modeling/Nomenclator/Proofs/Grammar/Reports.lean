/-
What a parser may report, and where, so that nothing is reported twice.

A report is about the token that comes next, or about one that was read
just now, or about an opening bracket that is still open. So once a token is
read, nothing was reported yet at the one behind it. What remains is to
follow what may be said about the same token, without reading it, by one
part of the grammar after the other.
-/
import Nomenclator.Proofs.Grammar.Points
import Nomenclator.Proofs.Grammar.Stays
import Nomenclator.Proofs.Grammar.Totality

namespace Nomenclator

/-! ## Problems -/

/-- A bracket that is not closed, which is reported where it was opened. -/
def Problem.isUnclosed : Problem → Bool
  | unclosedBrace | unclosedParen | unclosedAngle => true
  | _ => false

/-- How much of the grammar it takes to report a problem: text that is skipped, the names of
declarations, types, or bodies of declarations. Names that are taken are none of its problems. -/
def Problem.layer : Problem → Nat
  | unclosedBrace | unclosedParen | unclosedAngle => 0
  | expectedIdentifier .atSign | expectedIdentifier .dot => 0
  | expectedIdentifier _ | dollarInName _ => 1
  | expectedType => 2
  | expectedClassBody | expectedMethodBody | expectedDeclaration => 3
  | duplicateName .. => 4

/-- The problem may be known of a token that comes next. All others are about tokens that were read. -/
def Problem.MayStand (t : Token) : Problem → Prop
  | expectedIdentifier after => (∀ name, t ≠ .identifier name) ∧
      (after = .typeKeyword → ∀ k, t = .keyword k → k.isTypeKeyword = false)
  | expectedClassBody => t = .semicolon ∨ t = .closer .brace
  | expectedType | expectedMethodBody => True
  | _ => False

/-- The few diagnostics that may be found twice among the tokens of a text: for each of them two rules
look at the same token, and neither reads it. -/
inductive Diagnostic.Repeats (tokens : List Lexeme) : Diagnostic → Prop
  /-- The header of a type stops at this token, and then no body begins there. -/
  | body {t place} (ht : t = .semicolon ∨ t = .closer .brace) (h : ⟨t, place⟩ ∈ tokens) :
    Repeats tokens ⟨.expectedClassBody, place⟩
  /-- Arguments end before this bracket, and then no member begins there. -/
  | square {place} (h : ⟨.closer .square, place⟩ ∈ tokens) : Repeats tokens ⟨.expectedType, place⟩
  /-- At the end of the text what is missing is missed at the last token, as it was when that came next. -/
  | lastType {t place} (ht : t = .comma ∨ t = .keyword .newKw) (h : tokens.getLast? = some ⟨t, place⟩) :
    Repeats tokens ⟨.expectedType, place⟩
  | lastAtSign {place} (h : tokens.getLast? = some ⟨.atSign, place⟩) :
    Repeats tokens ⟨.expectedIdentifier .atSign, place⟩
  | lastDot {place} (h : tokens.getLast? = some ⟨.dot, place⟩) :
    Repeats tokens ⟨.expectedIdentifier .dot, place⟩

namespace Grammar

variable {α β : Type} {all : Lexemes} {s s' s'' : State} {n : Nat} {own : List Span} {p : Problem}

/-! ## Places of tokens -/

theorem Lexemes.span_ne {l l' : Lexeme} {v : List Lexeme} (h : l :: v <:+ all.list) (hl' : l' ∈ v) :
    l.span ≠ l'.span := by
  intro he
  have happart := List.rel_of_pairwise_cons (all.inOrder.apart.sublist h.sublist) hl'
  have hlt := all.inOrder.nonempty l (h.subset List.mem_cons_self)
  rw [he] at happart hlt
  omega

theorem Lexemes.eq_of_span {l l' : Lexeme} (hl : l ∈ all.list) (hl' : l' ∈ all.list)
    (h : l.span = l'.span) : l = l' := by
  by_contra hne
  rcases List.mem_iff_append.mp hl with ⟨before, v, hall⟩
  rw [hall] at hl'
  have hsuffix : l :: v <:+ all.list := ⟨before, hall.symm⟩
  rcases List.mem_append.mp hl' with hl' | hl'
  · obtain ⟨front, mid, rfl⟩ := List.mem_iff_append.mp hl'
    have hbehind : l' :: (mid ++ l :: v) <:+ all.list := ⟨front, by rw [hall]; simp⟩
    exact Lexemes.span_ne hbehind (by simp) h.symm
  · rcases List.mem_cons.mp hl' with rfl | hl'
    · exact hne rfl
    · exact Lexemes.span_ne hsuffix hl' h

/-! ## What was reported so far -/

/-- Each report was made once, apart from the few that may be made twice, and none is about a token
behind the next one. A name is missed at another name only where the text ends with that. -/
structure State.Once (all : Lexemes) (s : State) : Prop where
  tokens : ∃ done, all.list = done ++ s.rest ∧ s.previous = done.getLast?
  behind : ∀ d ∈ s.reported, ∀ l ∈ s.rest.tail, d.span ≠ l.span
  once : s.reported.Pairwise fun d d' => d = d' → d.Repeats all.list
  unnamed : ∀ after, ∀ l ∈ all.list, ⟨.expectedIdentifier after, l.span⟩ ∈ s.reported →
    ∀ name, l.token = .identifier name → after ≠ .typeKeyword ∧ all.list.getLast? = some l

/-- Of the token that comes next only such problems are known as may be. -/
structure State.Steady (all : Lexemes) (s : State) : Prop extends s.Once all where
  next : ∀ l, s.rest.head? = some l → ∀ p, ⟨p, l.span⟩ ∈ s.reported → p.MayStand l.token

/-- The problem is not known of the token that comes next. -/
def State.Silent (p : Problem) (s : State) : Prop :=
  ∀ l, s.rest.head? = some l → ⟨p, l.span⟩ ∉ s.reported

/-- The token before was read just now, and nothing is known of the next one. -/
structure State.Fresh (all : Lexemes) (s : State) : Prop extends s.Steady all where
  silent : ∀ p, s.Silent p

/-- The problem can be reported where the parser stands. -/
def State.Ready (all : Lexemes) (p : Problem) (s : State) : Prop :=
  ⟨p, s.here⟩ ∈ s.reported → Diagnostic.Repeats all.list ⟨p, s.here⟩

/-- The bracket was read, and it was not reported that it is never closed. -/
structure State.Open (opener : Span) (s : State) : Prop where
  read : ∀ l ∈ s.rest, l.span ≠ opener
  unreported : ∀ p : Problem, p.isUnclosed = true → ⟨p, opener⟩ ∉ s.reported

/-- Reading came from the first state to the second. Its reports are of problems up to a layer, and
unclosed brackets are those read on the way or the given ones. -/
structure State.Since (n : Nat) (own : List Span) (s s' : State) : Prop where
  rest : s'.rest <:+ s.rest
  layer : ∀ d ∈ s'.reported, d ∈ s.reported ∨ d.problem.layer ≤ n
  unclosed : ∀ d ∈ s'.reported, d.problem.isUnclosed = true →
    d ∈ s.reported ∨ d.span ∈ own ∨ ∃ l ∈ s.rest, l.span = d.span

namespace State.Since

theorem refl (s : State) : s.Since n own s := ⟨List.suffix_refl _, fun _ => .inl, fun _ hd _ => .inl hd⟩

theorem trans (h : s.Since n own s') (h' : s'.Since n own s'') : s.Since n own s'' := by
  refine ⟨h'.rest.trans h.rest, fun d hd => ?_, fun d hd hu => ?_⟩
  · exact (h'.layer d hd).elim (h.layer d) .inr
  · rcases h'.unclosed d hd hu with hd | hown | ⟨l, hl, he⟩
    · exact h.unclosed d hd hu
    · exact .inr (.inl hown)
    · exact .inr (.inr ⟨l, h.rest.subset hl, he⟩)

/-- More may be reported. -/
theorem mono (h : s.Since n own s') {m : Nat} (hm : n ≤ m) : s.Since m own s' :=
  ⟨h.rest, fun d hd => (h.layer d hd).imp_right (Nat.le_trans · hm), h.unclosed⟩

/-- Brackets among the tokens that were left need not be given. -/
theorem release (h : s.Since n own s') {own' : List Span}
    (hown : ∀ o ∈ own, o ∈ own' ∨ ∃ l ∈ s.rest, l.span = o) : s.Since n own' s' := by
  refine ⟨h.rest, h.layer, fun d hd hu => (h.unclosed d hd hu).imp_right fun hd => ?_⟩
  exact hd.elim (hown d.span) .inr

theorem length_le (h : s.Since n own s') : s'.rest.length ≤ s.rest.length := h.rest.length_le

/-- The next token was the next one before, or is one of those behind. -/
theorem head? (h : s.Since n own s') {l : Lexeme} (hl : s'.rest.head? = some l) :
    s.rest.head? = some l ∨ l ∈ s.rest.tail := by
  have hrest := h.rest
  have hmem := List.mem_of_head? hl
  cases hs : s.rest with
  | nil =>
    rw [hs, List.suffix_nil] at hrest
    rw [hrest] at hl
    cases hl
  | cons l' rest =>
    rw [hs] at hrest
    rcases List.suffix_cons_iff.mp hrest with he | hbehind
    · rw [he] at hl
      exact .inl hl
    · exact .inr (hbehind.subset hmem)

end State.Since

namespace State.Once

theorem start (all : Lexemes) : State.Once all { rest := all.list } :=
  ⟨⟨[], rfl, rfl⟩, nofun, .nil, fun _ _ _ h => absurd h List.not_mem_nil⟩

theorem suffix (h : s.Once all) : s.rest <:+ all.list :=
  have ⟨done, hall, _⟩ := h.tokens
  ⟨done, hall.symm⟩

/-- There is always a token to point to, and at most the rest of them is behind it. -/
theorem here_eq (h : s.Once all) : ∃ l v, l :: v <:+ all.list ∧ s.here = l.span ∧
    (s.rest = l :: v ∨ s.rest = [] ∧ v = []) :=
  State.Within.here_eq (s := { s with reported := [] }) ⟨h.tokens, nofun⟩

/-- The parser stands where it stood, or at a token that was behind the next one. -/
theorem here_since (h : s.Once all) (h' : s'.Once all) (hs : s.Since n own s') :
    s'.here = s.here ∨ ∃ l ∈ s.rest.tail, s'.here = l.span := by
  obtain ⟨l, v, hv, hhere, hl⟩ := h.here_eq
  obtain ⟨l', v', hv', hhere', hl'⟩ := h'.here_eq
  have hle := hs.length_le
  have hlength : v'.length ≤ v.length := by
    rcases hl' with hl' | ⟨-, rfl⟩
    · rcases hl with hl | ⟨hl, rfl⟩
      · rw [hl, hl'] at hle
        exact Nat.le_of_succ_le_succ hle
      · rw [hl, hl'] at hle
        exact absurd hle (Nat.not_succ_le_zero _)
    · exact Nat.zero_le _
  rcases List.suffix_cons_iff.mp (List.suffix_of_suffix_length_le hv' hv (Nat.succ_le_succ hlength)) with he | hbehind
  · obtain ⟨rfl, -⟩ := List.cons.inj he
    exact .inl (hhere'.trans hhere.symm)
  · rcases hl with hl | ⟨-, rfl⟩
    · exact .inr ⟨l', by rw [hl]; exact hbehind.subset List.mem_cons_self, hhere'⟩
    · cases List.suffix_nil.mp hbehind

theorem ready (h : s.Once all) (h' : s'.Once all) (hs : s.Since n own s') (hn : n < p.layer)
    (hready : s.Ready all p) : s'.Ready all p := by
  intro hmem
  have hmem := (hs.layer _ hmem).resolve_right (Nat.not_le_of_lt hn)
  rcases h.here_since h' hs with hhere | ⟨l, hl, hhere⟩
  · rw [hhere] at hmem ⊢
    exact hready hmem
  · exact absurd hhere (h.behind _ hmem l hl)

theorem silent (h : s.Once all) (hs : s.Since n own s') (hn : n < p.layer) (hsilent : s.Silent p) :
    s'.Silent p := by
  intro l hl hmem
  have hmem := (hs.layer _ hmem).resolve_right (Nat.not_le_of_lt hn)
  rcases hs.head? hl with hl | hl
  · exact hsilent l hl hmem
  · exact h.behind _ hmem l hl rfl

end State.Once

namespace State

variable {l : Lexeme} {rest : List Lexeme}

/-- While a token comes next, the parser stands there. -/
theorem Silent.ready (hs : s.rest = l :: rest) (h : s.Silent p) : s.Ready all p := fun hmem =>
  absurd (here_of_rest hs ▸ hmem) (h l (hs ▸ rfl))

theorem Steady.ready (h : s.Steady all) (hs : s.rest = l :: rest)
    (hp : p.MayStand l.token → Diagnostic.Repeats all.list ⟨p, l.span⟩) : s.Ready all p := fun hmem => by
  rw [here_of_rest hs] at hmem ⊢
  exact hp (h.next l (hs ▸ rfl) p hmem)

/-- A class body may be missed at any token that comes next. -/
theorem Steady.ready_classBody (h : s.Steady all) (hs : s.rest = l :: rest) : s.Ready all .expectedClassBody :=
  h.ready hs fun hl => .body hl (h.suffix.subset (hs ▸ List.mem_cons_self))

/-- No problem of a bracket is known of a token that comes next. -/
theorem Steady.not_unclosed (h : s.Steady all) (hs : s.rest = l :: rest) (hp : p.isUnclosed = true) :
    ⟨p, l.span⟩ ∉ s.reported := fun hmem => by
  have hstand := h.next l (hs ▸ rfl) p hmem
  cases p <;> first | exact hstand | cases hp

theorem Open.since {opener : Span} (h : s.Open opener) (hs : s.Since n own s') (hopener : opener ∉ own) :
    s'.Open opener := by
  refine ⟨fun l hl => h.read l (hs.rest.subset hl), fun p hp hmem => ?_⟩
  rcases hs.unclosed _ hmem hp with hmem | hown | ⟨l, hl, he⟩
  · exact h.unreported p hp hmem
  · exact hopener hown
  · exact h.read l hl he

end State

/-! ## The triple -/

/-- From `s` the parser reports as it may, and comes to a state as required. -/
structure Reports (n : Nat) (own : List Span) (s : State) (p : Parser α) (post : α → State → Prop) : Prop where
  since : s.Since n own (p s).2
  post : post (p s).1 (p s).2

namespace Reports

variable {q : Parser α} {f : α → Parser β} {P P' : α → State → Prop} {Q : β → State → Prop}
  {l : Lexeme} {rest : List Lexeme} {t : Token} {m : Nat}

theorem pure {a : α} (h : P a s) : Reports n own s (Pure.pure a) P := ⟨.refl s, h⟩

theorem bind (hq : Reports n own s q P)
    (hf : ∀ a s', s.Since n own s' → P a s' → Reports n own s' (f a) Q) : Reports n own s (q >>= f) Q :=
  have h := hf _ _ hq.since hq.post
  ⟨hq.since.trans h.since, h.post⟩

theorem release (h : Reports n own s q P) {own' : List Span}
    (hown : ∀ o ∈ own, o ∈ own' ∨ ∃ l ∈ s.rest, l.span = o) : Reports n own' s q P :=
  ⟨h.since.release hown, h.post⟩

/-- The first parser may report less. -/
theorem part {own' : List Span} (hq : Reports m own' s q P) (hm : m ≤ n) (hown : own' ⊆ own)
    (hf : ∀ a s', s.Since m own' s' → P a s' → Reports n own s' (f a) Q) : Reports n own s (q >>= f) Q :=
  have h := hf _ _ hq.since hq.post
  ⟨((hq.since.mono hm).release fun _ ho => .inl (hown ho)).trans h.since, h.post⟩

/-- Of the brackets that were open the first parser reports none. -/
theorem step (hq : Reports m [] s q P) (hm : m ≤ n)
    (hf : ∀ a s', s.Since m [] s' → P a s' → Reports n own s' (f a) Q) : Reports n own s (q >>= f) Q :=
  part hq hm (List.nil_subset _) hf

theorem mono (h : Reports n own s q P) (hP : ∀ a s', s.Since n own s' → P a s' → P' a s') :
    Reports n own s q P' := ⟨h.since, hP _ _ h.since h.post⟩

/-- Problems of more kinds may be reported. -/
theorem level (h : Reports m own s q P) (hm : m ≤ n) : Reports n own s q P := ⟨h.since.mono hm, h.post⟩

theorem get {f : State → Parser β} (h : Reports n own s (f s) Q) :
    Reports n own s (MonadState.get >>= f) Q := ⟨h.since, h.post⟩

theorem here {f : Span → Parser β} (h : Reports n own s (f s.here) Q) :
    Reports n own s (Grammar.here >>= f) Q := ⟨h.since, h.post⟩

theorem congr {q' : Parser α} (h : Reports n own s q' P) (he : q s = q' s) : Reports n own s q P := by
  obtain ⟨hsince, hpost⟩ := h
  rw [← he] at hsince hpost
  exact ⟨hsince, hpost⟩

theorem isAt {f : Bool → Parser β}
    (hyes : ∀ span rest, s.rest = ⟨t, span⟩ :: rest → Reports n own s (f true) Q)
    (hno : (∀ span rest, s.rest ≠ ⟨t, span⟩ :: rest) → Reports n own s (f false) Q) :
    Reports n own s (Grammar.isAt t >>= f) Q := by
  have hlook : (Grammar.isAt t >>= f) s = f (s.rest.head?.any (·.token = t)) s := rfl
  by_cases hat : s.rest.head?.any (·.token = t)
  · obtain ⟨span, rest, hs⟩ := rest_of_head? hat
    rw [hat] at hlook
    exact (hyes span rest hs).congr hlook
  · rw [Bool.eq_false_iff.mpr hat] at hlook
    refine (hno fun span rest hs => hat ?_).congr hlook
    rw [hs]
    exact decide_eq_true rfl

end Reports

/-! ## Loops -/

section Loops

/-- What a round leaves to the next one, and how the loop ends. -/
def Passes (next last : State → Prop) : Bool → State → Prop
  | true, s => next s
  | false, s => last s

def Turn.Leaves (next last : α → State → Prop) : Turn α → State → Prop
  | .again a, s => next a s
  | .done a, s => last a s

variable {next last : State → Prop}

theorem Reports.iterate (next : α → State → Prop) {last : α → State → Prop} {round : α → Parser (Turn α)}
    (hprogress : ∀ a, Progress Turn.isAgain (round a))
    (h : ∀ a s, next a s → Reports n own s (round a) fun turn s' => turn.Leaves next last s') {a : α}
    (ha : next a s) : Reports n own s (iterate round a) last := by
  suffices hloop : s.Since n own (Grammar.iterate round a s).2 ∧
      last (Grammar.iterate round a s).1 (Grammar.iterate round a s).2 from ⟨hloop.1, hloop.2⟩
  fun_induction Grammar.iterate round a s with
  | case1 a s b s' he =>
    obtain ⟨hsince, hturn⟩ := h a s ha
    rw [he] at hsince hturn
    exact ⟨hsince, hturn⟩
  | case2 a s b s' he hlt ih =>
    obtain ⟨hsince, hturn⟩ := h a s ha
    rw [he] at hsince hturn
    obtain ⟨hmore, hend⟩ := ih hturn
    exact ⟨hsince.trans hmore, hend⟩
  | case3 a s b s' he hge =>
    have hlt := hprogress a s
    rw [ProgressFrom, he] at hlt
    exact absurd (hlt rfl) hge

theorem Reports.skipWhile {round : Parser Bool} (hprogress : Progress id round)
    (h : ∀ s, next s → Reports n own s round (Passes next last)) (hs : next s) :
    Reports n own s (skipWhile round) fun _ => last := by
  refine .iterate (fun _ => next) (fun _ s hagain => hprogress s ?_) (fun _ s hs => ?_) hs
  · by_contra hround
    have hstop : ((do return if ← round then .again () else .done () : Parser (Turn Unit)) s).1 = .done () :=
      if_neg hround
    rw [hstop] at hagain
    cases hagain
  · refine (h s hs).bind fun b s' _ hb => .pure ?_
    cases b <;> exact hb

theorem Reports.collect {round : Parser (List α × Bool)} (hprogress : Progress Prod.snd round)
    (h : ∀ s, next s → Reports n own s round fun r => Passes next last r.2) (hs : next s) :
    Reports n own s (collect round) fun _ => last := by
  suffices hloop : s.Since n own (Grammar.collect round s).2 ∧ last (Grammar.collect round s).2 from
    ⟨hloop.1, hloop.2⟩
  fun_induction Grammar.collect round s with
  | case1 s found s' he =>
    obtain ⟨hsince, hround⟩ := h s hs
    rw [he] at hsince hround
    exact ⟨hsince, hround⟩
  | case2 s found s' he hlt more s'' hmore ih =>
    obtain ⟨hsince, hround⟩ := h s hs
    rw [he] at hsince hround
    rw [hmore] at ih
    obtain ⟨hrounds, hend⟩ := ih hround
    exact ⟨hsince.trans hrounds, hend⟩
  | case3 s found s' he hge =>
    have hlt := hprogress s
    rw [ProgressFrom, he] at hlt
    exact absurd (hlt rfl) hge

end Loops

/-! ## Single tokens -/

/-- One token was read. -/
structure Read (all : Lexemes) (l : Lexeme) (s s' : State) : Prop where
  before : s.Steady all
  rest : s.rest = l :: s'.rest
  previous : s'.previous = some l
  reported : s'.reported = s.reported
  fresh : s'.Fresh all

theorem State.Once.advance (h : s.Once all) : s.advance.Fresh all := by
  obtain ⟨hrest, hreported, -⟩ := s.advance_eq
  have htokens : ∃ done, all.list = done ++ s.advance.rest ∧ s.advance.previous = done.getLast? := by
    obtain ⟨done, hall, hprevious⟩ := h.tokens
    rw [State.advance]
    cases hr : s.rest with
    | nil => exact ⟨done, hall, hprevious⟩
    | cons l rest => exact ⟨done ++ [l], by rw [hall, hr, List.append_assoc]; rfl, List.getLast?_concat.symm⟩
  have hsilent (l : Lexeme) (hl : s.advance.rest.head? = some l) (p : Problem) :
      ⟨p, l.span⟩ ∉ s.advance.reported := by
    rw [hrest] at hl
    rw [hreported]
    exact fun hmem => h.behind _ hmem l (List.mem_of_head? hl) rfl
  refine ⟨⟨⟨htokens, fun d hd l hl => ?_, hreported ▸ h.once, hreported ▸ h.unnamed⟩, fun l hl p hmem => ?_⟩,
    fun p l hl => hsilent l hl p⟩
  · rw [hrest] at hl
    exact h.behind d (hreported ▸ hd) l (List.mem_of_mem_tail hl)
  · exact absurd hmem (hsilent l hl p)

theorem reports_advance (h : s.Once all) :
    Reports n own s advance fun _ s' => s'.Fresh all ∧ s'.rest = s.rest.tail := by
  obtain ⟨hrest, hreported, -⟩ := s.advance_eq
  refine ⟨⟨hrest ▸ List.tail_suffix _, fun d hd => ?_, fun d hd _ => ?_⟩, h.advance, hrest⟩
  · exact .inl (hreported ▸ hd)
  · exact .inl (hreported ▸ hd)

namespace Read

variable {l : Lexeme} {rest : List Lexeme}

theorem advance (h : s.Steady all) (hs : s.rest = l :: rest) : Read all l s s.advance := by
  refine ⟨h, ?_, ?_, s.advance_eq.2.1, h.toOnce.advance⟩
  · rw [s.advance_eq.1, hs]
    rfl
  · rw [State.advance, hs]

theorem since (h : Read all l s s') : s.Since 0 [] s' :=
  ⟨h.rest ▸ List.suffix_cons _ _, fun _ hd => .inl (h.reported ▸ hd), fun _ hd _ => .inl (h.reported ▸ hd)⟩

theorem suffix (h : Read all l s s') : l :: s'.rest <:+ all.list := h.rest ▸ h.before.suffix

theorem mem (h : Read all l s s') : l ∈ s.rest := h.rest ▸ List.mem_cons_self

theorem head? (h : Read all l s s') : s.rest.head? = some l := by
  rw [h.rest]
  rfl

theorem opened (h : Read all l s s') : s'.Open l.span :=
  ⟨fun _ hl => (Lexemes.span_ne h.suffix hl).symm, fun _ hp => h.reported ▸ h.before.not_unclosed h.rest hp⟩

theorem last (h : Read all l s s') (hs : s'.rest = []) : all.list.getLast? = some l := by
  obtain ⟨done, hall⟩ := h.suffix
  rw [← hall, hs, List.getLast?_concat]

theorem here_of_nil (h : Read all l s s') (hs : s'.rest = []) : s'.here = l.span := by
  rw [State.here, hs, h.previous]

/-- A problem can be reported behind the token, unless that comes last and has the problem, too. -/
theorem ready (h : Read all l s s') (hp : s'.rest = [] → p.MayStand l.token →
    Diagnostic.Repeats all.list ⟨p, l.span⟩) : s'.Ready all p := by
  cases hs : s'.rest with
  | nil =>
    intro hmem
    rw [h.here_of_nil hs, h.reported] at hmem
    rw [h.here_of_nil hs]
    exact hp hs (h.before.next l h.head? p hmem)
  | cons l' rest => exact (h.fresh.silent p).ready hs

end Read

namespace Reports

variable {Q : β → State → Prop} {l : Lexeme} {rest : List Lexeme} {t : Token}

/-- The next token is read. If it is an opening bracket, it may be reported from there on that it is
never closed. -/
theorem read (h : s.Steady all) (hs : s.rest = l :: rest) {f : Unit → Parser β}
    (hf : ∀ s', Read all l s s' → Reports n (l.span :: own) s' (f ()) Q) :
    Reports n own s (Grammar.advance >>= f) Q := by
  have hread := Read.advance h hs
  obtain ⟨hsince, hpost⟩ := hf s.advance hread
  refine ⟨(((hread.since.mono (Nat.zero_le n)).release nofun).trans hsince).release fun o ho => ?_, hpost⟩
  exact (List.mem_cons.mp ho).symm.imp_right fun he => ⟨l, hread.mem, he.symm⟩

theorem next (h : s.Steady all) (hs : s.rest = l :: rest) {f : Unit → Parser β}
    (hf : ∀ s', Read all l s s' → Reports n own s' (f ()) Q) : Reports n own s (Grammar.advance >>= f) Q :=
  read h hs fun s' hread => (hf s' hread).release fun _ ho => .inl (List.mem_cons_of_mem _ ho)

theorem take (h : s.Steady all) {f : Option Span → Parser β}
    (hyes : ∀ span s', Read all ⟨t, span⟩ s s' → Reports n (span :: own) s' (f (some span)) Q)
    (hno : (∀ span rest, s.rest ≠ ⟨t, span⟩ :: rest) → Reports n own s (f none) Q) :
    Reports n own s (take? t >>= f) Q := by
  by_cases hat : ∃ span rest, s.rest = ⟨t, span⟩ :: rest
  · obtain ⟨span, rest, hs⟩ := hat
    exact (read h hs fun s' hread => hyes span s' hread).congr (take?_bind_of_cons hs)
  · exact isAt (f := fun b => (if b then _ else _) >>= f)
      (fun span rest hs => absurd ⟨span, rest, hs⟩ hat) fun hno' => hno hno'

theorem accept (h : s.Steady all) {f : Bool → Parser β}
    (hyes : ∀ span s', Read all ⟨t, span⟩ s s' → Reports n own s' (f true) Q)
    (hno : (∀ span rest, s.rest ≠ ⟨t, span⟩ :: rest) → Reports n own s (f false) Q) :
    Reports n own s (Grammar.accept t >>= f) Q := by
  have htake : Reports n own s (take? t >>= fun r => f r.isSome) Q :=
    take h (fun span s' hread => (hyes span s' hread).release fun _ ho => .inl (List.mem_cons_of_mem _ ho)) hno
  exact htake.congr rfl

end Reports

theorem reports_accept (h : s.Steady all) (t : Token) : Reports 0 [] s (accept t) fun _ s' => s'.Steady all :=
  Reports.congr (.accept h (fun _ _ hread => .pure hread.fresh.toSteady) fun _ => .pure h) rfl

theorem reports_fresh (h : s.Steady all) :
    Reports n own s fresh fun _ s' => s'.Steady all ∧ s'.rest = s.rest ∧ s'.here = s.here :=
  ⟨⟨List.suffix_refl _, fun _ => .inl, fun _ hd _ => .inl hd⟩,
    ⟨⟨h.tokens, h.behind, h.once, h.unnamed⟩, h.next⟩, rfl, rfl⟩

/-- A report of what is missing where the parser stands. -/
theorem reports_here (h : s.Once all) (hready : s.Ready all p)
    (hp : p.isUnclosed = false) (hname : ∀ after, p = .expectedIdentifier after → ∀ l ∈ all.list,
      l.span = s.here → ∀ name, l.token = .identifier name → after ≠ .typeKeyword ∧ all.list.getLast? = some l) :
    Reports p.layer [] s (report p s.here) fun _ s' =>
      s'.Once all ∧ s'.rest = s.rest ∧ s'.reported = ⟨p, s.here⟩ :: s.reported := by
  have hbehind (l : Lexeme) (hl : l ∈ s.rest.tail) : s.here ≠ l.span := by
    obtain ⟨l', v, hv, hhere, hs | ⟨hs, -⟩⟩ := h.here_eq
    · rw [hs] at hl
      rw [hhere]
      exact Lexemes.span_ne hv hl
    · rw [hs] at hl
      cases hl
  refine ⟨⟨List.suffix_refl _, fun d hd => ?_, fun d hd hu => ?_⟩, ⟨h.tokens, ?_, ?_, ?_⟩, rfl, rfl⟩
  · rcases List.mem_cons.mp hd with rfl | hd
    · exact .inr (Nat.le_refl _)
    · exact .inl hd
  · rcases List.mem_cons.mp hd with rfl | hd
    · exact absurd (hp.symm.trans hu) nofun
    · exact .inl hd
  · exact List.forall_mem_cons.mpr ⟨hbehind, h.behind⟩
  · exact List.pairwise_cons.mpr ⟨fun d hd he => hready (he ▸ hd), h.once⟩
  · intro after l hl hmem name hl'
    rcases List.mem_cons.mp hmem with he | hmem
    · obtain ⟨hproblem, hspan⟩ := Diagnostic.mk.inj he
      exact hname after hproblem.symm l hl hspan name hl'
    · exact h.unnamed after l hl hmem name hl'

/-- It is not about a name. -/
theorem reports_missing (h : s.Steady all) (hready : s.Ready all p) (hp : p.isUnclosed = false)
    (hname : ∀ after, p ≠ .expectedIdentifier after) (hnext : ∀ l, s.rest.head? = some l → p.MayStand l.token) :
    Reports p.layer [] s (report p s.here) fun _ s' =>
      s'.Steady all ∧ s'.rest = s.rest ∧ s'.reported = ⟨p, s.here⟩ :: s.reported := by
  refine (reports_here h.toOnce hready hp fun after he => absurd he (hname after)).mono fun _ s' _ hpost => ?_
  obtain ⟨honce, hrest, hreported⟩ := hpost
  refine ⟨⟨honce, fun l hl p' hmem => ?_⟩, hrest, hreported⟩
  rw [hrest] at hl
  rw [hreported] at hmem
  rcases List.mem_cons.mp hmem with he | hmem
  · exact (Diagnostic.mk.inj he).1 ▸ hnext l hl
  · exact h.next l hl p' hmem

/-- A report about a token that was read. -/
theorem reports_past {span : Span} (h : s.Steady all) (hread : ∀ l ∈ s.rest, l.span ≠ span)
    (hnew : ⟨p, span⟩ ∉ s.reported) (hname : ∀ after, p ≠ .expectedIdentifier after)
    (hown : p.isUnclosed = true → span ∈ own) :
    Reports p.layer own s (report p span) fun _ s' => s'.Steady all ∧ s'.rest = s.rest := by
  refine ⟨⟨List.suffix_refl _, fun d hd => ?_, fun d hd hu => ?_⟩, ⟨⟨h.tokens, ?_, ?_, ?_⟩, ?_⟩, rfl⟩
  · rcases List.mem_cons.mp hd with rfl | hd
    · exact .inr (Nat.le_refl _)
    · exact .inl hd
  · rcases List.mem_cons.mp hd with rfl | hd
    · exact .inr (.inl (hown hu))
    · exact .inl hd
  · exact List.forall_mem_cons.mpr ⟨fun l hl => (hread l (List.mem_of_mem_tail hl)).symm, h.behind⟩
  · exact List.pairwise_cons.mpr ⟨fun d hd he => absurd (he ▸ hd) hnew, h.once⟩
  · intro after l hl hmem name hl'
    rcases List.mem_cons.mp hmem with he | hmem
    · exact absurd (congrArg Diagnostic.problem he).symm (hname after)
    · exact h.unnamed after l hl hmem name hl'
  · intro l hl p' hmem
    rcases List.mem_cons.mp hmem with he | hmem
    · exact absurd (congrArg Diagnostic.span he) (hread l (List.mem_of_head? hl))
    · exact h.next l hl p' hmem

/-- It is missed that a bracket is closed. -/
theorem reports_unclosed {opener : Span} (h : s.Steady all) (hopen : s.Open opener) (hp : p.isUnclosed = true)
    (hown : opener ∈ own) : Reports p.layer own s (report p opener) fun _ s' => s'.Steady all ∧ s'.rest = s.rest := by
  refine reports_past h hopen.read (hopen.unreported p hp) (fun after he => ?_) fun _ => hown
  rw [he] at hp
  cases hp

theorem reports_reportUnclosed {opener : Span} (h : s.Steady all) (hopen : s.Open opener) (bracket : Bracket)
    (hown : opener ∈ own) :
    Reports 0 own s (reportUnclosed bracket opener) fun _ s' => s'.Steady all ∧ s'.rest = s.rest := by
  cases bracket with
  | brace => exact reports_unclosed (p := .unclosedBrace) h hopen rfl hown
  | paren | square => exact reports_unclosed (p := .unclosedParen) h hopen rfl hown

/-- How a name was read: it came next, or it is missing. -/
inductive NameRead (all : Lexemes) (after : Anchor) (s : State) (r : String × Span) (s' : State) : Prop
  | found (hread : Read all ⟨.identifier r.1, r.2⟩ s s')
  | missing (hname : r.1 = "") (hspan : r.2 = s.here) (hrest : s'.rest = s.rest)
    (hreported : s'.reported = ⟨.expectedIdentifier after, s.here⟩ :: s.reported) (honce : s'.Once all)
    (hnext : ∀ l, s.rest.head? = some l → ∀ name, l.token ≠ .identifier name)

theorem reports_identifier {after : Anchor} (h : s.Steady all) (hready : s.Ready all (.expectedIdentifier after))
    (hend : after = .typeKeyword → s.rest = [] → ∀ l ∈ all.list, l.span = s.here → ∀ name, l.token ≠ .identifier name) :
    Reports (Problem.expectedIdentifier after).layer [] s (identifier after) (NameRead all after s) := by
  refine .here (.get ?_)
  split
  next name span rest hs =>
    refine .read h hs fun s' hread => .pure (.found ?_)
    rw [State.here_of_rest hs]
    exact hread
  next hno =>
    have hnext (l : Lexeme) (hl : s.rest.head? = some l) (name : String) : l.token ≠ .identifier name := by
      intro ht
      obtain ⟨t, span⟩ := l
      obtain ⟨rest, hs⟩ := List.head?_eq_some_iff.mp hl
      exact hno name span rest (by rw [hs]; exact congrArg (⟨·, span⟩ :: rest) ht)
    refine .bind (reports_here h.toOnce hready rfl ?_) fun _ s' _ hpost => .pure ?_
    · rintro _ ⟨⟩ l hl hspan name ht
      obtain ⟨l', v, hv, hhere, hs⟩ := h.here_eq
      obtain rfl := Lexemes.eq_of_span hl (hv.subset List.mem_cons_self) (hspan.trans hhere)
      rcases hs with hs | ⟨hs, rfl⟩
      · exact absurd ht (hnext l (hs ▸ rfl) name)
      · refine ⟨fun hafter => hend hafter hs l hl hspan name ht, ?_⟩
        obtain ⟨done, hall⟩ := hv
        rw [← hall, List.getLast?_concat]
    · obtain ⟨honce, hrest, hreported⟩ := hpost
      exact .missing rfl rfl hrest hreported honce hnext

/-- A name that is missing does no harm where no type declaration begins. -/
theorem NameRead.steady {after : Anchor} {r : String × Span} (h : NameRead all after s r s') (hs : s.Steady all)
    (hafter : after ≠ .typeKeyword) : s'.Steady all := by
  cases h with
  | found hread => exact hread.fresh.toSteady
  | missing hname hspan hrest hreported honce hnext =>
    refine ⟨honce, fun l hl p hmem => ?_⟩
    rw [hrest] at hl
    rw [hreported] at hmem
    rcases List.mem_cons.mp hmem with he | hmem
    · rw [(Diagnostic.mk.inj he).1]
      exact ⟨hnext l hl, fun he => absurd he hafter⟩
    · exact hs.next l hl p hmem

/-- A name that does not begin a type declaration. -/
theorem reports_name {after : Anchor} (h : s.Steady all) (hready : s.Ready all (.expectedIdentifier after))
    (hafter : after ≠ .typeKeyword) :
    Reports (Problem.expectedIdentifier after).layer [] s (identifier after) fun r s' =>
      s'.Steady all ∧ NameRead all after s r s' :=
  (reports_identifier h hready fun he => absurd he hafter).mono fun _ _ _ hread => ⟨hread.steady h hafter, hread⟩

/-! ## Skipping -/

/-- The group that began in the first state has these brackets open. -/
structure Openers.Pending (all : Lexemes) (s : State) (openers : Openers) (s' : State) : Prop where
  steady : s'.Steady all
  rest : s'.rest <:+ s.rest
  opened : ∀ o ∈ openers, o.2 ∈ s.rest.map Lexeme.span ∧ s'.Open o.2

namespace Openers.Pending

variable {openers : Openers}

theorem read {l : Lexeme} (h : openers.Pending all s s') (hread : Read all l s' s'') :
    openers.Pending all s s'' :=
  ⟨hread.fresh.toSteady, hread.since.rest.trans h.rest, fun o ho =>
    ⟨(h.opened o ho).1, (h.opened o ho).2.since hread.since List.not_mem_nil⟩⟩

theorem cons {bracket : Bracket} {span : Span} (h : openers.Pending all s s')
    (hread : Read all ⟨.opener bracket, span⟩ s' s'') : Pending all s ((bracket, span) :: openers) s'' := by
  obtain ⟨hsteady, hrest, hopened⟩ := h.read hread
  refine ⟨hsteady, hrest, List.forall_mem_cons.mpr ⟨⟨?_, hread.opened⟩, hopened⟩⟩
  exact List.mem_map_of_mem (f := Lexeme.span) (h.rest.subset hread.mem)

theorem close (h : openers.Pending all s s') (bracket : Bracket) : (openers.close bracket).Pending all s s' := by
  refine ⟨h.steady, h.rest, fun o ho => h.opened o ?_⟩
  cases openers with
  | nil => exact ho
  | cons innermost outer =>
    rw [Openers.close] at ho
    split at ho
    · exact List.mem_cons_of_mem _ ho
    · exact ho

theorem turn (h : openers.Pending all s s') :
    openers.turn.Leaves (fun openers => openers.Pending all s) (fun _ => State.Steady all) s' := by
  rw [Openers.turn]
  split
  · exact h.steady
  · exact h

end Openers.Pending

theorem reports_groupRound {openers : Openers} (h : openers.Pending all s s') :
    Reports 0 (s.rest.map Lexeme.span) s' (groupRound openers) fun turn =>
      turn.Leaves (fun openers => openers.Pending all s) (fun _ => State.Steady all) := by
  refine .get ?_
  split
  · cases openers with
    | nil => exact .pure h.steady
    | cons innermost outer =>
      obtain ⟨hplace, hopen⟩ := h.opened innermost List.mem_cons_self
      exact (reports_reportUnclosed h.steady hopen innermost.1 hplace).bind fun _ _ _ hpost => .pure hpost.1
  next hs => exact .read h.steady hs fun _ hread => .pure (h.cons hread)
  next hs => exact .read h.steady hs fun _ hread => .pure ((h.read hread).close _).turn
  next hne _ _ =>
    obtain ⟨l, rest, hs⟩ := List.exists_cons_of_ne_nil hne
    exact .read h.steady hs fun _ hread => .pure (h.read hread).turn

theorem reports_skipGroup (h : s.Steady all) : Reports 0 [] s skipGroup fun _ => State.Steady all := by
  have hgroup : Reports 0 (s.rest.map Lexeme.span) s (iterate groupRound []) fun _ => State.Steady all :=
    .iterate _ progress_groupRound (fun _ _ => reports_groupRound) ⟨h, List.suffix_refl _, nofun⟩
  refine .bind (hgroup.release fun o ho => .inr ?_) fun _ _ _ hsteady => .pure hsteady
  obtain ⟨l, hl, rfl⟩ := List.mem_map.mp ho
  exact ⟨l, hl, rfl⟩

theorem reports_dottedRound (h : s.Steady all) :
    Reports 0 [] s dottedRound fun r => Passes (State.Steady all) (State.Steady all) r.2 := by
  refine .accept h (fun span s₁ hread => ?_) fun _ => .pure h
  have hready : s₁.Ready all (.expectedIdentifier .dot) := hread.ready fun hs _ => .lastDot (hread.last hs)
  exact (reports_name hread.fresh.toSteady hready nofun).bind fun _ _ _ hpost => .pure hpost.1

theorem reports_dottedName {after : Anchor} (h : s.Steady all) (hready : s.Ready all (.expectedIdentifier after))
    (hafter : after ≠ .typeKeyword) :
    Reports (Problem.expectedIdentifier after).layer [] s (dottedName after) fun _ => State.Steady all := by
  refine (reports_name h hready hafter).bind fun _ s₁ _ hpost => ?_
  refine .step (.collect progress_dottedRound (fun _ => reports_dottedRound) hpost.1) (Nat.zero_le _) ?_
  exact fun _ _ _ hsteady => .pure hsteady

theorem reports_skipAnnotation (h : s.Steady all) :
    Reports 0 [] s skipAnnotation fun _ => State.Steady all := by
  refine .accept h (fun span s₁ hread => ?_) fun _ => .pure h
  have hready : s₁.Ready all (.expectedIdentifier .atSign) := hread.ready fun hs _ => .lastAtSign (hread.last hs)
  refine (reports_dottedName hread.fresh.toSteady hready nofun).bind fun _ s₂ _ hsteady => ?_
  exact .isAt (fun _ _ _ => reports_skipGroup hsteady) fun _ => .pure hsteady

theorem reports_angleRound {opener : Span} (h : s.Steady all) (hopen : s.Open opener) (depth : Nat) :
    Reports 0 [opener] s (angleRound opener depth) fun turn =>
      turn.Leaves (fun _ s' => s'.Steady all ∧ s'.Open opener) fun _ => State.Steady all := by
  have hafter {l : Lexeme} {s' : State} (hread : Read all l s s') : s'.Steady all ∧ s'.Open opener :=
    ⟨hread.fresh.toSteady, hopen.since hread.since List.not_mem_nil⟩
  refine .get ?_
  split
  next hs => exact .read h hs fun _ hread => .pure (hafter hread)
  next hs =>
    refine .read h hs fun _ hread => .pure ?_
    split
    · exact (hafter hread).1
    · exact hafter hread
  next =>
    have hskip := reports_skipAnnotation h
    refine .step hskip (Nat.le_refl _) fun _ s₁ h₁ hsteady => .pure ?_
    exact ⟨hsteady, hopen.since h₁ List.not_mem_nil⟩
  iterate 6
    exact (reports_unclosed (p := .unclosedAngle) h hopen rfl List.mem_cons_self).bind fun _ _ _ hpost => .pure hpost.1
  next hne =>
    obtain ⟨l, rest, hs⟩ := List.exists_cons_of_ne_nil hne
    exact .read h hs fun _ hread => .pure (hafter hread)

theorem reports_skipAngles (h : s.Steady all) : Reports 0 [] s skipAngles fun _ => State.Steady all := by
  refine .take h (fun opener s₁ hread => ?_) fun _ => .pure h
  have hrounds : Reports 0 [opener] s₁ (iterate (angleRound opener) 1) fun _ => State.Steady all :=
    .iterate (fun _ s => s.Steady all ∧ s.Open opener) (progress_angleRound opener)
      (fun depth _ hs => reports_angleRound hs.1 hs.2 depth) ⟨hread.fresh.toSteady, hread.opened⟩
  exact hrounds.bind fun _ _ _ hsteady => .pure hsteady

theorem reports_skipAnyAngles (h : s.Steady all) : Reports 0 [] s skipAnyAngles fun _ => State.Steady all :=
  .isAt (fun _ _ _ => reports_skipAngles h) fun _ => .pure h

theorem reports_modifierRound (h : s.Steady all) (isStatic : Bool) :
    Reports 0 [] s (modifierRound isStatic) fun turn =>
      turn.Leaves (fun _ => State.Steady all) fun _ => State.Steady all := by
  refine .get ?_
  split
  · exact (reports_advance h.toOnce).bind fun _ _ _ hpost => .pure hpost.1.toSteady
  · exact (reports_advance h.toOnce).bind fun _ _ _ hpost => .pure hpost.1.toSteady
  · refine (reports_advance h.toOnce).bind fun _ s₁ _ h₁ => ?_
    refine (reports_advance h₁.1.toOnce).bind fun _ s₂ _ h₂ => ?_
    exact (reports_advance h₂.1.toOnce).bind fun _ s₃ _ h₃ => .pure h₃.1.toSteady
  · have hskip := reports_skipAnnotation h
    exact hskip.bind fun _ _ _ hsteady => .pure hsteady
  · exact .pure h

theorem reports_modifiers (h : s.Steady all) : Reports 0 [] s modifiers fun _ => State.Steady all :=
  .iterate _ progress_modifierRound (fun isStatic _ hs => reports_modifierRound hs isStatic) h

theorem reports_dimensions (h : s.Steady all) : Reports 0 [] s dimensions fun _ => State.Steady all := by
  refine .iterate (fun _ => State.Steady all) progress_dimensionRound (fun count s hs => .get ?_) h
  split
  · refine (reports_advance hs.toOnce).bind fun _ s₁ _ h₁ => ?_
    exact (reports_advance h₁.1.toOnce).bind fun _ s₂ _ h₂ => .pure h₂.1.toSteady
  · exact .pure hs

/-! ## Types and parameters -/

theorem reports_typeNameRound (h : s.Steady all) :
    Reports 0 [] s typeNameRound fun r => Passes (State.Steady all) (State.Steady all) r.2 := by
  refine (reports_skipAnyAngles h).bind fun _ s₁ _ h₁ => .get ?_
  split
  · refine (reports_advance h₁.toOnce).bind fun _ s₂ _ h₂ => ?_
    exact (reports_advance h₂.1.toOnce).bind fun _ s₃ _ h₃ => .pure h₃.1.toSteady
  · exact .pure h₁

/-- What can be reported behind a type: of the next token nothing is known but what is said of text that
is skipped, and a name can be missed. -/
structure State.BehindType (all : Lexemes) (s : State) : Prop where
  silent : ∀ p : Problem, 0 < p.layer → s.Silent p
  ready : ∀ after, 0 < (Problem.expectedIdentifier after).layer → s.Ready all (.expectedIdentifier after)

theorem reports_type (h : s.Steady all) (hready : s.Ready all .expectedType) :
    Reports 2 [] s type? fun r s' => s'.Steady all ∧ (r.isSome = true → s'.BehindType all) := by
  have hannotation (s : State) (h : s.Steady all) :
      Reports 0 [] s annotationRound (Passes (State.Steady all) (State.Steady all)) := by
    have hskip := reports_skipAnnotation h
    exact .isAt (fun _ _ _ => hskip.bind fun _ _ _ hsteady => .pure hsteady) fun _ => .pure h
  refine .step (.skipWhile progress_annotationRound hannotation h) (by decide) fun _ s₁ h₁ hs₁ => .get ?_
  split
  next first span rest hs =>
    refine .read hs₁ hs fun s₂ hread => ?_
    have hs₂ := hread.fresh.toSteady
    refine .step (.collect progress_typeNameRound (fun _ => reports_typeNameRound) hs₂) (by decide) ?_
    refine fun names s₃ h₃ hs₃ => .step (reports_dimensions hs₃) (by decide) fun count s₄ h₄ hs₄ => .pure ?_
    have hbehind := h₃.trans h₄
    refine ⟨hs₄, fun _ => ⟨fun p hp => ?_, fun after hafter => ?_⟩⟩
    · exact hs₂.silent hbehind hp (hread.fresh.silent p)
    · refine hs₂.toOnce.ready hs₄.toOnce hbehind hafter (hread.ready fun _ hstand => ?_)
      exact absurd rfl (hstand.1 first)
  next =>
    have hready₁ := h.toOnce.ready hs₁.toOnce h₁ (by decide) hready
    have hreport := reports_missing hs₁ hready₁ rfl nofun fun _ _ => trivial
    exact .here (hreport.bind fun _ s₂ _ hpost => .pure ⟨hpost.1, nofun⟩)

/-- Where a type is missing before a token, it is one with which no member begins, or which is read
before one. -/
def State.Settled (s : State) : Prop :=
  ∀ l, s.rest.head? = some l → ⟨.expectedType, l.span⟩ ∈ s.reported →
    l.token = .opener .brace ∨ l.token = .closer .brace ∨ l.token = .semicolon ∨ l.token = .closer .square

theorem State.Silent.settled (h : s.Silent .expectedType) : s.Settled := fun l hl hmem => absurd hmem (h l hl)

theorem State.Once.settled (h : s.Once all) (hs : s.Since n own s') (hn : n < Problem.expectedType.layer)
    (hsettled : s.Settled) : s'.Settled := by
  intro l hl hmem
  have hmem := (hs.layer _ hmem).resolve_right (Nat.not_le_of_lt hn)
  rcases hs.head? hl with hl | hl
  · exact hsettled l hl hmem
  · exact absurd rfl (h.behind _ hmem l hl)

theorem State.Settled.of_head {l : Lexeme} {rest : List Lexeme} (hs : s.rest = l :: rest)
    (hl : l.token = .opener .brace ∨ l.token = .closer .brace ∨ l.token = .semicolon ∨ l.token = .closer .square) :
    s.Settled := fun l' hl' _ => by
  rw [hs] at hl'
  exact Option.some.inj hl' ▸ hl

theorem State.Settled.of_nil (hs : s.rest = []) : s.Settled := fun l hl => by
  rw [hs] at hl
  cases hl

theorem reports_skipParametersRound (h : s.Steady all) :
    Reports 0 [] s skipParametersRound (Passes (State.Steady all) fun s' => s'.Steady all ∧ s'.Settled) := by
  refine .get ?_
  split
  next hs => exact .read h hs fun s₁ hread => .pure ⟨hread.fresh.toSteady, (hread.fresh.silent _).settled⟩
  next hs => exact .pure ⟨h, .of_head hs (.inl rfl)⟩
  next hs => exact .pure ⟨h, .of_head hs (.inr (.inl rfl))⟩
  next hs => exact .pure ⟨h, .of_head hs (.inr (.inr (.inl rfl)))⟩
  next hs => exact .pure ⟨h, .of_nil hs⟩
  · exact (reports_skipGroup h).bind fun _ _ _ hsteady => .pure hsteady
  · exact (reports_advance h.toOnce).bind fun _ _ _ hpost => .pure hpost.1.toSteady

theorem reports_parameter (h : s.Steady all) (hready : s.Ready all .expectedType) :
    Reports 2 [] s parameter? fun _ => State.Steady all := by
  refine .step (reports_modifiers h) (by decide) fun _ s₁ h₁ hs₁ => ?_
  have hready₁ := h.toOnce.ready hs₁.toOnce h₁ (by decide) hready
  refine .bind (reports_type hs₁ hready₁) fun r s₂ _ hpost => ?_
  obtain ⟨hs₂, hbehind⟩ := hpost
  cases r with
  | none => exact .pure hs₂
  | some text =>
    have hname := (hbehind rfl).ready .parameterType (by decide)
    refine .step (reports_accept hs₂ _) (Nat.zero_le 2) fun variadic s₃ h₃ hs₃ => ?_
    have hname₃ := hs₂.toOnce.ready hs₃.toOnce h₃ (by decide) hname
    refine .step (reports_name hs₃ hname₃ Anchor.noConfusion) (by decide) fun _ s₄ _ hpost => ?_
    exact .step (reports_dimensions hpost.1) (by decide) fun _ _ _ hsteady => .pure hsteady

theorem reports_parameterRound {opener : Span} (h : s.Steady all) (hready : s.Ready all .expectedType)
    (hopen : s.Open opener) :
    Reports 2 [opener] s (parameterRound opener) fun r => Passes
      (fun s' => s'.Steady all ∧ s'.Ready all .expectedType ∧ s'.Open opener)
      (fun s' => s'.Steady all ∧ s'.Settled) r.2 := by
  refine .step (reports_parameter h hready) (by decide) fun found s₁ h₁ hs₁ => ?_
  have hopen₁ := hopen.since h₁ List.not_mem_nil
  refine .accept hs₁ (fun span s₂ hread => .pure ⟨hread.fresh.toSteady, ?_, ?_⟩) fun _ => ?_
  · exact hread.ready fun hs _ => .lastType (.inl rfl) (hread.last hs)
  · exact hopen₁.since hread.since List.not_mem_nil
  refine .accept hs₁ (fun span s₂ hread => .pure ⟨hread.fresh.toSteady, ?_⟩) fun _ => ?_
  · exact (hread.fresh.silent _).settled
  have hunclosed := reports_unclosed (p := .unclosedParen) hs₁ hopen₁ rfl (List.mem_singleton_self opener)
  refine .bind (hunclosed.level (by decide)) fun _ s₂ _ hpost => ?_
  refine .step (.skipWhile progress_skipParametersRound (fun _ => reports_skipParametersRound) hpost.1) (by decide) ?_
  exact fun _ _ _ hend => .pure hend

/-- A parameter list that is not closed ends before what could be a body. -/
theorem reports_parameters (h : s.Steady all) (hsilent : s.Silent .expectedType) :
    Reports 2 [] s parameters fun _ s' => s'.Steady all ∧ s'.Settled := by
  refine .take h (fun opener s₁ hread => ?_) fun _ => .pure ⟨h, hsilent.settled⟩
  have hs₁ := hread.fresh.toSteady
  have hready₁ : s₁.Ready all .expectedType :=
    h.toOnce.ready hs₁.toOnce hread.since (by decide) (hsilent.ready hread.rest)
  refine .accept hs₁ (fun span s₂ hclose => .pure ⟨hclose.fresh.toSteady, ?_⟩) fun _ => ?_
  · exact (hclose.fresh.silent _).settled
  · exact .collect (progress_parameterRound opener) (fun s hs => reports_parameterRound hs.1 hs.2.1 hs.2.2)
      ⟨hs₁, hready₁, hread.opened⟩

end Grammar

end Nomenclator
