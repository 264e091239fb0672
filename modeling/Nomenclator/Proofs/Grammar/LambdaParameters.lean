/-
How far the parameters of a lambda in parentheses go.

At a parenthesis the parser looks ahead and counts the parentheses that are
open. Where it finds a lambda it reads on to the first arrow, and counts
nothing. Both come to the same arrow: the count is back where it began only
where the group ends, and an arrow before that would have ended the look.
Until then some parenthesis is open, so one that closes never takes the
count below zero. Nothing of this asks for properly nested brackets.
-/
import Nomenclator.Proofs.Grammar.CodeScan

namespace Nomenclator.Grammar

/-! ## The count -/

/-- Looking ahead with a count of the parentheses that are open. Where one closes while none is open,
the count cannot go down and nothing comes out. -/
def closesBeforeArrow? : Nat → List Lexeme → Option Bool
  | _, [] => some false
  | depth, ⟨.opener .paren, _⟩ :: after => closesBeforeArrow? (depth + 1) after
  | 0, ⟨.closer .paren, _⟩ :: _ => none
  | depth + 1, ⟨.closer .paren, _⟩ :: after =>
    if depth = 0 then some (after.head?.any (·.token = .arrow)) else closesBeforeArrow? depth after
  | _, ⟨.opener .brace, _⟩ :: _ | _, ⟨.closer .brace, _⟩ :: _ | _, ⟨.semicolon, _⟩ :: _
  | _, ⟨.arrow, _⟩ :: _ => some false
  | depth, _ :: after => closesBeforeArrow? depth after

/-- Once a parenthesis is open the count never fails: the look ends where the last one closes. -/
theorem closesBeforeArrow?_succ (depth : Nat) (lexemes : List Lexeme) :
    closesBeforeArrow? (depth + 1) lexemes = some (closesBeforeArrow (depth + 1) lexemes) := by
  induction lexemes generalizing depth with
  | nil => rfl
  | cons l after ih =>
    obtain ⟨t, span⟩ := l
    cases t with
    | opener bracket =>
      cases bracket with
      | paren => exact ih (depth + 1)
      | square => exact ih depth
      | brace => rfl
    | closer bracket =>
      cases bracket with
      | paren =>
        cases depth with
        | zero => rfl
        | succ depth => exact ih depth
      | square => exact ih depth
      | brace => rfl
    | semicolon | arrow => rfl
    | _ => exact ih depth

/-- It can fail where the look does not begin at an opening parenthesis. -/
example : closesBeforeArrow? 0 [⟨.closer .paren, ⟨0, 1⟩⟩] = none := rfl

/-! ## The group -/

/-- As many parentheses close among these tokens as open, and so many more. -/
def ClosesParens (depth : Nat) (ts : List Token) : Prop :=
  ts.count (.closer .paren) = ts.count (.opener .paren) + depth

instance (depth : Nat) (ts : List Token) : Decidable (ClosesParens depth ts) := inferInstanceAs (Decidable (_ = _))

/-- With so many parentheses open, the tokens up to number `k` are the fewest that close them all. None
of them ends a head, and an arrow comes behind. -/
structure HeadEndsAt (depth : Nat) (ts : List Token) (k : Nat) : Prop where
  closes : ClosesParens depth (ts.take (k + 1))
  shortest : ∀ j < k, ¬ ClosesParens depth (ts.take (j + 1))
  clean : ∀ t ∈ ts.take (k + 1), t.endsHead = false
  arrow : ts[k + 1]? = some .arrow

theorem not_closesParens_nil (depth : Nat) : ¬ ClosesParens (depth + 1) [] := by simp [ClosesParens]

variable {t : Token} {ts : List Token} {depth depth' : Nat}

/-- A token that leaves parentheses open is the first of a head if a head goes on behind it. -/
theorem exists_headEndsAt_cons (hclean : t.endsHead = false)
    (hcloses : ∀ us, ClosesParens depth (t :: us) ↔ ClosesParens (depth' + 1) us) :
    (∃ k, HeadEndsAt depth (t :: ts) k) ↔ ∃ k, HeadEndsAt (depth' + 1) ts k := by
  constructor
  · rintro ⟨k, h⟩
    cases k with
    | zero => exact absurd ((hcloses []).mp h.closes) (not_closesParens_nil depth')
    | succ k =>
      refine ⟨k, (hcloses _).mp h.closes, fun j hj hshorter => ?_, fun u hu => ?_, h.arrow⟩
      · exact h.shortest (j + 1) (by omega) ((hcloses _).mpr hshorter)
      · exact h.clean u (List.mem_cons_of_mem t hu)
  · rintro ⟨k, h⟩
    refine ⟨k + 1, (hcloses _).mpr h.closes, fun j hj hshorter => ?_, fun u hu => ?_, h.arrow⟩
    · have hbehind := (hcloses _).mp hshorter
      cases j with
      | zero => exact not_closesParens_nil depth' hbehind
      | succ j => exact h.shortest j (by omega) hbehind
    · rcases List.mem_cons.mp hu with rfl | hu
      · exact hclean
      · exact h.clean u hu

theorem closesParens_opener (us : List Token) :
    ClosesParens depth (.opener .paren :: us) ↔ ClosesParens (depth + 1) us := by
  simp [ClosesParens, Nat.add_assoc, Nat.add_comm 1]

theorem closesParens_closer (us : List Token) :
    ClosesParens (depth + 1) (.closer .paren :: us) ↔ ClosesParens depth us := by
  simp [ClosesParens, ← Nat.add_assoc]

theorem closesParens_pass (hopener : t ≠ .opener .paren) (hcloser : t ≠ .closer .paren) (us : List Token) :
    ClosesParens depth (t :: us) ↔ ClosesParens depth us := by
  rw [ClosesParens, List.count_cons_of_ne hopener, List.count_cons_of_ne hcloser, ClosesParens]

/-- The last parenthesis that is open closes, and the head ends with it. -/
theorem exists_headEndsAt_last :
    (∃ k, HeadEndsAt 1 (.closer .paren :: ts) k) ↔ ts.head? = some .arrow := by
  have hlast : ClosesParens 1 [.closer .paren] := rfl
  constructor
  · rintro ⟨k, h⟩
    cases k with
    | zero => exact List.head?_eq_getElem? ▸ h.arrow
    | succ k => exact absurd hlast (h.shortest 0 (by omega))
  · intro harrow
    refine ⟨0, hlast, by simp, ?_, ?_⟩
    · intro t ht
      obtain rfl := List.mem_singleton.mp ht
      rfl
    · exact List.head?_eq_getElem? ▸ harrow

theorem not_headEndsAt_of_endsHead (hends : t.endsHead = true) : ¬ ∃ k, HeadEndsAt depth (t :: ts) k := by
  rintro ⟨k, h⟩
  have hclean := h.clean t List.mem_cons_self
  simp [hends] at hclean

/-- Looking ahead finds what ends the head, if anything does. -/
theorem closesBeforeArrow_iff (depth : Nat) (lexemes : List Lexeme) :
    closesBeforeArrow (depth + 1) lexemes = true ↔
      ∃ k, HeadEndsAt (depth + 1) (lexemes.map Lexeme.token) k := by
  induction lexemes generalizing depth with
  | nil =>
    refine ⟨nofun, ?_⟩
    rintro ⟨k, h⟩
    exact absurd h.arrow nofun
  | cons l after ih =>
    obtain ⟨t, span⟩ := l
    rw [List.map_cons]
    by_cases hopener : t = .opener .paren
    · subst hopener
      exact (ih (depth + 1)).trans (exists_headEndsAt_cons rfl closesParens_opener).symm
    by_cases hcloser : t = .closer .paren
    · subst hcloser
      -- Only the parenthesis that closes the last open one is followed by a look at the arrow.
      cases depth with
      | zero =>
        rw [exists_headEndsAt_last]
        show after.head?.any (·.token = .arrow) = true ↔ _
        cases after <;> simp
      | succ depth => exact (ih depth).trans (exists_headEndsAt_cons rfl closesParens_closer).symm
    cases hends : t.endsHead with
    | true =>
      rw [closesBeforeArrow_end hends]
      exact iff_of_false Bool.false_ne_true (not_headEndsAt_of_endsHead hends)
    | false =>
      rw [closesBeforeArrow_pass hends hopener hcloser]
      exact (ih depth).trans (exists_headEndsAt_cons hends (closesParens_pass hopener hcloser)).symm

/-! ## Ahead and behind -/

variable {rules : Rules} {s : State} {k : Nat}

/-- At a parenthesis, with none open before it. -/
theorem startsLambda_iff_headEndsAt (hs : s.tokens.head? = some (.opener .paren)) :
    startsLambda s.rest = true ↔ ∃ k, HeadEndsAt 0 s.tokens k := by
  obtain ⟨ts, htokens⟩ := List.head?_eq_some_iff.mp hs
  obtain ⟨span, after, hrest, rfl⟩ := map_token_eq_cons htokens
  rw [htokens, hrest, exists_headEndsAt_cons rfl closesParens_opener]
  exact closesBeforeArrow_iff 0 after

namespace HeadEndsAt

theorem take_eq {lexemes : List Lexeme} (h : HeadEndsAt depth (lexemes.map Lexeme.token) k) :
    ∃ span, lexemes.take (k + 2) = lexemes.take (k + 1) ++ [⟨.arrow, span⟩] := by
  obtain ⟨⟨_, span⟩, harrow, rfl⟩ := Option.map_eq_some_iff.mp (List.getElem?_map ▸ h.arrow)
  exact ⟨span, by rw [List.take_add_one, harrow, Option.toList_some]⟩

theorem ne_arrow {lexemes : List Lexeme} (h : HeadEndsAt depth (lexemes.map Lexeme.token) k) :
    ∀ l ∈ lexemes.take (k + 1), l.token ≠ .arrow := by
  intro l hl harrow
  have hmem : l.token ∈ (lexemes.map Lexeme.token).take (k + 1) := by
    rw [← List.map_take]
    exact List.mem_map_of_mem hl
  have hclean := h.clean _ hmem
  simp [harrow, Token.endsHead] at hclean

/-- The first arrow is the one behind the head, so that far the lambda is read before its body. -/
theorem lambda_eq (h : HeadEndsAt depth s.tokens k) (rules : Rules) :
    lambda rules s =
      lambdaFrom rules s.nextId s.here (s.past (s.rest.take (k + 2)) (s.rest.drop (k + 2)) 1) := by
  obtain ⟨arrow, htake⟩ := h.take_eq
  have hs : s.rest = s.rest.take (k + 1) ++ ⟨.arrow, arrow⟩ :: s.rest.drop (k + 2) := by
    rw [List.append_cons, ← htake, List.take_append_drop]
  rw [lambda_past hs h.ne_arrow, htake]

end HeadEndsAt

/-- In code, a parenthesis begins a lambda if a head ends behind it, and its body comes next behind the
arrow. Else it begins a group. -/
theorem codeRound_parenthesis {stop : CodeEnd} {span : Span} {after : List Lexeme}
    (hs : s.rest = ⟨.opener .paren, span⟩ :: after) :
    (∃ k, HeadEndsAt 0 s.tokens k ∧ codeRound rules stop s =
      (do return ([← lambdaFrom rules s.nextId s.here], true))
        (s.past (s.rest.take (k + 2)) (s.rest.drop (k + 2)) 1)) ∨
    (∀ k, ¬ HeadEndsAt 0 s.tokens k) ∧
      codeRound rules stop s = (do return (← rules.code (.close .paren span), true)) s.advance := by
  have hiff := startsLambda_iff_headEndsAt (s := s) (by rw [State.tokens, hs]; rfl)
  cases hlambda : startsLambda s.rest with
  | true =>
    obtain ⟨k, hk⟩ := hiff.mp hlambda
    refine .inl ⟨k, hk, ?_⟩
    rw [codeRound_lambda hs (hs ▸ hlambda), hk.lambda_eq]
    rfl
  | false =>
    refine .inr ⟨fun k hk => ?_, ?_⟩
    · exact absurd (hiff.mpr ⟨k, hk⟩) (by simp [hlambda])
    · rw [codeRound_group hs (hs ▸ hlambda)]
      rfl

/-- **Looking ahead and reading agree on lambdas in parentheses,** whatever tokens come. At a parenthesis,
the count of the look stays above zero wherever it is taken down. The look finds a lambda just if the
shortest group of tokens in which as many parentheses close as open has no brace, semicolon or arrow in
it and an arrow behind it. The lambda is then read past this arrow, and no further, before its body. -/
theorem lambda_read_as_foreseen (rules : Rules) {s : State} (hs : s.tokens.head? = some (.opener .paren)) :
    closesBeforeArrow? 0 s.rest = some (startsLambda s.rest) ∧
      (startsLambda s.rest = true ↔ ∃ k, HeadEndsAt 0 s.tokens k) ∧
      ∀ k, HeadEndsAt 0 s.tokens k →
        lambda rules s =
          lambdaFrom rules s.nextId s.here (s.past (s.rest.take (k + 2)) (s.rest.drop (k + 2)) 1) := by
  refine ⟨?_, startsLambda_iff_headEndsAt hs, fun k hk => hk.lambda_eq rules⟩
  obtain ⟨ts, htokens⟩ := List.head?_eq_some_iff.mp hs
  obtain ⟨span, after, hrest, -⟩ := map_token_eq_cons htokens
  rw [hrest]
  exact closesBeforeArrow?_succ 0 after

/-- At `( a ] ( ) ) -> }`, where neither the square bracket nor the brace has its other half. -/
theorem lambda_read_as_foreseen_unnested :
    let head : List Lexeme := [⟨.opener .paren, ⟨0, 1⟩⟩, ⟨.identifier "a", ⟨1, 2⟩⟩, ⟨.closer .square, ⟨2, 3⟩⟩,
      ⟨.opener .paren, ⟨3, 4⟩⟩, ⟨.closer .paren, ⟨4, 5⟩⟩, ⟨.closer .paren, ⟨5, 6⟩⟩, ⟨.arrow, ⟨6, 8⟩⟩]
    let s : State := { rest := head ++ [⟨.closer .brace, ⟨8, 9⟩⟩] }
    s.tokens.head? = some (.opener .paren) ∧ HeadEndsAt 0 s.tokens 5 ∧
      closesBeforeArrow? 0 s.rest = some true ∧ startsLambda s.rest = true ∧
      lambda (Grammar.rules 9) s =
        lambdaFrom (Grammar.rules 9) 0 ⟨0, 1⟩ (s.past head [⟨.closer .brace, ⟨8, 9⟩⟩] 1) := by
  intro head s
  have hends : HeadEndsAt 0 s.tokens 5 := ⟨by decide, by decide, by decide, rfl⟩
  obtain ⟨hcount, hstarts, hread⟩ := lambda_read_as_foreseen (Grammar.rules 9) (s := s) rfl
  have htrue := hstarts.mpr ⟨5, hends⟩
  exact ⟨rfl, hends, hcount.trans (congrArg some htrue), htrue, hread 5 hends⟩

end Nomenclator.Grammar
