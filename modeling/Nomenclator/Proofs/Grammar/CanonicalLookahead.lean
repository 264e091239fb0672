/-
What looking ahead finds at written items.

A parenthesis is looked through to the one that closes it, and then an arrow
makes it the beginning of a lambda. So the parameters of a lambda have to be
such that the look comes through, and a group must not look like them,
whatever the items in it are.
-/
import Nomenclator.Proofs.Grammar.CanonicalTypes

namespace Nomenclator

namespace Canonical

open Grammar

/-! ## Through the parameters of a lambda -/

/-- A token that may stand between the parentheses of a lambda's parameters. -/
def InHead : Token → Prop
  | .opener .paren | .closer .paren | .opener .brace | .closer .brace | .semicolon | .arrow => False
  | _ => True

theorem closesBeforeArrow_append {inner : List Lexeme} (h : ∀ l ∈ inner, InHead l.token) (depth : Nat)
    (after : List Lexeme) : closesBeforeArrow depth (inner ++ after) = closesBeforeArrow depth after := by
  induction inner with
  | nil => rfl
  | cons l inner ih =>
    obtain ⟨hl, hinner⟩ := List.forall_mem_cons.mp h
    obtain ⟨t, span⟩ := l
    rw [List.cons_append]
    match t with
    | .opener .square | .closer .square | .keyword _ | .less | .greater | .atSign | .colon | .colonColon
    | .comma | .dot | .ellipsis | .equal | .question | .operator | .number | .string | .character
    | .identifier _ | .invalid => exact ih hinner

theorem listed_eq (stop : Token) (parts : List (List Token)) :
    ∃ inner, listed stop parts = inner ++ [stop] ∧
      ∀ t ∈ inner, t = .comma ∨ ∃ part ∈ parts, t ∈ part := by
  match parts with
  | [] => exact ⟨[], rfl, nofun⟩
  | [part] => exact ⟨part, rfl, fun t ht => .inr ⟨part, by simp, ht⟩⟩
  | part :: next :: parts =>
    obtain ⟨inner, heq, hinner⟩ := listed_eq stop (next :: parts)
    refine ⟨part ++ .comma :: inner, by rw [listed, heq]; simp, fun t ht => ?_⟩
    rcases List.mem_append.mp ht with ht | ht
    · exact .inr ⟨part, by simp, ht⟩
    rcases List.mem_cons.mp ht with rfl | ht
    · exact .inl rfl
    rcases hinner t ht with rfl | ⟨p, hp, ht⟩
    · exact .inl rfl
    · exact .inr ⟨p, List.mem_cons_of_mem _ hp, ht⟩

theorem TypeName.inHead (type : TypeName) : ∀ t ∈ type.tokens, InHead t := by
  intro t ht
  rw [TypeName.tokens, dotted, List.mem_append, List.mem_cons, List.mem_flatMap, List.mem_flatten] at ht
  rcases ht with (rfl | ⟨name, -, ht⟩) | ⟨square, hs, ht⟩
  · trivial
  · simp only [List.mem_cons, List.not_mem_nil, or_false] at ht
    rcases ht with rfl | rfl <;> trivial
  · rw [List.eq_of_mem_replicate hs] at ht
    simp only [bracketed, List.nil_append, List.mem_cons, List.not_mem_nil, or_false] at ht
    rcases ht with rfl | rfl <;> trivial

theorem Parameter.inHead (p : Parameter) : ∀ t ∈ p.tokens, InHead t := by
  intro t ht
  rw [Parameter.tokens, List.mem_append, List.mem_append, List.mem_singleton] at ht
  rcases ht with ht | ht | rfl
  · exact p.type.inHead t ht
  · split at ht
    · rw [List.mem_singleton.mp ht]
      trivial
    · exact absurd ht List.not_mem_nil
  · trivial

/-- The tokens before an arrow: a name, or a list in parentheses. -/
theorem Head.tokens_eq (head : Head) :
    (∃ x, head.tokens = [.identifier x]) ∨
      ∃ inner, head.tokens = bracketed .paren inner ∧ ∀ t ∈ inner, InHead t := by
  have hlist : ∀ parts : List (List Token), (∀ part ∈ parts, ∀ t ∈ part, InHead t) →
      ∃ inner, Token.opener .paren :: listed (.closer .paren) parts = bracketed .paren inner ∧
        ∀ t ∈ inner, InHead t := by
    intro parts hp
    obtain ⟨inner, heq, hinner⟩ := listed_eq (.closer .paren) parts
    refine ⟨inner, by rw [heq, bracketed], fun t ht => ?_⟩
    rcases hinner t ht with rfl | ⟨part, hpart, ht⟩
    · trivial
    · exact hp part hpart t ht
  cases head with
  | name x => exact .inl ⟨x, rfl⟩
  | names xs =>
    refine .inr (hlist _ fun part hp t ht => ?_)
    obtain ⟨x, -, rfl⟩ := List.mem_map.mp hp
    rw [List.mem_singleton.mp ht]
    trivial
  | typed parameters =>
    refine .inr (hlist _ fun part hp t ht => ?_)
    obtain ⟨p, -, rfl⟩ := List.mem_map.mp hp
    exact p.inHead t ht

theorem startsLambda_head (head : Head) {ts : List Token} {lexemes : List Lexeme}
    (h : lexemes.map Lexeme.token = head.tokens ++ .arrow :: ts) : startsLambda lexemes = true := by
  rcases head.tokens_eq with ⟨x, hx⟩ | ⟨inner, hinner, hin⟩
  · rw [hx] at h
    obtain ⟨_, after, rfl, h'⟩ := map_token_eq_cons h
    obtain ⟨_, after, rfl, -⟩ := map_token_eq_cons h'
    rfl
  · rw [hinner, bracketed, List.cons_append, List.append_assoc] at h
    obtain ⟨_, after, rfl, h'⟩ := map_token_eq_cons h
    obtain ⟨middle, after, rfl, rfl, h''⟩ := List.map_eq_append_iff.mp h'
    obtain ⟨_, after, rfl, h'''⟩ := map_token_eq_cons h''
    obtain ⟨_, after, rfl, -⟩ := map_token_eq_cons h'''
    rw [startsLambda, closesBeforeArrow_append (fun l hl => hin _ (List.mem_map_of_mem hl))]
    rfl

/-! ## Through anything else -/

/-- Looked through, these tokens do not lead to an arrow that is not behind them. -/
def Transparent (ts : List Token) : Prop :=
  ∀ (inner after : List Lexeme) (depth : Nat), inner.map Lexeme.token = ts → 1 ≤ depth →
    closesBeforeArrow depth (inner ++ after) = true → closesBeforeArrow depth after = true

namespace Transparent

variable {ts ts' : List Token}

theorem of_inHead (h : ∀ t ∈ ts, InHead t) : Transparent ts := by
  intro inner after depth hi _ hc
  rwa [closesBeforeArrow_append fun l hl => h _ (hi ▸ List.mem_map_of_mem hl)] at hc

theorem append (h : Transparent ts) (h' : Transparent ts') : Transparent (ts ++ ts') := by
  intro inner after depth hi hd hc
  obtain ⟨a, b, rfl, ha, hb⟩ := List.map_eq_append_iff.mp hi
  rw [List.append_assoc] at hc
  exact h' b after depth hb hd (h a _ depth ha hd hc)

theorem cons {t : Token} (ht : InHead t) (h : Transparent ts) : Transparent (t :: ts) :=
  append (of_inHead fun _ hm => List.mem_singleton.mp hm ▸ ht) h

/-- Nothing is looked for behind a token that ends an expression. -/
theorem of_end {t : Token} (ht : t = .opener .brace ∨ t = .closer .brace ∨ t = .semicolon ∨ t = .arrow) :
    Transparent (t :: ts) := by
  intro inner after depth hi _ hc
  obtain ⟨span, inner, rfl, -⟩ := map_token_eq_cons hi
  rcases ht with rfl | rfl | rfl | rfl <;> exact absurd hc Bool.false_ne_true

theorem bracketed (bracket : Bracket) (h : Transparent ts) : Transparent (bracketed bracket ts) := by
  cases bracket with
  | brace => exact of_end (.inl rfl)
  | square => exact cons trivial (h.append (cons trivial (of_inHead nofun)))
  | paren =>
    intro inner after depth hi hd hc
    obtain ⟨_, inner, rfl, hi'⟩ := map_token_eq_cons hi
    obtain ⟨a, b, rfl, ha, hb⟩ := List.map_eq_append_iff.mp hi'
    obtain ⟨_, b, rfl, hnil⟩ := map_token_eq_cons hb
    rw [List.map_eq_nil_iff.mp hnil] at hc
    rw [List.cons_append, List.append_assoc, closesBeforeArrow] at hc
    have hc' := h a _ (depth + 1) ha (by omega) hc
    rw [List.cons_append, closesBeforeArrow, if_neg (by omega)] at hc'
    exact hc'

end Transparent

theorem Head.transparent (head : Head) : Transparent head.tokens := by
  rcases head.tokens_eq with ⟨x, hx⟩ | ⟨inner, hinner, hin⟩
  · rw [hx]
    exact .of_inHead (by simp [InHead])
  · rw [hinner]
    exact .bracketed _ (.of_inHead hin)

/-- A type declaration has a body. -/
theorem Decl.transparent (decl : Decl) : Transparent decl.tokens := by
  obtain ⟨kind, name, constants, members⟩ := decl
  rw [Decl.tokens]
  refine .append (.of_inHead (by cases kind <;> simp [kindTokens, kindWord, InHead])) ?_
  refine .cons trivial (.append ?_ (.of_end (.inl rfl)))
  cases kind with
  | recordType =>
    show Transparent (bracketed .paren [])
    exact .bracketed .paren (.of_inHead nofun)
  | _ => exact .of_inHead nofun

theorem Setting.Admits.transparent {setting : Setting} {t : Token} (h : setting.Admits t) :
    Transparent [t] := by
  match t with
  | .semicolon => exact .of_end (.inr (.inr (.inl rfl)))
  | .comma | .identifier _ | .number | .string | .character | .operator | .equal | .question | .colon
  | .less | .greater => exact .of_inHead (by simp [InHead])

mutual

theorem Item.transparent {setting : Setting} : ∀ item : Item, item.WellFormed setting →
    Transparent item.tokens
  | .localType decl, _ => decl.transparent
  | .allocation type arguments none, h =>
    .cons trivial (.append (.of_inHead type.inHead) (.bracketed _ (Item.transparentOf arguments h)))
  | .allocation type arguments (some _), h =>
    .cons trivial (.append (.of_inHead type.inHead)
      (.append (.bracketed _ (Item.transparentOf arguments h.1)) (.of_end (.inl rfl))))
  | .lambda head _, _ => head.transparent.append (.of_end (.inr (.inr (.inr rfl))))
  | .expression head _, _ => head.transparent.append (.of_end (.inr (.inr (.inr rfl))))
  | .group _ code, h => .bracketed _ (Item.transparentOf code h)
  | .mark _, h => Setting.Admits.transparent h

theorem Item.transparentOf {setting : Setting} : ∀ items : List Item,
    Item.AllWellFormed setting items → Transparent (Item.tokensOf items)
  | [], _ => .of_inHead nofun
  | i :: is, h => .append (Item.transparent i h.1) (Item.transparentOf is h.2.2)

end

end Canonical

end Nomenclator
