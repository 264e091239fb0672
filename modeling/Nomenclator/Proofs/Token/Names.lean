/-
The identifiers that cutting a text produces: what they are made of, and
that they become words of the name grammar once `$` is replaced.
-/
import Nomenclator.Grammar.Rules
import Nomenclator.Proofs.Text.Words

namespace Nomenclator

open Text

/-- An identifier of the source language. -/
structure IsName (name : String) : Prop where
  chars : ∃ c cs, name.toList = c :: cs ∧ Cut.isNameStart c = true ∧ ∀ d ∈ cs, Cut.isNameChar d = true
  noKeyword : Keyword.ofSpelling? name = none

theorem IsName.isNameChar {name : String} (h : IsName name) :
    ∀ c ∈ name.toList, Cut.isNameChar c = true := by
  obtain ⟨first, tail, htext, hfirst, htail⟩ := h.chars
  intro c hc
  rw [htext] at hc
  rcases List.mem_cons.mp hc with rfl | hc
  · simp only [Cut.isNameStart, Bool.or_eq_true] at hfirst
    simp only [Cut.isNameChar, Char.isAlphanum, Bool.or_eq_true]
    tauto
  · exact htail c hc

/-- No separator of the name grammar is in an identifier, apart from `$`. -/
theorem IsName.not_mem {name : String} (h : IsName name) {c : Char} (hc : Cut.isNameChar c = false) :
    c ∉ name.toList :=
  not_mem_of_forall h.isNameChar hc

/-! ## Cutting -/

theorem Cut.literal_token (token : Token) (opening : Nat) (measured : Nat × Bool) :
    (literal token opening measured).token = some token ∨
      (literal token opening measured).token = some .invalid := by
  obtain ⟨length, closed⟩ := measured
  cases closed
  · exact .inr rfl
  · exact .inl rfl

theorem Token.eq_of_ofWord {word name : String} (h : ofWord word = .identifier name) :
    name = word ∧ Keyword.ofSpelling? word = none := by
  rw [ofWord] at h
  split at h
  next => exact absurd h nofun
  next hnone => exact ⟨(identifier.inj h).symm, hnone⟩

theorem Cut.word_token {c : Char} {cs : List Char} {name : String} (hc : isNameStart c = true)
    (h : (word c cs).token = some (.identifier name)) : IsName name := by
  obtain ⟨rfl, hnone⟩ := Token.eq_of_ofWord (Option.some.inj h)
  refine ⟨⟨c, cs.takeWhile isNameChar, String.toList_ofList, hc, fun d hd => ?_⟩, hnone⟩
  exact List.all_eq_true.mp List.all_takeWhile d hd

/-- Only the rule for words makes identifiers. -/
theorem Cut.next_eq_word {c : Char} {cs : List Char} {name : String}
    (h : (next c cs).token = some (.identifier name)) : isNameStart c = true ∧ next c cs = word c cs := by
  have hslash : (slash cs).token ≠ some (.identifier name) := by
    rw [slash.eq_def]
    split <;> exact nofun
  have hdouble : (doubleQuote cs).token ≠ some (.identifier name) := by
    rw [doubleQuote.eq_def]
    split <;> rcases literal_token .string _ _ with hl | hl <;> rw [hl] <;> exact nofun
  have hsingle : (singleQuote cs).token ≠ some (.identifier name) := by
    rw [singleQuote.eq_def]
    split
    · exact nofun
    · rcases literal_token .character _ _ with hl | hl <;> rw [hl] <;> exact nofun
  unfold next at h ⊢
  split at h
  case h_25 => exact absurd h hslash
  case h_26 => exact absurd h hdouble
  case h_27 => exact absurd h hsingle
  case h_28 =>
    split at h
    · cases h
    next hspace =>
      split at h
      · cases h
      next hdigit =>
        split at h
        next hstart => exact ⟨hstart, by rw [if_neg hspace, if_neg hdigit, if_pos hstart]⟩
        next => cases h
  all_goals first | cases h | (split at h <;> cases h)

theorem Cut.next_token {c : Char} {cs : List Char} {name : String}
    (h : (next c cs).token = some (.identifier name)) : IsName name := by
  obtain ⟨hstart, hword⟩ := next_eq_word h
  exact word_token hstart (hword ▸ h)

theorem pieces_names (text : List Char) : ∀ p ∈ pieces text, ∀ name,
    p.token = some (.identifier name) → IsName name := by
  fun_induction pieces text with
  | case1 => exact fun _ hp => absurd hp List.not_mem_nil
  | case2 c cs cut ih =>
    intro p hp name hname
    rcases List.mem_cons.mp hp with rfl | hp
    · exact Cut.next_token hname
    · exact ih p hp name hname

/-- A token is one of the pieces and stands where the pieces before it end. -/
theorem Lexeme.eq_append_of_mem_place {l : Lexeme} {start : Nat} {ps : List Piece} (h : l ∈ place start ps) :
    ∃ front p back, ps = front ++ p :: back ∧ p.token = some l.token ∧
      l.span.start = start + Text.byteSize (front.flatMap Piece.text) ∧
      l.span.stop = l.span.start + Text.byteSize p.text := by
  induction ps generalizing start with
  | nil => exact absurd h List.not_mem_nil
  | cons p ps ih =>
    have hlater (h : l ∈ place (start + Text.byteSize p.text) ps) : ∃ front q back,
        p :: ps = front ++ q :: back ∧ q.token = some l.token ∧
          l.span.start = start + Text.byteSize (front.flatMap Piece.text) ∧
          l.span.stop = l.span.start + Text.byteSize q.text := by
      obtain ⟨front, q, back, rfl, htoken, hstart, hstop⟩ := ih h
      refine ⟨p :: front, q, back, rfl, htoken, ?_, hstop⟩
      rw [hstart, List.flatMap_cons, Text.byteSize_append, Nat.add_assoc]
    rw [place] at h
    cases htoken : p.token with
    | none =>
      rw [htoken] at h
      exact hlater h
    | some t =>
      rw [htoken] at h
      rcases List.mem_cons.mp h with rfl | h
      · exact ⟨[], p, ps, rfl, htoken, rfl, rfl⟩
      · exact hlater h

theorem Lexeme.mem_place {l : Lexeme} {start : Nat} {ps : List Piece} (h : l ∈ place start ps) :
    ∃ p ∈ ps, p.token = some l.token := by
  obtain ⟨front, p, back, rfl, ht, -⟩ := eq_append_of_mem_place h
  exact ⟨p, List.mem_append_right front List.mem_cons_self, ht⟩

/-- Every identifier among the tokens of a text is one. -/
theorem lex_names (text : String) : ∀ l ∈ lex text, ∀ name, l.token = .identifier name → IsName name := by
  intro l hl name hname
  obtain ⟨p, hp, ht⟩ := Lexeme.mem_place hl
  exact pieces_names _ p hp name (hname ▸ ht)

/-! ## Names without `$` -/

/-- A word of the name grammar that is no keyword: no lambda's host is mistaken for it. -/
structure IsSimpleName (name : String) : Prop where
  identifier : isIdentifier name.toList = true
  ne_static : name ≠ "static"
  ne_new : name ≠ "new"

theorem IsName.ne_spelling {name : String} (h : IsName name) (k : Keyword) : name ≠ k.spelling := by
  intro he
  have hnone := List.find?_eq_none.mp h.noKeyword k k.mem_all
  exact hnone (decide_eq_true he.symm)

theorem IsName.ne_empty {name : String} (h : IsName name) : name ≠ "" := by
  intro he
  obtain ⟨c, cs, hcs, -⟩ := h.chars
  rw [he] at hcs
  exact absurd hcs nofun

theorem isWordStart_of_isNameStart {c : Char} (h : Cut.isNameStart c = true) :
    isWordStart (if c = '$' then '_' else c) = true := by
  split
  · rfl
  next hc =>
    simp only [Cut.isNameStart, Bool.or_eq_true, beq_iff_eq, hc, or_false] at h
    simp only [isWordStart, Bool.or_eq_true, beq_iff_eq]
    exact h

theorem isWordChar_of_isNameChar {c : Char} (h : Cut.isNameChar c = true) :
    isWordChar (if c = '$' then '_' else c) = true := by
  split
  · rfl
  next hc =>
    simp only [Cut.isNameChar, Bool.or_eq_true, beq_iff_eq, hc, or_false] at h
    simp only [isWordChar, Bool.or_eq_true, beq_iff_eq]
    exact h

theorem plainName_eq {name : String} (h : '$' ∉ name.toList) : Grammar.plainName name = name := by
  have hmap : name.toList.map (fun c => if c = '$' then '_' else c) = name.toList := by
    refine (List.map_congr_left fun c hc => ?_).trans (List.map_id _)
    have hne : c ≠ '$' := fun he => h (he ▸ hc)
    exact if_neg hne
  rw [Grammar.plainName, hmap, String.ofList_toList]

/-- A replaced `$` leaves an underscore, which no keyword has. -/
theorem plainName_ne {name word : String} (hne : name ≠ word) (hw : '_' ∉ word.toList) :
    Grammar.plainName name ≠ word := by
  intro he
  by_cases hdollar : '$' ∈ name.toList
  · rw [← he, Grammar.plainName, String.toList_ofList] at hw
    exact hw (List.mem_map.mpr ⟨'$', hdollar, rfl⟩)
  · rw [plainName_eq hdollar] at he
    exact hne he

theorem IsName.plainName {name : String} (h : IsName name) : IsSimpleName (Grammar.plainName name) := by
  refine ⟨?_, plainName_ne (h.ne_spelling .staticKw) (by decide),
    plainName_ne (h.ne_spelling .newKw) (by decide)⟩
  obtain ⟨c, cs, hcs, hc, htail⟩ := h.chars
  rw [Grammar.plainName, String.toList_ofList, hcs, List.map_cons, isIdentifier, Bool.and_eq_true,
    List.all_eq_true]
  refine ⟨isWordStart_of_isNameStart hc, fun d hd => ?_⟩
  obtain ⟨e, he, rfl⟩ := List.mem_map.mp hd
  exact isWordChar_of_isNameChar (htail e he)

end Nomenclator
