/-
Where a text is cut between two pieces, and what the pieces before that
place depend on.

A piece may look at some characters behind it, so what follows the place is
not without influence. But for a piece that ends in time it hardly matters:
words and numbers only need to be followed by something that does not
continue them, and a closed literal needs nothing at all.
-/
import Nomenclator.Token.Lexeme

namespace Nomenclator

/-! ## Tokens -/

/-- The tokens of a text without their places. -/
def tokensOf (text : List Char) : List Token := (pieces text).filterMap Piece.token

theorem Lexeme.map_token_place (start : Nat) (ps : List Piece) :
    (place start ps).map token = ps.filterMap Piece.token := by
  induction ps generalizing start with
  | nil => rfl
  | cons p ps ih =>
    rw [place, List.filterMap_cons]
    cases p.token with
    | none => exact ih _
    | some t => exact congrArg (t :: ·) (ih _)

theorem map_token_lex (text : String) : (lex text).map Lexeme.token = tokensOf text.toList :=
  Lexeme.map_token_place 0 _

theorem tokensOf_cons (c : Char) (cs : List Char) :
    tokensOf (c :: cs) = (Cut.next c cs).token.toList ++ tokensOf (cs.drop (Cut.next c cs).more) := by
  rw [tokensOf, pieces, List.filterMap_cons]
  cases (Cut.next c cs).token <;> rfl

/-- A text that begins with a given piece. -/
theorem tokensOf_piece {c : Char} {body after : List Char} {token : Option Token}
    (h : Cut.next c (body ++ after) = ⟨token, body.length⟩) :
    tokensOf (c :: (body ++ after)) = token.toList ++ tokensOf after := by
  rw [tokensOf_cons, h, List.drop_left]

/-! ## Seams -/

/-- Cutting `u ++ v` makes a cut between the two, and the pieces before it have the given tokens. -/
inductive Seam (v : List Char) : List Char → List (Option Token) → Prop
  | here : Seam v [] []
  | piece {c : Char} {u : List Char} {ts : List (Option Token)}
      (hfits : (Cut.next c (u ++ v)).more ≤ u.length)
      (hrest : Seam v (u.drop (Cut.next c (u ++ v)).more) ts) :
      Seam v (c :: u) ((Cut.next c (u ++ v)).token :: ts)

theorem Seam.tokensOf_append {u v : List Char} {ts : List (Option Token)} (h : Seam v u ts) :
    tokensOf (u ++ v) = ts.reduceOption ++ tokensOf v := by
  induction h with
  | here => rfl
  | @piece c u ts hfits hrest ih =>
    have hdrop : (u ++ v).drop (Cut.next c (u ++ v)).more = u.drop (Cut.next c (u ++ v)).more ++ v :=
      List.drop_append_of_le_length hfits
    rw [List.cons_append, tokensOf_cons, hdrop, ih, ← List.append_assoc]
    cases (Cut.next c (u ++ v)).token <;> rfl

/-! ## What a piece depends on -/

namespace Cut

theorem takeWhile_append_eq {p : Char → Bool} {a v : List Char}
    (h : ((a ++ v).takeWhile p).length ≤ a.length ∨ ∀ d ∈ v.head?, p d = false) :
    (a ++ v).takeWhile p = a.takeWhile p := by
  rw [List.takeWhile_append] at h ⊢
  split
  next hall =>
    have hv : v.takeWhile p = [] := by
      rcases h with h | h
      · rw [if_pos hall, List.length_append] at h
        exact List.length_eq_zero_iff.mp (by omega)
      · cases v with
        | nil => rfl
        | cons d v => exact List.takeWhile_cons_of_neg (by simp [h d rfl])
    have ha : a.takeWhile p = a := (List.takeWhile_prefix p).eq_of_length hall
    rw [hv, List.append_nil, ha]
  next => rfl

def spaces : List Char := [' ', '\r', '\n', '\t', '\x0c']

theorem mem_spaces {c : Char} (hc : isSpace c = true) : c ∈ spaces := by
  simp only [isSpace, Bool.or_eq_true, beq_iff_eq, or_assoc] at hc
  simpa [spaces] using hc

/-- Characters that continue no word and no number. -/
def stopping : List Char := spaces ++ ['/', '"', '\'']

def Stops (v : List Char) : Prop := ∀ d ∈ v.head?, d ∈ stopping

theorem Stops.cons {d : Char} (hd : d ∈ stopping) (ds : List Char) : Stops (d :: ds) :=
  fun _ he => Option.some.inj he ▸ hd

theorem Stops.eq_false {v : List Char} (h : Stops v) {p : Char → Bool} (hp : stopping.any p = false) :
    ∀ d ∈ v.head?, p d = false :=
  fun d hd => Bool.eq_false_iff.mpr (List.any_eq_false.mp hp d (h d hd))

theorem Stops.head?_ne {v : List Char} (h : Stops v) {d : Char} (hd : d ∉ stopping) : v.head? ≠ some d :=
  fun he => hd (h d he)

/-- How far a number reaches from its point on. -/
def fractionLength : List Char → Nat
  | '.' :: c :: cs => if c.isDigit then 2 + (cs.takeWhile isNumberChar).length else 0
  | _ => 0

theorem numberLength_eq (cs : List Char) : numberLength cs =
    (cs.takeWhile isNumberChar).length + fractionLength (cs.dropWhile isNumberChar) := by
  rw [numberLength]
  split
  next c fraction hrest =>
    rw [hrest, fractionLength]
    split
    · exact Nat.add_assoc _ _ _
    · rfl
  next hrest =>
    rw [fractionLength]
    · rfl
    · exact hrest

theorem fractionLength_of_ne {d : Char} (hd : d ≠ '.') (cs : List Char) : fractionLength (d :: cs) = 0 := by
  rw [fractionLength]
  exact fun _ _ h => absurd (List.cons.inj h).1 hd

theorem fractionLength_append_eq {d : Char} {y v : List Char}
    (h : fractionLength (d :: y ++ v) ≤ (d :: y).length ∨ Stops v) :
    fractionLength (d :: y ++ v) = fractionLength (d :: y) := by
  by_cases hd : d = '.'
  · subst hd
    cases y with
    | nil =>
      cases v with
      | nil => rfl
      | cons c cs =>
        have hdigit : ¬c.isDigit = true := by
          rcases h with h | h
          · intro hdigit
            rw [List.cons_append, List.nil_append, fractionLength, if_pos hdigit] at h
            simp only [List.length_cons, List.length_nil] at h
            omega
          · exact Bool.eq_false_iff.mp (h.eq_false rfl c rfl)
        rw [List.cons_append, List.nil_append, fractionLength, if_neg hdigit]
        rfl
    | cons c y =>
      rw [List.cons_append, List.cons_append, fractionLength, fractionLength]
      split
      next hdigit =>
        rw [takeWhile_append_eq]
        refine h.imp (fun h => ?_) fun h => h.eq_false rfl
        rw [List.cons_append, List.cons_append, fractionLength, if_pos hdigit] at h
        simp only [List.length_cons] at h
        omega
      next => rfl
  · rw [List.cons_append, fractionLength_of_ne hd, fractionLength_of_ne hd]

theorem Stops.fractionLength {v : List Char} (h : Stops v) : fractionLength (v.dropWhile isNumberChar) = 0 := by
  cases v with
  | nil => rfl
  | cons d v =>
    have hnumber : isNumberChar d = false := h.eq_false rfl d rfl
    rw [List.dropWhile_cons_of_neg (Bool.eq_false_iff.mp hnumber)]
    exact fractionLength_of_ne (fun he => h.head?_ne (by decide) (congrArg some he)) v

theorem numberLength_append_eq {a v : List Char} (h : numberLength (a ++ v) ≤ a.length ∨ Stops v) :
    numberLength (a ++ v) = numberLength a := by
  rw [numberLength_eq] at h
  have hwhole : (a ++ v).takeWhile Cut.isNumberChar = a.takeWhile Cut.isNumberChar :=
    takeWhile_append_eq (h.imp (fun h => by omega) fun h => h.eq_false rfl)
  rw [numberLength_eq, numberLength_eq, hwhole]
  rw [hwhole] at h
  have hlength : (a.takeWhile isNumberChar).length + (a.dropWhile isNumberChar).length = a.length := by
    rw [← List.length_append, List.takeWhile_append_dropWhile]
  rw [List.dropWhile_append] at h ⊢
  cases hrest : a.dropWhile isNumberChar with
  | nil =>
    rw [hrest] at h hlength
    have hnone : fractionLength (v.dropWhile isNumberChar) = 0 := by
      rcases h with h | h
      · rw [List.length_nil] at hlength
        rw [List.isEmpty_nil, if_pos rfl] at h
        omega
      · exact h.fractionLength
    rw [List.isEmpty_nil, if_pos rfl, hnone]
    rfl
  | cons d y =>
    rw [hrest] at h hlength
    rw [List.isEmpty_cons, if_neg Bool.false_ne_true] at h ⊢
    rw [fractionLength_append_eq (h.imp_left fun h => by omega)]

section Quoted

variable {quote : Char} {v v' : List Char} {closed : Bool}

theorem quotedLength_escape (c : Char) (cs : List Char) : quotedLength quote ('\\' :: c :: cs) =
    if c = '\n' then (0, false) else ((quotedLength quote cs).1 + 2, (quotedLength quote cs).2) := by
  rw [quotedLength]

theorem quotedLength_cons {c : Char} (hc : c ≠ '\\') (cs : List Char) : quotedLength quote (c :: cs) =
    if c = quote then (1, true) else if c = '\n' then (0, false)
    else ((quotedLength quote cs).1 + 1, (quotedLength quote cs).2) := by
  rw [quotedLength]
  · exact fun h => absurd h hc
  · exact fun _ _ h => absurd h hc

/-- The text goes on with a character that does not break a literal. -/
def Continues (v : List Char) : Prop := ∃ d ds, v = d :: ds ∧ d ≠ '\n' ∧ d ≠ '\\'

/-- A backslash takes the next character along. -/
theorem one_lt_of_escape {measure : List Char → Nat × Bool} (hnil : measure ['\\'] = (0, false))
    (hescape : ∀ c cs, measure ('\\' :: c :: cs) =
      if c = '\n' then (0, false) else ((measure cs).1 + 2, (measure cs).2))
    (hv : closed = true ∨ Continues v) {n : Nat} (h : measure ('\\' :: v) = (n, closed)) : 1 < n := by
  cases v with
  | nil =>
    obtain ⟨-, rfl⟩ := Prod.mk.inj (hnil.symm.trans h)
    rcases hv with hv | ⟨_, _, hv, -⟩ <;> exact absurd hv nofun
  | cons d ds =>
    rw [hescape] at h
    split at h
    next hlf =>
      obtain ⟨-, rfl⟩ := Prod.mk.inj h
      obtain hv | ⟨_, _, hv, hne, -⟩ := hv
      · exact absurd hv nofun
      · exact absurd hlf ((List.cons.inj hv).1 ▸ hne)
    next =>
      obtain ⟨rfl, -⟩ := Prod.mk.inj h
      exact Nat.succ_lt_succ (Nat.succ_pos _)

/-- Both characters of an escape are there, or what follows breaks the literal. -/
theorem escape_append_eq {measure : List Char → Nat × Bool} (hnil : measure ['\\'] = (0, false))
    (hescape : ∀ c cs, measure ('\\' :: c :: cs) =
      if c = '\n' then (0, false) else ((measure cs).1 + 2, (measure cs).2))
    (hv : closed = true ∨ Continues v) {a : List Char} {n : Nat}
    (h : measure ('\\' :: a ++ v) = (n, closed)) (hfits : n ≤ a.length + 1)
    (hrest : ∀ {c b m}, a = c :: b → measure (b ++ v) = (m, closed) → m ≤ b.length →
      measure (b ++ v') = (m, closed)) :
    measure ('\\' :: a ++ v') = (n, closed) := by
  cases a with
  | nil => exact absurd (one_lt_of_escape hnil hescape hv h) (Nat.not_lt.mpr hfits)
  | cons c a =>
    rw [List.cons_append, List.cons_append, hescape] at h ⊢
    split at h
    next hlf => rwa [if_pos hlf]
    next hlf =>
      obtain ⟨rfl, hclosed⟩ := Prod.mk.inj h
      rw [if_neg hlf, hrest rfl (Prod.ext rfl hclosed) (Nat.le_of_succ_le_succ (Nat.le_of_succ_le_succ hfits))]

/-- A literal takes a character, if it is not broken before. -/
theorem quotedLength_pos (hv : closed = true ∨ Continues v) {n : Nat}
    (h : quotedLength quote v = (n, closed)) : 0 < n := by
  obtain rfl | ⟨d, ds, rfl, hlf, hd⟩ := hv
  · fun_induction quotedLength quote v with
    | case1 | case2 | case3 | case6 => exact absurd (Prod.mk.inj h).2 Bool.false_ne_true
    | case4 | case5 | case7 => exact (Prod.mk.inj h).1 ▸ Nat.succ_pos _
  · rw [quotedLength_cons hd, if_neg hlf] at h
    split at h <;> exact (Prod.mk.inj h).1 ▸ Nat.succ_pos _

/-- A literal that ends in time does not depend on what follows, if it was not broken by that. -/
theorem quotedLength_append_eq (hv : closed = true ∨ Continues v) :
    ∀ {a : List Char} {n : Nat}, quotedLength quote (a ++ v) = (n, closed) → n ≤ a.length →
      quotedLength quote (a ++ v') = (n, closed)
  | [], n, h, hfits => absurd (quotedLength_pos hv h) (Nat.not_lt.mpr hfits)
  | c :: a, n, h, hfits => by
    by_cases hc : c = '\\'
    · subst hc
      refine escape_append_eq rfl quotedLength_escape hv h hfits fun he hm hle => ?_
      exact quotedLength_append_eq hv hm hle
    · rw [List.cons_append, quotedLength_cons hc] at h ⊢
      split at h
      next hquote => rwa [if_pos hquote]
      next hquote =>
        rw [if_neg hquote]
        split at h
        next hlf => rwa [if_pos hlf]
        next hlf =>
          obtain ⟨rfl, hclosed⟩ := Prod.mk.inj h
          have hrest := quotedLength_append_eq hv (a := a) (Prod.ext rfl hclosed) (Nat.le_of_succ_le_succ hfits)
          rw [if_neg hlf, hrest]
termination_by a => a.length
decreasing_by all_goals simp only [*, List.length_cons]; omega

/-! ### Text blocks -/

/-- What a quote in a text block depends on: whether it is the first of four, and if not whether
content follows, maybe behind one more quote. -/
def behindQuote (cs : List Char) : Bool × Bool :=
  (['"', '"', '"'].isPrefixOf cs, startsContent cs || (cs.head? == some '"' && startsContent cs.tail))

theorem blockLength_quote (cs : List Char) : blockLength ('"' :: cs) =
    if (behindQuote cs).1 then (4, true)
    else if (behindQuote cs).2 then ((blockLength cs).1 + 1, (blockLength cs).2) else (1, false) := by
  rw [blockLength]
  rfl

theorem blockLength_escape (c : Char) (cs : List Char) : blockLength ('\\' :: c :: cs) =
    if c = '\n' then (0, false) else ((blockLength cs).1 + 2, (blockLength cs).2) := by
  rw [blockLength]

theorem blockLength_cons {c : Char} (hc : c ≠ '\\') (hq : c ≠ '"') (cs : List Char) :
    blockLength (c :: cs) = ((blockLength cs).1 + 1, (blockLength cs).2) := by
  rw [blockLength]
  · exact fun h => absurd h hc
  · exact fun _ _ h => absurd h hc
  · exact fun h => absurd h hq

/-- A closed text block ends with four quotes. -/
theorem four_le_blockLength {cs : List Char} {n : Nat} (h : blockLength cs = (n, true)) : 4 ≤ n := by
  fun_induction blockLength cs generalizing n with
  | case5 => exact Nat.le_of_eq (Prod.mk.inj h).1
  | case1 | case2 | case3 | case7 => exact absurd (Prod.mk.inj h).2 Bool.false_ne_true
  | case4 c cs hc length closed hrest ih | case6 cs hquotes hcontent length closed hrest ih
  | case8 c cs h₁ h₂ h₃ length closed hrest ih =>
    obtain ⟨rfl, rfl⟩ := Prod.mk.inj h
    exact Nat.le_trans (ih hrest) (Nat.le_add_right _ _)

theorem startsContent_cons (c c' : Char) (cs : List Char) :
    startsContent (c :: c' :: cs) = if c = '\\' then c' != '\n' else c != '"' := by
  split
  next hc => rw [hc, startsContent]
  next hc =>
    rw [startsContent, bne_iff_ne.mpr hc, Bool.and_true]
    exact fun _ _ h _ => absurd h hc

/-- Three characters decide what a quote is. -/
theorem behindQuote_append_eq {a : List Char} (h : 3 ≤ a.length) (v v' : List Char) :
    behindQuote (a ++ v') = behindQuote (a ++ v) := by
  match a, h with
  | c :: c' :: c'' :: a, _ =>
    rw [behindQuote, behindQuote]
    simp only [List.cons_append, startsContent_cons, List.head?_cons, List.tail_cons]
    rfl

theorem blockLength_pos (hv : closed = true ∨ Continues v) {n : Nat} (h : blockLength v = (n, closed)) :
    0 < n := by
  obtain rfl | ⟨d, ds, rfl, -, hd⟩ := hv
  · exact Nat.lt_of_lt_of_le (Nat.succ_pos 3) (four_le_blockLength h)
  by_cases hq : d = '"'
  · rw [hq, blockLength_quote] at h
    split at h
    · exact (Prod.mk.inj h).1 ▸ Nat.succ_pos _
    split at h <;> exact (Prod.mk.inj h).1 ▸ Nat.succ_pos _
  · rw [blockLength_cons hd hq] at h
    exact (Prod.mk.inj h).1 ▸ Nat.succ_pos _

theorem blockLength_append_eq
    (hv : closed = true ∨ Continues v ∧ ∀ a, behindQuote (a ++ v') = behindQuote (a ++ v)) :
    ∀ {a : List Char} {n : Nat}, blockLength (a ++ v) = (n, closed) → n ≤ a.length →
      blockLength (a ++ v') = (n, closed)
  | [], n, h, hfits => absurd (blockLength_pos (hv.imp_right And.left) h) (Nat.not_lt.mpr hfits)
  | c :: a, n, h, hfits => by
    by_cases hc : c = '\\'
    · subst hc
      refine escape_append_eq rfl blockLength_escape (hv.imp_right And.left) h hfits fun he hm hle => ?_
      exact blockLength_append_eq hv hm hle
    by_cases hq : c = '"'
    · subst hq
      have hsame : behindQuote (a ++ v') = behindQuote (a ++ v) := by
        rcases hv with hclosed | ⟨-, hv⟩
        · -- all four quotes of the end are still to come, or the last three
          subst hclosed
          have hfour := four_le_blockLength h
          rw [List.length_cons] at hfits
          exact behindQuote_append_eq (by omega) v v'
        · exact hv a
      rw [List.cons_append, blockLength_quote] at h ⊢
      rw [hsame]
      split at h
      next hquotes => rwa [if_pos hquotes]
      next hquotes =>
        rw [if_neg hquotes]
        split at h
        next hcontent =>
          obtain ⟨rfl, hclosed⟩ := Prod.mk.inj h
          have hrest := blockLength_append_eq hv (a := a) (Prod.ext rfl hclosed) (Nat.le_of_succ_le_succ hfits)
          rw [if_pos hcontent, hrest]
        next hcontent => rwa [if_neg hcontent]
    · rw [List.cons_append, blockLength_cons hc hq] at h ⊢
      obtain ⟨rfl, hclosed⟩ := Prod.mk.inj h
      have hrest := blockLength_append_eq hv (a := a) (Prod.ext rfl hclosed) (Nat.le_of_succ_le_succ hfits)
      rw [hrest]
termination_by a => a.length
decreasing_by all_goals simp only [*, List.length_cons]; omega

/-! ### Both kinds of literals -/

theorem closed_of_literal {token : Token} {opening : Nat} {measured : Nat × Bool}
    (h : (literal token opening measured).token ≠ some .invalid) : measured.2 = true := by
  obtain ⟨length, closed⟩ := measured
  cases closed with
  | true => rfl
  | false => exact absurd rfl h

theorem doubleQuote_eq (cs : List Char) : doubleQuote cs =
    if ['"', '"'].isPrefixOf cs then literal .string 2 (blockLength (cs.drop 2))
    else literal .string 0 (quotedLength '"' cs) := by
  rw [doubleQuote.eq_def]
  split
  next => rfl
  next hother =>
    rw [if_neg]
    intro hprefix
    obtain ⟨ds, rfl⟩ := List.isPrefixOf_iff_prefix.mp hprefix
    exact hother ds rfl

/-- A double quote that opens a literal which ends in time. -/
theorem doubleQuote_append_eq {a : List Char} (hfits : (doubleQuote (a ++ v)).more ≤ a.length)
    (hend : (doubleQuote (a ++ v)).token ≠ some .invalid ∨
      Continues v ∧ ∀ a, behindQuote (a ++ v') = behindQuote (a ++ v))
    (hopens : a.length < 2 → ['"', '"'].isPrefixOf (a ++ v') = true → ['"', '"'].isPrefixOf (a ++ v) = true) :
    doubleQuote (a ++ v') = doubleQuote (a ++ v) := by
  rw [doubleQuote_eq] at hfits hend ⊢
  have hblock (h : ['"', '"'].isPrefixOf (a ++ v) = true) :
      2 + (blockLength ((a ++ v).drop 2)).1 ≤ a.length := by rwa [if_pos h] at hfits
  have hsame : ['"', '"'].isPrefixOf (a ++ v') = ['"', '"'].isPrefixOf (a ++ v) := by
    match a with
    | c :: c' :: a => rfl
    | [] | [_] =>
      refine Bool.eq_iff_iff.mpr ⟨hopens (by simp), fun h => ?_⟩
      have hle := hblock h
      simp only [List.length_cons, List.length_nil] at hle
      omega
  rw [doubleQuote_eq, hsame]
  by_cases hopen : ['"', '"'].isPrefixOf (a ++ v) = true
  · have hle := hblock hopen
    rw [if_pos hopen] at hend
    have hdrop (w : List Char) : (a ++ w).drop 2 = a.drop 2 ++ w := List.drop_append_of_le_length (by omega)
    rw [hdrop] at hle hend
    have hlength := blockLength_append_eq (hend.imp_left closed_of_literal) rfl
      (by rw [List.length_drop]; omega)
    rw [if_pos hopen, if_pos hopen, hdrop, hdrop, hlength]
  · rw [if_neg hopen] at hfits hend
    have hlength : quotedLength '"' (a ++ v') = quotedLength '"' (a ++ v) :=
      quotedLength_append_eq (hend.imp closed_of_literal And.left) rfl (by simpa [literal] using hfits)
    rw [if_neg hopen, if_neg hopen, hlength]

theorem singleQuote_eq (cs : List Char) : singleQuote cs =
    if cs.head? = some '\'' then ⟨some .invalid, 0⟩ else literal .character 0 (quotedLength '\'' cs) := by
  rw [singleQuote.eq_def]
  split
  next => rfl
  next hother =>
    rw [if_neg]
    intro hhead
    obtain ⟨ds, rfl⟩ := List.head?_eq_some_iff.mp hhead
    exact hother ds rfl

/-- A single quote that opens a literal which ends in time. -/
theorem singleQuote_append_eq {a : List Char} (hfits : (singleQuote (a ++ v)).more ≤ a.length)
    (hend : (singleQuote (a ++ v)).token ≠ some .invalid ∨ Continues v)
    (hhead : a = [] → (v'.head? = some '\'' ↔ v.head? = some '\'')) :
    singleQuote (a ++ v') = singleQuote (a ++ v) := by
  rw [singleQuote_eq] at hfits hend ⊢
  have hsame : (a ++ v').head? = some '\'' ↔ (a ++ v).head? = some '\'' := by
    cases a with
    | nil => exact hhead rfl
    | cons => exact Iff.rfl
  rw [singleQuote_eq]
  simp only [hsame]
  by_cases hempty : (a ++ v).head? = some '\''
  · rw [if_pos hempty, if_pos hempty]
  · rw [if_neg hempty] at hfits hend
    have hlength : quotedLength '\'' (a ++ v') = quotedLength '\'' (a ++ v) :=
      quotedLength_append_eq (hend.imp_left closed_of_literal) rfl (by simpa [literal] using hfits)
    rw [if_neg hempty, if_neg hempty, hlength]

/-! ### Comments -/

theorem commentLength_cons (c : Char) (cs : List Char) : commentLength (c :: cs) =
    if c = '*' ∧ cs.head? = some '/' then 1 else commentLength cs + 1 := by
  rw [commentLength.eq_def]
  split
  next heq => exact absurd heq nofun
  next heq =>
    obtain ⟨rfl, rfl⟩ := List.cons.inj heq
    rfl
  next hother heq =>
    obtain ⟨rfl, rfl⟩ := List.cons.inj heq
    rw [if_neg]
    rintro ⟨rfl, hhead⟩
    obtain ⟨ds, rfl⟩ := List.head?_eq_some_iff.mp hhead
    exact hother ds rfl rfl

/-- A block comment that ends in time depends on one character of what follows. -/
theorem commentLength_append_eq {a : List Char} (hhead : v'.head? = v.head?)
    (hfits : commentLength (a ++ v) ≤ a.length) : commentLength (a ++ v') = commentLength (a ++ v) := by
  induction a with
  | nil =>
    cases v with
    | nil => rw [List.head?_eq_none_iff.mp hhead]
    | cons c v =>
      rw [List.nil_append, commentLength_cons] at hfits
      split at hfits <;> exact absurd hfits (by simp)
  | cons c a ih =>
    have hsame : (a ++ v').head? = (a ++ v).head? := by
      rw [List.head?_append, List.head?_append, hhead]
    rw [List.cons_append, commentLength_cons] at hfits
    rw [List.cons_append, List.cons_append, commentLength_cons, commentLength_cons, hsame]
    split
    next => rfl
    next hopen =>
      rw [if_neg hopen] at hfits
      rw [ih (Nat.le_of_succ_le_succ hfits)]

theorem slash_of_ne {cs : List Char} (h : ∀ d ∈ cs.head?, d ≠ '/' ∧ d ≠ '*') : slash cs = ⟨some .operator, 0⟩ := by
  rw [slash.eq_def]
  split
  next => exact absurd rfl (h '/' rfl).1
  next => exact absurd rfl (h '*' rfl).2
  next => rfl

/-- A slash that begins no comment is followed by nothing that would make it one. -/
theorem ne_of_slash {cs : List Char} (h : (slash cs).more = 0) : ∀ d ∈ cs.head?, d ≠ '/' ∧ d ≠ '*' := by
  intro d hd
  obtain ⟨ds, rfl⟩ := List.head?_eq_some_iff.mp hd
  constructor <;> intro he <;> rw [he, slash] at h <;> exact absurd h (Nat.ne_of_gt (Nat.add_pos_left Nat.one_pos _))

/-- A slash that ends in time, be it an operator or the beginning of a comment. A line comment that
reaches to the end has to end there before both texts. -/
theorem slash_append_eq {a : List Char} (hfits : (slash (a ++ v)).more ≤ a.length)
    (hnone : a = [] → ∀ d ∈ v'.head?, d ≠ '/' ∧ d ≠ '*')
    (hline : (slash (a ++ v)).token = none → (slash (a ++ v)).more = a.length → ∃ d ∈ v.head?, d ≠ '\n')
    (hblock : (slash (a ++ v)).token ≠ some .invalid ∨ v'.head? = v.head?) :
    slash (a ++ v') = slash (a ++ v) := by
  cases a with
  | nil => exact (slash_of_ne (hnone rfl)).trans (slash_of_ne (ne_of_slash (Nat.le_zero.mp hfits))).symm
  | cons d a =>
    by_cases hd : d = '/'
    · subst hd
      have hslash (ds : List Char) : slash ('/' :: ds) = ⟨none, 1 + (ds.takeWhile (· ≠ '\n')).length⟩ := rfl
      rw [List.cons_append, hslash] at hfits hline
      have hends : (a.takeWhile (· ≠ '\n')).length ≠ a.length := fun hall => by
        rw [List.takeWhile_append, if_pos hall] at hfits hline
        simp only [List.length_append, List.length_cons] at hfits hline
        obtain ⟨d, hd, hne⟩ := hline trivial (by omega)
        obtain ⟨ds, rfl⟩ := List.head?_eq_some_iff.mp hd
        rw [List.takeWhile_cons_of_pos (by simpa using hne), List.length_cons] at hfits
        omega
      rw [List.cons_append, List.cons_append, hslash, hslash, List.takeWhile_append, if_neg hends,
        List.takeWhile_append, if_neg hends]
    by_cases hstar : d = '*'
    · subst hstar
      have hslash (ds : List Char) : slash ('*' :: ds) = ⟨some .invalid, 1 + commentLength ds⟩ := rfl
      have hhead := hblock.resolve_left fun hvalid => hvalid rfl
      rw [List.cons_append, hslash, Nat.add_comm] at hfits
      rw [List.cons_append, List.cons_append, hslash, hslash,
        commentLength_append_eq hhead (Nat.le_of_succ_le_succ hfits)]
    · have hslash (ds : List Char) : slash (d :: ds) = ⟨some .operator, 0⟩ :=
        slash_of_ne fun e he => Option.some.inj he ▸ ⟨hd, hstar⟩
      rw [List.cons_append, List.cons_append, hslash, hslash]

/-- A line comment reaches up to the line feed. -/
theorem next_lineComment {body rest : List Char} (hbody : '\n' ∉ body) (hrest : ∀ d ∈ rest.head?, d = '\n') :
    next '/' ('/' :: body ++ rest) = ⟨none, ('/' :: body).length⟩ := by
  have htake : (body ++ rest).takeWhile (· ≠ '\n') = body := by
    have hall : ∀ d ∈ body, decide (d ≠ '\n') = true := fun d hd => decide_eq_true fun he => hbody (he ▸ hd)
    rw [List.takeWhile_append_of_pos hall]
    cases rest with
    | nil => rw [List.takeWhile_nil, List.append_nil]
    | cons d rest => rw [List.takeWhile_cons_of_neg (by simp [hrest d rfl]), List.append_nil]
  show (⟨none, 1 + ((body ++ rest).takeWhile (· ≠ '\n')).length⟩ : Cut) = _
  rw [htake, Nat.add_comm, List.length_cons]

end Quoted

/-- A character that may be joined with the next one. -/
theorem ite_head?_append_eq {a v v' : List Char} {d : Char} {joined alone : Cut} (hjoined : joined.more = 1)
    (hfits : (if (a ++ v).head? = some d then joined else alone).more ≤ a.length) (hv : v'.head? ≠ some d) :
    (if (a ++ v').head? = some d then joined else alone) = if (a ++ v).head? = some d then joined else alone := by
  cases a with
  | nil =>
    have hne : ¬([] ++ v).head? = some d := fun he => by
      rw [if_pos he, hjoined] at hfits
      exact absurd hfits (by decide)
    rw [if_neg hne]
    exact if_neg hv
  | cons => rfl

theorem ite_isPrefixOf_append_eq {a v v' : List Char} {joined alone : Cut} (hjoined : joined.more = 2)
    (hfits : (if ['.', '.'].isPrefixOf (a ++ v) then joined else alone).more ≤ a.length)
    (hv : v'.head? ≠ some '.') :
    (if ['.', '.'].isPrefixOf (a ++ v') then joined else alone) =
      if ['.', '.'].isPrefixOf (a ++ v) then joined else alone := by
  have hshort (h : a.length < 2) : ¬['.', '.'].isPrefixOf (a ++ v) = true := fun he => by
    rw [if_pos he, hjoined] at hfits
    omega
  have hpoint (cs : List Char) : ¬('.' :: cs).isPrefixOf v' = true := fun he => by
    cases v' with
    | nil => exact absurd he nofun
    | cons d v' =>
      rw [List.isPrefixOf, Bool.and_eq_true, beq_iff_eq] at he
      exact hv (congrArg some he.1.symm)
  match a with
  | [] =>
    rw [if_neg (hshort (Nat.zero_lt_succ 1))]
    exact if_neg (hpoint ['.'])
  | [c] =>
    rw [if_neg (hshort (Nat.lt_succ_self 1)), if_neg]
    rw [List.cons_append, List.isPrefixOf, Bool.and_eq_true]
    exact fun he => hpoint [] he.2
  | c :: c' :: a => rfl

/-- Away from comments and literals, a piece that ends in time needs only to be stopped. -/
theorem next_append_eq {c : Char} {a v v' : List Char} (hc : c ∉ ['/', '"', '\''])
    (hfits : (next c (a ++ v)).more ≤ a.length) (hv : Stops v') : next c (a ++ v') = next c (a ++ v) := by
  unfold next at hfits ⊢
  split
  iterate 13 rfl
  · exact ite_head?_append_eq rfl hfits (hv.head?_ne (by decide))
  · exact ite_head?_append_eq rfl hfits (hv.head?_ne (by decide))
  · exact ite_isPrefixOf_append_eq rfl hfits (hv.head?_ne (by decide))
  iterate 8 rfl
  iterate 3 exact absurd (by decide) hc
  split at hfits
  iterate 27 contradiction
  split
  · rfl
  next hspace =>
    rw [if_neg hspace] at hfits
    split
    next hdigit =>
      rw [if_pos hdigit] at hfits
      rw [numberLength_append_eq (.inr hv), numberLength_append_eq (.inl hfits)]
    next hdigit =>
      rw [if_neg hdigit] at hfits
      split
      next hstart =>
        rw [if_pos hstart] at hfits
        rw [word, word, takeWhile_append_eq (.inr (hv.eq_false rfl)), takeWhile_append_eq (.inl hfits)]
      next => rfl

/-! ### No piece takes more than there is -/

theorem commentLength_le (cs : List Char) : commentLength cs ≤ cs.length := by
  fun_induction commentLength cs <;> simp only [List.length_cons, List.length_nil] <;> omega

theorem quotedLength_le (quote : Char) (cs : List Char) : (quotedLength quote cs).1 ≤ cs.length := by
  fun_induction quotedLength quote cs <;> simp_all only [List.length_cons, List.length_nil] <;> omega

theorem blockLength_le (cs : List Char) : (blockLength cs).1 ≤ cs.length := by
  fun_induction blockLength cs with
  | case5 cs hquotes =>
    have hle := (List.isPrefixOf_iff_prefix.mp hquotes).length_le
    simp only [List.length_cons, List.length_nil] at hle ⊢
    omega
  | _ =>
    simp_all only [List.length_cons, List.length_nil]
    omega

theorem fractionLength_le (cs : List Char) : fractionLength cs ≤ cs.length := by
  rw [fractionLength.eq_def]
  split
  next c cs =>
    have hle := (List.takeWhile_prefix (l := cs) isNumberChar).length_le
    simp only [List.length_cons]
    split <;> omega
  next => exact Nat.zero_le _

theorem numberLength_le (cs : List Char) : numberLength cs ≤ cs.length := by
  have hlength := congrArg List.length (List.takeWhile_append_dropWhile (p := isNumberChar) (l := cs))
  have hle := fractionLength_le (cs.dropWhile isNumberChar)
  rw [List.length_append] at hlength
  rw [numberLength_eq]
  omega

theorem next_more_le (c : Char) (cs : List Char) : (next c cs).more ≤ cs.length := by
  have htake (p : Char → Bool) (cs : List Char) : (cs.takeWhile p).length ≤ cs.length :=
    (List.takeWhile_prefix p).length_le
  have hslash : (slash cs).more ≤ cs.length := by
    rw [slash.eq_def]
    split
    next cs =>
      have hle := htake (· ≠ '\n') cs
      simp only [List.length_cons]
      omega
    next cs =>
      have hle := commentLength_le cs
      simp only [List.length_cons]
      omega
    next => exact Nat.zero_le _
  have hdouble : (doubleQuote cs).more ≤ cs.length := by
    rw [doubleQuote.eq_def]
    split
    next cs =>
      have hle := blockLength_le cs
      simp only [literal, List.length_cons]
      omega
    next =>
      have hle := quotedLength_le '"' cs
      simp only [literal]
      omega
  have hsingle : (singleQuote cs).more ≤ cs.length := by
    rw [singleQuote.eq_def]
    split
    next => exact Nat.zero_le _
    next =>
      have hle := quotedLength_le '\'' cs
      simp only [literal]
      omega
  have hjoined {cs : List Char} {d : Char} {joined alone : Cut} (hj : joined.more = 1) (ha : alone.more = 0) :
      (if cs.head? = some d then joined else alone).more ≤ cs.length := by
    cases cs with
    | nil => exact Nat.le_of_eq ha
    | cons c cs => split <;> simp only [hj, ha, List.length_cons] <;> omega
  unfold next
  split
  case h_14 => exact hjoined rfl rfl
  case h_15 => exact hjoined rfl rfl
  case h_16 =>
    split
    next hpoints => exact (List.isPrefixOf_iff_prefix.mp hpoints).length_le
    next => exact Nat.zero_le _
  case h_25 => exact hslash
  case h_26 => exact hdouble
  case h_27 => exact hsingle
  case h_28 =>
    split
    · exact Nat.zero_le _
    split
    · exact numberLength_le cs
    split
    · exact htake _ cs
    · exact Nat.zero_le _
  all_goals exact Nat.zero_le _

end Cut

/-! ## Seams between pieces -/

/-- Between two pieces is a seam. -/
theorem Seam.of_pieces {u v : List Char} {ps qs : List Piece} (h : pieces (u ++ v) = ps ++ qs)
    (hu : ps.flatMap Piece.text = u) : Seam v u (ps.map Piece.token) ∧ pieces v = qs := by
  induction ps generalizing u with
  | nil =>
    obtain rfl := hu.symm
    exact ⟨.here, h⟩
  | cons p ps ih =>
    rw [List.flatMap_cons] at hu
    cases u with
    | nil =>
      have hnil : p.text = [] := (List.append_eq_nil_iff.mp hu).1
      cases v with
      | nil =>
        rw [List.append_nil, pieces] at h
        cases h
      | cons d v =>
        rw [List.nil_append, pieces, List.cons_append] at h
        obtain ⟨rfl, -⟩ := List.cons.inj h
        cases hnil
    | cons c a =>
      rw [List.cons_append, pieces, List.cons_append] at h
      obtain ⟨rfl, hrest⟩ := List.cons.inj h
      have ha : (a ++ v).take (Cut.next c (a ++ v)).more ++ ps.flatMap Piece.text = a := (List.cons.inj hu).2
      have hfits : (Cut.next c (a ++ v)).more ≤ a.length := by
        have hle := Cut.next_more_le c (a ++ v)
        have hlength := congrArg List.length ha
        rw [List.length_append, List.length_take] at hlength
        omega
      rw [List.take_append_of_le_length hfits] at ha
      rw [List.drop_append_of_le_length hfits] at hrest
      have hback : ps.flatMap Piece.text = a.drop (Cut.next c (a ++ v)).more :=
        List.append_cancel_left (ha.trans (List.take_append_drop _ a).symm)
      obtain ⟨hseam, hv⟩ := ih hrest hback
      exact ⟨.piece hfits hseam, hv⟩

end Nomenclator
