/-
What stands inside comments and quoted literals says nothing.

A comment or literal gives the same tokens whatever its content is, and the
pieces before it see too little of it to tell one content from another.
-/
import Mathlib
import Nomenclator.Proofs.NameTable.Relocation
import Nomenclator.Proofs.Token.Cutting

namespace Nomenclator

/-- What content may be enclosed in. -/
inductive Enclosure
  | blockComment
  | lineComment
  | string
  | character
  | textBlock
deriving DecidableEq

namespace Enclosure

def opening : Enclosure → List Char
  | blockComment => ['/', '*']
  | lineComment => ['/', '/']
  | string => ['"']
  | character => ['\'']
  | textBlock => ['"', '"', '"']

def closing : Enclosure → List Char
  | blockComment => ['*', '/']
  | lineComment => []
  | string => ['"']
  | character => ['\'']
  | textBlock => ['"', '"', '"']

def around (e : Enclosure) (content : List Char) : List Char := e.opening ++ content ++ e.closing

/-- Content that does not end the enclosure and escapes nothing. -/
def Admits : Enclosure → List Char → Prop
  | blockComment, content => ¬['*', '/'] <:+: content
  | lineComment, content => '\n' ∉ content
  | string, content => content ≠ [] ∧ '"' ∉ content ∧ '\\' ∉ content ∧ '\n' ∉ content
  | character, content => content ≠ [] ∧ '\'' ∉ content ∧ '\\' ∉ content ∧ '\n' ∉ content
  | textBlock, content => '"' ∉ content ∧ '\\' ∉ content

/-- A line comment goes on to the end of its line. -/
def EndsBefore : Enclosure → List Char → Prop
  | lineComment, after => ∀ d ∈ after.head?, d = '\n'
  | _, _ => True

/-- The tokens of the enclosure and of what comes after it. The last slash of a block comment is cut
anew, and so are two quotes of a text block, unless a fourth one closes it. -/
def tokens : Enclosure → List Char → List Token
  | blockComment, after => .invalid :: tokensOf ('/' :: after)
  | lineComment, after => tokensOf after
  | string, after => .string :: tokensOf after
  | character, after => .character :: tokensOf after
  | textBlock, '"' :: after => .string :: tokensOf after
  | textBlock, after => .invalid :: tokensOf ('"' :: '"' :: after)

end Enclosure

/-! ## How far an enclosure reaches -/

namespace Cut

theorem commentLength_content {content : List Char} (h : ¬['*', '/'] <:+: content) (after : List Char) :
    commentLength (content ++ '*' :: '/' :: after) = content.length + 1 := by
  induction content with
  | nil => rfl
  | cons c content ih =>
    have hlater : ¬['*', '/'] <:+: content := fun hin => h (List.infix_cons hin)
    rw [List.cons_append, commentLength_cons, ih hlater, if_neg, List.length_cons]
    rintro ⟨rfl, hhead⟩
    cases content with
    | nil => exact absurd (Option.some.inj hhead) (by decide)
    | cons d content =>
      obtain rfl : d = '/' := Option.some.inj hhead
      exact h (List.prefix_append ['*', '/'] content).isInfix

theorem quotedLength_content {quote : Char} (hquote : quote ≠ '\\') {content : List Char}
    (h : quote ∉ content ∧ '\\' ∉ content ∧ '\n' ∉ content) (after : List Char) :
    quotedLength quote (content ++ quote :: after) = (content.length + 1, true) := by
  induction content with
  | nil => rw [List.nil_append, quotedLength_cons hquote, if_pos rfl, List.length_nil]
  | cons c content ih =>
    simp only [List.mem_cons, not_or] at h
    obtain ⟨⟨hend, hquote'⟩, ⟨hescape, hescape'⟩, hlf, hlf'⟩ := h
    rw [List.cons_append, quotedLength_cons (Ne.symm hescape), if_neg (Ne.symm hend), if_neg (Ne.symm hlf),
      ih ⟨hquote', hescape', hlf'⟩, List.length_cons]

theorem blockLength_content {content : List Char} (h : '"' ∉ content ∧ '\\' ∉ content) (v : List Char) :
    blockLength (content ++ v) = (content.length + (blockLength v).1, (blockLength v).2) := by
  induction content with
  | nil => rw [List.nil_append, List.length_nil, Nat.zero_add]
  | cons c content ih =>
    simp only [List.mem_cons, not_or] at h
    obtain ⟨⟨hquote, hquote'⟩, hescape, hescape'⟩ := h
    rw [List.cons_append, blockLength_cons (Ne.symm hescape) (Ne.symm hquote), ih ⟨hquote', hescape'⟩,
      List.length_cons, Nat.add_right_comm]

/-- Three quotes end a text block at the first of them, unless there is a fourth. -/
theorem blockLength_quotes (after : List Char) : blockLength ('"' :: '"' :: '"' :: after) =
    if after.head? = some '"' then (4, true) else (1, false) := by
  have hbehind : behindQuote ('"' :: '"' :: after) = (after.head? == some '"', false) := by
    cases after with
    | nil => rfl
    | cons d after =>
      rw [behindQuote, startsContent_cons, List.tail_cons, startsContent_cons]
      simp [List.isPrefixOf, BEq.comm]
  rw [blockLength_quote, hbehind, if_neg Bool.false_ne_true]
  simp only [beq_iff_eq]

end Cut

/-! ## The tokens of an enclosure -/

namespace Enclosure

variable {content after : List Char}

theorem tokensOf_blockComment (h : blockComment.Admits content) :
    tokensOf (blockComment.around content ++ after) = blockComment.tokens after := by
  have hnext : Cut.next '/' ('*' :: content ++ ['*'] ++ '/' :: after) =
      ⟨some .invalid, ('*' :: content ++ ['*']).length⟩ := by
    show (⟨some .invalid, 1 + Cut.commentLength (content ++ ['*'] ++ '/' :: after)⟩ : Cut) = _
    rw [← List.append_cons, Cut.commentLength_content h, List.length_append, List.length_cons, Nat.add_comm]
    rfl
  simpa [around, opening, closing, tokens] using tokensOf_piece hnext

theorem tokensOf_lineComment (h : lineComment.Admits content) (hafter : lineComment.EndsBefore after) :
    tokensOf (lineComment.around content ++ after) = lineComment.tokens after := by
  simpa [around, opening, closing, tokens] using tokensOf_piece (Cut.next_lineComment h hafter)

theorem tokensOf_string (h : string.Admits content) :
    tokensOf (string.around content ++ after) = string.tokens after := by
  obtain ⟨hne, hquoted⟩ := h
  have hopen : ¬['"', '"'].isPrefixOf (content ++ '"' :: after) = true := by
    cases content with
    | nil => exact absurd rfl hne
    | cons c content =>
      rw [List.cons_append, List.isPrefixOf, Bool.and_eq_true, beq_iff_eq]
      exact fun hopen => hquoted.1 (hopen.1 ▸ List.mem_cons_self)
  have hnext : Cut.next '"' (content ++ ['"'] ++ after) = ⟨some .string, (content ++ ['"']).length⟩ := by
    show Cut.doubleQuote _ = _
    rw [← List.append_cons, Cut.doubleQuote_eq, if_neg hopen, Cut.quotedLength_content (by decide) hquoted,
      List.length_append, Cut.literal, Nat.zero_add]
    rfl
  simpa [around, opening, closing, tokens] using tokensOf_piece hnext

theorem tokensOf_character (h : character.Admits content) :
    tokensOf (character.around content ++ after) = character.tokens after := by
  obtain ⟨hne, hquoted⟩ := h
  have hempty : ¬(content ++ '\'' :: after).head? = some '\'' := by
    cases content with
    | nil => exact absurd rfl hne
    | cons c content => exact fun hhead => hquoted.1 (Option.some.inj hhead ▸ List.mem_cons_self)
  have hnext : Cut.next '\'' (content ++ ['\''] ++ after) = ⟨some .character, (content ++ ['\'']).length⟩ := by
    show Cut.singleQuote _ = _
    rw [← List.append_cons, Cut.singleQuote_eq, if_neg hempty, Cut.quotedLength_content (by decide) hquoted,
      List.length_append, Cut.literal, Nat.zero_add]
    rfl
  simpa [around, opening, closing, tokens] using tokensOf_piece hnext

theorem tokensOf_textBlock (h : textBlock.Admits content) :
    tokensOf (textBlock.around content ++ after) = textBlock.tokens after := by
  have hnext (quotes : List Char) {cs : List Char} {closed : Bool}
      (hquotes : Cut.blockLength (quotes ++ cs) = (quotes.length, closed)) :
      Cut.next '"' ('"' :: '"' :: content ++ quotes ++ cs) =
        ⟨some (if closed then .string else .invalid), ('"' :: '"' :: content ++ quotes).length⟩ := by
    show Cut.literal .string 2 (Cut.blockLength (content ++ quotes ++ cs)) = _
    rw [List.append_assoc, Cut.blockLength_content h, hquotes, Cut.literal, List.length_append, List.length_cons,
      List.length_cons, Nat.add_comm 2, Nat.add_right_comm]
  have hquotes := Cut.blockLength_quotes after
  by_cases hfour : after.head? = some '"'
  · obtain ⟨rest, rfl⟩ := List.head?_eq_some_iff.mp hfour
    rw [if_pos hfour] at hquotes
    simpa [around, opening, closing, tokens] using tokensOf_piece (hnext ['"', '"', '"', '"'] hquotes)
  · have htokens : textBlock.tokens after = .invalid :: tokensOf ('"' :: '"' :: after) := by
      rw [tokens]
      exact fun rest he => hfour (he ▸ rfl)
    rw [if_neg hfour] at hquotes
    simpa [around, opening, closing, htokens] using tokensOf_piece (hnext ['"'] hquotes)

/-- What an enclosure is cut into does not depend on its content. -/
theorem tokensOf_around (e : Enclosure) (h : e.Admits content) (hafter : e.EndsBefore after) :
    tokensOf (e.around content ++ after) = e.tokens after := by
  cases e with
  | blockComment => exact tokensOf_blockComment h
  | lineComment => exact tokensOf_lineComment h hafter
  | string => exact tokensOf_string h
  | character => exact tokensOf_character h
  | textBlock => exact tokensOf_textBlock h

end Enclosure

/-! ## What the pieces before it see -/

namespace Cut

/-- Two texts that look the same from before: a piece sees the first character, and from behind a
quote up to three. -/
structure Alike (v v' : List Char) : Prop where
  head : v'.head? = v.head?
  stops : Stops v'
  continues : Continues v
  opens : ∀ a, a.length < 2 → ['"', '"'].isPrefixOf (a ++ v') = ['"', '"'].isPrefixOf (a ++ v)
  behind : ∀ a, behindQuote (a ++ v') = behindQuote (a ++ v)

theorem startsContent_of_ne {c : Char} (hc : c ≠ '"' ∧ c ≠ '\\') (cs : List Char) :
    startsContent (c :: cs) = true := by
  cases cs with
  | nil => simp [startsContent, hc]
  | cons d cs => rw [startsContent_cons, if_neg hc.2, bne_iff_ne.mpr hc.1]

/-- From before a character that is neither a quote nor a backslash, only that one is seen. -/
theorem Alike.of_head {d : Char} (hd : d = '/' ∨ d = '\'') (r r' : List Char) : Alike (d :: r) (d :: r') := by
  have hcontent : d ≠ '"' ∧ d ≠ '\\' := by rcases hd with rfl | rfl <;> decide
  have hlf : d ≠ '\n' := by rcases hd with rfl | rfl <;> decide
  have hstop : d ∈ stopping := by rcases hd with rfl | rfl <;> decide
  have hquote : ('"' == d) = false := beq_eq_false_iff_ne.mpr (Ne.symm hcontent.1)
  refine ⟨rfl, .cons hstop r', ⟨d, r, rfl, hlf, hcontent.2⟩, fun a _ => ?_, fun a => ?_⟩
  -- if `a` is long enough nothing behind it is seen, and if not it is seen up to `d`
  · match a with
    | [] | [_] => simp [List.isPrefixOf, hquote]
    | c :: c' :: a => rfl
  · match a with
    | [] | [_] | [_, _] =>
      simp [behindQuote, List.isPrefixOf, startsContent_cons, startsContent_of_ne hcontent, hquote]
    | c :: c' :: c'' :: a => exact behindQuote_append_eq (by simp) _ _

/-- Behind a quote it is seen that content follows, not which. -/
theorem Alike.of_quote {c c' : Char} (hc : c ≠ '"' ∧ c ≠ '\\') (hc' : c' ≠ '"' ∧ c' ≠ '\\') (r r' : List Char) :
    Alike ('"' :: c :: r) ('"' :: c' :: r') := by
  have hquote : ('"' == c) = false := beq_eq_false_iff_ne.mpr (Ne.symm hc.1)
  have hquote' : ('"' == c') = false := beq_eq_false_iff_ne.mpr (Ne.symm hc'.1)
  refine ⟨rfl, .cons (by decide) _, ⟨'"', c :: r, rfl, by decide, by decide⟩, fun a _ => ?_, fun a => ?_⟩
  · match a with
    | [] | [_] => simp [List.isPrefixOf, hquote, hquote']
    | c :: c' :: a => rfl
  · match a with
    | [] | [_] | [_, _] =>
      simp [behindQuote, List.isPrefixOf, startsContent_cons, startsContent_of_ne hc, startsContent_of_ne hc', hquote,
        hquote']
    | c :: c' :: c'' :: a => exact behindQuote_append_eq (by simp) _ _

theorem Alike.of_quotes (r r' : List Char) : Alike ('"' :: '"' :: '"' :: r) ('"' :: '"' :: '"' :: r') := by
  refine ⟨rfl, .cons (by decide) _, ⟨'"', '"' :: '"' :: r, rfl, by decide, by decide⟩, fun a _ => ?_, fun a => ?_⟩
  · match a with
    | [] | [_] | _ :: _ :: _ => simp [List.isPrefixOf]
  · have hlength : 3 ≤ (a ++ ['"', '"', '"']).length := by simp
    simpa using behindQuote_append_eq hlength r r'

variable {a v v' : List Char}

/-- A piece that ends in time sees no difference. -/
theorem next_alike (h : Alike v v') {c : Char} (hfits : (next c (a ++ v)).more ≤ a.length) :
    next c (a ++ v') = next c (a ++ v) := by
  by_cases hc : c ∈ ['/', '"', '\'']
  · rcases List.mem_cons.mp hc with rfl | hc
    · obtain ⟨d, ds, rfl, hlf, -⟩ := h.continues
      refine slash_append_eq hfits (fun ha => ?_) (fun _ _ => ⟨d, rfl, hlf⟩) (.inr h.head)
      subst ha
      exact h.head ▸ ne_of_slash (Nat.le_zero.mp hfits)
    rcases List.mem_cons.mp hc with rfl | hc
    · exact doubleQuote_append_eq hfits (.inr ⟨h.continues, h.behind⟩) fun hlength hopens =>
        h.opens a hlength ▸ hopens
    · obtain rfl := List.mem_singleton.mp hc
      exact singleQuote_append_eq hfits (.inr h.continues) fun _ => by rw [h.head]
  · exact next_append_eq hc hfits h.stops

end Cut

theorem Seam.alike {u v v' : List Char} {ts : List (Option Token)} (h : Seam v u ts) (hv : Cut.Alike v v') :
    Seam v' u ts := by
  induction h with
  | here => exact .here
  | @piece c u ts hfits hrest ih =>
    have hsame := Cut.next_alike hv hfits
    rw [← hsame] at hfits ih ⊢
    exact .piece hfits ih

/-- From before an enclosure its content is not seen. -/
theorem Enclosure.alike (e : Enclosure) {content content' : List Char} (h : e.Admits content)
    (h' : e.Admits content') (after : List Char) :
    Cut.Alike (e.around content ++ after) (e.around content' ++ after) := by
  cases e with
  | blockComment | lineComment => exact .of_head (.inl rfl) _ _
  | character => exact .of_head (.inr rfl) _ _
  | textBlock => exact .of_quotes _ _
  | string =>
    have hfirst {content : List Char} (h : string.Admits content) :
        ∃ c cs, content = c :: cs ∧ c ≠ '"' ∧ c ≠ '\\' := by
      obtain ⟨hne, hquote, hescape, -⟩ := h
      obtain ⟨c, cs, rfl⟩ := List.exists_cons_of_ne_nil hne
      simp only [List.mem_cons, not_or] at hquote hescape
      exact ⟨c, cs, rfl, Ne.symm hquote.1, Ne.symm hescape.1⟩
    obtain ⟨c, cs, rfl, hc⟩ := hfirst h
    obtain ⟨c', cs', rfl, hc'⟩ := hfirst h'
    exact .of_quote hc hc' _ _

/-- Wherever cutting reaches a comment or literal, its content may be changed: the tokens up to its end
are fixed by its form, so nothing within it declares or opens anything, and what is said about the
text stays the same. -/
theorem Analysis.ofText_content {e : Enclosure} {text text' : String} {before content content' after : List Char}
    {first rest : List Piece} (htext : text.toList = before ++ e.around content ++ after)
    (htext' : text'.toList = before ++ e.around content' ++ after)
    (hpieces : pieces text.toList = first ++ rest) (hfirst : first.flatMap Piece.text = before)
    (hcontent : e.Admits content) (hcontent' : e.Admits content') (hafter : e.EndsBefore after) :
    (lex text).map Lexeme.token = first.filterMap Piece.token ++ e.tokens after ∧
      (lex text').map Lexeme.token = (lex text).map Lexeme.token ∧
      ∃ a b, ofText text = .ok a ∧ ofText text' = .ok b ∧ a.SameButPlaces b := by
  rw [htext, List.append_assoc] at hpieces
  obtain ⟨hseam, -⟩ := Seam.of_pieces hpieces hfirst
  have hreduce : (first.map Piece.token).reduceOption = first.filterMap Piece.token := by
    rw [List.reduceOption, List.filterMap_map]
    rfl
  have htokens : (lex text).map Lexeme.token = first.filterMap Piece.token ++ e.tokens after := by
    rw [map_token_lex, htext, List.append_assoc, hseam.tokensOf_append, e.tokensOf_around hcontent hafter, hreduce]
  have htokens' : (lex text').map Lexeme.token = first.filterMap Piece.token ++ e.tokens after := by
    rw [map_token_lex, htext', List.append_assoc, (hseam.alike (e.alike hcontent hcontent' after)).tokensOf_append,
      e.tokensOf_around hcontent' hafter, hreduce]
  have hsame := htokens'.trans htokens.symm
  exact ⟨htokens, hsame, Analysis.ofText_of_tokens hsame.symm⟩

theorem Analysis.ofText_content_comment :
    (lex "import a; // b").map Lexeme.token = [.keyword .importKw, .identifier "a", .semicolon] ∧
      (lex "import a; // class \"B\"").map Lexeme.token = (lex "import a; // b").map Lexeme.token ∧
      ∃ a b, ofText "import a; // b" = .ok a ∧ ofText "import a; // class \"B\"" = .ok b ∧
        a.SameButPlaces b := by
  have hpieces : pieces "import a; // b".toList =
      [⟨some (.keyword .importKw), "import".toList⟩, ⟨none, [' ']⟩, ⟨some (.identifier "a"), ['a']⟩,
        ⟨some .semicolon, [';']⟩, ⟨none, [' ']⟩] ++ [⟨none, "// b".toList⟩] := by cbv
  have hcontent : Enclosure.lineComment.Admits " b".toList := by
    show '\n' ∉ _
    decide
  have hcontent' : Enclosure.lineComment.Admits " class \"B\"".toList := by
    show '\n' ∉ _
    decide
  have htext : "import a; // b".toList =
      "import a; ".toList ++ Enclosure.lineComment.around " b".toList ++ [] := by decide
  have htext' : "import a; // class \"B\"".toList =
      "import a; ".toList ++ Enclosure.lineComment.around " class \"B\"".toList ++ [] := by decide
  have hafter : Enclosure.lineComment.EndsBefore [] := fun _ hd => absurd hd (Option.not_mem_none _)
  obtain ⟨htokens, hsame⟩ := ofText_content htext htext' hpieces (by decide) hcontent hcontent' hafter
  exact ⟨htokens.trans (by cbv), hsame⟩

end Nomenclator
