/-
A token does not depend on what follows it, in a way that would not show in
its own text: cut out of the text and taken for itself it is the same token.

For a token that ends by a rule of its own there is nothing to show. What
has to be checked are the ends that come from outside: a literal that breaks
at a line feed or a bad escape, a block comment that ends before its last
slash, a text block that breaks at the first of several quotes. Each leaves
a text that breaks at its end.
-/
import Nomenclator.Proofs.Token.Names
import Nomenclator.Proofs.Token.Partition

namespace Nomenclator

namespace Cut

/-! ## Measuring what was measured -/

theorem takeWhile_take (p : Char → Bool) (cs : List Char) :
    (cs.take (cs.takeWhile p).length).takeWhile p = cs.takeWhile p := by
  rw [← List.prefix_iff_eq_take.mp (List.takeWhile_prefix p), List.takeWhile_idem]

theorem commentLength_take (cs : List Char) : commentLength (cs.take (commentLength cs)) = commentLength cs := by
  induction cs with
  | nil => rfl
  | cons c cs ih =>
    rw [commentLength_cons]
    split
    next hend =>
      rw [hend.1]
      rfl
    next hend =>
      rw [List.take_succ_cons, commentLength_cons, if_neg, ih]
      rintro ⟨hstar, hslash⟩
      refine hend ⟨hstar, ?_⟩
      rw [List.head?_take] at hslash
      split at hslash
      · cases hslash
      · exact hslash

theorem quotedLength_take (quote : Char) : ∀ cs : List Char,
    quotedLength quote (cs.take (quotedLength quote cs).1) = quotedLength quote cs
  | [] => rfl
  | c :: cs => by
    by_cases hc : c = '\\'
    · subst hc
      cases cs with
      | nil => rfl
      | cons d cs =>
        rw [quotedLength_escape]
        split
        · rfl
        next hlf => rw [List.take_succ_cons, List.take_succ_cons, quotedLength_escape, if_neg hlf, quotedLength_take]
    · rw [quotedLength_cons hc]
      split
      next hquote => rw [List.take_succ_cons, quotedLength_cons hc, if_pos hquote]
      next hquote =>
        split
        · rfl
        next hlf => rw [List.take_succ_cons, quotedLength_cons hc, if_neg hquote, if_neg hlf, quotedLength_take]

/-- Content that a text block goes on with is among what it takes. -/
theorem startsContent_take {cs : List Char} (h : startsContent cs = true) :
    startsContent (cs.take (blockLength cs).1) = true := by
  cases cs with
  | nil => exact h
  | cons c cs =>
    by_cases hc : c = '\\'
    · subst hc
      cases cs with
      | nil => exact absurd h (by decide)
      | cons d cs =>
        have hlf : d ≠ '\n' := bne_iff_ne.mp h
        rw [blockLength_escape, if_neg hlf, List.take_succ_cons, List.take_succ_cons]
        exact h
    · have hq : c ≠ '"' := by
        rintro rfl
        cases cs <;> exact absurd h Bool.false_ne_true
      rw [blockLength_cons hc hq, List.take_succ_cons, startsContent]
      · simpa using ⟨hq, hc⟩
      · exact fun _ _ he _ => hc he

/-- What makes a quote content is among what the text block takes. -/
theorem behindQuote_take {cs : List Char} (hquotes : (behindQuote cs).1 = false)
    (h : (behindQuote cs).2 = true) : behindQuote (cs.take (blockLength cs).1) = behindQuote cs := by
  refine Prod.ext ?_ ?_
  · rw [hquotes, behindQuote, Bool.eq_false_iff]
    intro hprefix
    refine Bool.eq_false_iff.mp hquotes (List.isPrefixOf_iff_prefix.mpr ?_)
    exact (List.isPrefixOf_iff_prefix.mp hprefix).trans (List.take_prefix _ _)
  · rw [h, behindQuote, Bool.or_eq_true]
    rcases Bool.or_eq_true_iff.mp h with h | h
    · exact .inl (startsContent_take h)
    · obtain ⟨hhead, htail⟩ := Bool.and_eq_true_iff.mp h
      obtain ⟨cs, rfl⟩ := List.head?_eq_some_iff.mp (eq_of_beq hhead)
      have hfour : ¬(behindQuote cs).1 = true := by
        intro hprefix
        obtain ⟨ds, rfl⟩ := List.isPrefixOf_iff_prefix.mp hprefix
        exact absurd htail Bool.false_ne_true
      have hcontent : (behindQuote cs).2 = true := Bool.or_eq_true_iff.mpr (.inl htail)
      rw [blockLength_quote, if_neg hfour, if_pos hcontent, List.take_succ_cons]
      exact .inr (startsContent_take htail)

theorem blockLength_take : ∀ cs : List Char, blockLength (cs.take (blockLength cs).1) = blockLength cs
  | [] => rfl
  | c :: cs => by
    by_cases hc : c = '\\'
    · subst hc
      cases cs with
      | nil => rfl
      | cons d cs =>
        rw [blockLength_escape]
        split
        · rfl
        next hlf => rw [List.take_succ_cons, List.take_succ_cons, blockLength_escape, if_neg hlf, blockLength_take]
    by_cases hq : c = '"'
    · subst hq
      rw [blockLength_quote]
      split
      next hquotes =>
        obtain ⟨ds, rfl⟩ := List.isPrefixOf_iff_prefix.mp hquotes
        rfl
      next hquotes =>
        split
        next hcontent =>
          have hsame := behindQuote_take (Bool.eq_false_iff.mpr hquotes) hcontent
          rw [List.take_succ_cons, blockLength_quote, hsame, if_neg hquotes, if_pos hcontent, blockLength_take]
        next => rfl
    · rw [blockLength_cons hc hq, List.take_succ_cons, blockLength_cons hc hq, blockLength_take]

/-! ## One piece -/

theorem slash_take (cs : List Char) : slash (cs.take (slash cs).more) = slash cs := by
  rw [slash.eq_def cs]
  split
  next cs =>
    rw [Nat.add_comm, List.take_succ_cons, slash, takeWhile_take, Nat.add_comm]
  next cs => rw [Nat.add_comm, List.take_succ_cons, slash, commentLength_take, Nat.add_comm]
  next => rfl

theorem literal_more (token : Token) (opening : Nat) (measured : Nat × Bool) :
    (literal token opening measured).more = opening + measured.1 := rfl

theorem doubleQuote_take (cs : List Char) : doubleQuote (cs.take (doubleQuote cs).more) = doubleQuote cs := by
  rw [doubleQuote_eq cs]
  split
  next hopens =>
    obtain ⟨ds, rfl⟩ := List.isPrefixOf_iff_prefix.mp hopens
    have hdrop : (['"', '"'] ++ ds).drop 2 = ds := rfl
    rw [literal_more, hdrop, Nat.add_comm]
    show literal .string 2 (blockLength (ds.take (blockLength ds).1)) = _
    rw [blockLength_take]
  next hopens =>
    rw [literal_more, Nat.zero_add, doubleQuote_eq, if_neg, quotedLength_take]
    intro hprefix
    refine hopens (List.isPrefixOf_iff_prefix.mpr ?_)
    exact (List.isPrefixOf_iff_prefix.mp hprefix).trans (List.take_prefix _ _)

theorem singleQuote_take (cs : List Char) : singleQuote (cs.take (singleQuote cs).more) = singleQuote cs := by
  rw [singleQuote_eq cs]
  split
  next => rfl
  next hhead =>
    rw [literal_more, Nat.zero_add, singleQuote_eq, if_neg, quotedLength_take]
    intro hquote
    rw [List.head?_take] at hquote
    split at hquote
    · cases hquote
    · exact hhead hquote

/-- A piece taken for itself is the same piece. -/
theorem next_take (c : Char) (cs : List Char) : next c (cs.take (next c cs).more) = next c cs := by
  by_cases hc : c ∈ ['/', '"', '\'']
  · simp only [List.mem_cons, List.not_mem_nil, or_false] at hc
    rcases hc with rfl | rfl | rfl
    · exact slash_take cs
    · exact doubleQuote_take cs
    · exact singleQuote_take cs
  · have hsplit := List.take_append_drop (next c cs).more cs
    have hfits : (next c (cs.take (next c cs).more ++ cs.drop (next c cs).more)).more ≤
        (cs.take (next c cs).more).length := by
      rw [hsplit, List.length_take, Nat.min_eq_left (next_more_le c cs)]
    have hsame : next c (cs.take (next c cs).more ++ []) = _ := next_append_eq hc hfits nofun
    rwa [List.append_nil, hsplit] at hsame

end Cut

theorem pieces_piece (c : Char) (cs : List Char) : pieces (c :: cs.take (Cut.next c cs).more) =
    [⟨(Cut.next c cs).token, c :: cs.take (Cut.next c cs).more⟩] := by
  rw [pieces, Cut.next_take, List.take_take, Nat.min_self, List.drop_eq_nil_of_le (List.length_take_le ..), pieces]

/-! ## In the text -/

open Text

/-- The text that a span cuts out. -/
def Span.slice (s : Span) (text : String) : String := String.Pos.Raw.extract text ⟨s.start⟩ ⟨s.stop⟩

/-- What stands behind a span. -/
def Span.behind (s : Span) (text : String) : String := String.Pos.Raw.extract text ⟨s.stop⟩ text.rawEndPos

theorem extract_of_append_end {text : String} {front back : List Char} (h : text.toList = front ++ back) :
    (String.Pos.Raw.extract text ⟨byteSize front⟩ text.rawEndPos).toList = back := by
  have hend : text.rawEndPos = ⟨byteSize front + byteSize back⟩ := by
    rw [← byteSize_append, ← h, byteSize_eq_utf8Len, String.utf8Len_toList]
    rfl
  rw [hend]
  exact extract_of_append (h.trans (List.append_nil _).symm)

/-- A token's text is a piece of what is left of the text where the token begins. -/
theorem Lexeme.slice_eq {text : String} {l : Lexeme} (h : l ∈ lex text) :
    ∃ c cs, (Cut.next c cs).token = some l.token ∧
      (l.span.slice text).toList = c :: cs.take (Cut.next c cs).more ∧
      (l.span.behind text).toList = cs.drop (Cut.next c cs).more := by
  obtain ⟨front, p, back, hpieces, htoken, hstart, hstop⟩ := eq_append_of_mem_place h
  have htext := pieces_flatMap_text text.toList
  rw [hpieces, List.flatMap_append] at htext
  have hleft := (Seam.of_pieces (htext.symm ▸ hpieces) rfl).2
  cases hcs : (p :: back).flatMap Piece.text with
  | nil =>
    rw [hcs, pieces] at hleft
    cases hleft
  | cons c cs =>
    rw [hcs, pieces] at hleft
    obtain ⟨rfl, rfl⟩ := List.cons.inj hleft
    rw [List.flatMap_cons, pieces_flatMap_text, ← List.append_assoc] at htext
    rw [Nat.zero_add] at hstart
    refine ⟨c, cs, htoken, ?_, ?_⟩
    · rw [Span.slice, hstop, hstart]
      exact extract_of_append htext.symm
    · rw [Span.behind, hstop, hstart, ← byteSize_append]
      exact extract_of_append_end htext.symm

/-- Every token, invalid ones included, is the only token of its own text. An identifier is its text,
is none of the keywords, and is not continued by what follows. -/
theorem lex_slice (text : String) : ∀ l ∈ lex text,
    lex (l.span.slice text) = [⟨l.token, ⟨0, (l.span.slice text).utf8ByteSize⟩⟩] ∧
      ∀ name, l.token = .identifier name →
        name = l.span.slice text ∧ IsName name ∧ (∀ k : Keyword, name ≠ k.spelling) ∧
          ∀ d ∈ (l.span.behind text).toList.head?, Cut.isNameChar d = false := by
  intro l hl
  obtain ⟨c, cs, htoken, hslice, hbehind⟩ := Lexeme.slice_eq hl
  refine ⟨?_, fun name hname => ?_⟩
  · have hsize : byteSize (l.span.slice text).toList = (l.span.slice text).utf8ByteSize := by
      rw [byteSize_eq_utf8Len, String.utf8Len_toList]
    rw [← hsize, lex, hslice, pieces_piece, htoken, Lexeme.place, Lexeme.place, Nat.zero_add]
  · have hidentifier := htoken.trans (congrArg some hname)
    have hisName := Cut.next_token hidentifier
    obtain ⟨hstart, hword⟩ := Cut.next_eq_word hidentifier
    rw [hword] at hslice hbehind hidentifier
    refine ⟨?_, hisName, hisName.ne_spelling, fun d hd => ?_⟩
    · have htake : cs.take (cs.takeWhile Cut.isNameChar).length = cs.takeWhile Cut.isNameChar :=
        (List.prefix_iff_eq_take.mp (List.takeWhile_prefix _)).symm
      rw [(Token.eq_of_ofWord (Option.some.inj hidentifier)).1, ← String.toList_inj, hslice, String.toList_ofList]
      exact congrArg (c :: ·) htake.symm
    · have hsplit : cs.takeWhile Cut.isNameChar ++ cs.dropWhile Cut.isNameChar = cs := List.takeWhile_append_dropWhile
      have hdrop : (cs.takeWhile Cut.isNameChar ++ cs.dropWhile Cut.isNameChar).drop
          (cs.takeWhile Cut.isNameChar).length = cs.dropWhile Cut.isNameChar := List.drop_left
      rw [hsplit] at hdrop
      rw [hbehind, Cut.word, hdrop] at hd
      have hnot := List.head?_dropWhile_not Cut.isNameChar cs
      rw [hd] at hnot
      exact hnot

/-- A text block breaks at the first of three quotes, and what is cut out breaks there as well. -/
theorem lex_slice_brokenBlock :
    let text := "x = \"\"\"a\"\"\" ;"
    let broken : Lexeme := ⟨.invalid, ⟨4, 9⟩⟩
    broken ∈ lex text ∧ lex (broken.span.slice text) = [⟨.invalid, ⟨0, 5⟩⟩] := by
  intro text broken
  have hlex : lex text = [⟨.identifier "x", ⟨0, 1⟩⟩, ⟨.equal, ⟨2, 3⟩⟩, broken, ⟨.string, ⟨9, 11⟩⟩,
      ⟨.semicolon, ⟨12, 13⟩⟩] := by cbv
  have hmem : broken ∈ lex text := by
    rw [hlex]
    simp
  have hsize : (broken.span.slice text).utf8ByteSize = 5 := by cbv
  exact ⟨hmem, hsize ▸ (lex_slice text broken hmem).1⟩

end Nomenclator
