/-
The tokens of a text divide it: each of them takes some characters, none
begins before the one in front of it has ended, and what is between them is
white space and line comments. The first line comment that has no line feed
behind it is the end of the text.
-/
import Mathlib.Data.String.Basic
import Nomenclator.Proofs.Token.Layout

namespace Nomenclator

/-! ## Pieces that are skipped -/

namespace Cut

theorem eq_cons_of_slash {cs : List Char} (h : (slash cs).token = none) : ∃ ds, cs = '/' :: ds := by
  rw [slash.eq_def] at h
  split at h
  · exact ⟨_, rfl⟩
  all_goals cases h

/-- What is skipped is a white space character or a line comment. -/
theorem of_token_eq_none {c : Char} {cs : List Char} (h : (next c cs).token = none) :
    (isSpace c = true ∧ (next c cs).more = 0) ∨
      ∃ body rest, c = '/' ∧ cs = '/' :: body ++ rest ∧ '\n' ∉ body ∧ (∀ d ∈ rest.head?, d = '\n') ∧
        (next c cs).more = ('/' :: body).length := by
  have hdouble : (doubleQuote cs).token ≠ none := by
    rw [doubleQuote.eq_def]
    split <;> rcases literal_token .string _ _ with hl | hl <;> rw [hl] <;> exact Option.some_ne_none _
  have hsingle : (singleQuote cs).token ≠ none := by
    rw [singleQuote.eq_def]
    split
    · exact Option.some_ne_none _
    · rcases literal_token .character _ _ with hl | hl <;> rw [hl] <;> exact Option.some_ne_none _
  by_cases hc : c = '/'
  · subst hc
    obtain ⟨cs, rfl⟩ := eq_cons_of_slash h
    have hbody : '\n' ∉ cs.takeWhile (· ≠ '\n') := fun hmem => by
      have hlf := List.all_eq_true.mp List.all_takeWhile _ hmem
      exact absurd rfl (of_decide_eq_true hlf)
    have hrest : ∀ d ∈ (cs.dropWhile (· ≠ '\n')).head?, d = '\n' := by
      intro d hd
      have hnot := List.head?_dropWhile_not (· ≠ '\n') cs
      rw [Option.mem_def.mp hd] at hnot
      exact not_not.mp (of_decide_eq_false hnot)
    have hsplit : '/' :: cs = '/' :: cs.takeWhile (· ≠ '\n') ++ cs.dropWhile (· ≠ '\n') := by
      rw [List.cons_append, List.takeWhile_append_dropWhile]
    refine .inr ⟨_, _, rfl, hsplit, hbody, hrest, ?_⟩
    rw [hsplit, next_lineComment hbody hrest]
  · left
    unfold next at h ⊢
    split at h
    case h_25 => exact absurd rfl hc
    case h_26 => exact absurd h hdouble
    case h_27 => exact absurd h hsingle
    case h_28 =>
      split at h
      next hspace => exact ⟨hspace, by simp [hspace]⟩
      split at h
      · cases h
      split at h <;> cases h
    all_goals first | cases h | (split at h <;> cases h)

end Cut

/-! ## Layout between tokens -/

/-- Layout, and a line comment that the text ends in. -/
inductive Trailing : List Char → Prop
  | layout {w : List Char} (hw : Layout w) : Trailing w
  | comment {w body : List Char} (hw : Layout w) (hbody : '\n' ∉ body) : Trailing (w ++ '/' :: '/' :: body)

theorem Layout.of_lineFeed {w : List Char} (h : Layout ('\n' :: w)) : Layout w := by
  generalize hv : '\n' :: w = v at h
  cases h with
  | nil => cases hv
  | space _ hw =>
    obtain ⟨-, rfl⟩ := List.cons.inj hv
    exact hw
  | comment => exact absurd (List.cons.inj hv).1 (by decide)

theorem Trailing.space {c : Char} {w : List Char} (hc : Cut.isSpace c = true) (h : Trailing w) :
    Trailing (c :: w) := by
  cases h with
  | layout hw => exact .layout (.space hc hw)
  | comment hw hbody => exact .comment (.space hc hw) hbody

theorem Trailing.lineComment {body w : List Char} (hbody : '\n' ∉ body) (h : Trailing ('\n' :: w)) :
    Trailing ('/' :: '/' :: body ++ '\n' :: w) := by
  generalize hv : '\n' :: w = v at h
  cases h with
  | layout hw =>
    subst hv
    exact .layout (.comment hbody hw.of_lineFeed)
  | @comment u last hu hlast =>
    cases u with
    | nil => exact absurd (List.cons.inj hv).1 (by decide)
    | cons c u =>
      obtain ⟨rfl, rfl⟩ := List.cons.inj hv
      have hcomment := Trailing.comment (.comment hbody hu.of_lineFeed) hlast
      rwa [List.append_assoc] at hcomment

/-- Pieces without tokens are layout. The last comment among them needs more text behind it. -/
theorem layout_of_pieces {text : List Char} {gap back : List Piece} (h : pieces text = gap ++ back)
    (hgap : ∀ p ∈ gap, p.token = none) : Trailing (gap.flatMap Piece.text) ∧
      ((∃ d ∈ (back.flatMap Piece.text).head?, d ≠ '\n') → Layout (gap.flatMap Piece.text)) := by
  induction gap generalizing text with
  | nil => exact ⟨.layout .nil, fun _ => .nil⟩
  | cons p gap ih =>
    cases text with
    | nil =>
      rw [pieces] at h
      cases h
    | cons c cs =>
      rw [pieces, List.cons_append] at h
      obtain ⟨rfl, hrest⟩ := List.cons.inj h
      have hbelow := ih hrest fun q hq => hgap q (List.mem_cons_of_mem _ hq)
      have hall := pieces_flatMap_text (cs.drop (Cut.next c cs).more)
      rw [hrest, List.flatMap_append] at hall
      rw [List.flatMap_cons]
      rcases Cut.of_token_eq_none (hgap _ List.mem_cons_self) with ⟨hspace, hmore⟩ |
        ⟨body, rest, rfl, rfl, hbody, hlf, hmore⟩
      · rw [hmore]
        exact ⟨hbelow.1.space hspace, fun hd => (hbelow.2 hd).space hspace⟩
      · rw [hmore, List.drop_left] at hall
        rw [hmore, List.take_left]
        cases hw : gap.flatMap Piece.text with
        | nil =>
          rw [hw, List.nil_append] at hall
          rw [hall, List.append_nil]
          refine ⟨.comment .nil hbody, ?_⟩
          rintro ⟨d, hd, hne⟩
          exact absurd (hlf d hd) hne
        | cons d w =>
          rw [hw] at hall hbelow
          obtain rfl : d = '\n' := hlf d (by rw [← hall]; rfl)
          exact ⟨hbelow.1.lineComment hbody, fun hd => .comment hbody (hbelow.2 hd).of_lineFeed⟩

/-! ## The tokens and what is around them -/

open Text

/-- A text the first byte of which has the given offset: tokens at their places, layout before and
between them, and what is left at the end. -/
inductive Partition : Nat → List Char → List Lexeme → Prop
  | last {offset : Nat} {w : List Char} (hw : Trailing w) : Partition offset w []
  | token {offset : Nat} {gap word rest : List Char} {token : Token} {ls : List Lexeme}
      (hgap : Layout gap) (hword : word ≠ [])
      (hrest : Partition (offset + byteSize gap + byteSize word) rest ls) :
      Partition offset (gap ++ (word ++ rest))
        (⟨token, offset + byteSize gap, offset + byteSize gap + byteSize word⟩ :: ls)

/-- Either no piece is a token, or there is a first one that is. -/
theorem Lexeme.place_cases (start : Nat) (ps : List Piece) :
    (place start ps = [] ∧ ∀ p ∈ ps, p.token = none) ∨
      ∃ gap p back token, ps = gap ++ p :: back ∧ (∀ q ∈ gap, q.token = none) ∧ p.token = some token ∧
        place start ps =
          ⟨token, start + byteSize (gap.flatMap Piece.text),
            start + byteSize (gap.flatMap Piece.text) + byteSize p.text⟩ ::
          place (start + byteSize (gap.flatMap Piece.text) + byteSize p.text) back := by
  induction ps generalizing start with
  | nil => exact .inl ⟨rfl, nofun⟩
  | cons p ps ih =>
    rw [place]
    cases htoken : p.token with
    | some token => exact .inr ⟨[], p, ps, token, rfl, nofun, htoken, rfl⟩
    | none =>
      rcases ih (start + byteSize p.text) with ⟨hnil, hps⟩ | ⟨gap, q, back, token, rfl, hgap, hq, hplace⟩
      · exact .inl ⟨hnil, List.forall_mem_cons.mpr ⟨htoken, hps⟩⟩
      · refine .inr ⟨p :: gap, q, back, token, rfl, List.forall_mem_cons.mpr ⟨htoken, hgap⟩, hq, ?_⟩
        rw [List.flatMap_cons, byteSize_append, ← Nat.add_assoc]
        exact hplace

/-- Every piece has a first character. A line feed is none of a token. -/
theorem head_of_pieces {text : List Char} {p : Piece} {back : List Piece} (h : pieces text = p :: back)
    (htoken : p.token ≠ none) : ∃ d ds, p.text = d :: ds ∧ d ≠ '\n' := by
  cases text with
  | nil =>
    rw [pieces] at h
    cases h
  | cons c cs =>
    rw [pieces] at h
    obtain ⟨rfl, -⟩ := List.cons.inj h
    refine ⟨c, _, rfl, fun hc => ?_⟩
    subst hc
    exact htoken rfl

theorem Partition.of_pieces (text : List Char) (start : Nat) :
    Partition start text (Lexeme.place start (pieces text)) := by
  induction hn : text.length using Nat.strong_induction_on generalizing text start with | _ n ih
  have htext := pieces_flatMap_text text
  rcases Lexeme.place_cases start (pieces text) with ⟨hnil, hnone⟩ |
    ⟨gap, p, back, token, hpieces, hgap, htoken, hplace⟩
  · have htrailing := (layout_of_pieces (List.append_nil _).symm hnone).1
    rw [htext] at htrailing
    rw [hnil]
    exact .last htrailing
  · rw [hpieces, List.flatMap_append] at htext
    have hback := (Seam.of_pieces (htext.symm ▸ hpieces) rfl).2
    rw [List.flatMap_cons] at htext hback
    obtain ⟨d, ds, hword, hd⟩ := head_of_pieces hback (by rw [htoken]; exact nofun)
    have hlayout := (layout_of_pieces hpieces hgap).2 ⟨d, by rw [List.flatMap_cons, hword]; rfl, hd⟩
    have hfirst : [p].flatMap Piece.text = p.text := List.flatMap_singleton ..
    have hrest : pieces (back.flatMap Piece.text) = back := (Seam.of_pieces hback hfirst).2
    -- what is behind the token is cut as it would be alone
    have hshorter : (back.flatMap Piece.text).length < n := by
      rw [← hn, ← htext, hword, List.length_append, List.length_append, List.length_cons]
      omega
    have hbelow := ih _ hshorter (back.flatMap Piece.text)
      (start + byteSize (gap.flatMap Piece.text) + byteSize p.text) rfl
    rw [hrest] at hbelow
    rw [hplace, ← htext]
    exact .token hlayout (by rw [hword]; exact nofun) hbelow

theorem lex_isPartition (text : String) : Partition 0 text.toList (lex text) :=
  .of_pieces text.toList 0

/-! ## Reading it off -/

theorem byteSize_pos {word : List Char} (h : word ≠ []) : 0 < byteSize word := by
  cases word with
  | nil => exact absurd rfl h
  | cons c cs => exact Nat.add_pos_left c.utf8Size_pos _

/-- Tokens have some length and come one behind the other. -/
structure Lexeme.InOrder (ls : List Lexeme) : Prop where
  nonempty : ∀ l ∈ ls, l.span.start < l.span.stop
  apart : ls.Pairwise fun a b => a.span.stop ≤ b.span.start

namespace Partition

variable {offset : Nat} {text : List Char} {ls : List Lexeme}

theorem le_start (h : Partition offset text ls) : ∀ l ∈ ls, offset ≤ l.span.start := by
  induction h with
  | last => exact nofun
  | token _ _ _ ih =>
    refine List.forall_mem_cons.mpr ⟨Nat.le_add_right _ _, fun l hl => ?_⟩
    have hle := ih l hl
    omega

theorem inOrder (h : Partition offset text ls) : Lexeme.InOrder ls := by
  induction h with
  | last => exact ⟨nofun, .nil⟩
  | token _ hword hrest ih =>
    refine ⟨List.forall_mem_cons.mpr ⟨?_, ih.nonempty⟩, .cons hrest.le_start ih.apart⟩
    exact Nat.lt_add_of_pos_right (byteSize_pos hword)

/-- Where the last of the tokens ends. -/
def endOf (offset : Nat) (ls : List Lexeme) : Nat := (ls.getLast?.map (·.span.stop)).getD offset

theorem endOf_cons (offset : Nat) (l : Lexeme) (ls : List Lexeme) :
    endOf offset (l :: ls) = endOf l.span.stop ls := by
  rw [endOf, List.getLast?_cons]
  cases h : ls.getLast? <;> simp [endOf, h]

/-- The text is what is before the end of some of the tokens, and what those behind them divide. -/
theorem split (h : Partition offset text ls) {left right : List Lexeme} (hls : ls = left ++ right) :
    ∃ front back, text = front ++ back ∧ offset + byteSize front = endOf offset left ∧
      Partition (endOf offset left) back right := by
  induction h generalizing left with
  | last hw =>
    obtain ⟨rfl, rfl⟩ := List.append_eq_nil_iff.mp hls.symm
    exact ⟨[], _, rfl, rfl, .last hw⟩
  | @token offset gap word rest token ls hgap hword hrest ih =>
    cases left with
    | nil =>
      obtain rfl := hls
      exact ⟨[], _, rfl, rfl, .token hgap hword hrest⟩
    | cons l left =>
      rw [List.cons_append] at hls
      obtain ⟨rfl, htail⟩ := List.cons.inj hls
      obtain ⟨front, back, rfl, hsize, hback⟩ := ih htail
      rw [endOf_cons]
      refine ⟨gap ++ (word ++ front), back, by simp, ?_, hback⟩
      rw [← hsize, byteSize_append, byteSize_append]
      omega

end Partition

/-! ## In the text itself -/

theorem byteSize_eq_utf8Len (text : List Char) : byteSize text = String.utf8Len text := by
  induction text with
  | nil => rfl
  | cons c cs ih => rw [byteSize, ih, String.utf8Len_cons, Nat.add_comm]

theorem isValid_of_append {text : String} {front back : List Char} (h : text.toList = front ++ back) :
    (⟨byteSize front⟩ : String.Pos.Raw).IsValid text := by
  rw [String.Pos.Raw.isValid_iff_exists_append]
  refine ⟨.ofList front, .ofList back, ?_, ?_⟩
  · rw [← String.ofList_append, ← h, String.ofList_toList]
  · rw [String.rawEndPos_ofList, byteSize_eq_utf8Len]

theorem extract_of_append {text : String} {front middle back : List Char}
    (h : text.toList = front ++ middle ++ back) :
    (String.Pos.Raw.extract text ⟨byteSize front⟩ ⟨byteSize front + byteSize middle⟩).toList = middle := by
  rw [byteSize_eq_utf8Len, byteSize_eq_utf8Len, ← String.ofList_toList (s := text), h, String.extract_of_valid,
    String.toList_ofList]

/-- A token begins and ends between characters, and something is in it. -/
theorem lex_isValid {text : String} {l : Lexeme} (h : l ∈ lex text) :
    l.span.start < l.span.stop ∧ l.span.stop ≤ text.utf8ByteSize ∧
      (⟨l.span.start⟩ : String.Pos.Raw).IsValid text ∧ (⟨l.span.stop⟩ : String.Pos.Raw).IsValid text := by
  obtain ⟨left, right, hls⟩ := List.append_of_mem h
  have hall := lex_isPartition text
  obtain ⟨front, back, htext, hsize, hback⟩ := hall.split hls
  have hlt := hall.inOrder.nonempty l h
  cases hback with
  | @token _ gap word rest t _ _ hword _ =>
    rw [← hsize, Nat.zero_add]
    have hstart : text.toList = (front ++ gap) ++ (word ++ rest) := by rw [htext, List.append_assoc]
    have hstop : text.toList = (front ++ gap ++ word) ++ rest := by rw [hstart, List.append_assoc _ word]
    have hvalid := isValid_of_append hstop
    rw [byteSize_append, byteSize_append] at hvalid
    have hle := hvalid.le_rawEndPos
    refine ⟨Nat.lt_add_of_pos_right (byteSize_pos hword), hle, ?_, hvalid⟩
    rw [← byteSize_append]
    exact isValid_of_append hstart

/-- The tokens divide the text: none is empty, none reaches into another, and each begins and ends
between two characters. What is before the first of them, between two of them and behind the last
is white space and line comments. -/
theorem lex_partition (text : String) :
    (∀ l ∈ lex text, l.span.start < l.span.stop ∧ l.span.stop ≤ text.utf8ByteSize ∧
      (⟨l.span.start⟩ : String.Pos.Raw).IsValid text ∧ (⟨l.span.stop⟩ : String.Pos.Raw).IsValid text) ∧
    ((lex text).Pairwise fun a b => a.span.stop ≤ b.span.start) ∧
    (∀ left l right, lex text = left ++ l :: right →
      Layout (String.Pos.Raw.extract text ⟨Partition.endOf 0 left⟩ ⟨l.span.start⟩).toList) ∧
    Trailing (String.Pos.Raw.extract text ⟨Partition.endOf 0 (lex text)⟩ text.rawEndPos).toList := by
  have hall := lex_isPartition text
  refine ⟨fun l hl => lex_isValid hl, hall.inOrder.apart, fun left l right hls => ?_, ?_⟩
  · obtain ⟨front, back, htext, hsize, hback⟩ := hall.split hls
    cases hback with
    | @token _ gap word rest t _ hgap _ _ =>
      rw [← hsize, Nat.zero_add, extract_of_append (htext.trans (List.append_assoc ..).symm)]
      exact hgap
  · obtain ⟨front, back, htext, hsize, hback⟩ := hall.split (List.append_nil _).symm
    have hend : text.rawEndPos = ⟨byteSize front + byteSize back⟩ := by
      rw [← byteSize_append, ← htext, byteSize_eq_utf8Len, String.utf8Len_toList]
      rfl
    cases hback with
    | last hw =>
      rw [hend, ← hsize, Nat.zero_add, extract_of_append (htext.trans (List.append_nil _).symm)]
      exact hw

end Nomenclator
