/-
White space and line comments between tokens say nothing.

Where a token begins or ends, a text may be drawn apart: all pieces before
that place are cut as they were, since white space continues none of them,
and the layout put there leaves no token behind.
-/
import Mathlib
import Nomenclator.Proofs.NameTable.Relocation
import Nomenclator.Proofs.Token.Cutting
import Nomenclator.Proofs.Token.Names

namespace Nomenclator

/-- White space and complete line comments. -/
inductive Layout : List Char → Prop
  | nil : Layout []
  | space {c : Char} {w : List Char} (hc : Cut.isSpace c = true) (hw : Layout w) : Layout (c :: w)
  | comment {body w : List Char} (hbody : '\n' ∉ body) (hw : Layout w) :
    Layout ('/' :: '/' :: body ++ '\n' :: w)

/-! ## Layout has no tokens -/

namespace Cut

theorem next_of_isSpace {c : Char} (hc : isSpace c = true) (cs : List Char) : next c cs = ⟨none, 0⟩ := by
  have hmem := mem_spaces hc
  simp only [spaces, List.mem_cons, List.not_mem_nil, or_false] at hmem
  rcases hmem with rfl | rfl | rfl | rfl | rfl <;> rfl

end Cut

theorem Layout.tokensOf_append {w : List Char} (hw : Layout w) (v : List Char) :
    tokensOf (w ++ v) = tokensOf v := by
  induction hw with
  | nil => rfl
  | @space c w hc _ ih =>
    rw [List.cons_append, tokensOf_cons, Cut.next_of_isSpace hc]
    exact ih
  | @comment body w hbody _ ih =>
    have hrest : ∀ d ∈ ('\n' :: (w ++ v)).head?, d = '\n' := fun d hd => (Option.some.inj hd).symm
    have hassoc : '/' :: '/' :: body ++ '\n' :: w ++ v = '/' :: ('/' :: body ++ '\n' :: (w ++ v)) := by simp
    rw [hassoc, tokensOf_piece (Cut.next_lineComment hbody hrest), tokensOf_cons, Cut.next_of_isSpace rfl]
    exact ih

/-! ## White space behind a piece -/

namespace Cut

variable {c : Char} {a v : List Char}

/-- A piece that is valid and ends in time is cut the same before white space. A comment has to end
before the white space does begin. -/
theorem next_insert (hfits : (next c (a ++ v)).more ≤ a.length) (hvalid : (next c (a ++ v)).token ≠ some .invalid)
    (hcomment : (next c (a ++ v)).token = none → (next c (a ++ v)).more = a.length →
      ∃ d ∈ v.head?, d ≠ '\n') {s : Char} (hs : isSpace s = true) (w : List Char) :
    next c (a ++ s :: w) = next c (a ++ v) := by
  have hmem := mem_spaces hs
  have hne {d : Char} (hd : d ∉ spaces) : s ≠ d := ne_of_mem_of_not_mem hmem hd
  by_cases hc : c ∈ ['/', '"', '\'']
  · rcases List.mem_cons.mp hc with rfl | hc
    · refine slash_append_eq hfits (fun _ d hd => ?_) hcomment (.inl hvalid)
      rw [← Option.some.inj hd]
      exact ⟨hne (by decide), hne (by decide)⟩
    rcases List.mem_cons.mp hc with rfl | hc
    · refine doubleQuote_append_eq hfits (.inl hvalid) fun hlength hopens => ?_
      match a, hlength with
      | [], _ =>
        rw [List.nil_append, List.isPrefixOf, Bool.and_eq_true, beq_iff_eq] at hopens
        exact absurd hopens.1.symm (hne (by decide))
      | [_], _ =>
        rw [List.cons_append, List.nil_append, List.isPrefixOf, List.isPrefixOf, Bool.and_eq_true, Bool.and_eq_true,
          beq_iff_eq, beq_iff_eq] at hopens
        exact absurd hopens.2.1.symm (hne (by decide))
    · obtain rfl := List.mem_singleton.mp hc
      refine singleQuote_append_eq hfits (.inl hvalid) fun ha => ⟨fun hhead => ?_, fun hhead => ?_⟩
      · exact absurd (Option.some.inj hhead) (hne (by decide))
      · obtain ⟨ds, rfl⟩ := List.head?_eq_some_iff.mp hhead
        subst ha
        exact absurd rfl hvalid
  · exact next_append_eq hc hfits (.cons (List.mem_append_left _ hmem) w)

end Cut

theorem Seam.insert {u v : List Char} {ts : List (Option Token)} (h : Seam v u ts)
    (hvalid : some Token.invalid ∉ ts) (hlast : ts.getLast? = some none → ∃ d ∈ v.head?, d ≠ '\n')
    {s : Char} (hs : Cut.isSpace s = true) (w : List Char) : Seam (s :: w) u ts := by
  induction h with
  | here => exact .here
  | @piece c u ts hfits hrest ih =>
    have hsame : Cut.next c (u ++ s :: w) = Cut.next c (u ++ v) := by
      refine Cut.next_insert hfits (fun he => hvalid (he ▸ List.mem_cons_self)) (fun hnone hall => ?_) hs w
      -- a piece that reaches to the seam is the last one before it
      rw [hall, List.drop_length] at hrest
      cases hrest
      exact hlast (congrArg some hnone)
    rw [← hsame] at hfits ⊢
    refine .piece hfits ?_
    rw [hsame]
    refine ih (fun he => hvalid (List.mem_cons_of_mem _ he)) fun hnone => hlast ?_
    rw [List.getLast?_cons, hnone]
    rfl

theorem Seam.tokensOf_insert {u v w : List Char} {ts : List (Option Token)} (h : Seam v u ts)
    (hvalid : Token.invalid ∉ tokensOf (u ++ v)) (hlast : ts.getLast? = some none → ∃ d ∈ v.head?, d ≠ '\n')
    (hw : Layout w) (hspace : ∃ s ∈ w.head?, Cut.isSpace s = true) :
    tokensOf (u ++ w ++ v) = tokensOf (u ++ v) := by
  obtain ⟨s, hhead, hs⟩ := hspace
  obtain ⟨w, rfl⟩ := List.head?_eq_some_iff.mp hhead
  rw [h.tokensOf_append] at hvalid
  have hseam : Seam (s :: (w ++ v)) u ts := by
    refine h.insert (fun hmem => hvalid ?_) hlast hs (w ++ v)
    exact List.mem_append_left _ (List.reduceOption_mem_iff.mpr hmem)
  rw [List.append_assoc, List.cons_append, hseam.tokensOf_append, ← List.cons_append, hw.tokensOf_append,
    h.tokensOf_append]

/-! ## Where tokens begin and end -/

/-- A token begins behind a seam and ends before one. Nothing that ends at either of them would take
more if there were more. -/
theorem Seam.of_lexeme {text : List Char} {l : Lexeme} (h : l ∈ Lexeme.place 0 (pieces text)) {offset : Nat}
    (hoffset : l.span.start = offset ∨ l.span.stop = offset) :
    ∃ u v ts, text = u ++ v ∧ Text.byteSize u = offset ∧ Seam v u ts ∧
      (ts.getLast? = some none → ∃ d ∈ v.head?, d ≠ '\n') := by
  obtain ⟨front, p, back, hpieces, htoken, hstart, hstop⟩ := Lexeme.eq_append_of_mem_place h
  have htext := pieces_flatMap_text text
  rcases hoffset with rfl | rfl
  · rw [hpieces, List.flatMap_append] at htext
    obtain ⟨hseam, hv⟩ := Seam.of_pieces (htext.symm ▸ hpieces) rfl
    refine ⟨_, _, _, htext.symm, (hstart.trans (Nat.zero_add _)).symm, hseam, fun _ => ?_⟩
    cases hback : (p :: back).flatMap Piece.text with
    | nil =>
      rw [hback, pieces] at hv
      cases hv
    | cons d ds =>
      refine ⟨d, rfl, fun hlf => ?_⟩
      -- a line feed is no token
      rw [hback, pieces] at hv
      obtain ⟨rfl, -⟩ := List.cons.inj hv
      subst hlf
      cases htoken
  · rw [List.append_cons] at hpieces
    rw [hpieces, List.flatMap_append] at htext
    obtain ⟨hseam, -⟩ := Seam.of_pieces (htext.symm ▸ hpieces) rfl
    refine ⟨_, _, _, htext.symm, ?_, hseam, fun hlast => ?_⟩
    · rw [hstop, hstart, Nat.zero_add, List.flatMap_append, Text.byteSize_append, List.flatMap_singleton]
    · rw [List.map_append, List.map_singleton, List.getLast?_concat, htoken] at hlast
      cases hlast

/-- In a text without invalid tokens, layout may be put wherever a token begins or ends. What is said
about the text stays the same, but for the places it is said about. -/
theorem Analysis.ofText_insert {text : String} (hvalid : ∀ l ∈ lex text, l.token ≠ .invalid) {offset : Nat}
    (hoffset : ∃ l ∈ lex text, l.span.start = offset ∨ l.span.stop = offset) {layout : String}
    (hlayout : Layout layout.toList) (hspace : ∃ c ∈ layout.toList.head?, Cut.isSpace c = true) :
    ∃ before after : String, text = before ++ after ∧ Text.byteSize before.toList = offset ∧
      (lex (before ++ layout ++ after)).map Lexeme.token = (lex text).map Lexeme.token ∧
      ∃ a b, ofText text = .ok a ∧ ofText (before ++ layout ++ after) = .ok b ∧ a.SameButPlaces b := by
  obtain ⟨l, hl, hoffset⟩ := hoffset
  obtain ⟨u, v, ts, htext, hsize, hseam, hlast⟩ := Seam.of_lexeme hl hoffset
  have hall : Token.invalid ∉ tokensOf (u ++ v) := by
    rw [← htext, ← map_token_lex]
    intro hmem
    obtain ⟨l, hl, hinvalid⟩ := List.mem_map.mp hmem
    exact hvalid l hl hinvalid
  have htokens : (lex (.ofList u ++ layout ++ .ofList v)).map Lexeme.token = (lex text).map Lexeme.token := by
    rw [map_token_lex, map_token_lex, htext, String.toList_append, String.toList_append, String.toList_ofList,
      String.toList_ofList, hseam.tokensOf_insert hall hlast hlayout hspace]
  refine ⟨.ofList u, .ofList v, ?_, by rwa [String.toList_ofList], htokens,
    Analysis.ofText_of_tokens htokens.symm⟩
  rw [← String.ofList_append, ← htext, String.ofList_toList]

theorem Analysis.ofText_insert_behind_name :
    ∃ before after : String, "import a.b;" = before ++ after ∧ Text.byteSize before.toList = 8 ∧
      (lex (before ++ "\t// c;\n" ++ after)).map Lexeme.token = (lex "import a.b;").map Lexeme.token ∧
      ∃ a b, ofText "import a.b;" = .ok a ∧ ofText (before ++ "\t// c;\n" ++ after) = .ok b ∧
        a.SameButPlaces b := by
  have hlex : lex "import a.b;" = [⟨.keyword .importKw, ⟨0, 6⟩⟩, ⟨.identifier "a", ⟨7, 8⟩⟩, ⟨.dot, ⟨8, 9⟩⟩,
      ⟨.identifier "b", ⟨9, 10⟩⟩, ⟨.semicolon, ⟨10, 11⟩⟩] := by cbv
  have hbody : '\n' ∉ " c;".toList := by decide
  have hlayout : Layout "\t// c;\n".toList := .space rfl (.comment hbody .nil)
  refine ofText_insert ?_ ⟨⟨.identifier "a", ⟨7, 8⟩⟩, ?_, .inr rfl⟩ hlayout ⟨'\t', rfl, rfl⟩
  · rw [hlex]
    decide
  · rw [hlex]
    decide

end Nomenclator
