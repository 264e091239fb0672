/-
Going outwards in a name cuts its text short: an operation goes with the `#`
before it, a class with the `$` before it.

So what a class holds can be told from the texts alone. It holds the names
whose text goes on behind its own with one of the two separators. This rests
on where separators may stand: a class has none in its own text, and a `#`
stands before the operation only, though parameters behind it may hold any.
-/
import Mathlib
import Nomenclator.Proofs.Name.RoundTrip

namespace Nomenclator

open Text

/-- What stands before the first `#` or, if there is none, before the last `$`. -/
def Text.outer? (text : List Char) : Option (List Char) :=
  match cut '#' text with
  | some (type, _) => some type
  | none => (cut '$' text.reverse).map fun (_, outer) => outer.reverse

theorem Text.outer?_of_hash {type operation : List Char} (h : '#' ∉ type) :
    outer? (type ++ '#' :: operation) = some type := by
  rw [outer?, cut_eq_some_iff.mpr ⟨rfl, h⟩]

theorem Text.outer?_of_dollar {outer last : List Char} (hash : '#' ∉ outer ++ '$' :: last) (h : '$' ∉ last) :
    outer? (outer ++ '$' :: last) = some outer := by
  have hcut : cut '$' (outer ++ '$' :: last).reverse = some (last.reverse, outer.reverse) :=
    cut_eq_some_iff.mpr ⟨by simp, fun hm => h (List.mem_reverse.mp hm)⟩
  rw [outer?, cut_eq_none_iff.mpr hash, hcut]
  exact congrArg some outer.reverse_reverse

theorem Text.outer?_of_not_mem {text : List Char} (hash : '#' ∉ text) (h : '$' ∉ text) : outer? text = none := by
  have hcut : cut '$' text.reverse = none := cut_eq_none_iff.mpr fun hm => h (List.mem_reverse.mp hm)
  rw [outer?, cut_eq_none_iff.mpr hash, hcut, Option.map_none]

namespace QualifiedName

variable {n m t : QualifiedName}

/-! ## One step outwards -/

/-- The three ways to go outwards from a name. -/
theorem enclosingType?_cases (n : QualifiedName) :
    (∃ c o, n = withOperation c o ∧ c.operation = none ∧ n.enclosingType? = some c) ∨
      (∃ c s, n = nested c s ∧ c.operation = none ∧ n.enclosingType? = some c) ∨
        n = topLevel n.packages n.outermost ∧ n.enclosingType? = none := by
  obtain ⟨packages, outermost, inner, operation⟩ := n
  cases operation with
  | some o => exact .inl ⟨⟨packages, outermost, inner, none⟩, o, rfl, rfl, rfl⟩
  | none =>
    rcases List.eq_nil_or_concat inner with rfl | ⟨front, s, rfl⟩
    · exact .inr (.inr ⟨rfl, rfl⟩)
    · rw [List.concat_eq_append]
      let c : QualifiedName := ⟨packages, outermost, front, none⟩
      exact .inr (.inl ⟨c, s, rfl, rfl, enclosingType?_nested c s⟩)

theorem WellFormed.of_withOperation {o : Operation} (h : (n.withOperation o).WellFormed) (hn : n.operation = none) :
    n.WellFormed :=
  ⟨h.packages, h.classes, fun _ ho => absurd (hn ▸ ho) (Option.not_mem_none _)⟩

theorem WellFormed.of_nested {s : Segment} (h : (n.nested s).WellFormed) (hn : n.operation = none) :
    n.WellFormed :=
  ⟨h.packages, fun c hc => h.classes c (List.mem_append_left _ hc), fun _ ho => absurd (hn ▸ ho) (Option.not_mem_none _)⟩

theorem WellFormed.enclosing (h : n.WellFormed) (hm : n.enclosingType? = some m) :
    m.WellFormed ∧ m.operation = none := by
  rcases enclosingType?_cases n with ⟨c, o, rfl, hc, he⟩ | ⟨c, s, rfl, hc, he⟩ | ⟨-, he⟩
  · obtain rfl := Option.some.inj (he.symm.trans hm)
    exact ⟨h.of_withOperation hc, hc⟩
  · obtain rfl := Option.some.inj (he.symm.trans hm)
    exact ⟨h.of_nested hc, hc⟩
  · exact absurd (he.symm.trans hm) (Option.some_ne_none m).symm

/-! ## Texts -/

theorem written_withOperation (hn : n.operation = none) (o : Operation) :
    (n.withOperation o).written = n.written ++ '#' :: o.written := by
  rw [written, written, hn, writtenOperation, List.append_nil]
  rfl

theorem writtenClasses_concat {classes : List Segment} (hne : classes ≠ []) (s : Segment) :
    writtenClasses (classes ++ [s]) = writtenClasses classes ++ '$' :: s.written := by
  obtain ⟨front, last, rfl⟩ := (List.eq_nil_or_concat classes).resolve_left hne
  rw [List.concat_eq_append, writtenClasses, writtenClasses, List.map_append, List.map_append,
    List.map_singleton, List.map_singleton, intercalate_concat, intercalate_concat, List.flatMap_append]
  simp

theorem written_nested (hn : n.operation = none) (s : Segment) :
    (n.nested s).written = n.written ++ '$' :: s.written := by
  have hne : n.classes ≠ [] := List.cons_ne_nil _ _
  have hclasses := writtenClasses_concat hne s
  rw [written, written, hn, classes_nested, hclasses]
  simp [nested, writtenOperation]

theorem WellFormed.hash_not_mem (h : n.WellFormed) (hn : n.operation = none) : '#' ∉ n.written := by
  rw [written, hn, writtenOperation, List.append_nil]
  exact not_mem_hash_of_type (fun p hp => not_mem_of_isPackage (h.packages p hp) rfl)
    fun s hs => (h.classes s hs).isWord

/-- No separator stands in the text of a class at the end of the chain. -/
theorem WellFormed.last_not_mem {s : Segment} (h : (n.nested s).WellFormed) {sep : Char}
    (hs : isWordChar sep = false) : sep ∉ s.written :=
  not_mem_of_forall (h.classes s (by simp)).isWord hs

/-- A class at the top level has only points in its text. -/
theorem WellFormed.not_mem_topLevel {packages : List String} {name : String}
    (h : (topLevel packages name).WellFormed) {sep : Char} (hs : isWordChar sep = false) (hd : sep ≠ '.') :
    sep ∉ (topLevel packages name).written := by
  have hname : isIdentifier name.toList = true := h.classes (.named name) List.mem_cons_self
  have hwritten : (topLevel packages name).written =
      ['.'].intercalate (packages.map String.toList ++ [name.toList]) := by
    rw [← writtenPackages_append, written, topLevel, writtenOperation, List.append_nil]
    exact congrArg _ (List.intercalate_singleton ..)
  rw [hwritten]
  refine not_mem_intercalate hd fun item hm => ?_
  rcases List.mem_append.mp hm with hm | hm
  · obtain ⟨p, hp, rfl⟩ := List.mem_map.mp hm
    exact not_mem_of_isPackage (h.packages p hp) hs
  · exact List.mem_singleton.mp hm ▸ not_mem_of_isIdentifier hname hs

theorem outer?_written (h : n.WellFormed) : outer? n.written = n.enclosingType?.map written := by
  rcases enclosingType?_cases n with ⟨c, o, rfl, hc, he⟩ | ⟨c, s, rfl, hc, he⟩ | ⟨htop, he⟩
  · rw [he, written_withOperation hc]
    exact outer?_of_hash ((h.of_withOperation hc).hash_not_mem hc)
  · have hash := h.hash_not_mem rfl
    rw [he, written_nested hc] at *
    exact outer?_of_dollar hash (h.last_not_mem rfl)
  · rw [he]
    rw [htop] at h ⊢
    exact outer?_of_not_mem (h.not_mem_topLevel rfl (by decide)) (h.not_mem_topLevel rfl (by decide))

/-! ## Lying within -/

/-- Going outwards leads from the one name to the other, in any number of steps. -/
def LiesIn : QualifiedName → QualifiedName → Prop := Relation.ReflTransGen fun n m => n.enclosingType? = some m

/-- The text of the first name goes on behind that of the second, from a separator. -/
def GoesOnFrom (n t : QualifiedName) : Prop :=
  ∃ rest, n.written = t.written ++ '$' :: rest ∨ n.written = t.written ++ '#' :: rest

theorem GoesOnFrom.trans (h : n.GoesOnFrom m) (h' : m.GoesOnFrom t) : n.GoesOnFrom t := by
  obtain ⟨rest, h⟩ := h
  obtain ⟨rest', h' | h'⟩ := h'
  all_goals
    rw [h', List.append_assoc, List.append_assoc] at h
  · exact h.elim (fun h => ⟨_, .inl h⟩) fun h => ⟨_, .inl h⟩
  · exact h.elim (fun h => ⟨_, .inr h⟩) fun h => ⟨_, .inr h⟩

theorem goesOnFrom_of_enclosing (h : n.enclosingType? = some m) : n.GoesOnFrom m := by
  rcases enclosingType?_cases n with ⟨c, o, rfl, hc, he⟩ | ⟨c, s, rfl, hc, he⟩ | ⟨-, he⟩
  · obtain rfl := Option.some.inj (he.symm.trans h)
    exact ⟨_, .inr (written_withOperation hc o)⟩
  · obtain rfl := Option.some.inj (he.symm.trans h)
    exact ⟨_, .inl (written_nested hc s)⟩
  · exact absurd (he.symm.trans h) (Option.some_ne_none m).symm

/-- Of two places where a text is cut, the second is not behind the first unless a part holds the
other separator. -/
theorem eq_or_goesOn {outer last text rest : List Char} {c d : Char} (hmem : c ∉ text ∨ d ∉ last)
    (h : outer ++ c :: last = text ++ d :: rest) : outer = text ∨ ∃ more, outer = text ++ d :: more := by
  rcases List.append_eq_append_iff.mp h with ⟨back, rfl, hback⟩ | ⟨back, rfl, hback⟩
  · cases back with
    | nil => exact .inl (List.append_nil _).symm
    | cons b back =>
      obtain ⟨rfl, rfl⟩ := List.cons.inj hback
      rcases hmem with hmem | hmem
      · exact absurd (List.mem_append_right _ List.mem_cons_self) hmem
      · exact absurd (List.mem_append_right _ List.mem_cons_self) hmem
  · cases back with
    | nil => exact .inl (List.append_nil _)
    | cons b back =>
      obtain ⟨rfl, -⟩ := List.cons.inj hback
      exact .inr ⟨back, rfl⟩

/-- What goes on from a class is directly in it or directly in something that goes on from it. -/
theorem GoesOnFrom.enclosing (hn : n.WellFormed) (ht : t.WellFormed) (hclass : t.operation = none)
    (h : n.GoesOnFrom t) : ∃ m, n.enclosingType? = some m ∧ (m.written = t.written ∨ m.GoesOnFrom t) := by
  have hash := ht.hash_not_mem hclass
  obtain ⟨rest, h⟩ := h
  rcases enclosingType?_cases n with ⟨c, o, rfl, hc, he⟩ | ⟨c, s, rfl, hc, he⟩ | ⟨htop, -⟩
  · refine ⟨c, he, ?_⟩
    rw [written_withOperation hc] at h
    rcases h with h | h
    · exact (eq_or_goesOn (.inl hash) h).imp_right fun ⟨more, h⟩ => ⟨more, .inl h⟩
    · exact (eq_or_goesOn (.inl hash) h).imp_right fun ⟨more, h⟩ => ⟨more, .inr h⟩
  · refine ⟨c, he, ?_⟩
    rw [written_nested hc] at h
    rcases h with h | h
    · exact (eq_or_goesOn (.inr (hn.last_not_mem rfl)) h).imp_right fun ⟨more, h⟩ => ⟨more, .inl h⟩
    · exact (eq_or_goesOn (.inr (hn.last_not_mem rfl)) h).imp_right fun ⟨more, h⟩ => ⟨more, .inr h⟩
  · rw [htop] at hn h
    rcases h with h | h
    · have hnone : '$' ∉ _ := hn.not_mem_topLevel rfl (by decide)
      exact absurd (h ▸ List.mem_append_right _ List.mem_cons_self) hnone
    · have hnone : '#' ∉ _ := hn.not_mem_topLevel rfl (by decide)
      exact absurd (h ▸ List.mem_append_right _ List.mem_cons_self) hnone

theorem LiesIn.written (h : n.LiesIn t) : n = t ∨ n.GoesOnFrom t := by
  induction h using Relation.ReflTransGen.head_induction_on with
  | refl => exact .inl rfl
  | head hstep _ ih =>
    have hgoes := goesOnFrom_of_enclosing hstep
    rcases ih with rfl | ih
    · exact .inr hgoes
    · exact .inr (hgoes.trans ih)

/-- Each step outwards leaves less of the text, so the way ends at the class it goes on from. -/
theorem GoesOnFrom.liesIn {n t : QualifiedName} (h : n.GoesOnFrom t) (hn : n.WellFormed) (ht : t.WellFormed)
    (hclass : t.operation = none) : n.LiesIn t := by
  obtain ⟨m, he, hm⟩ := h.enclosing hn ht hclass
  have hwf := (hn.enclosing he).1
  rcases hm with hm | hm
  · have heq : some m = some t := by
      rw [← readWritten?_written hwf, hm, readWritten?_written ht]
    exact .single (heq ▸ he)
  · have hlt : m.written.length < n.written.length := by
      obtain ⟨rest, h' | h'⟩ := goesOnFrom_of_enclosing he
      all_goals
        rw [h', List.length_append]
        exact Nat.lt_add_of_pos_right (Nat.succ_pos _)
    exact .head he (hm.liesIn hwf ht hclass)
termination_by n.written.length

theorem render_eq_append_iff (sep : String) {c : Char} (hsep : sep.toList = [c]) (rest : String) :
    n.render = t.render ++ sep ++ rest ↔ n.written = t.written ++ c :: rest.toList := by
  rw [← String.toList_inj, render, String.toList_ofList, String.toList_append, String.toList_append, hsep, render,
    String.toList_ofList, List.append_assoc]
  rfl

theorem goesOnFrom_iff : n.GoesOnFrom t ↔
    ∃ rest, n.render = t.render ++ "$" ++ rest ∨ n.render = t.render ++ "#" ++ rest := by
  simp only [GoesOnFrom, render_eq_append_iff "$" rfl, render_eq_append_iff "#" rfl]
  constructor
  · rintro ⟨rest, h⟩
    exact ⟨String.ofList rest, by rwa [String.toList_ofList]⟩
  · rintro ⟨rest, h⟩
    exact ⟨rest.toList, h⟩

theorem WellFormed.render_inj (hn : n.WellFormed) (ht : t.WellFormed) : n.render = t.render ↔ n = t := by
  refine ⟨fun h => ?_, congrArg render⟩
  have hread := (read?_eq_some_iff_render_eq t.render n).mpr ⟨hn, h⟩
  exact Option.some.inj (hread.symm.trans ((read?_eq_some_iff_render_eq _ t).mpr ⟨ht, rfl⟩))

/-- Going outwards cuts off the operation or the last class, and what is left is read as the class
it leads to. A class holds just the names whose texts go on behind its own with a separator. -/
theorem enclosingType?_truncates :
    (∀ text n, read? text = some n →
      n.enclosingType?.map render = (outer? text.toList).map String.ofList ∧
        ∀ outer ∈ n.enclosingType?, read? outer.render = some outer) ∧
      ∀ n t : QualifiedName, n.WellFormed → t.WellFormed → t.operation = none →
        (n.LiesIn t ↔ n.render = t.render ∨
          ∃ rest, n.render = t.render ++ "$" ++ rest ∨ n.render = t.render ++ "#" ++ rest) := by
  refine ⟨fun text n h => ?_, fun n t hn ht hclass => ?_⟩
  · obtain ⟨hn, rfl⟩ := (read?_eq_some_iff_render_eq text n).mp h
    refine ⟨?_, fun outer houter => ?_⟩
    · rw [render, String.toList_ofList, outer?_written hn, Option.map_map]
      rfl
    · exact (read?_eq_some_iff_render_eq _ outer).mpr ⟨(hn.enclosing houter).1, rfl⟩
  · rw [hn.render_inj ht, ← goesOnFrom_iff]
    refine ⟨LiesIn.written, fun h => ?_⟩
    rcases h with rfl | h
    · exact .refl
    · exact h.liesIn hn ht hclass

/-- Parameters may hold separators, and are cut off with their method. -/
theorem enclosingType?_truncates_parameters :
    let type : QualifiedName := ⟨["foo"], "Outer", [.localType 1 "Local"], none⟩
    let method := type.withOperation (.method "run" ["a#b$c"])
    read? "foo.Outer$1Local#run(a#b$c)" = some method ∧
      (some type).map render = (outer? "foo.Outer$1Local#run(a#b$c)".toList).map String.ofList ∧
        method.LiesIn (.topLevel ["foo"] "Outer") := by
  intro type method
  have hmethod : read? "foo.Outer$1Local#run(a#b$c)" = some method := by cbv
  have houter : read? "foo.Outer" = some (.topLevel ["foo"] "Outer") := by cbv
  obtain ⟨hwf, htext⟩ := (read?_eq_some_iff_render_eq _ _).mp hmethod
  obtain ⟨hwf', htext'⟩ := (read?_eq_some_iff_render_eq _ _).mp houter
  refine ⟨hmethod, (enclosingType?_truncates.1 _ method hmethod).1, ?_⟩
  refine (enclosingType?_truncates.2 method _ hwf hwf' rfl).mpr (.inr ⟨"1Local#run(a#b$c)", .inl ?_⟩)
  rw [htext, htext']
  decide

end QualifiedName

end Nomenclator
