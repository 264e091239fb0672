/-
Looking up a number by halves.

Numbers increase along the rows of a table, so half of the rows that are left
can be dropped after a look at the one in the middle. This finds the row that
going through all of them finds, for there is no second one.
-/
import Nomenclator.Proofs.NameTable.Index

namespace Nomenclator

namespace NameTable

/-- The row with the number, looked for by halves. The one row that is left in the end may be another. -/
def bisect? (id : Nat) (rows : List Row) : Option Row :=
  if h : 1 < rows.length then
    let half := rows.length / 2
    if id < rows[half].id then bisect? id (rows.take (rows.length - half)) else bisect? id (rows.drop half)
  else
    rows.head?.filter fun row => row.id = id
termination_by rows.length
decreasing_by all_goals simp only [List.length_take, List.length_drop]; omega

section

variable {rows : List Row} {k : Nat} (h : rows.Pairwise fun a b => a.id < b.id) (hk : k < rows.length)
include h hk

theorem id_lt_of_mem_take {row : Row} (hrow : row ∈ rows.take k) : row.id < rows[k].id := by
  rw [← List.take_append_drop k rows, List.pairwise_append] at h
  refine h.2.2 row hrow rows[k] ?_
  rw [List.drop_eq_getElem_cons hk]
  exact List.mem_cons_self

theorem id_le_of_mem_drop {row : Row} (hrow : row ∈ rows.drop k) : rows[k].id ≤ row.id := by
  have hdrop := h.sublist (List.drop_sublist k rows)
  rw [List.drop_eq_getElem_cons hk] at hrow hdrop
  rcases List.mem_cons.mp hrow with rfl | hrow
  · exact Nat.le_refl _
  · exact Nat.le_of_lt (List.rel_of_pairwise_cons hdrop hrow)

end

/-- The half that is dropped does not have the number. -/
theorem bisect?_eq_find? {id : Nat} {rows : List Row} (h : rows.Pairwise fun a b => a.id < b.id) :
    bisect? id rows = rows.find? fun row => row.id = id := by
  fun_induction bisect? id rows with
  | case1 rows hlength half hless ih =>
    have hbehind : ∀ row ∈ rows.drop (rows.length - half), ¬ decide (row.id = id) = true := by
      intro row hrow hid
      have hlater : row ∈ rows.drop half := List.drop_subset_drop_left rows (by omega) hrow
      have hle := id_le_of_mem_drop h (by omega) hlater
      rw [of_decide_eq_true hid] at hle
      exact Nat.not_le.mpr hless hle
    rw [ih (h.sublist (List.take_sublist ..))]
    conv => rhs; rw [← List.take_append_drop (rows.length - half) rows]
    rw [List.find?_append, List.find?_eq_none.mpr hbehind, Option.or_none]
  | case2 rows hlength half hnot ih =>
    have hbefore : ∀ row ∈ rows.take half, ¬ decide (row.id = id) = true := by
      intro row hrow hid
      have hlt := id_lt_of_mem_take h (by omega) hrow
      rw [of_decide_eq_true hid] at hlt
      exact hnot hlt
    rw [ih (h.sublist (List.drop_sublist ..))]
    conv => rhs; rw [← List.take_append_drop half rows]
    rw [List.find?_append, List.find?_eq_none.mpr hbefore, Option.none_or]
  | case3 rows hlength =>
    match rows with
    | [] => rfl
    | [row] => rw [List.find?_singleton, List.head?_cons, Option.filter_some]
    | _ :: _ :: _ => exact absurd (Nat.succ_lt_succ (Nat.succ_pos _)) hlength

end NameTable

/-- Whatever the text, looking up a number in its table by halves answers as going through the table does. -/
theorem Analysis.ofText_bisects (text : String) :
    ∃ analysis, Analysis.ofText text = .ok analysis ∧
      ∀ id, NameTable.bisect? id analysis.table.rows = analysis.table.get? id := by
  have hnumbers : (Node.numbers (CompilationUnit.parse text).1.preorder).Pairwise (· < ·) :=
    CompilationUnit.numbers_ofLexemes (lex text)
  have hids := NameTable.increasing_ofRows (CompilationUnit.parse text).1.numbered_perm hnumbers
  exact ⟨_, ofText_numbered text, fun id => NameTable.bisect?_eq_find? hids⟩

end Nomenclator
