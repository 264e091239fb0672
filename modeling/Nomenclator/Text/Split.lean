/-
Cutting texts at separators. `cut` takes the first place only, `items` every
place where a comma and a space stand together. Each comes with the fact
that putting the pieces together again gives the text back.
-/

namespace Nomenclator.Text

/-- What stands before and after the first `sep`. -/
def cut (sep : Char) : List Char → Option (List Char × List Char)
  | [] => none
  | c :: cs => if c = sep then some ([], cs) else (cut sep cs).map fun (l, r) => (c :: l, r)

theorem cut_eq_some_iff {sep : Char} {text l r : List Char} :
    cut sep text = some (l, r) ↔ text = l ++ sep :: r ∧ sep ∉ l := by
  induction text generalizing l with
  | nil => simp [cut]
  | cons c cs ih =>
    by_cases hc : c = sep
    · subst hc
      cases l with
      | nil => simp [cut, eq_comm]
      | cons d l => simp [cut]; rintro rfl _ h; exact absurd rfl h
    · cases l with
      | nil => simp [cut, hc]
      | cons d l => simp only [cut, hc, if_false, Option.map_eq_some_iff, Prod.exists]; grind

theorem cut_eq_none_iff {sep : Char} {text : List Char} : cut sep text = none ↔ sep ∉ text := by
  induction text with
  | nil => simp [cut]
  | cons c cs ih => by_cases hc : c = sep <;> simp [cut, hc, ih, Ne.symm]

/-- The separator of a parameter list. -/
def comma : List Char := [',', ' ']

/-- The pieces between the separators. -/
def items : List Char → List (List Char)
  | [] => [[]]
  | ',' :: ' ' :: cs => [] :: items cs
  | c :: cs => (items cs).modifyHead (c :: ·)

theorem items_ne_nil (text : List Char) : items text ≠ [] := by
  fun_induction items text <;> simp_all

theorem intercalate_items (text : List Char) : comma.intercalate (items text) = text := by
  fun_induction items text with
  | case1 => rfl
  | case2 cs ih =>
    rw [List.intercalate_cons_of_ne_nil (items_ne_nil cs), ih]; rfl
  | case3 c cs h ih =>
    obtain ⟨p, ps, hp⟩ := List.exists_cons_of_ne_nil (items_ne_nil cs)
    rw [hp] at ih ⊢
    cases ps <;> simp_all

end Nomenclator.Text
