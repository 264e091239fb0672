/-
What words and separated lists of them hold: no separator of the name
grammar is a character of a word, so cutting at separators gives back the
words that were joined.
-/
import Nomenclator.Proofs.Text.Decimal
import Nomenclator.Text.Identifier
import Nomenclator.Text.Split

namespace Nomenclator.Text

/-! ## Characters of words -/

theorem not_mem_of_forall {p : Char → Bool} {text : List Char} (h : ∀ c ∈ text, p c = true) {sep : Char}
    (hs : p sep = false) : sep ∉ text := by
  intro hm
  rw [h sep hm] at hs
  exact Bool.noConfusion hs

theorem isWordChar_of_isWordStart {c : Char} (h : isWordStart c = true) : isWordChar c = true := by
  simp only [isWordStart, isWordChar, Char.isAlphanum, Bool.or_eq_true, beq_iff_eq] at h ⊢
  rcases h with h | h
  · exact .inl (.inl h)
  · exact .inr h

theorem isWordChar_of_isDigit {c : Char} (h : c.isDigit = true) : isWordChar c = true := by
  simp [isWordChar, Char.isAlphanum, h]

/-- A word begins with something else than a digit. -/
theorem not_isDigit_of_isWordStart {c : Char} (h : isWordStart c = true) : c.isDigit = false := by
  rw [Bool.eq_false_iff]
  intro hd
  obtain ⟨h1, h2⟩ := Decimal.toNat_of_isDigit hd
  unfold isWordStart Char.isAlpha Char.isUpper Char.isLower at h
  simp only [Bool.or_eq_true, Bool.and_eq_true, decide_eq_true_eq, beq_iff_eq, ge_iff_le,
    UInt32.le_iff_toNat_le] at h
  rcases h with (⟨h, -⟩ | ⟨h, -⟩) | rfl
  · exact absurd (Nat.le_trans h h2) (by decide)
  · exact absurd (Nat.le_trans h h2) (by decide)
  · exact absurd h2 (by decide)

theorem isWordChar_of_mem_identifier {text : List Char} (h : isIdentifier text = true) {c : Char}
    (hc : c ∈ text) : isWordChar c = true := by
  cases text with
  | nil => simp at hc
  | cons d ds =>
    simp only [isIdentifier, Bool.and_eq_true, List.all_eq_true] at h
    rcases List.mem_cons.1 hc with rfl | hc
    · exact isWordChar_of_isWordStart h.1
    · exact h.2 c hc

theorem ne_nil_of_isIdentifier {text : List Char} (h : isIdentifier text = true) : text ≠ [] := by
  intro he
  simp [he, isIdentifier] at h

/-- A character that is in no word is not in this one. -/
theorem not_mem_of_isIdentifier {text : List Char} (h : isIdentifier text = true) {sep : Char}
    (hs : isWordChar sep = false) : sep ∉ text :=
  not_mem_of_forall (fun _ => isWordChar_of_mem_identifier h) hs

/-! ## An index before a word -/

theorem takeWhile_isDigit_of_isIdentifier {text : List Char} (h : isIdentifier text = true) :
    text.takeWhile Char.isDigit = [] := by
  cases text with
  | nil => rfl
  | cons c cs =>
    simp only [isIdentifier, Bool.and_eq_true] at h
    rw [List.takeWhile_cons, not_isDigit_of_isWordStart h.1]
    rfl

theorem takeWhile_dropWhile_isDigit (text : List Char) :
    (text.dropWhile Char.isDigit).takeWhile Char.isDigit = [] := by
  have h := List.head?_dropWhile_not Char.isDigit text
  cases hd : text.dropWhile Char.isDigit with
  | nil => rfl
  | cons c cs =>
    rw [hd] at h
    rw [List.takeWhile_cons, show c.isDigit = false from h]
    rfl

/-! ## Lists of items -/

theorem items_of_not_mem {text : List Char} (h : ',' ∉ text) : items text = [text] := by
  induction text with
  | nil => rfl
  | cons c cs ih =>
    have hc : c ≠ ',' := fun he => h (by simp [he])
    rw [items, ih fun hm => h (List.mem_cons_of_mem _ hm)]
    · rfl
    · intro cs' he
      exact absurd he hc

theorem items_append {text : List Char} (h : ',' ∉ text) (rest : List Char) :
    items (text ++ ',' :: ' ' :: rest) = text :: items rest := by
  induction text with
  | nil => rw [List.nil_append, items]
  | cons c cs ih =>
    have hc : c ≠ ',' := fun he => h (by simp [he])
    rw [List.cons_append, items, ih fun hm => h (List.mem_cons_of_mem _ hm)]
    · rfl
    · intro cs' he
      exact absurd he hc

/-- Items without a comma of their own come apart as they were joined. -/
theorem items_intercalate {list : List (List Char)} (hne : list ≠ []) (h : ∀ item ∈ list, ',' ∉ item) :
    items (comma.intercalate list) = list := by
  induction list with
  | nil => exact absurd rfl hne
  | cons item rest ih =>
    have hi := h item (by simp)
    by_cases hr : rest = []
    · subst hr
      simpa using items_of_not_mem hi
    · rw [List.intercalate_cons_of_ne_nil hr]
      have hrest := ih hr fun i hm => h i (List.mem_cons_of_mem _ hm)
      have hitems := items_append hi (comma.intercalate rest)
      simp only [comma, List.cons_append, List.nil_append, List.append_assoc] at hrest hitems ⊢
      rw [hitems, hrest]

/-! ## Joined texts -/

theorem mem_intercalate {list : List (List Char)} {sep : List Char} {c : Char}
    (h : c ∈ sep.intercalate list) : c ∈ sep ∨ ∃ item ∈ list, c ∈ item := by
  induction list with
  | nil => simp at h
  | cons item rest ih =>
    by_cases hn : rest = []
    · subst hn
      exact .inr ⟨item, by simp, by simpa using h⟩
    · rw [List.intercalate_cons_of_ne_nil hn, List.mem_append, List.mem_append] at h
      rcases h with (h | h) | h
      · exact .inr ⟨item, by simp, h⟩
      · exact .inl h
      · obtain hs | ⟨i, hi, hc⟩ := ih h
        · exact .inl hs
        · exact .inr ⟨i, List.mem_cons_of_mem _ hi, hc⟩

theorem not_mem_intercalate {list : List (List Char)} {sep c : Char} (hc : c ≠ sep)
    (h : ∀ item ∈ list, c ∉ item) : c ∉ [sep].intercalate list := by
  intro hm
  obtain hs | ⟨item, hi, hm⟩ := mem_intercalate hm
  · exact hc (List.mem_singleton.mp hs)
  · exact h item hi hm

/-- A separator behind every item but the last. -/
theorem intercalate_concat (sep : Char) (front : List (List Char)) (last : List Char) :
    [sep].intercalate (front ++ [last]) = (front.flatMap fun item => item ++ [sep]) ++ last := by
  induction front with
  | nil => simp
  | cons item rest ih =>
    rw [List.cons_append, List.intercalate_cons_of_ne_nil (by simp), ih]
    simp

/-! ## Reading item by item -/

theorem ofList_if_eq_some_iff {good : List Char → Bool} {text : List Char} {s : String} :
    (if good text then some (String.ofList text) else none) = some s ↔
      good s.toList = true ∧ s.toList = text := by
  rw [Option.ite_none_right_eq_some, Option.some.injEq]
  constructor
  · rintro ⟨h, rfl⟩
    exact ⟨by rwa [String.toList_ofList], String.toList_ofList⟩
  · rintro ⟨h, rfl⟩
    exact ⟨h, String.ofList_toList⟩

/-- If reading inverts writing for one item, it does for a list of them. -/
theorem mapM_eq_some_iff {α β : Type} {read : α → Option β} {write : β → α} {Good : β → Prop}
    (h : ∀ a b, read a = some b ↔ Good b ∧ write b = a) (as : List α) (bs : List β) :
    as.mapM read = some bs ↔ (∀ b ∈ bs, Good b) ∧ bs.map write = as := by
  induction as generalizing bs with
  | nil => cases bs <;> simp
  | cons a as ih =>
    simp only [List.mapM_cons, Option.bind_eq_bind, Option.bind_eq_some_iff, Option.pure_def,
      Option.some.injEq]
    constructor
    · rintro ⟨b, hb, bs', hbs, rfl⟩
      obtain ⟨hg, rfl⟩ := (h a b).1 hb
      obtain ⟨hgs, rfl⟩ := (ih bs').1 hbs
      exact ⟨by simpa using ⟨hg, hgs⟩, rfl⟩
    · rintro ⟨hg, hw⟩
      cases bs with
      | nil => simp at hw
      | cons b bs =>
        simp only [List.map_cons, List.cons.injEq] at hw
        refine ⟨b, (h a b).2 ⟨hg b (by simp), hw.1⟩, bs, (ih bs).2 ⟨?_, hw.2⟩, rfl⟩
        exact fun b' hm => hg b' (List.mem_cons_of_mem _ hm)

end Nomenclator.Text
