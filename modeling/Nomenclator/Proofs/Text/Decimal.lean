/-
Decimal text is canonical: an index is read from the text that it is
written as, and from no other.

Both directions go digit by digit from the end, where a number grows.
-/
import Mathlib.Data.List.Induction
import Nomenclator.Text.Decimal

namespace Nomenclator.Text.Decimal

/-! ## Digits -/

theorem toNat_of_isDigit {c : Char} (h : c.isDigit = true) : 48 ≤ c.toNat ∧ c.toNat ≤ 57 := by
  have h' := Char.isDigit_iff_toNat.1 h
  rwa [show '0'.toNat = 48 from rfl, show '9'.toNat = 57 from rfl] at h'

theorem digitChar_value {c : Char} (h : c.isDigit = true) : Nat.digitChar (c.toNat - 48) = c := by
  obtain ⟨h1, h2⟩ := toNat_of_isDigit h
  apply Char.toNat_inj.1
  rw [Nat.toNat_digitChar_of_lt_ten (by omega)]
  omega

theorem isDigit_of_mem_write {n : Nat} {c : Char} (h : c ∈ write n) : c.isDigit = true :=
  Nat.isDigit_of_mem_toDigits (by decide) (by decide) h

theorem write_ne_nil (n : Nat) : write n ≠ [] := Nat.toDigits_ne_nil

theorem write_of_lt {n : Nat} (h : n < 10) : write n = [Nat.digitChar n] := Nat.toDigits_of_lt_base h

/-- A further digit goes to the end. -/
theorem write_mul_add {n d : Nat} (hn : 0 < n) (hd : d < 10) :
    write (10 * n + d) = write n ++ [Nat.digitChar d] := by
  rw [write, ← Nat.toDigits_append_toDigits (by decide) hn hd, Nat.toDigits_of_lt_base hd]
  rfl

/-! ## Leading zeroes -/

theorem head?_append_of_ne_nil {front : List Char} (h : front ≠ []) (back : List Char) :
    (front ++ back).head? = front.head? := by
  obtain ⟨c, cs, rfl⟩ := List.exists_cons_of_ne_nil h
  rfl

theorem head?_write_ne {n : Nat} (h : 0 < n) : (write n).head? ≠ some '0' := by
  induction n using Nat.strongRecOn with
  | ind n ih =>
    by_cases hn : n < 10
    · rw [write_of_lt hn, List.head?_cons, ne_eq, Option.some.injEq, Nat.digitChar_eq_zero]
      omega
    · rw [← Nat.div_add_mod n 10, write_mul_add (by omega) (Nat.mod_lt n (by decide)),
        head?_append_of_ne_nil (write_ne_nil _)]
      exact ih (n / 10) (by omega) (by omega)

theorem write_zero : write 0 = ['0'] := rfl

theorem write_canonical (n : Nat) : write n = ['0'] ∨ (write n).head? ≠ some '0' := by
  rcases Nat.eq_zero_or_pos n with rfl | hn
  · exact .inl write_zero
  · exact .inr (head?_write_ne hn)

/-- Digits without a leading zero are what their value is written as. -/
theorem write_value (digits : List Char) (hne : digits ≠ []) (hd : ∀ c ∈ digits, c.isDigit = true)
    (hc : digits = ['0'] ∨ digits.head? ≠ some '0') :
    write (Nat.ofDigitChars 10 digits 0) = digits := by
  rcases hc with rfl | hc
  · rfl
  induction digits using List.reverseRecOn with
  | nil => exact absurd rfl hne
  | append_singleton front c ih =>
    have hcd : c.isDigit = true := hd c (by simp)
    obtain ⟨h1, h2⟩ := toNat_of_isDigit hcd
    have hvalue : Nat.ofDigitChars 10 (front ++ [c]) 0 =
        10 * Nat.ofDigitChars 10 front 0 + (c.toNat - 48) := by
      rw [Nat.ofDigitChars_append, Nat.ofDigitChars_cons, Nat.ofDigitChars_nil]
      rfl
    rw [hvalue]
    by_cases hf : front = []
    · subst hf
      rw [Nat.ofDigitChars_nil, write_of_lt (by omega)]
      simpa using digitChar_value hcd
    · rw [head?_append_of_ne_nil hf] at hc
      have hfront := ih hf (fun d hm => hd d (by simp [hm])) hc
      have hpos : 0 < Nat.ofDigitChars 10 front 0 := by
        refine Nat.pos_of_ne_zero fun h0 => hc ?_
        rw [← hfront, h0, write_zero, List.head?_cons]
      rw [write_mul_add hpos (by omega), hfront, digitChar_value hcd]

/-! ## Reading inverts writing -/

theorem read?_eq_some_iff {digits : List Char} {n : Nat} :
    read? digits = some n ↔ n < bound ∧ write n = digits := by
  unfold read?
  split
  · rename_i h
    obtain ⟨hne, hd, hc, hb⟩ := h
    rw [Option.some.injEq]
    constructor
    · rintro rfl
      exact ⟨hb, write_value digits hne (by simpa using hd) hc⟩
    · rintro ⟨-, rfl⟩
      exact Nat.ofDigitChars_ten_toDigits
  · rename_i h
    refine ⟨fun h' => absurd h' (by simp), ?_⟩
    rintro ⟨hb, rfl⟩
    refine absurd ⟨write_ne_nil n, ?_, write_canonical n, ?_⟩ h
    · exact List.all_eq_true.2 fun c hm => isDigit_of_mem_write hm
    · rwa [write, Nat.ofDigitChars_ten_toDigits]

end Nomenclator.Text.Decimal
