/-
The Unicode property White_Space, as ranges of code points: what may not
stand at either end of a parameter's text.
-/

namespace Nomenclator.Text

/-- First and last code point of every run of white space characters. -/
def blankRanges : List (Nat × Nat) :=
  [(0x0009, 0x000D), (0x0020, 0x0020), (0x0085, 0x0085), (0x00A0, 0x00A0), (0x1680, 0x1680),
   (0x2000, 0x200A), (0x2028, 0x2029), (0x202F, 0x202F), (0x205F, 0x205F), (0x3000, 0x3000)]

def isBlank (c : Char) : Bool :=
  blankRanges.any fun (first, last) => first ≤ c.toNat && c.toNat ≤ last

/-- Begins or ends with white space. -/
def isPadded (text : List Char) : Bool :=
  text.head?.any isBlank || text.getLast?.any isBlank

example : (blankRanges.map fun (first, last) => last + 1 - first).sum = 25 := rfl

theorem isBlank_of_isWhitespace {c : Char} (h : c.isWhitespace = true) : isBlank c = true := by
  simp only [Char.isWhitespace, Bool.or_eq_true, decide_eq_true_eq] at h
  rcases h with ((rfl | rfl) | rfl) | rfl <;> decide

end Nomenclator.Text
