/-
Places in a text. A span counts bytes of the UTF-8 form, so that it can be
cut out of the encoded text; lines and columns are what a reader counts.
-/

namespace Nomenclator

/-- From byte `start` up to, not including, byte `stop`. -/
structure Span where
  start : Nat
  stop : Nat
deriving DecidableEq

namespace Span

/-- The shortest span that covers both. -/
def join (a b : Span) : Span := ⟨min a.start b.start, max a.stop b.stop⟩

theorem join_comm (a b : Span) : a.join b = b.join a := by
  simp [join, Nat.min_comm, Nat.max_comm]

theorem join_assoc (a b c : Span) : (a.join b).join c = a.join (b.join c) := by
  simp [join, Nat.min_assoc, Nat.max_assoc]

@[simp] theorem join_self (a : Span) : a.join a = a := by
  simp [join]

end Span

namespace Text

/-- The length of a text in bytes. -/
def byteSize : List Char → Nat
  | [] => 0
  | c :: cs => c.utf8Size + byteSize cs

/-- The characters of a text that begin before byte `offset`. -/
def before : List Char → Nat → List Char
  | [], _ => []
  | _ :: _, 0 => []
  | c :: cs, offset + 1 => c :: before cs (offset + 1 - c.utf8Size)

/-- The line on which byte `offset` lies. Lines count from one and end after a line feed. -/
def line (text : List Char) (offset : Nat) : Nat :=
  (before text offset).count '\n' + 1

/-- The column of byte `offset`: characters, not bytes, since the last line feed, counted from one. -/
def column (text : List Char) (offset : Nat) : Nat :=
  ((before text offset).reverse.takeWhile (· ≠ '\n')).length + 1

theorem byteSize_append (a b : List Char) : byteSize (a ++ b) = byteSize a + byteSize b := by
  induction a with
  | nil => simp [byteSize]
  | cons c cs ih => simp [byteSize, ih, Nat.add_assoc]

theorem before_isPrefix (text : List Char) (offset : Nat) : before text offset <+: text := by
  induction text generalizing offset with
  | nil => simp [before]
  | cons c cs ih => cases offset <;> simp [before, ih]

/-- A later place is not on an earlier line. -/
theorem before_isPrefix_of_le (text : List Char) {m n : Nat} (h : m ≤ n) :
    before text m <+: before text n := by
  induction text generalizing m n with
  | nil => simp [before]
  | cons c cs ih =>
    cases m with
    | zero => simp [before]
    | succ m =>
      obtain ⟨n, rfl⟩ : ∃ k, n = k + 1 := ⟨n - 1, by omega⟩
      simpa [before] using ih (m := m + 1 - c.utf8Size) (n := n + 1 - c.utf8Size) (by omega)

end Text

/-- The line on which the span begins. -/
def Span.line (s : Span) (text : String) : Nat := Text.line text.toList s.start

end Nomenclator
