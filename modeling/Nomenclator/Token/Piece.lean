/-
Cutting a text into pieces, each a token or a run to skip.

A piece is a character and some of those after it, so every piece takes
something and the pieces of a text, put together, are the text. What the
pieces are is decided one at a time, from the text that is left:

- white space and line comments are skipped;
- a block comment is one invalid token that ends before its last slash;
- a quoted literal that is not closed is invalid up to the place that broke
  it, where cutting goes on;
- a text block ends at four quotes; three, or one or two with no content
  behind them, make all up to the first of them invalid.
-/
import Nomenclator.Token.Basic

namespace Nomenclator

/-- What the next piece is and how many characters it takes besides the first. A piece without a
token is skipped. -/
structure Cut where
  token : Option Token
  more : Nat := 0

namespace Cut

/-! ## Character classes -/

def isSpace (c : Char) : Bool :=
  c == ' ' || c == '\r' || c == '\n' || c == '\t' || c == '\x0c'

def isNameStart (c : Char) : Bool := c.isAlpha || c == '_' || c == '$'

def isNameChar (c : Char) : Bool := c.isAlphanum || c == '_' || c == '$'

def isNumberChar (c : Char) : Bool := c.isAlphanum || c == '_'

/-! ## Literals and comments

Each of these measures the text that follows the opening characters. -/

/-- How far a block comment reaches: up to the first slash behind a star. -/
def commentLength : List Char → Nat
  | [] => 0
  | '*' :: '/' :: _ => 1
  | _ :: cs => commentLength cs + 1

/-- How far a quoted literal reaches, and whether `quote` closes it there. A backslash takes the
next character with it; a line feed ends the literal unclosed. -/
def quotedLength (quote : Char) : List Char → Nat × Bool
  | [] => (0, false)
  | '\\' :: [] => (0, false)
  | '\\' :: c :: cs =>
    if c = '\n' then (0, false)
    else
      let (length, closed) := quotedLength quote cs
      (length + 2, closed)
  | c :: cs =>
    if c = quote then (1, true)
    else if c = '\n' then (0, false)
    else
      let (length, closed) := quotedLength quote cs
      (length + 1, closed)

/-- Content of a text block comes next: an escape, or a character that is neither a quote nor a
backslash. -/
def startsContent : List Char → Bool
  | '\\' :: c :: _ => c != '\n'
  | c :: _ => c != '"' && c != '\\'
  | [] => false

/-- How far a text block reaches, and whether four quotes close it there. -/
def blockLength : List Char → Nat × Bool
  | [] => (0, false)
  | '\\' :: [] => (0, false)
  | '\\' :: c :: cs =>
    if c = '\n' then (0, false)
    else
      let (length, closed) := blockLength cs
      (length + 2, closed)
  | '"' :: cs =>
    if ['"', '"', '"'].isPrefixOf cs then (4, true)
    else if startsContent cs || (cs.head? == some '"' && startsContent cs.tail) then
      let (length, closed) := blockLength cs
      (length + 1, closed)
    else (1, false)
  | _ :: cs =>
    let (length, closed) := blockLength cs
    (length + 1, closed)

/-- The literal of the given kind if it is closed, else an invalid piece. -/
def literal (token : Token) (opening : Nat) : Nat × Bool → Cut
  | (length, closed) => ⟨some (if closed then token else .invalid), opening + length⟩

/-- How far a number reaches: digits, letters and underscores, and once a point that a digit
follows. -/
def numberLength (cs : List Char) : Nat :=
  let whole := (cs.takeWhile isNumberChar).length
  match cs.dropWhile isNumberChar with
  | '.' :: c :: fraction =>
    if c.isDigit then whole + 2 + (fraction.takeWhile isNumberChar).length else whole
  | _ => whole

/-! ## One piece -/

def slash : List Char → Cut
  | '/' :: cs => ⟨none, 1 + (cs.takeWhile (· ≠ '\n')).length⟩
  | '*' :: cs => ⟨some .invalid, 1 + commentLength cs⟩
  | _ => ⟨some .operator, 0⟩

def doubleQuote : List Char → Cut
  | '"' :: '"' :: cs => literal .string 2 (blockLength cs)
  | cs => literal .string 0 (quotedLength '"' cs)

/-- A character literal holds at least one character. -/
def singleQuote : List Char → Cut
  | '\'' :: _ => ⟨some .invalid, 0⟩
  | cs => literal .character 0 (quotedLength '\'' cs)

def word (c : Char) (cs : List Char) : Cut :=
  let tail := cs.takeWhile isNameChar
  ⟨some (.ofWord (String.ofList (c :: tail))), tail.length⟩

/-- The next piece of the text `c :: cs`. -/
def next (c : Char) (cs : List Char) : Cut :=
  match c with
  | '(' => ⟨some (.opener .paren), 0⟩
  | ')' => ⟨some (.closer .paren), 0⟩
  | '[' => ⟨some (.opener .square), 0⟩
  | ']' => ⟨some (.closer .square), 0⟩
  | '{' => ⟨some (.opener .brace), 0⟩
  | '}' => ⟨some (.closer .brace), 0⟩
  | '<' => ⟨some .less, 0⟩
  | '>' => ⟨some .greater, 0⟩
  | '@' => ⟨some .atSign, 0⟩
  | ',' => ⟨some .comma, 0⟩
  | '=' => ⟨some .equal, 0⟩
  | '?' => ⟨some .question, 0⟩
  | ';' => ⟨some .semicolon, 0⟩
  | ':' => if cs.head? = some ':' then ⟨some .colonColon, 1⟩ else ⟨some .colon, 0⟩
  | '-' => if cs.head? = some '>' then ⟨some .arrow, 1⟩ else ⟨some .operator, 0⟩
  | '.' => if ['.', '.'].isPrefixOf cs then ⟨some .ellipsis, 2⟩ else ⟨some .dot, 0⟩
  | '+' | '*' | '%' | '&' | '|' | '^' | '!' | '~' => ⟨some .operator, 0⟩
  | '/' => slash cs
  | '"' => doubleQuote cs
  | '\'' => singleQuote cs
  | c =>
    if isSpace c then ⟨none, 0⟩
    else if c.isDigit then ⟨some .number, numberLength cs⟩
    else if isNameStart c then word c cs
    else ⟨some .invalid, 0⟩

end Cut

/-! ## All pieces -/

structure Piece where
  token : Option Token
  text : List Char

def pieces : List Char → List Piece
  | [] => []
  | c :: cs =>
    let cut := Cut.next c cs
    ⟨cut.token, c :: cs.take cut.more⟩ :: pieces (cs.drop cut.more)
termination_by text => text.length

/-- Cutting loses and repeats nothing. -/
theorem pieces_flatMap_text (text : List Char) : (pieces text).flatMap Piece.text = text := by
  fun_induction pieces text with
  | case1 => rfl
  | case2 c cs cut ih => simp [List.flatMap_cons, ih]

end Nomenclator
