/-
Tokens with their places: the pieces of a text laid end to end from byte
zero, and of these the ones that are tokens.
-/
import Nomenclator.Span
import Nomenclator.Token.Piece

namespace Nomenclator

/-- A token where it stands in the text. -/
structure Lexeme where
  token : Token
  span : Span
deriving DecidableEq

/-- The tokens among the pieces, the first of which begins at byte `start`. -/
def Lexeme.place (start : Nat) : List Piece → List Lexeme
  | [] => []
  | p :: ps =>
    let stop := start + Text.byteSize p.text
    match p.token with
    | some token => ⟨token, ⟨start, stop⟩⟩ :: place stop ps
    | none => place stop ps

def lex (text : String) : List Lexeme := Lexeme.place 0 (pieces text.toList)

end Nomenclator
