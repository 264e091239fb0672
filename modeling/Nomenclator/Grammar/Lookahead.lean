/-
Decisions that need more than the next token: whether a type declaration,
a modifier or a lambda begins here. They look at the tokens and read none.
-/
import Nomenclator.Declaration.Basic
import Nomenclator.Token.Lexeme

namespace Nomenclator.Grammar

/-- `record` is a word of the language only before a name and the beginning of a record's header. -/
def startsRecord : List Lexeme → Bool
  | ⟨.identifier word, _⟩ :: ⟨.identifier _, _⟩ :: ⟨.opener .paren, _⟩ :: _ => word == "record"
  | ⟨.identifier word, _⟩ :: ⟨.identifier _, _⟩ :: ⟨.less, _⟩ :: _ => word == "record"
  | _ => false

/-- The kind of the type declaration that begins here. -/
def typeStart? : List Lexeme → Option TypeKind
  | ⟨.keyword .classKw, _⟩ :: _ => some .classType
  | ⟨.keyword .interfaceKw, _⟩ :: _ => some .interfaceType
  | ⟨.keyword .enumKw, _⟩ :: _ => some .enumType
  | ⟨.atSign, _⟩ :: ⟨.keyword .interfaceKw, _⟩ :: _ => some .annotationType
  | lexemes => if startsRecord lexemes then some .recordType else none

/-- What may follow the word `sealed` where it is a modifier. -/
def followsSealed : List Lexeme → Bool
  | ⟨.keyword k, _⟩ :: _ => k.isModifier || k.isTypeKeyword
  | ⟨.atSign, _⟩ :: _ => true
  | _ => false

/-- One modifier: a keyword, a word or several that read as one, or an annotation. -/
inductive Modifier
  | keyword (k : Keyword)
  | sealed
  | nonSealed
  | annotated

def modifier? : List Lexeme → Option Modifier
  | ⟨.keyword k, _⟩ :: _ => if k.isModifier then some (.keyword k) else none
  | ⟨.atSign, _⟩ :: ⟨.keyword .interfaceKw, _⟩ :: _ => none
  | ⟨.atSign, _⟩ :: _ => some .annotated
  | ⟨.identifier first, _⟩ :: after =>
    if first = "sealed" && followsSealed after then some .sealed
    else
      match after with
      | ⟨.operator, _⟩ :: ⟨.identifier second, _⟩ :: _ =>
        if first = "non" && second = "sealed" then some .nonSealed else none
      | _ => none
  | _ => none

/-- With `depth` parentheses open, the one that closes the outermost is followed by an arrow, and
nothing before it ends an expression. -/
def closesBeforeArrow (depth : Nat) : List Lexeme → Bool
  | [] => false
  | ⟨.opener .paren, _⟩ :: after => closesBeforeArrow (depth + 1) after
  | ⟨.closer .paren, _⟩ :: after =>
    if depth ≤ 1 then after.head?.any (·.token = .arrow) else closesBeforeArrow (depth - 1) after
  | ⟨.opener .brace, _⟩ :: _ | ⟨.closer .brace, _⟩ :: _ | ⟨.semicolon, _⟩ :: _
  | ⟨.arrow, _⟩ :: _ => false
  | _ :: after => closesBeforeArrow depth after

/-- A lambda begins here: a name or a parenthesized list, then an arrow. -/
def startsLambda : List Lexeme → Bool
  | ⟨.identifier _, _⟩ :: ⟨.arrow, _⟩ :: _ => true
  | ⟨.opener .paren, _⟩ :: after => closesBeforeArrow 1 after
  | _ => false

end Nomenclator.Grammar
