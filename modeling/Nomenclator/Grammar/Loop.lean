/-
Repetition. A loop goes on as long as its round asks for more and has read
a token, so it ends with the tokens at the latest. A round that asks for
more without having read one would only ask again.
-/
import Nomenclator.Grammar.State

namespace Nomenclator.Grammar

/-- What a round leaves for the next one, or as the result. -/
inductive Turn (α : Type)
  | again (a : α)
  | done (a : α)

variable {α : Type}

def iterate (round : α → Parser (Turn α)) (a : α) : Parser α := fun s =>
  match round a s with
  | (.done b, s') => (b, s')
  | (.again b, s') => if s'.rest.length < s.rest.length then iterate round b s' else (b, s')
termination_by s => s.rest.length

/-- Runs a round until it answers `false`. -/
def skipWhile (round : Parser Bool) : Parser Unit :=
  iterate (fun _ => do return if ← round then .again () else .done ()) ()

/-- Runs a round until it answers `false`, and lists what the rounds have found. -/
def collect (round : Parser (List α × Bool)) : Parser (List α) := fun s =>
  match round s with
  | ((found, false), s') => (found, s')
  | ((found, true), s') =>
    if s'.rest.length < s.rest.length then
      let (more, s'') := collect round s'
      (found ++ more, s'')
    else
      (found, s')
termination_by s => s.rest.length

end Nomenclator.Grammar
