/-
One step of a parser, or one round of a loop, whose outcome is known.
-/
import Nomenclator.Grammar.Loop

namespace Nomenclator.Grammar

variable {α β : Type} {s s' : State}

theorem bind_of_eq {p : Parser α} {f : α → Parser β} {a : α} (h : p s = (a, s')) : (p >>= f) s = f a s' := by
  show f (p s).1 (p s).2 = _
  rw [h]

theorem get_bind_apply (f : State → Parser α) (s : State) : (MonadState.get >>= f) s = f s s := rfl

theorem iterate_of_done {round : α → Parser (Turn α)} {a b : α} (h : round a s = (.done b, s')) :
    iterate round a s = (b, s') := by
  rw [iterate, h]

theorem iterate_of_again {round : α → Parser (Turn α)} {a b : α} (h : round a s = (.again b, s'))
    (hlt : s'.rest.length < s.rest.length) : iterate round a s = iterate round b s' := by
  rw [iterate, h]
  exact if_pos hlt

theorem skipWhile_of_false {round : Parser Bool} (h : round s = (false, s')) :
    skipWhile round s = ((), s') := by
  refine iterate_of_done ?_
  simp only [bind, StateT.bind, h]
  rfl

theorem skipWhile_of_true {round : Parser Bool} (h : round s = (true, s'))
    (hlt : s'.rest.length < s.rest.length) : skipWhile round s = skipWhile round s' := by
  refine iterate_of_again ?_ hlt
  simp only [bind, StateT.bind, h]
  rfl

theorem collect_of_false {round : Parser (List α × Bool)} {found : List α}
    (h : round s = ((found, false), s')) : collect round s = (found, s') := by
  rw [collect, h]

theorem collect_of_true {round : Parser (List α × Bool)} {found : List α}
    (h : round s = ((found, true), s')) (hlt : s'.rest.length < s.rest.length) :
    collect round s = (found ++ (collect round s').1, (collect round s').2) := by
  rw [collect, h]
  exact if_pos hlt

end Nomenclator.Grammar
