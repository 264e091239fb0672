/-
A finite map kept as the list of its bindings, newest first. Binding a key
again puts the new binding in front and leaves the old one below, unseen.
It has no hash and no order, so a closed look-up computes in a proof.
-/

namespace Nomenclator

structure Registry (κ α : Type) where
  bindings : List (κ × α) := []

namespace Registry

variable {κ α : Type} [DecidableEq κ]

def find? (r : Registry κ α) (k : κ) : Option α :=
  (r.bindings.find? fun binding => binding.1 = k).map Prod.snd

def insert (r : Registry κ α) (k : κ) (a : α) : Registry κ α := ⟨(k, a) :: r.bindings⟩

@[simp] theorem find?_empty (k : κ) : find? ({} : Registry κ α) k = none := rfl

theorem find?_insert (r : Registry κ α) (k k' : κ) (a : α) :
    (r.insert k a).find? k' = if k' = k then some a else r.find? k' := by
  by_cases h : k = k'
  · simp [find?, insert, h]
  · simp [find?, insert, h, Ne.symm h]

@[simp] theorem find?_insert_self (r : Registry κ α) (k : κ) (a : α) :
    (r.insert k a).find? k = some a := by
  simp [find?_insert]

theorem find?_insert_of_ne (r : Registry κ α) {k k' : κ} (a : α) (h : k' ≠ k) :
    (r.insert k a).find? k' = r.find? k' := by
  simp [find?_insert, h]

end Registry

end Nomenclator
