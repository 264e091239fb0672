/-
Several named texts, numbered in the order in which they were added. A text
can be replaced; whatever is asked about a source is asked about the text
it has then.
-/

namespace Nomenclator

structure Source where
  name : String
  text : String
deriving DecidableEq

structure Sources where
  list : List Source := []

namespace Sources

def get? (s : Sources) (index : Nat) : Option Source := s.list[index]?

/-- The sources with one more, and its index. -/
def add (s : Sources) (source : Source) : Sources × Nat :=
  (⟨s.list ++ [source]⟩, s.list.length)

/-- The sources with one of them changed, and what it was. There is no answer without a source. -/
def modify? (s : Sources) (index : Nat) (change : Source → Source) : Option (Sources × Source) :=
  (s.get? index).map fun source => (⟨s.list.set index (change source)⟩, source)

def setText? (s : Sources) (index : Nat) (text : String) : Option (Sources × Source) :=
  s.modify? index fun source => { source with text }

def setName? (s : Sources) (index : Nat) (name : String) : Option (Sources × Source) :=
  s.modify? index fun source => { source with name }

theorem get?_add (s : Sources) (source : Source) :
    (s.add source).1.get? (s.add source).2 = some source := by
  simp [add, get?]

theorem get?_add_of_lt (s : Sources) (source : Source) {index : Nat} (h : index < s.list.length) :
    (s.add source).1.get? index = s.get? index := by
  simp [add, get?, List.getElem?_append_left h]

theorem get?_modify? {s s' : Sources} {index i : Nat} {change : Source → Source} {old : Source}
    (h : s.modify? index change = some (s', old)) :
    s'.get? i = if i = index then some (change old) else s.get? i := by
  simp only [modify?, Option.map_eq_some_iff, Prod.mk.injEq] at h
  obtain ⟨source, hs, rfl, rfl⟩ := h
  have hlt : index < s.list.length := (List.getElem?_eq_some_iff.1 hs).1
  by_cases hi : i = index
  · simp [get?, hi, hlt]
  · simp [get?, hi, List.getElem?_set_ne (Ne.symm hi)]

end Sources

end Nomenclator
