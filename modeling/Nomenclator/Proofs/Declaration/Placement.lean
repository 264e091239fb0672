/-
Where the nodes of a tree stand in the text.

A node's place begins where some token begins and ends where some token
ends, and the places of all nodes below lie within it. An outline is laid
out so within some place if its parts are, one behind the other.
-/
import Nomenclator.Declaration.Outline
import Nomenclator.Token.Lexeme

namespace Nomenclator

/-! ## Places -/

/-- The place of the node. The body of an anonymous class has none of its own. -/
def Node.span? : Node → Option Span
  | .type _ span .. | .memberType span | .localType span | .field span _ | .initializer span _
  | .operation _ span .. | .constant span .. | .allocation span .. | .lambda span _ => some span
  | .body => none

namespace Span

def Covers (outer inner : Span) : Prop := outer.start ≤ inner.start ∧ inner.stop ≤ outer.stop

theorem Covers.refl (s : Span) : s.Covers s := ⟨Nat.le_refl _, Nat.le_refl _⟩

theorem Covers.trans {a b c : Span} (h : a.Covers b) (h' : b.Covers c) : a.Covers c :=
  ⟨Nat.le_trans h.1 h'.1, Nat.le_trans h'.2 h.2⟩

/-- It reaches from the beginning of one of the tokens to the end of one of them. -/
structure OnTokens (all : List Lexeme) (s : Span) : Prop where
  start : ∃ l ∈ all, l.span.start = s.start
  stop : ∃ l ∈ all, l.span.stop = s.stop
  lt : s.start < s.stop

end Span

/-! ## Outlines -/

namespace Outline

/-- Of the nodes that come after one of that depth, those that are below it. -/
def below (depth : Nat) (after : Outline) : Outline := after.takeWhile fun d => depth < d.1

/-- Every node covers all that are below it. -/
def Nested : Outline → Prop
  | [] => True
  | (depth, node) :: after =>
    (∀ outer ∈ node.span?, ∀ d ∈ below depth after, ∀ inner ∈ d.2.span?, outer.Covers inner) ∧ Nested after

/-- Nothing of a second outline is below a node of the first, if none is as deep as its own first. -/
theorem mem_below_append {depth : Nat} {o o' : Outline} {d : Nat × Node}
    (h : ∀ first ∈ o'.head?, first.1 ≤ depth) (hd : d ∈ below depth (o ++ o')) : d ∈ below depth o := by
  induction o with
  | nil =>
    cases o' with
    | nil => exact hd
    | cons first o' =>
      have hle : ¬ depth < first.1 := Nat.not_lt.mpr (h first rfl)
      rw [below, List.nil_append, List.takeWhile_cons_of_neg (by simpa using hle)] at hd
      exact absurd hd List.not_mem_nil
  | cons first o ih =>
    rw [below, List.cons_append] at hd
    by_cases hlt : depth < first.1
    · rw [List.takeWhile_cons_of_pos (by simpa using hlt)] at hd
      rw [below, List.takeWhile_cons_of_pos (by simpa using hlt)]
      exact List.mem_cons.mpr ((List.mem_cons.mp hd).imp_right ih)
    · rw [List.takeWhile_cons_of_neg (by simpa using hlt)] at hd
      exact absurd hd List.not_mem_nil

theorem Nested.append {o o' : Outline} {depth : Nat} (h : Nested o) (hdeep : ∀ d ∈ o, depth ≤ d.1)
    (h' : Nested o') (hfirst : ∀ first ∈ o'.head?, first.1 ≤ depth) : Nested (o ++ o') := by
  induction o with
  | nil => exact h'
  | cons d o ih =>
    obtain ⟨hle, hdeep⟩ := List.forall_mem_cons.mp hdeep
    refine ⟨fun outer houter e he => ?_, ih h.2 hdeep⟩
    exact h.1 outer houter e (mem_below_append (fun first hf => Nat.le_trans (hfirst first hf) hle) he)

theorem Nested.of_suffix {o : Outline} (h : Nested o) {depth : Nat} {node : Node} {after : Outline}
    (hs : (depth, node) :: after <:+ o) :
    ∀ outer ∈ node.span?, ∀ d ∈ below depth after, ∀ inner ∈ d.2.span?, outer.Covers inner := by
  induction o with
  | nil => exact absurd (List.suffix_nil.mp hs) nofun
  | cons d o ih =>
    rcases List.suffix_cons_iff.mp hs with he | hs
    · obtain ⟨rfl, rfl⟩ := List.cons.inj he
      exact h.1
    · exact ih h.2 hs

/-- Parts of a tree within `outer`, the uppermost of them at the given depth. -/
structure Laid (all : List Lexeme) (outer : Span) (depth : Nat) (o : Outline) : Prop where
  places : ∀ d ∈ o, ∀ place ∈ d.2.span?, place.OnTokens all ∧ outer.Covers place
  nested : o.Nested
  deep : ∀ d ∈ o, depth ≤ d.1
  first : ∀ d ∈ o.head?, d.1 ≤ depth

namespace Laid

variable {all : List Lexeme} {outer place : Span} {depth : Nat} {o o' : Outline}

theorem nil : Laid all outer depth [] := ⟨nofun, trivial, nofun, nofun⟩

theorem mono (h : Laid all outer depth o) {outer' : Span} (hc : outer'.Covers outer) : Laid all outer' depth o :=
  { h with places := fun d hd place hplace =>
      ⟨(h.places d hd place hplace).1, hc.trans (h.places d hd place hplace).2⟩ }

theorem append (h : Laid all outer depth o) (h' : Laid all outer depth o') : Laid all outer depth (o ++ o') := by
  refine ⟨List.forall_mem_append.mpr ⟨h.places, h'.places⟩, h.nested.append h.deep h'.nested h'.first,
    List.forall_mem_append.mpr ⟨h.deep, h'.deep⟩, ?_⟩
  cases o with
  | nil => exact h'.first
  | cons => exact h.first

/-- What is within a node's place may be put below it. -/
theorem node {node : Node} (hspan : node.span? = some place) (hplace : place.OnTokens all)
    (h : Laid all place (depth + 1) o) : Laid all place depth ((depth, node) :: o) := by
  refine ⟨List.forall_mem_cons.mpr ⟨fun span hs => ?_, h.places⟩, ⟨fun span hs d hd inner hinner => ?_, h.nested⟩,
    List.forall_mem_cons.mpr ⟨Nat.le_refl _, fun d hd => Nat.le_of_succ_le (h.deep d hd)⟩,
    fun _ hd => Option.some.inj hd ▸ Nat.le_refl _⟩
  · obtain rfl := Option.some.inj (hspan.symm.trans hs)
    exact ⟨hplace, .refl _⟩
  · obtain rfl := Option.some.inj (hspan.symm.trans hs)
    exact (h.places d ((List.takeWhile_subset _) hd) inner hinner).2

/-- The body of an anonymous class takes no place of its own. -/
theorem body (h : Laid all outer (depth + 1) o) : Laid all outer depth ((depth, .body) :: o) :=
  ⟨List.forall_mem_cons.mpr ⟨nofun, h.places⟩, ⟨nofun, h.nested⟩,
    List.forall_mem_cons.mpr ⟨Nat.le_refl _, fun d hd => Nat.le_of_succ_le (h.deep d hd)⟩,
    fun _ hd => Option.some.inj hd ▸ Nat.le_refl _⟩

end Laid

end Outline

/-! ## Outlines of lists -/

theorem Member.outlines_append (depth : Nat) (members more : List Member) :
    outlines depth (members ++ more) = outlines depth members ++ outlines depth more := by
  induction members with
  | nil => rfl
  | cons m ms ih => rw [List.cons_append, outlines, outlines, ih, List.append_assoc]

theorem Member.outlines_singleton (depth : Nat) (m : Member) : outlines depth [m] = m.outline depth := by
  rw [outlines, outlines, List.append_nil]

theorem CodeItem.outlines_append (depth : Nat) (code more : List CodeItem) :
    outlines depth (code ++ more) = outlines depth code ++ outlines depth more := by
  induction code with
  | nil => rfl
  | cons i is ih => rw [List.cons_append, outlines, outlines, ih, List.append_assoc]

theorem CodeItem.outlines_singleton (depth : Nat) (i : CodeItem) : outlines depth [i] = i.outline depth := by
  rw [outlines, outlines, List.append_nil]

end Nomenclator
