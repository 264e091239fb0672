/-
Names that are spelled as the grammar has it, apart from their packages, and
whose indexes stay below a limit.

The limit need not be the one that reading has. A name that is made for a
very large source has an index that no text gives back, but even so no other
name has its text.
-/
import Nomenclator.Proofs.Name.RoundTrip

namespace Nomenclator

open Text

def Segment.Spelled (limit : Nat) : Segment → Prop
  | .named name => isIdentifier name.toList
  | .localType index name => 0 < index ∧ index < limit ∧ isIdentifier name.toList
  | .anonymous index => 0 < index ∧ index < limit

def Operation.Spelled (limit : Nat) : Operation → Prop
  | .method name parameters =>
    isIdentifier name.toList ∧ ∀ p ∈ parameters, isParameter p.toList
  | .lambda host index => host.WellFormed ∧ index < limit

structure QualifiedName.Spelled (limit : Nat) (packages : List String) (n : QualifiedName) : Prop where
  packages : n.packages = packages
  classes : ∀ s ∈ n.classes, s.Spelled limit
  operation : ∀ o ∈ n.operation, o.Spelled limit

variable {limit other : Nat}

/-! ## Parts -/

theorem Segment.spelled_iff (s : Segment) : s.Spelled Decimal.bound ↔ s.WellFormed := by
  cases s <;> exact Iff.rfl

theorem Operation.spelled_iff (o : Operation) : o.Spelled Decimal.bound ↔ o.WellFormed := by
  cases o <;> exact Iff.rfl

theorem Segment.Spelled.declared {s : Segment} (h : s.Spelled limit) :
    s.declared = "" ∨ isIdentifier s.declared.toList = true := by
  cases s with
  | named name => exact .inr h
  | localType index name => exact .inr h.2.2
  | anonymous index => exact .inl rfl

theorem Segment.Spelled.isWord {s : Segment} (h : s.Spelled limit) : s.IsWord := Segment.isWord h.declared

/-! ## No two names for one text -/

/-- The digits that a class begins with. -/
def Segment.digits : Segment → List Char
  | .named _ => []
  | .localType index _ | .anonymous index => Decimal.write index

theorem Segment.Spelled.takeWhile_written {s : Segment} (h : s.Spelled limit) :
    s.written.takeWhile Char.isDigit = s.digits := by
  have hdigits (index : Nat) : ∀ c ∈ Decimal.write index, c.isDigit = true :=
    fun _ => Decimal.isDigit_of_mem_write
  cases s with
  | named name => exact takeWhile_isDigit_of_isIdentifier h
  | localType index name =>
    rw [Segment.written, List.takeWhile_append_of_pos (hdigits index),
      takeWhile_isDigit_of_isIdentifier h.2.2, List.append_nil]
    rfl
  | anonymous index =>
    have htake : (Decimal.write index ++ []).takeWhile Char.isDigit = Decimal.write index ++ [] :=
      List.takeWhile_append_of_pos (hdigits index)
    rwa [List.append_nil] at htake

theorem write_inj {m n : Nat} (h : Decimal.write m = Decimal.write n) : m = n := by
  have hvalue := congrArg (Nat.ofDigitChars 10 · 0) h
  rwa [Decimal.write, Decimal.write, Nat.ofDigitChars_ten_toDigits, Nat.ofDigitChars_ten_toDigits] at hvalue

theorem Segment.Spelled.eq_of_written_eq {s t : Segment} (hs : s.Spelled limit) (ht : t.Spelled other)
    (h : s.written = t.written) : s = t := by
  have hdigits := congrArg (List.takeWhile Char.isDigit) h
  rw [hs.takeWhile_written, ht.takeWhile_written] at hdigits
  have hne (index : Nat) : Decimal.write index ≠ [] := Decimal.write_ne_nil index
  cases s with
  | named name =>
    cases t with
    | named name' => rw [String.toList_inj.mp h]
    | localType index' name' | anonymous index' => exact absurd hdigits.symm (hne index')
  | localType index name =>
    cases t with
    | named name' => exact absurd hdigits (hne index)
    | localType index' name' =>
      obtain rfl := write_inj hdigits
      rw [String.toList_inj.mp (List.append_cancel_left h)]
    | anonymous index' =>
      obtain rfl := write_inj hdigits
      exact absurd (List.append_right_eq_self.mp h) (ne_nil_of_isIdentifier hs.2.2)
  | anonymous index =>
    cases t with
    | named name' => exact absurd hdigits (hne index)
    | localType index' name' =>
      obtain rfl := write_inj hdigits
      exact absurd (List.append_right_eq_self.mp h.symm) (ne_nil_of_isIdentifier ht.2.2)
    | anonymous index' => rw [write_inj hdigits]

theorem Host.WellFormed.not_mem_tag {host : Host} (h : host.WellFormed) : '$' ∉ host.tag.toList := by
  rcases Bool.or_eq_true_iff.mp h.tag with he | hi
  · rw [List.isEmpty_iff.mp he]
    exact List.not_mem_nil
  · exact not_mem_of_isIdentifier hi rfl

theorem Operation.Spelled.eq_of_written_eq {o p : Operation} (ho : o.Spelled limit) (hp : p.Spelled other)
    (h : o.written = p.written) : o = p := by
  cases o with
  | method name parameters =>
    cases p with
    | method name' parameters' =>
      have hread := Operation.read?_eq_some_iff.mpr ⟨(show (method name parameters).WellFormed from ho), rfl⟩
      have hread' := Operation.read?_eq_some_iff.mpr ⟨(show (method name' parameters').WellFormed from hp), rfl⟩
      rw [h, hread'] at hread
      exact (Option.some.inj hread).symm
    | lambda host' index' =>
      rw [written, written, List.append_assoc, List.append_assoc] at h
      exact absurd h.symm (lambdaMark_append_ne ho.1 _ _)
  | lambda host index =>
    cases p with
    | method name' parameters' =>
      rw [written, written, List.append_assoc, List.append_assoc] at h
      exact absurd h (lambdaMark_append_ne hp.1 _ _)
    | lambda host' index' =>
      rw [written, written, List.append_assoc, List.append_assoc, List.append_cancel_left_eq] at h
      have hcut := cut_eq_some_iff.mpr ⟨h.symm, ho.1.not_mem_tag⟩
      rw [cut_eq_some_iff.mpr ⟨rfl, hp.1.not_mem_tag⟩] at hcut
      obtain ⟨htag, hindex⟩ := Prod.mk.inj (Option.some.inj hcut)
      have htag := String.toList_inj.mp htag
      rw [← ho.1.ofTag_tag, ← hp.1.ofTag_tag, htag, write_inj hindex]

/-! ## Whole names -/

theorem Segment.Spelled.eq_of_map_written_eq {ss ts : List Segment} (hs : ∀ s ∈ ss, s.Spelled limit)
    (ht : ∀ t ∈ ts, t.Spelled other) (h : ss.map Segment.written = ts.map Segment.written) : ss = ts := by
  induction ss generalizing ts with
  | nil => exact (List.map_eq_nil_iff.mp h.symm).symm
  | cons s ss ih =>
    cases ts with
    | nil => exact absurd h nofun
    | cons t ts =>
      obtain ⟨hs, hss⟩ := List.forall_mem_cons.mp hs
      obtain ⟨ht, hts⟩ := List.forall_mem_cons.mp ht
      obtain ⟨hfirst, hrest⟩ := List.cons.inj h
      rw [hs.eq_of_written_eq ht hfirst, ih hss hts hrest]

namespace QualifiedName

theorem WellFormed.spelled {n : QualifiedName} (h : n.WellFormed) : n.Spelled Decimal.bound n.packages :=
  ⟨rfl, fun s hs => s.spelled_iff.mpr (h.classes s hs), fun o ho => o.spelled_iff.mpr (h.operation o ho)⟩

namespace Spelled

variable {packages : List String} {n : QualifiedName}

theorem topLevel {name : String} (h : isIdentifier name.toList = true) :
    (topLevel packages name).Spelled limit packages :=
  ⟨rfl, fun _ hs => List.mem_singleton.mp hs ▸ h, nofun⟩

theorem nested (h : n.Spelled limit packages) {s : Segment} (hs : s.Spelled limit) :
    (n.nested s).Spelled limit packages := by
  refine ⟨h.packages, fun t ht => ?_, nofun⟩
  rw [classes_nested] at ht
  rcases List.mem_append.mp ht with ht | ht
  · exact h.classes t ht
  · exact List.mem_singleton.mp ht ▸ hs

theorem withOperation (h : n.Spelled limit packages) {o : Operation} (ho : o.Spelled limit) :
    (n.withOperation o).Spelled limit packages :=
  ⟨h.packages, h.classes, fun _ ho' => Option.mem_some_iff.mp ho' ▸ ho⟩

/-- No two names are written alike, unless a package holds a separator. -/
theorem eq_of_written_eq {others : List String} {m : QualifiedName} (hm : m.Spelled limit packages)
    (hn : n.Spelled other others) (hmp : ∀ p ∈ packages, '.' ∉ p.toList ∧ '#' ∉ p.toList)
    (hnp : ∀ p ∈ others, '.' ∉ p.toList ∧ '#' ∉ p.toList) (h : m.written = n.written) : m = n := by
  obtain rfl := hm.packages
  obtain rfl := hn.packages
  obtain ⟨hpackages, hclasses, hoperation⟩ := QualifiedName.eq_of_written_eq hmp
    (fun s hs => (hm.classes s hs).isWord) hnp (fun s hs => (hn.classes s hs).isWord) h
  have hclasses := Segment.Spelled.eq_of_map_written_eq hm.classes hn.classes hclasses
  have hoperation : m.operation = n.operation := by
    cases ho : m.operation with
    | none =>
      cases hp : n.operation with
      | none => rfl
      | some p =>
        rw [ho, hp] at hoperation
        exact absurd hoperation nofun
    | some o =>
      cases hp : n.operation with
      | none =>
        rw [ho, hp] at hoperation
        exact absurd hoperation nofun
      | some p =>
        rw [ho, hp] at hoperation
        rw [(hm.operation o ho).eq_of_written_eq (hn.operation p hp) (List.cons.inj hoperation).2]
  have hparts := ofParts?_classes m
  rw [hpackages, hclasses, hoperation, ofParts?_classes n] at hparts
  exact (Option.some.inj hparts).symm

/-- A name has the text of one that is read if and only if it is that name. -/
theorem render_eq_iff (hn : n.Spelled limit packages) (hp : ∀ p ∈ packages, '.' ∉ p.toList ∧ '#' ∉ p.toList)
    {text : String} {name : QualifiedName} (h : read? text = some name) : n.render = text ↔ n = name := by
  obtain ⟨hwf, hwritten⟩ := readWritten?_eq_some_iff.mp h
  have htext : name.render = text := by rw [render, hwritten, String.ofList_toList]
  refine ⟨fun he => ?_, fun he => he ▸ htext⟩
  rw [← htext, render, render] at he
  refine hn.eq_of_written_eq hwf.spelled hp (fun p hpm => ?_) (String.ofList_inj.mp he)
  have hpackage := hwf.packages p hpm
  exact ⟨not_mem_of_isPackage hpackage rfl, not_mem_of_isPackage hpackage rfl⟩

end Spelled

end QualifiedName

end Nomenclator
