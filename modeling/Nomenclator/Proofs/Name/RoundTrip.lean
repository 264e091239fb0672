/-
Reading a qualified name inverts rendering one, on exactly the well-formed
names.

Every rule of the name grammar gets the same statement: it reads `x` from a
text if and only if `x` is well-formed and written as that text. A rule that
cuts its text at a separator needs besides that no part before the separator
holds one. Only parameters may hold any separator but the comma, and they
come last.
-/
import Mathlib.Data.List.Basic
import Nomenclator.Name.WellFormed
import Nomenclator.Proofs.Text.Words

namespace Nomenclator

open Text

/-! ## Classes -/

/-- Without digits in front, a segment is a name. -/
theorem Segment.read?_of_word {text : List Char} (h : text.takeWhile Char.isDigit = []) :
    Segment.read? text = if isIdentifier text then some (.named (String.ofList text)) else none := by
  have hsplit := List.takeWhile_append_dropWhile (p := Char.isDigit) (l := text)
  rw [h, List.nil_append] at hsplit
  rw [Segment.read?, h, hsplit]

/-- Behind digits stands a name, or nothing. -/
theorem Segment.read?_of_digits {digits name : List Char} (hne : digits ≠ [])
    (hd : ∀ c ∈ digits, c.isDigit = true) (hn : name.takeWhile Char.isDigit = []) :
    Segment.read? (digits ++ name) = ((Decimal.read? digits).filter (0 < ·)).bind fun index =>
      if name.isEmpty then some (.anonymous index)
      else if isIdentifier name then some (.localType index (String.ofList name)) else none := by
  have ht : (digits ++ name).takeWhile Char.isDigit = digits := by
    rw [List.takeWhile_append_of_pos hd, hn, List.append_nil]
  have hsplit := List.takeWhile_append_dropWhile (p := Char.isDigit) (l := digits ++ name)
  rw [ht] at hsplit
  rw [Segment.read?, ht, List.append_cancel_left hsplit]
  obtain ⟨c, cs, rfl⟩ := List.exists_cons_of_ne_nil hne
  rfl

theorem Segment.wellFormed_of_read? {text : List Char} {s : Segment} (h : Segment.read? text = some s) :
    s.WellFormed ∧ s.written = text := by
  by_cases ht : text.takeWhile Char.isDigit = []
  · rw [read?_of_word ht, Option.ite_none_right_eq_some] at h
    obtain ⟨hi, ⟨⟩⟩ := h
    exact ⟨by simpa [WellFormed] using hi, by simp [written]⟩
  · have hsplit := List.takeWhile_append_dropWhile (p := Char.isDigit) (l := text)
    have hd : ∀ c ∈ text.takeWhile Char.isDigit, c.isDigit = true := fun c hc =>
      List.all_eq_true.1 List.all_takeWhile c hc
    rw [← hsplit, read?_of_digits ht hd (takeWhile_dropWhile_isDigit text)] at h
    simp only [Option.bind_eq_some_iff, Option.filter_eq_some_iff, Decimal.read?_eq_some_iff] at h
    obtain ⟨index, ⟨⟨hb, hw⟩, hpos⟩, h⟩ := h
    have hpos : 0 < index := of_decide_eq_true hpos
    rw [← hw] at hsplit
    by_cases he : (text.dropWhile Char.isDigit).isEmpty = true
    · rw [if_pos he] at h
      obtain rfl := Option.some.inj h
      rw [List.isEmpty_iff.1 he, List.append_nil] at hsplit
      exact ⟨⟨hpos, hb⟩, hsplit⟩
    · rw [if_neg he, Option.ite_none_right_eq_some] at h
      obtain ⟨hi, ⟨⟩⟩ := h
      exact ⟨⟨hpos, hb, by simpa using hi⟩, by simpa [written] using hsplit⟩

theorem Segment.read?_written {s : Segment} (h : s.WellFormed) : Segment.read? s.written = some s := by
  cases s with
  | named name =>
    have hi : isIdentifier name.toList = true := h
    rw [written, read?_of_word (takeWhile_isDigit_of_isIdentifier hi), if_pos hi,
      String.ofList_toList]
  | localType index name =>
    obtain ⟨hpos, hb, hi⟩ := h
    rw [written, read?_of_digits (Decimal.write_ne_nil index) (fun _ => Decimal.isDigit_of_mem_write)
      (takeWhile_isDigit_of_isIdentifier hi), Decimal.read?_eq_some_iff.2 ⟨hb, rfl⟩,
      Option.filter_some_pos (by simpa using hpos), Option.bind_some, if_neg, if_pos hi,
      String.ofList_toList]
    simpa using ne_nil_of_isIdentifier hi
  | anonymous index =>
    obtain ⟨hpos, hb⟩ := h
    have hread : Segment.read? (Decimal.write index ++ []) = _ := read?_of_digits
      (Decimal.write_ne_nil index) (fun _ => Decimal.isDigit_of_mem_write) List.takeWhile_nil
    rw [List.append_nil, Decimal.read?_eq_some_iff.2 ⟨hb, rfl⟩,
      Option.filter_some_pos (by simpa using hpos)] at hread
    exact hread

theorem Segment.read?_eq_some_iff {text : List Char} {s : Segment} :
    Segment.read? text = some s ↔ s.WellFormed ∧ s.written = text :=
  ⟨wellFormed_of_read?, fun h => h.2 ▸ read?_written h.1⟩

/-- Nothing in the text of a class takes a name apart. -/
def Segment.IsWord (s : Segment) : Prop := ∀ c ∈ s.written, isWordChar c = true

theorem Segment.isWord {s : Segment} (h : s.declared = "" ∨ isIdentifier s.declared.toList = true) :
    s.IsWord := by
  have hname : ∀ c ∈ s.declared.toList, isWordChar c = true := by
    rcases h with he | hi
    · rw [he]
      exact nofun
    · exact fun c => isWordChar_of_mem_identifier hi
  have hindex (index : Nat) : ∀ c ∈ Decimal.write index, isWordChar c = true :=
    fun c hc => isWordChar_of_isDigit (Decimal.isDigit_of_mem_write hc)
  cases s with
  | named name => exact hname
  | localType index name => exact List.forall_mem_append.mpr ⟨hindex index, hname⟩
  | anonymous index => exact hindex index

theorem Segment.WellFormed.declared {s : Segment} (h : s.WellFormed) :
    s.declared = "" ∨ isIdentifier s.declared.toList = true := by
  cases s with
  | named name => exact .inr h
  | localType index name => exact .inr h.2.2
  | anonymous index => exact .inl rfl

theorem Segment.WellFormed.isWord {s : Segment} (h : s.WellFormed) : s.IsWord := Segment.isWord h.declared

/-! ## Hosts -/

/-- Every tag reads as a host of which it is the tag. -/
theorem Host.wellFormed_ofTag {tag : List Char} (h : (tag.isEmpty || isIdentifier tag) = true) :
    (Host.ofTag (String.ofList tag)).WellFormed := by
  unfold Host.ofTag
  split
  · trivial
  · split
    · trivial
    · rename_i hs hn
      rcases Bool.or_eq_true_iff.1 h with he | hi
      · exact .inl (by rw [List.isEmpty_iff.1 he])
      · exact .inr ⟨by rwa [String.toList_ofList], hs, hn⟩

theorem Host.WellFormed.tag {host : Host} (h : host.WellFormed) :
    (host.tag.toList.isEmpty || isIdentifier host.tag.toList) = true := by
  cases host with
  | static => rfl
  | new => rfl
  | member name =>
    rcases h with rfl | ⟨hi, -⟩
    · rfl
    · simp [Host.tag, hi]

theorem Host.WellFormed.ofTag_tag {host : Host} (h : host.WellFormed) : Host.ofTag host.tag = host := by
  cases host with
  | static => rfl
  | new => rfl
  | member name =>
    rcases h with rfl | ⟨-, hs, hn⟩
    · rfl
    · simp [Host.tag, Host.ofTag, hs, hn]

/-! ## Operations -/

namespace Operation

theorem isParameter_iff {text : List Char} :
    isParameter text = true ↔ text ≠ [] ∧ (∀ c ∈ text, c ≠ ',' ∧ c ≠ ')') ∧ isPadded text = false := by
  simp [isParameter, and_assoc]

/-- A list of parameters has no text only if there are none. -/
theorem intercalate_parameters_ne_nil {p : String} {ps : List String} (h : isParameter p.toList = true) :
    comma.intercalate ((p :: ps).map String.toList) ≠ [] := by
  have hp := (isParameter_iff.1 h).1
  cases ps with
  | nil => simpa using hp
  | cons q ps =>
    rw [List.map_cons, List.intercalate_cons_of_ne_nil (by simp)]
    simp [hp]

theorem readParameters?_eq_some_iff {text : List Char} {parameters : List String} :
    readParameters? text = some parameters ↔
      (∀ p ∈ parameters, isParameter p.toList = true) ∧
        comma.intercalate (parameters.map String.toList) = text := by
  by_cases he : text = []
  · have hnil : readParameters? text = some [] := by
      rw [he]
      rfl
    rw [hnil, he, Option.some.injEq]
    refine ⟨fun h => h ▸ ⟨nofun, rfl⟩, fun ⟨hp, h⟩ => ?_⟩
    cases parameters with
    | nil => rfl
    | cons p ps => exact absurd h (intercalate_parameters_ne_nil (hp p List.mem_cons_self))
  · have hread : readParameters? text = (items text).mapM fun item =>
        if isParameter item then some (String.ofList item) else none :=
      if_neg fun hc => he (List.isEmpty_iff.1 hc)
    rw [hread, mapM_eq_some_iff fun _ _ => ofList_if_eq_some_iff]
    refine and_congr_right fun hp => ⟨fun h => by rw [h, intercalate_items], fun h => ?_⟩
    have hne : parameters.map String.toList ≠ [] := by
      intro hn
      rw [hn] at h
      exact he h.symm
    have hcomma : ∀ item ∈ parameters.map String.toList, ',' ∉ item := by
      intro item hm hc
      obtain ⟨p, hpm, rfl⟩ := List.mem_map.1 hm
      exact ((isParameter_iff.1 (hp p hpm)).2.1 _ hc).1 rfl
    rw [← h]
    exact (items_intercalate hne hcomma).symm

theorem readLambda?_eq_some_iff {text : List Char} {o : Operation} :
    readLambda? text = some o ↔ o.isLambda = true ∧ o.WellFormed ∧ o.written = lambdaMark ++ text := by
  simp only [readLambda?, Option.bind_eq_bind, Option.bind_eq_some_iff, Prod.exists, cut_eq_some_iff,
    Option.ite_none_right_eq_some, Decimal.read?_eq_some_iff, Option.some.injEq]
  constructor
  · rintro ⟨host, digits, ⟨rfl, -⟩, hh, index, ⟨hb, rfl⟩, rfl⟩
    refine ⟨rfl, ⟨Host.wellFormed_ofTag hh, hb⟩, ?_⟩
    simp [written]
  · rintro ⟨hl, hwf, hw⟩
    cases o with
    | method name parameters => cases hl
    | lambda host index =>
      obtain ⟨hh, hb⟩ := hwf
      rw [written, List.append_assoc, List.append_cancel_left_eq] at hw
      refine ⟨host.tag.toList, Decimal.write index, ⟨hw.symm, ?_⟩, hh.tag, index, ⟨hb, rfl⟩, ?_⟩
      · rcases Bool.or_eq_true_iff.1 hh.tag with he | hi
        · rw [List.isEmpty_iff.1 he]
          simp
        · exact not_mem_of_isIdentifier hi rfl
      · rw [String.ofList_toList, hh.ofTag_tag]

theorem readMethod?_eq_some_iff {text : List Char} {o : Operation} :
    readMethod? text = some o ↔ o.isLambda = false ∧ o.WellFormed ∧ o.written = text := by
  simp only [readMethod?, Option.bind_eq_bind, Option.bind_eq_some_iff, Prod.exists, cut_eq_some_iff,
    Option.ite_none_right_eq_some, readParameters?_eq_some_iff, Option.some.injEq, Bool.and_eq_true,
    beq_iff_eq]
  constructor
  · rintro ⟨name, list, ⟨rfl, -⟩, ⟨hi, hlast⟩, parameters, ⟨hp, hw⟩, rfl⟩
    refine ⟨rfl, ⟨by simpa using hi, hp⟩, ?_⟩
    obtain ⟨front, rfl⟩ := List.getLast?_eq_some_iff.1 hlast
    rw [List.dropLast_concat] at hw
    simp [written, hw]
  · rintro ⟨hl, hwf, hw⟩
    cases o with
    | lambda host index => cases hl
    | method name parameters =>
      obtain ⟨hi, hp⟩ := hwf
      refine ⟨name.toList, comma.intercalate (parameters.map String.toList) ++ [')'], ⟨?_, ?_⟩, ⟨hi, ?_⟩,
        parameters, ⟨hp, ?_⟩, ?_⟩
      · rw [← hw, written, List.append_assoc, List.cons_append]
      · exact not_mem_of_isIdentifier hi rfl
      · simp
      · rw [List.dropLast_concat]
      · rw [String.ofList_toList]

/-- A method's text is no lambda's: its name holds no `$`, and an opening parenthesis follows. -/
theorem lambdaMark_append_ne {name : List Char} (h : isIdentifier name = true) (list rest : List Char) :
    lambdaMark ++ rest ≠ name ++ '(' :: list := by
  intro he
  have hname : '$' ∉ name := not_mem_of_isIdentifier h rfl
  rcases List.append_eq_append_iff.1 he with ⟨back, rfl, -⟩ | ⟨back, hback, hrest⟩
  · exact hname (by simp [lambdaMark])
  · cases back with
    | nil => exact hname (by rw [← List.append_nil name, ← hback]; decide)
    | cons c back =>
      have hm : '(' ∈ lambdaMark := by
        rw [hback, (List.cons.inj hrest).1]
        simp
      exact absurd hm (by decide)

theorem read?_eq_some_iff {text : List Char} {o : Operation} :
    Operation.read? text = some o ↔ o.WellFormed ∧ o.written = text := by
  unfold Operation.read?
  split
  · rename_i rest hr
    obtain rfl := List.isPrefixOf?_eq_some_iff_append_eq.1 hr
    rw [readLambda?_eq_some_iff]
    refine and_iff_right_of_imp ?_
    rintro ⟨hwf, hw⟩
    cases o with
    | lambda host index => rfl
    | method name parameters =>
      rw [written, List.append_assoc] at hw
      exact absurd hw.symm (lambdaMark_append_ne hwf.1 _ rest)
  · rename_i hr
    rw [readMethod?_eq_some_iff]
    refine and_iff_right_of_imp ?_
    rintro ⟨hwf, hw⟩
    cases o with
    | method name parameters => rfl
    | lambda host index =>
      have hmark : lambdaMark.isPrefixOf? text = some (host.tag.toList ++ '$' :: Decimal.write index) := by
        rw [List.isPrefixOf?_eq_some_iff_append_eq, ← hw, written, List.append_assoc]
      rw [hmark] at hr
      cases hr

end Operation

/-! ## Whole names -/

namespace QualifiedName

theorem ofParts?_eq_some_iff {packages : List String} {classes : List Segment}
    {operation : Option Operation} {n : QualifiedName} :
    ofParts? packages classes operation = some n ↔
      n.packages = packages ∧ n.classes = classes ∧ n.operation = operation := by
  constructor
  · intro h
    unfold ofParts? at h
    split at h
    · cases h
      exact ⟨rfl, rfl, rfl⟩
    · cases h
  · rintro ⟨rfl, rfl, rfl⟩
    exact ofParts?_classes n

theorem readPackage?_eq_some_iff {text : List Char} {package : String} :
    readPackage? text = some package ↔ isPackage package.toList = true ∧ package.toList = text :=
  ofList_if_eq_some_iff

theorem not_mem_writtenClasses {classes : List Segment} (h : ∀ s ∈ classes, s.IsWord) {sep : Char}
    (hs : isWordChar sep = false) (hd : sep ≠ '$') : sep ∉ writtenClasses classes := by
  refine not_mem_intercalate hd fun item hm => ?_
  obtain ⟨s, hsm, rfl⟩ := List.mem_map.1 hm
  exact not_mem_of_forall (h s hsm) hs

theorem writtenPackages_append (packages : List String) (last : List Char) :
    writtenPackages packages ++ last = ['.'].intercalate (packages.map String.toList ++ [last]) := by
  rw [intercalate_concat, List.flatMap_map]
  rfl

theorem writtenClasses_splitOn {classes : List Segment} (hne : classes ≠ [])
    (h : ∀ s ∈ classes, s.IsWord) :
    (writtenClasses classes).splitOn '$' = classes.map Segment.written := by
  refine List.splitOn_intercalate '$' (fun item hm => ?_) (by simpa using hne)
  obtain ⟨s, hsm, rfl⟩ := List.mem_map.1 hm
  exact not_mem_of_forall (h s hsm) rfl

theorem not_mem_of_isPackage {text : List Char} (h : isPackage text = true) {sep : Char}
    (hs : isWordChar sep = false) : sep ∉ text :=
  not_mem_of_isIdentifier (isIdentifier_of_isPackage h) hs

/-- Packages without a point come apart as they were joined, whatever else is in them. -/
theorem writtenType_splitOn {packages : List String} {classes : List Segment}
    (hp : ∀ p ∈ packages, '.' ∉ p.toList) (hc : ∀ s ∈ classes, s.IsWord) :
    (writtenPackages packages ++ writtenClasses classes).splitOn '.' =
      packages.map String.toList ++ [writtenClasses classes] := by
  rw [writtenPackages_append]
  refine List.splitOn_intercalate '.' (fun item hm => ?_) (by simp)
  rcases List.mem_append.1 hm with hm | hm
  · obtain ⟨p, hpm, rfl⟩ := List.mem_map.1 hm
    exact hp p hpm
  · rw [List.mem_singleton.1 hm]
    exact not_mem_writtenClasses hc rfl (by decide)

theorem not_mem_hash_of_type {packages : List String} {classes : List Segment}
    (hp : ∀ p ∈ packages, '#' ∉ p.toList) (hc : ∀ s ∈ classes, s.IsWord) :
    '#' ∉ writtenPackages packages ++ writtenClasses classes := by
  rw [writtenPackages_append]
  refine not_mem_intercalate (by decide) fun item hm => ?_
  rcases List.mem_append.1 hm with hm | hm
  · obtain ⟨p, hpm, rfl⟩ := List.mem_map.1 hm
    exact hp p hpm
  · rw [List.mem_singleton.1 hm]
    exact not_mem_writtenClasses hc rfl (by decide)

theorem takeWhile_written {text : List Char} (h : '#' ∉ text) (operation : Option Operation) :
    (text ++ writtenOperation operation).takeWhile (· ≠ '#') = text := by
  have hall : ∀ c ∈ text, decide (c ≠ '#') = true := fun c hc =>
    decide_eq_true fun he => h (he ▸ hc)
  rw [List.takeWhile_append_of_pos hall]
  cases operation with
  | none => exact List.append_nil _
  | some operation => exact List.append_nil _

/-- Names that are written alike have the same packages and classes, if none of them holds a
separator. -/
theorem eq_of_written_eq {m n : QualifiedName}
    (hm : ∀ p ∈ m.packages, '.' ∉ p.toList ∧ '#' ∉ p.toList) (hmc : ∀ s ∈ m.classes, s.IsWord)
    (hn : ∀ p ∈ n.packages, '.' ∉ p.toList ∧ '#' ∉ p.toList) (hnc : ∀ s ∈ n.classes, s.IsWord)
    (h : m.written = n.written) : m.packages = n.packages ∧
      m.classes.map Segment.written = n.classes.map Segment.written ∧
      writtenOperation m.operation = writtenOperation n.operation := by
  -- the texts are cut first at the operation, then at the points, then at the dollar signs
  have htype : writtenPackages m.packages ++ writtenClasses m.classes =
      writtenPackages n.packages ++ writtenClasses n.classes := by
    have hcut := congrArg (List.takeWhile (· ≠ '#')) h
    rw [written, written] at hcut
    rwa [takeWhile_written (not_mem_hash_of_type (fun p hp => (hm p hp).2) hmc),
      takeWhile_written (not_mem_hash_of_type (fun p hp => (hn p hp).2) hnc)] at hcut
  have hoperation : writtenOperation m.operation = writtenOperation n.operation := by
    rw [written, written, htype] at h
    exact List.append_cancel_left h
  have hsplit := congrArg (List.splitOn '.') htype
  rw [writtenType_splitOn (fun p hp => (hm p hp).1) hmc,
    writtenType_splitOn (fun p hp => (hn p hp).1) hnc] at hsplit
  obtain ⟨hpackages, hclasses⟩ := List.append_inj' hsplit rfl
  have hclasses := congrArg (List.splitOn '$') (List.singleton_inj.mp hclasses)
  rw [writtenClasses_splitOn (by simp [classes]) hmc, writtenClasses_splitOn (by simp [classes]) hnc] at hclasses
  exact ⟨List.map_injective_iff.mpr (fun _ _ => String.toList_inj.mp) hpackages, hclasses, hoperation⟩

/-- The text before any `#`. -/
theorem readType?_eq_some_iff {text : List Char} {operation : Option Operation} {n : QualifiedName} :
    readType? text operation = some n ↔
      n.operation = operation ∧ (∀ p ∈ n.packages, isPackage p.toList = true) ∧
        (∀ s ∈ n.classes, s.WellFormed) ∧
          writtenPackages n.packages ++ writtenClasses n.classes = text := by
  simp only [readType?, Option.bind_eq_bind, Option.bind_eq_some_iff, ofParts?_eq_some_iff,
    mapM_eq_some_iff (fun _ _ => readPackage?_eq_some_iff),
    mapM_eq_some_iff (fun _ _ => Segment.read?_eq_some_iff)]
  constructor
  · rintro ⟨packages, ⟨hp, hpw⟩, classes, ⟨hc, hcw⟩, rfl, rfl, rfl⟩
    refine ⟨rfl, hp, hc, ?_⟩
    have hlast : writtenClasses n.classes = (text.splitOn '.').getLast (List.splitOn_ne_nil _ _) := by
      rw [writtenClasses, hcw, List.intercalate_splitOn, List.getLast?_eq_some_getLast, Option.getD_some]
    rw [hlast, writtenPackages_append, hpw, List.dropLast_concat_getLast, List.intercalate_splitOn]
  · rintro ⟨rfl, hp, hc, rfl⟩
    have hwords : ∀ s ∈ n.classes, s.IsWord := fun s hs => (hc s hs).isWord
    rw [writtenType_splitOn (fun p hpm => not_mem_of_isPackage (hp p hpm) rfl) hwords, List.dropLast_concat,
      List.getLast?_concat, Option.getD_some, writtenClasses_splitOn (by simp [classes]) hwords]
    exact ⟨_, ⟨hp, rfl⟩, _, ⟨hc, rfl⟩, rfl, rfl, rfl⟩

theorem wellFormed_of_readWritten? {text : List Char} {n : QualifiedName}
    (h : readWritten? text = some n) : n.WellFormed ∧ n.written = text := by
  unfold readWritten? at h
  split at h
  next type operation hcut =>
    obtain ⟨rfl, -⟩ := cut_eq_some_iff.1 hcut
    simp only [Option.bind_eq_bind, Option.bind_eq_some_iff, Operation.read?_eq_some_iff,
      readType?_eq_some_iff] at h
    obtain ⟨o, ⟨ho, rfl⟩, hn, hp, hc, rfl⟩ := h
    refine ⟨⟨hp, hc, fun o' ho' => ?_⟩, by rw [written, hn, writtenOperation]⟩
    rw [hn, Option.mem_some_iff] at ho'
    exact ho' ▸ ho
  next =>
    obtain ⟨hn, hp, hc, rfl⟩ := readType?_eq_some_iff.1 h
    refine ⟨⟨hp, hc, fun o' ho' => ?_⟩, by rw [written, hn, writtenOperation, List.append_nil]⟩
    rw [hn] at ho'
    exact absurd ho' nofun

theorem readWritten?_written {n : QualifiedName} (h : n.WellFormed) : readWritten? n.written = some n := by
  obtain ⟨hp, hc, ho⟩ := h
  have hhash := not_mem_hash_of_type (fun p hpm => not_mem_of_isPackage (hp p hpm) rfl)
    fun s hs => (hc s hs).isWord
  cases hn : n.operation with
  | none =>
    rw [written, hn, writtenOperation, List.append_nil, readWritten?, cut_eq_none_iff.2 hhash]
    exact readType?_eq_some_iff.2 ⟨hn, hp, hc, rfl⟩
  | some o =>
    rw [written, hn, writtenOperation, readWritten?, cut_eq_some_iff.2 ⟨rfl, hhash⟩]
    have hread := Operation.read?_eq_some_iff.2 ⟨ho o hn, rfl⟩
    simp only [hread, Option.bind_eq_bind, Option.bind_some]
    exact readType?_eq_some_iff.2 ⟨hn, hp, hc, rfl⟩

theorem readWritten?_eq_some_iff {text : List Char} {n : QualifiedName} :
    readWritten? text = some n ↔ n.WellFormed ∧ n.written = text :=
  ⟨wellFormed_of_readWritten?, fun h => h.2 ▸ readWritten?_written h.1⟩

/-- A text is read as a name if and only if the name is well-formed and renders to just that text. -/
theorem read?_eq_some_iff_render_eq (text : String) (n : QualifiedName) :
    read? text = some n ↔ n.WellFormed ∧ n.render = text := by
  rw [read?, readWritten?_eq_some_iff, render, ← String.toList_inj, String.toList_ofList]

end QualifiedName

end Nomenclator
