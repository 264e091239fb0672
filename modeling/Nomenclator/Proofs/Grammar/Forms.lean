/-
Every tree that is read has its form, whatever the text.

Where a name is looked for, the next token decides: it is that identifier, or
the name is missing, and that is reported there. Reports are never taken back.
So when the text is read to its end they still tell of each name which of the
two it was. The rest of the form is decided by the rule that makes a node, from
the tokens that come next and from what it was told of the class around it.
-/
import Nomenclator.Proofs.Declaration.Forms
import Nomenclator.Proofs.Grammar.Repeats

namespace Nomenclator

open Grammar Text

/-- The tokens are those of a text, and the diagnostics are what the grammar reports of them: a name is
missed at another name only where the text ends with that, and never behind the keyword of a type. -/
structure Reading.Of (r : Reading) (all : Lexemes) : Prop where
  lexemes : r.lexemes = all.list
  names : ∀ l ∈ all.list, ∀ name, l.token = .identifier name → IsName name
  unnamed : ∀ after, ∀ l ∈ all.list, r.Misses after l.span → ∀ name, l.token = .identifier name →
    after ≠ .typeKeyword ∧ all.list.getLast? = some l

namespace Grammar

variable {α : Type} {all : Lexemes} {r : Reading} {s s' s'' s₀ s₁ : State}

/-! ## Single tokens -/

theorem points_advance_eq : Points all s advance fun _ s' => s' = s.advance := fun hs =>
  ⟨(keeps_advance s hs).1, rfl⟩

theorem points_fresh : Points all s fresh fun _ s' => s'.here = s.here := fun hs =>
  ⟨(keeps_fresh s hs).1, rfl⟩

theorem points_isAt (t : Token) : Points all s (isAt t) fun b s' =>
    s' = s ∧ (b = true → ∃ span rest, s.rest = ⟨t, span⟩ :: rest) := fun hs =>
  ⟨(keeps_isAt t s hs).1, rfl, rest_of_head?⟩

/-- All that is found is good, if every round finds only that. -/
theorem Points.collect_all {good : α → Prop} {round : Parser (List α × Bool)}
    (h : ∀ s, Points all s round fun found _ => ∀ x ∈ found.1, good x) (s : State) :
    Points all s (Grammar.collect round) fun found _ => ∀ x ∈ found, good x :=
  .collect (G := fun _ found _ => ∀ x ∈ found, good x)
    (fun _ _ hfound hmore => List.forall_mem_append.mpr ⟨hfound, hmore⟩) h s

/-- Behind a token the parser stands at the next one, and at that itself if it was the last. -/
theorem State.here_advance {l : Lexeme} {rest : List Lexeme} (hs : s.rest = l :: rest) :
    s.advance.here = (rest.head?.getD l).span := by
  rw [State.advance, hs]
  cases rest <;> rfl

/-! ## Names -/

/-- Everything that was reported so far is still reported at the end. -/
def State.Told (r : Reading) (s : State) : Prop := s.reported ⊆ r.diagnostics

theorem Reaches.told (h : Reaches all s s') (htold : s'.Told r) : s.Told r :=
  List.Subset.trans h.reported.subset htold

/-- A name was looked for: it came next and was read, or it is reported to be missing. -/
inductive NameSought (after : Anchor) (s : State) (name : String × Span) (s' : State) : Prop
  | found (hrest : s.rest = ⟨.identifier name.1, name.2⟩ :: s'.rest)
  | missing (hname : name.1 = "") (hspan : name.2 = s.here) (hrest : s'.rest = s.rest)
    (hreported : ⟨.expectedIdentifier after, name.2⟩ ∈ s'.reported)

theorem points_sought (after : Anchor) : Points all s (identifier after) (NameSought after s) := by
  refine .within fun hw => .here (.get ?_)
  split
  next name span rest hs =>
    rw [State.here_of_rest hs]
    refine .bind points_advance_eq fun _ s₁ _ he => .pure fun _ => .found ?_
    rw [he, s.advance_eq.1, hs, List.tail_cons]
  next =>
    have hreport : Points all s (report (.expectedIdentifier after) s.here) fun _ s' =>
        s'.rest = s.rest ∧ ⟨.expectedIdentifier after, s.here⟩ ∈ s'.reported := fun hs =>
      ⟨(keeps_report hw.here_onTokens rfl s hs).1, rfl, List.mem_cons_self⟩
    exact .bind hreport fun _ s₁ _ h => .pure fun _ => .missing rfl rfl h.1 h.2

theorem Lexemes.getLast?_ne {l : Lexeme} {v : List Lexeme} (h : l :: v <:+ all.list) (hv : v ≠ []) :
    all.list.getLast? ≠ some l := by
  intro hlast
  obtain ⟨done, hall⟩ := h
  have hmem : l ∈ v := by
    rw [← hall, List.append_cons, List.getLast?_append_of_ne_nil _ hv] at hlast
    exact List.mem_of_getLast? hlast
  exact Lexemes.span_ne ⟨done, hall⟩ hmem rfl

theorem not_mem_plainName (written : String) : '$' ∉ (plainName written).toList := by
  intro hmem
  rw [plainName, String.toList_ofList] at hmem
  obtain ⟨c, -, hc⟩ := List.mem_map.mp hmem
  split at hc
  · exact absurd hc (by decide)
  next hne => exact hne hc

theorem NameSought.span_eq {after : Anchor} {name : String × Span} (h : NameSought after s name s') :
    name.2 = s.here := by
  cases h with
  | found hrest => exact (State.here_of_rest hrest).symm
  | missing _ hspan => exact hspan

theorem NameSought.isName {after : Anchor} {name : String × Span} (h : NameSought after s name s') (hr : r.Of all)
    (hs : s.Within all) (hname : name.1 ≠ "") : IsName name.1 := by
  cases h with
  | found hrest => exact hr.names _ (hs.suffix.subset (hrest ▸ List.mem_cons_self)) _ rfl
  | missing hmissing => exact absurd hmissing hname

/-- At the end it can be told whether the name was found, if it is that of a type or more was read. -/
theorem NameSought.names {after : Anchor} {name : String × Span} (h : NameSought after s name s') (hr : r.Of all)
    (hreaches : Reaches all s s') (hafter : after = .typeKeyword ∨ s'.rest ≠ []) (htold : s'.Told r) :
    r.Names after name.2 (plainName name.1) := by
  cases h with
  | found hrest =>
    have hsuffix := hreaches.before.suffix
    rw [hrest] at hsuffix
    have hmem := hsuffix.subset List.mem_cons_self
    have hnotMissed : ¬ r.Misses after name.2 := fun hmissed => by
      obtain ⟨hne, hlast⟩ := hr.unnamed after _ hmem hmissed _ rfl
      exact hafter.elim hne fun hnil => Lexemes.getLast?_ne hsuffix hnil hlast
    have hplain := (hr.names _ hmem _ rfl).plainName
    exact ⟨not_mem_plainName _, fun hmissed => absurd hmissed hnotMissed,
      fun _ => ⟨hplain.identifier, name.1, hr.lexemes ▸ hmem, rfl⟩⟩
  | missing hname hspan hrest hreported =>
    refine ⟨not_mem_plainName _, fun _ => ?_, fun hfound => absurd (htold hreported) hfound⟩
    rw [hname]
    rfl

theorem points_declaredName (written : String) {span : Span} (h : span.OnTokens all.list) :
    Points all s (declaredName written span) fun name _ => name = plainName written := by
  refine fun hs => ⟨(keeps_declaredName written h s hs).1, ?_⟩
  rw [declaredName]
  split <;> rfl

/-! ## Types and parameters -/

/-- The names in the text of a type are words of the text. -/
theorem points_typeText (hr : r.Of all) : Points all s type? fun text _ => ∀ t ∈ text,
    ∃ names count, names ≠ [] ∧ (∀ name ∈ names, IsName name) ∧ t = typeText names count := by
  have hnext (s : State) : Points all s typeNameRound fun found _ => ∀ name ∈ found.1, IsName name := by
    refine .step keeps_skipAnyAngles fun _ s₁ _ => .within fun hs => .get ?_
    split
    next name span rest hrest =>
      have hname : IsName name := hr.names ⟨.identifier name, span⟩ (hs.suffix.subset (hrest ▸ by simp)) name rfl
      refine .step keeps_advance fun _ _ _ => .step keeps_advance fun _ _ _ => .pure fun _ => ?_
      exact List.forall_mem_singleton.mpr hname
    next => exact .pure fun _ => nofun
  refine .step (.skipWhile ?_) fun _ s₁ _ => .within fun hs => .get ?_
  · exact (keeps_isAt _).bind fun _ => .ite (.bind keeps_skipAnnotation fun _ => .pure _) (.pure _)
  split
  next first span rest hrest =>
    have hfirst : IsName first :=
      hr.names ⟨.identifier first, span⟩ (hs.suffix.subset (hrest ▸ List.mem_cons_self)) first rfl
    refine .step keeps_advance fun _ s₂ _ => ?_
    refine .bind (.collect_all hnext s₂) fun names s₃ _ hnames => ?_
    refine .step keeps_dimensions fun count _ _ => .pure_some ?_
    exact ⟨first :: names, count, nofun, List.forall_mem_cons.mpr ⟨hfirst, hnames⟩, rfl⟩
  next => exact .bind points_here fun _ _ _ hspan => .step (keeps_report hspan rfl) fun _ _ _ => .pure_none

theorem points_parameter (hr : r.Of all) : Points all s parameter? fun p _ => ∀ q ∈ p, q.Formed := by
  refine .step keeps_modifiers fun _ s₁ _ => .bind (points_typeText hr) fun text s₂ _ htext => ?_
  cases text with
  | none => exact .pure_none
  | some text =>
    obtain ⟨names, count, hne, hnames, rfl⟩ := htext text rfl
    refine .step (keeps_accept _) fun variadic _ _ => .step (keeps_identifier _) fun name _ _ => ?_
    refine .step keeps_dimensions fun more _ _ => .pure_some ?_
    exact .of_names hne hnames count variadic more name.1

theorem points_parameters (hr : r.Of all) : Points all s parameters fun ps _ => ∀ p ∈ ps, p.Formed := by
  refine .bind (points_take _) fun opener s₁ _ hopener => ?_
  cases opener with
  | none => exact .pure fun _ => nofun
  | some opener =>
    have hround (s : State) : Points all s (parameterRound opener) fun found _ => ∀ p ∈ found.1, p.Formed := by
      refine .bind (points_parameter hr) fun found _ _ hfound => ?_
      have hfound : ∀ p ∈ found.toList, p.Formed := fun p hp => hfound p (Option.mem_toList.mp hp)
      refine .step (keeps_accept _) fun b _ _ => ?_
      split
      · exact .pure fun _ => hfound
      refine .step (keeps_accept _) fun b _ _ => ?_
      split
      · exact .pure fun _ => hfound
      · refine .step (keeps_report (hopener opener rfl) rfl) fun _ _ _ => ?_
        exact .step keeps_skipParameters fun _ _ _ => .pure fun _ => hfound
    refine .step (keeps_accept _) fun b s₂ _ => ?_
    split
    · exact .pure fun _ => nofun
    · exact .collect_all hround s₂

/-! ## What is found -/

/-- All that was found so far is good, if what was reported so far is reported at the end. -/
def Found (r : Reading) (good : α → Prop) (found : List α) (s : State) : Prop := s.Told r → ∀ x ∈ found, good x

namespace Found

variable {good : α → Prop} {found more : List α}

theorem nil : Found r good [] s := fun _ => nofun

theorem single {x : α} (h : s.Told r → good x) : Found r good [x] s := fun htold =>
  List.forall_mem_singleton.mpr (h htold)

/-- More may be read behind it. -/
theorem before (h : Found r good found s) (h' : Reaches all s s') : Found r good found s' := fun htold =>
  h (h'.told htold)

theorem append (h' : Reaches all s s') (hfound : Found r good found s) (hmore : Found r good more s') :
    Found r good (found ++ more) s' := fun htold =>
  List.forall_mem_append.mpr ⟨hfound.before h' htold, hmore htold⟩

end Found

theorem Points.collect_found {good : α → Prop} {round : Parser (List α × Bool)}
    (h : ∀ s, Points all s round fun found s' => Found r good found.1 s') (s : State) :
    Points all s (Grammar.collect round) (Found r good) :=
  .collect (G := fun _ => Found r good) (fun _ h' hfound hmore => hfound.append h' hmore) h s

abbrev CodeFound (r : Reading) : List CodeItem → State → Prop := Found r (CodeItem.Formed r)

/-- Members that were found, either constants or others. -/
abbrev MembersFound (r : Reading) (ofClass : String → Prop) (constant : Bool) : List Member → State → Prop :=
  Found r fun m => m.Formed r ofClass ∧ m.isConstant = constant

/-- A member that was found and is no constant. Its place is known last, and covers all that was read for it. -/
def MemberFound (r : Reading) (ofClass : String → Prop) (s : State) (node : Span → Member) (s' : State) : Prop :=
  s'.Told r → ∀ place : Span, place.Covers (s.upTo s') →
    (node place).Formed r ofClass ∧ (node place).isConstant = false

theorem MemberFound.after {ofClass : String → Prop} {node : Span → Member} (h : MemberFound r ofClass s₁ node s')
    (h₁ : Reaches all s s₁) : MemberFound r ofClass s node s' := fun htold place hplace =>
  h htold place (hplace.trans (h₁.covers_after s'))

/-! ## The grammar -/

/-- The class that a body belongs to has a name of the text or none, and a record parameters. -/
structure Heading.Formed (heading : Heading) : Prop where
  written : heading.written ≠ "" → IsName heading.written
  components : ∀ parameters ∈ heading.components, ∀ p ∈ parameters, p.Formed

/-- The name that constructors in such a body have. -/
def Heading.Names (heading : Heading) (name : String) : Prop :=
  heading.written ≠ "" ∧ name = plainName heading.written

theorem Heading.anonymous_formed : Heading.anonymous.Formed := ⟨fun h => absurd rfl h, nofun⟩

def BodyFound (r : Reading) (heading : Heading) (members : List Member) (s : State) : Prop :=
  s.Told r → ConstantsFirst heading.kind members ∧ ∀ m ∈ members, m.Formed r heading.Names

/-- What the rules read has its form. -/
structure Rules.Forming (all : Lexemes) (r : Reading) (rules : Rules) : Prop where
  classBody : ∀ {s : State} {heading : Heading}, heading.Formed →
    Points all s (rules.classBody heading) (BodyFound r heading)
  code : ∀ {s : State} {stop : CodeEnd}, stop.OnTokens all.list → Points all s (rules.code stop) (CodeFound r)

section

variable {rules : Rules} {kind : TypeKind} {heading : Heading}

/-! ### Type declarations -/

theorem points_components (hr : r.Of all) (kind : TypeKind) :
    Points all s (components kind) fun comps _ => ∀ parameters ∈ comps, ∀ p ∈ parameters, p.Formed := by
  rw [components]
  split
  · exact .step keeps_skipAnyAngles fun _ _ _ => .bind (points_parameters hr) fun _ _ _ hps => .pure_some hps
  · exact .pure_none

theorem head?_of_start (h : typeStart? s.rest = some kind) :
    s.rest.head?.map (·.span.start) = some (s.upTo s').start := by
  cases hs : s.rest with
  | nil =>
    rw [hs] at h
    cases h
  | cons l rest => rw [State.upTo, State.here_of_rest hs, List.head?_cons, Option.map_some]

/-- Behind the keyword of a type its name is looked for. -/
theorem nameSpot?_of_start (h : typeStart? s.rest = some kind) :
    kind.nameSpot? s.rest = some (if kind = .annotationType then s.advance else s).advance.here := by
  rcases typeStart?_cases h with ⟨span, place, rest, rfl, hs⟩ | ⟨k, span, rest, hkind, -, -, hs⟩ |
    ⟨word, span, name, place, rest, rfl, hs⟩
  · have hs' : s.advance.rest = ⟨.keyword .interfaceKw, place⟩ :: rest := by
      rw [s.advance_eq.1, hs, List.tail_cons]
    rw [if_pos rfl, State.here_advance hs', hs]
    cases rest <;> rfl
  · rw [if_neg hkind, State.here_advance hs, hs, TypeKind.nameSpot?, if_neg hkind]
    cases rest <;> rfl
  · rw [if_neg nofun, State.here_advance hs, hs]
    rfl

theorem Rules.Forming.typeDecl (hf : rules.Forming all r) (hr : r.Of all) :
    Points all s (typeDecl? rules) fun res s' => ∀ decl ∈ res, s'.Told r →
      decl.Formed r ∧ typeStart? s.rest = some decl.kind := by
  refine .within fun hs => .get ?_
  split
  next => exact .pure_none
  next kind hkind =>
    refine .here ?_
    extract_lets fromKeyword
    have hkeyword {s₁ : State} (h₁ : Reaches all s s₁) (hspot : kind.nameSpot? s.rest = some s₁.advance.here) :
        Points all s₁ (fromKeyword ()) fun res s' => ∀ decl ∈ res, s'.Told r →
          decl.Formed r ∧ typeStart? s.rest = some decl.kind := by
      refine .bind points_advance_eq fun _ s₂ h₂ he => .bind points_fresh fun id s₃ h₃ hhere => ?_
      refine .bind (points_sought _) fun name s₄ h₄ hsought => ?_
      have hplace : name.2 = s₁.advance.here := by rw [hsought.span_eq, hhere, he]
      refine .bind (points_declaredName _ (hsought.span_eq ▸ h₃.after.here_onTokens)) fun plain s₅ h₅ hplain => ?_
      refine .bind (points_components hr kind) fun comps s₆ h₆ hcomps => .step keeps_skipHeader fun _ s₇ h₇ => ?_
      refine .bind (hf.classBody ⟨fun hne => hsought.isName hr h₃.after hne, hcomps⟩) fun ms s₈ h₈ hms => ?_
      refine .here (.pure_some fun htold => ?_)
      have htold₄ := (h₅.trans (h₆.trans (h₇.trans h₈))).told htold
      have hname := hsought.names hr h₄ (.inl rfl) htold₄
      have hall := h₁.trans (h₂.trans (h₃.trans (h₄.trans (h₅.trans (h₆.trans (h₇.trans h₈))))))
      obtain ⟨hconstants, hmembers⟩ := hms htold
      refine ⟨⟨⟨s.rest, name.2, hr.lexemes ▸ hs.suffix, hkind, ?_, hplace ▸ hspot, hplain ▸ hname⟩, hconstants,
        Member.allFormed_iff.mpr fun m hm => ?_⟩, hkind⟩
      · rw [hall.join]
        exact head?_of_start hkind
      · exact (hmembers m hm).mono fun _ hown => hown.2.trans hplain.symm
    have hspot := nameSpot?_of_start hkind
    split
    next hannotation =>
      rw [if_pos hannotation] at hspot
      exact .bind points_advance_eq fun _ s₁ h₁ he => hkeyword h₁ (he ▸ hspot)
    next hother =>
      rw [if_neg hother] at hspot
      exact hkeyword (.refl hs) hspot

theorem Rules.Forming.anonymousBody (hf : rules.Forming all r) :
    Points all s (anonymousBody? rules) fun body s' => ∀ members ∈ body, s'.Told r →
      Member.AnonymousFormed r members := by
  refine .step (keeps_isAt _) fun b s₁ _ => ?_
  split
  · refine .bind (hf.classBody Heading.anonymous_formed) fun ms s₂ _ hms => .pure_some fun htold => ?_
    obtain ⟨hconstants, hmembers⟩ := hms htold
    exact ⟨hconstants.not_constant nofun, fun m hm => (hmembers m hm).mono fun _ hown => absurd rfl hown.1⟩
  · exact .pure_none

/-! ### Code -/

theorem Rules.Forming.block (hf : rules.Forming all r) : Points all s (block rules) (CodeFound r) := by
  refine .bind (points_take _) fun opener s₁ _ hopener => ?_
  cases opener with
  | none =>
    refine .bind points_here fun span _ _ hspan => ?_
    exact .step (keeps_report hspan rfl) fun _ _ _ => .pure fun _ => .nil
  | some opener => exact hf.code (hopener opener rfl)

theorem Rules.Forming.lambda (hf : rules.Forming all r) :
    Points all s (lambda rules) fun i s' => s'.Told r → i.Formed r := by
  refine .here (.step keeps_fresh fun id _ _ => .step (.skipWhile keeps_arrowRound) fun _ _ _ => ?_)
  refine .step (keeps_isAt _) fun b s₁ _ => ?_
  extract_lets fromBody
  have hbody (code : List CodeItem) (s₂ : State) (_ : Reaches all s₁ s₂) (hcode : CodeFound r code s₂) :
      Points all s₂ (fromBody code) fun i s' => s'.Told r → i.Formed r :=
    .here (.pure fun _ htold => CodeItem.allFormed_iff.mpr (hcode htold))
  split
  · exact .bind hf.block hbody
  · exact .bind (hf.code trivial) hbody

theorem Rules.Forming.allocation (hf : rules.Forming all r) :
    Points all s (allocation? rules) fun i s' => CodeFound r i.toList s' := by
  refine .here (.step keeps_advance fun _ _ _ => .step keeps_skipAnyAngles fun _ _ _ => ?_)
  refine .step keeps_type fun type _ _ => ?_
  cases type with
  | none => exact .pure fun _ => .nil
  | some type =>
    refine .bind (points_take _) fun opener _ _ hopener => ?_
    cases opener with
    | none => exact .pure fun _ => .nil
    | some opener =>
      refine .step keeps_fresh fun id _ _ => .bind (hf.code (hopener opener rfl)) fun arguments s₁ _ harguments => ?_
      refine .bind hf.anonymousBody fun body s₂ h₂ hbody => .here (.pure fun _ => .single fun htold => ?_)
      exact CodeItem.formed_allocation (harguments.before h₂ htold) fun members hm => hbody members hm htold

/-- Where no annotation is declared, a local type is none. -/
theorem Rules.Forming.localType (hf : rules.Forming all r) (hr : r.Of all)
    (hstart : typeStart? s.rest ≠ some .annotationType) :
    Points all s (localType? rules) fun i s' => CodeFound r i.toList s' := by
  refine .bind (hf.typeDecl hr) fun decl s₁ _ hdecl => .pure fun _ => ?_
  cases decl with
  | none => exact .nil
  | some decl =>
    refine .single fun htold => ?_
    obtain ⟨hformed, hkind⟩ := hdecl decl rfl htold
    exact ⟨fun he => hstart (he ▸ hkind), hformed⟩

/-- Nothing is found where only text is passed over. -/
theorem points_nothing {p : Parser (List CodeItem × Bool)} (hp : Keeps all p) (hnil : ∀ s, (p s).1.1 = []) :
    Points all s p fun found s' => CodeFound r found.1 s' := by
  refine fun hs => ⟨(hp s hs).1, ?_⟩
  show CodeFound r (p s).1.1 (p s).2
  exact (hnil s).symm ▸ .nil

theorem pass_nothing : Points all s pass fun found s' => CodeFound r found.1 s' :=
  points_nothing (.of_points fun _ => points_pass) fun _ => rfl

theorem closing_nothing {stop : CodeEnd} (hstop : stop.OnTokens all.list) (bracket : Bracket) :
    Points all s (closing stop bracket) fun found s' => CodeFound r found.1 s' := by
  refine points_nothing (.of_points fun _ => points_closing hstop bracket) fun s => ?_
  cases stop with
  | close expected opener =>
    rw [closing]
    split
    · rfl
    split <;> rfl
  | semicolon =>
    rw [closing]
    split <;> rfl
  | expression => rfl

theorem semicolon_nothing (stop : CodeEnd) :
    Points all s (semicolon stop) fun found s' => CodeFound r found.1 s' := by
  refine points_nothing (.of_points fun _ => points_semicolon stop) fun s => ?_
  cases stop <;> rfl

theorem Rules.Forming.keyword (hf : rules.Forming all r) (hr : r.Of all) {k : Keyword}
    (hstart : typeStart? s.rest ≠ some .annotationType) :
    Points all s (keyword rules k) fun found s' => CodeFound r found.1 s' := by
  refine .get ?_
  dsimp only
  split
  · exact .step keeps_skipLabel fun _ _ _ => .pure fun _ => .nil
  split
  · exact .bind hf.allocation fun _ _ _ h => .pure fun _ => h
  split
  · exact .bind (hf.localType hr hstart) fun _ _ _ h => .pure fun _ => h
  · exact pass_nothing

/-- An annotation is declared at its sign. -/
theorem typeStart?_ne_annotation {l : Lexeme} {rest : List Lexeme} (h : l.token ≠ .atSign) :
    typeStart? (l :: rest) ≠ some .annotationType := by
  intro hstart
  rcases typeStart?_cases hstart with ⟨_, _, _, -, he⟩ | ⟨_, _, _, hne, -⟩ | ⟨_, _, _, _, _, hne, -⟩
  · exact h (congrArg Lexeme.token (List.cons.inj he).1)
  · exact hne rfl
  · cases hne

theorem Rules.Forming.codeRound (hf : rules.Forming all r) (hr : r.Of all) {stop : CodeEnd}
    (hstop : stop.OnTokens all.list) :
    Points all s (codeRound rules stop) fun found s' => CodeFound r found.1 s' := by
  refine .within fun hs => .get ?_
  split
  · cases stop with
    | close bracket opener =>
      exact .step (keeps_reportUnclosed bracket hstop) fun _ _ _ => .pure fun _ => .nil
    | semicolon | expression => exact .pure fun _ => .nil
  · exact closing_nothing hstop _
  · exact semicolon_nothing stop
  · split
    · exact .pure fun _ => .nil
    · exact pass_nothing
  next hrest => exact hf.keyword hr (hrest ▸ typeStart?_ne_annotation nofun)
  next lexeme after _ _ _ _ hrest =>
    split
    · exact .bind hf.lambda fun _ _ _ h => .pure fun _ => .single h
    split
    next hrecord =>
      have hne : lexeme.token ≠ .atSign := fun he => by
        obtain ⟨t, span⟩ := lexeme
        obtain rfl : t = .atSign := he
        cases hrecord
      exact .bind (hf.localType hr (hrest ▸ typeStart?_ne_annotation hne)) fun _ _ _ h => .pure fun _ => h
    split
    · have hopener := hs.onTokens (hrest ▸ List.mem_cons_self)
      exact .step keeps_advance fun _ _ _ => .bind (hf.code hopener) fun _ _ _ h => .pure fun _ => h
    · exact pass_nothing

theorem Rules.Forming.readCode (hf : rules.Forming all r) (hr : r.Of all) {stop : CodeEnd}
    (hstop : stop.OnTokens all.list) : Points all s (Grammar.code rules stop) (CodeFound r) :=
  .collect_found (fun _ => hf.codeRound hr hstop) s

/-! ### Enum constants -/

theorem Rules.Forming.constantRound (hf : rules.Forming all r) (ofClass : String → Prop) :
    Points all s (constantRound rules) fun found s' => MembersFound r ofClass true found.1 s' := by
  refine .step keeps_modifiers fun _ s₁ _ => .get ?_
  split
  next name start tail _ =>
    refine .step keeps_advance fun _ _ _ => .step keeps_fresh fun id _ _ => ?_
    refine .bind (points_take _) fun opener s₂ _ hopener => ?_
    extract_lets fromBody
    have hbody (arguments : List CodeItem) (s₃ : State) (_ : Reaches all s₂ s₃)
        (harguments : CodeFound r arguments s₃) :
        Points all s₃ (fromBody arguments) fun found s' => MembersFound r ofClass true found.1 s' := by
      refine .bind hf.anonymousBody fun body s₄ h₄ hbody => .here ?_
      have hconstant (place : Span) :
          MembersFound r ofClass true [.constant id name arguments body place] s₄ := .single fun htold =>
        ⟨Member.formed_constant (harguments.before h₄ htold) fun members hm => hbody members hm htold, rfl⟩
      refine .step (keeps_accept _) fun b _ h₅ => ?_
      split
      · exact .pure fun _ => (hconstant _).before h₅
      · exact .step (keeps_accept _) fun _ _ h₆ => .pure fun _ => (hconstant _).before (h₅.trans h₆)
    cases opener with
    | none => exact .within fun hs => hbody [] s₂ (.refl hs) .nil
    | some opener => exact .bind (hf.code (hopener opener rfl)) hbody
  next => exact .step (keeps_accept _) fun _ _ _ => .pure fun _ => .nil

/-! ### Operations and fields -/

theorem Rules.Forming.operationBody (hf : rules.Forming all r) :
    Points all s (operationBody? rules) fun body s' => s'.Told r → ∀ code ∈ body, ∀ i ∈ code, i.Formed r := by
  refine .step keeps_skipThrows fun _ s₁ _ => .within fun hs => .get ?_
  split
  · exact .bind hf.block fun code _ _ hcode => .pure fun _ htold c hc => Option.mem_some_iff.mp hc ▸ hcode htold
  · exact .step keeps_advance fun _ _ _ => .pure fun _ _ => nofun
  · refine .step keeps_advance fun _ _ _ => ?_
    exact .bind (hf.code trivial) fun _ _ _ _ => .pure fun _ _ => nofun
  next t span after _ _ _ hrest =>
    have hspan := hs.onTokens (hrest ▸ List.mem_cons_self)
    exact .step (keeps_report hspan rfl) fun _ _ _ => .pure fun _ _ => nofun
  · exact .pure fun _ _ => nofun

/-- A method, whose name was looked for right before. -/
theorem Rules.Forming.method (hf : rules.Forming all r) (hr : r.Of all) (ofClass : String → Prop)
    {name : String × Span} (h₀ : Reaches all s₀ s) (hsought : NameSought .type s₀ name s) {opener : Span}
    {rest : List Lexeme} (hrest : s.rest = ⟨.opener .paren, opener⟩ :: rest) :
    Points all s (methodDecl rules name.1 name.2) fun node s' => MemberFound r ofClass s₀ node s' := by
  have hspot : MethodSpot s₀.rest name.2 := by
    cases hsought with
    | found hfound => exact hfound ▸ hrest ▸ .named
    | missing _ hspan hsame _ =>
      rw [hrest] at hsame
      rw [hspan, State.here_of_rest hsame.symm, ← hsame]
      exact .unnamed
  refine .bind (points_declaredName _ (hsought.span_eq ▸ h₀.before.here_onTokens)) fun plain s₁ h₁ hplain => ?_
  refine .step keeps_fresh fun id s₂ h₂ => .bind (points_parameters hr) fun ps s₃ h₃ hps => ?_
  refine .step (.skipWhile keeps_squareRound) fun _ s₄ h₄ => .bind hf.operationBody fun body s₅ h₅ hbody => ?_
  refine .pure fun _ htold place hplace => ⟨Member.formed_operation ?_ hps (hbody htold), rfl⟩
  have hbehind := h₁.trans (h₂.trans (h₃.trans (h₄.trans h₅)))
  have hname := hsought.names hr h₀ (.inr (hrest ▸ nofun)) (hbehind.told htold)
  refine ⟨s₀.rest, name.2, hr.lexemes ▸ h₀.before.suffix, hspot, ?_, hplain ▸ hname⟩
  rw [hsought.span_eq]
  exact hplace.trans ⟨Nat.le_refl _, (h₀.trans hbehind).here_le.2⟩

theorem Rules.Forming.constructor (hf : rules.Forming all r) (hr : r.Of all) (hheading : heading.Formed)
    {start : ConstructorStart} (hstart : constructorStart? heading s.rest = some start) :
    Points all s (constructorDecl rules heading start) fun node s' => MemberFound r heading.Names s node s' := by
  obtain ⟨-, hwritten, hcomponents⟩ := constructorStart?_eq_some hstart
  have hname := (hheading.written hwritten).plainName.identifier
  refine .step keeps_advance fun _ s₁ _ => ?_
  extract_lets fromParameters
  have hparameters (ps : List Parameter) (s₂ : State) (_ : Reaches all s₁ s₂) (hps : ∀ p ∈ ps, p.Formed) :
      Points all s₂ (fromParameters ps) fun node s' => MemberFound r heading.Names s node s' := by
    refine .step keeps_fresh fun id _ _ => .bind hf.operationBody fun body s₄ _ hbody => .pure fun _ => ?_
    refine fun htold place _ => ⟨Member.formed_operation ?_ hps (hbody htold), rfl⟩
    exact ⟨⟨hwritten, rfl⟩, not_mem_plainName _, hname⟩
  cases start with
  | ownParameters => exact .bind (points_parameters hr) hparameters
  | components ps => exact .within fun hs => hparameters ps s₁ (.refl hs) (hheading.components ps (hcomponents ps rfl))

theorem Rules.Forming.operationOrField (hf : rules.Forming all r) (hr : r.Of all) (hheading : heading.Formed)
    (isStatic : Bool) :
    Points all s (operationOrField? rules heading isStatic) fun res s' =>
      ∀ node ∈ res, MemberFound r heading.Names s node s' := by
  refine .step keeps_skipAnyAngles fun _ s₁ h₁ => .get ?_
  split
  next start hstart =>
    exact .bind (hf.constructor hr hheading hstart) fun node s₂ _ hnode => .pure_some (hnode.after h₁)
  next =>
    refine .step keeps_type fun type s₂ h₂ => ?_
    cases type with
    | none => exact .step keeps_advance fun _ _ _ => .pure_none
    | some type =>
      refine .bind (points_sought _) fun name s₃ h₃ hsought => .bind (points_isAt _) fun b s₄ _ hat => ?_
      obtain ⟨rfl, hat⟩ := hat
      split
      next htrue =>
        obtain ⟨opener, rest, hrest⟩ := hat htrue
        refine .bind (hf.method hr heading.Names h₃ hsought hrest) fun node s₅ _ hnode => .pure_some ?_
        exact hnode.after (h₁.trans h₂)
      next =>
        refine .bind (hf.code trivial) fun code s₅ _ hcode => .pure_some fun htold _ _ => ⟨?_, rfl⟩
        exact CodeItem.allFormed_iff.mpr (hcode htold)

/-! ### Members -/

theorem Rules.Forming.memberNode (hf : rules.Forming all r) (hr : r.Of all) (hheading : heading.Formed)
    (isStatic : Bool) :
    Points all s (memberNode? rules heading isStatic) fun res s' =>
      ∀ node ∈ res, MemberFound r heading.Names s node s' := by
  refine .get ?_
  split
  · exact .pure_none
  · refine .bind hf.block fun code _ _ hcode => .pure_some fun htold _ _ => ⟨?_, rfl⟩
    exact CodeItem.allFormed_iff.mpr (hcode htold)
  · split
    · refine .bind (hf.typeDecl hr) fun res s₁ _ hdecl => .pure fun _ node hnode => ?_
      obtain ⟨decl, hmem, rfl⟩ := Option.map_eq_some_iff.mp hnode
      exact fun htold _ _ => ⟨(hdecl decl hmem htold).1, rfl⟩
    · exact hf.operationOrField hr hheading isStatic

theorem Rules.Forming.member (hf : rules.Forming all r) (hr : r.Of all) (hheading : heading.Formed) :
    Points all s (member? rules heading) fun res s' => MembersFound r heading.Names false res.toList s' := by
  refine .here (.step keeps_modifiers fun isStatic s₁ h₁ => ?_)
  refine .bind (hf.memberNode hr hheading isStatic) fun res s₂ h₂ hnode => .here (.pure fun _ => ?_)
  cases res with
  | none => exact .nil
  | some node =>
    refine .single fun htold => (hnode node rfl).after h₁ htold _ ?_
    rw [(h₁.trans h₂).join]
    exact .refl _

theorem Rules.Forming.memberRound (hf : rules.Forming all r) (hr : r.Of all) (hheading : heading.Formed)
    {opener : Span} (hopener : opener.OnTokens all.list) :
    Points all s (memberRound rules heading opener) fun found s' =>
      MembersFound r heading.Names false found.1 s' := by
  refine .get ?_
  split
  · exact .step keeps_advance fun _ _ _ => .pure fun _ => .nil
  · exact .step keeps_advance fun _ _ _ => .pure fun _ => .nil
  · exact .step (keeps_report hopener rfl) fun _ _ _ => .pure fun _ => .nil
  · exact .bind (hf.member hr hheading) fun _ _ _ h => .pure fun _ => h

theorem Rules.Forming.readClassBody (hf : rules.Forming all r) (hr : r.Of all) (hheading : heading.Formed) :
    Points all s (Grammar.classBody rules heading) (BodyFound r heading) := by
  refine .bind (points_take _) fun opener s₁ _ hopener => ?_
  cases opener with
  | none =>
    refine .bind points_here fun span _ _ hspan => .step (keeps_report hspan rfl) fun _ _ _ => .pure fun _ _ => ?_
    exact ⟨.nil, nofun⟩
  | some opener =>
    dsimp -zeta only
    extract_lets fromMembers
    have hmembers (constants : List Member) (s₂ : State) (_ : Reaches all s₁ s₂)
        (hconstants : MembersFound r heading.Names true constants s₂)
        (henum : constants ≠ [] → heading.kind = .enumType) :
        Points all s₂ (fromMembers constants) (BodyFound r heading) := by
      refine .bind (.collect_found (fun _ => hf.memberRound hr hheading (hopener opener rfl)) s₂)
        fun ms s₃ h₃ hms => .pure fun _ htold => ?_
      have hconstants := hconstants.before h₃ htold
      have hms := hms htold
      refine ⟨⟨constants, ms, rfl, fun m hm => (hconstants m hm).2, fun m hm => (hms m hm).2, henum⟩, ?_⟩
      exact List.forall_mem_append.mpr ⟨fun m hm => (hconstants m hm).1, fun m hm => (hms m hm).1⟩
    split
    next henum =>
      refine .bind (.collect_found (fun _ => hf.constantRound heading.Names) s₁) fun constants s₂ h₂ hconstants => ?_
      exact hmembers constants s₂ h₂ hconstants fun _ => henum
    next => exact .within fun hs => hmembers [] s₁ (.refl hs) .nil fun hne => absurd rfl hne

theorem forming_rules (hr : r.Of all) : ∀ depth : Nat, (Grammar.rules depth).Forming all r
  | 0 => ⟨fun _ => .pure fun _ _ => ⟨.nil, nofun⟩, fun _ => .pure fun _ => .nil⟩
  | depth + 1 =>
    have hf := forming_rules hr depth
    ⟨fun hheading => hf.readClassBody hr hheading, fun hstop => hf.readCode hr hstop⟩

/-! ### Units -/

theorem Rules.Forming.topLevelRound (hf : rules.Forming all r) (hr : r.Of all) :
    Points all s (topLevelRound rules) fun found s' => Found r (TypeDecl.Formed r) found.1 s' := by
  refine .get ?_
  split
  · exact .pure fun _ => .nil
  refine .step (keeps_accept _) fun b _ _ => ?_
  split
  · exact .pure fun _ => .nil
  refine .step keeps_modifiers fun _ s₁ _ => .within fun hs => .get ?_
  split
  · exact .pure fun _ => .nil
  next lexeme after hrest =>
    split
    · refine .bind (hf.typeDecl hr) fun res _ _ hdecl => .pure fun _ htold decl hmem => ?_
      exact (hdecl decl (Option.mem_toList.mp hmem) htold).1
    · have hspan := hs.onTokens (hrest ▸ List.mem_cons_self)
      exact .step keeps_advance fun _ _ _ => .step (keeps_report hspan rfl) fun _ _ _ => .pure fun _ => .nil

theorem Rules.Forming.compilationUnit (hf : rules.Forming all r) (hr : r.Of all) :
    Points all s (compilationUnit rules) fun unit s' => Found r (TypeDecl.Formed r) unit.types s' := by
  refine .step keeps_package fun _ _ _ => .step keeps_skipImports fun _ s₁ _ => ?_
  exact .bind (.collect_found (fun _ => hf.topLevelRound hr) s₁) fun _ _ _ htypes => .pure fun _ => htypes

end

end Grammar

namespace CompilationUnit

/-- What is read from a text has its form. -/
theorem formed_parse (text : String) :
    (parse text).1.Formed ⟨lex text, (parse text).2⟩ := by
  rw [parse]
  by_cases hnil : lex text = []
  · rw [hnil, ofLexemes_nil]
    exact fun _ hdecl => absurd hdecl List.not_mem_nil
  · have hall : Reading.Of ⟨lex text, (ofLexemes (lex text)).2⟩ ⟨lex text, hnil, (lex_isPartition text).inOrder⟩ :=
      ⟨rfl, lex_names text, (reports_ofLexemes ⟨lex text, hnil, (lex_isPartition text).inOrder⟩).2.2⟩
    obtain ⟨-, hfound⟩ := (forming_rules hall (lex text).length).compilationUnit hall (State.Within.start _)
    exact hfound fun _ hd => List.mem_reverse.mpr hd

end CompilationUnit

end Nomenclator
