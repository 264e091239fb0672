/-
Declaration trees as they are written down.

The tree of a unit drops what declares nothing, so it does not say how the
unit was written. Here is a syntax that does, and each of its trees is
written in one way: as its tokens. What else stands in code, punctuation,
literals, operators and calls, appears as marks and groups between the
items that declare something.

The numbers and places of the nodes are not in the syntax. A tree that was
read is compared with the written one when it is stripped of both.
-/
import Nomenclator.Declaration.Basic
import Nomenclator.Grammar.Type

namespace Nomenclator

/-! ## Trees without numbers and places -/

def nowhere : Span := ⟨0, 0⟩

mutual

def TypeDecl.bare : TypeDecl → TypeDecl
  | .mk _ kind name members _ => .mk 0 kind name (Member.bareAll members) nowhere

def Member.bare : Member → Member
  | .type decl _ => .type decl.bare nowhere
  | .field isStatic code _ => .field isStatic (CodeItem.bareAll code) nowhere
  | .operation kind _ name parameters none _ => .operation kind 0 name parameters none nowhere
  | .operation kind _ name parameters (some code) _ =>
    .operation kind 0 name parameters (some (CodeItem.bareAll code)) nowhere
  | .initializer isStatic code _ => .initializer isStatic (CodeItem.bareAll code) nowhere
  | .constant _ name arguments none _ => .constant 0 name (CodeItem.bareAll arguments) none nowhere
  | .constant _ name arguments (some members) _ =>
    .constant 0 name (CodeItem.bareAll arguments) (some (Member.bareAll members)) nowhere

def Member.bareAll : List Member → List Member
  | [] => []
  | m :: ms => m.bare :: Member.bareAll ms

def CodeItem.bare : CodeItem → CodeItem
  | .localType decl => .localType decl.bare
  | .allocation _ type arguments none _ =>
    .allocation 0 type (CodeItem.bareAll arguments) none nowhere
  | .allocation _ type arguments (some members) _ =>
    .allocation 0 type (CodeItem.bareAll arguments) (some (Member.bareAll members)) nowhere
  | .lambda _ body _ => .lambda 0 (CodeItem.bareAll body) nowhere

def CodeItem.bareAll : List CodeItem → List CodeItem
  | [] => []
  | i :: is => i.bare :: CodeItem.bareAll is

end

def CompilationUnit.bare (unit : CompilationUnit) : CompilationUnit :=
  ⟨unit.package, unit.types.map TypeDecl.bare⟩

theorem Member.bareAll_eq_map (members : List Member) : bareAll members = members.map bare := by
  induction members with
  | nil => rfl
  | cons m ms ih => rw [bareAll, ih, List.map_cons]

theorem CodeItem.bareAll_eq_map (code : List CodeItem) : bareAll code = code.map bare := by
  induction code with
  | nil => rfl
  | cons i is ih => rw [bareAll, ih, List.map_cons]

theorem Member.bareAll_append (a b : List Member) : bareAll (a ++ b) = bareAll a ++ bareAll b := by
  rw [bareAll_eq_map, bareAll_eq_map, bareAll_eq_map, List.map_append]

theorem CodeItem.bareAll_append (a b : List CodeItem) : bareAll (a ++ b) = bareAll a ++ bareAll b := by
  rw [bareAll_eq_map, bareAll_eq_map, bareAll_eq_map, List.map_append]

namespace Canonical

/-! ## Syntax -/

/-- The text of a type: names joined by points, then pairs of square brackets. -/
structure TypeName where
  first : String
  others : List String
  dimensions : Nat

structure Parameter where
  type : TypeName
  variadic : Bool
  name : String

/-- What stands before the arrow of a lambda. -/
inductive Head
  | name (name : String)
  | names (names : List String)
  | typed (parameters : List Parameter)

mutual

inductive Decl
  | mk (kind : TypeKind) (name : String) (constants : List Constant) (members : List Member)

inductive Constant
  | mk (name : String) (arguments : List Item) (body : Option (List Member))

inductive Member
  | type (decl : Decl)
  | field (isStatic : Bool) (type : TypeName) (name : String) (value : List Item)
  | method (result : TypeName) (name : String) (parameters : List Parameter)
      (body : Option (List Item))
  /-- The name is that of the type it stands in. -/
  | constructor (parameters : List Parameter) (body : Option (List Item))
  | initializer (isStatic : Bool) (code : List Item)

inductive Item
  | localType (decl : Decl)
  | allocation (type : TypeName) (arguments : List Item) (body : Option (List Member))
  /-- A lambda with a block. -/
  | lambda (head : Head) (body : List Item)
  /-- A lambda with an expression, which goes on to the end of the code or to a mark that ends it. -/
  | expression (head : Head) (body : List Item)
  | group (bracket : Bracket) (code : List Item)
  | mark (token : Token)

end

structure Unit where
  package : List String
  types : List Decl

def Decl.kind : Decl → TypeKind
  | mk kind _ _ _ => kind

/-! ## Tokens -/

def bracketed (bracket : Bracket) (tokens : List Token) : List Token :=
  .opener bracket :: (tokens ++ [.closer bracket])

/-- Parts with commas between them, and what ends them. -/
def listed (stop : Token) : List (List Token) → List Token
  | [] => [stop]
  | [part] => part ++ [stop]
  | part :: next :: parts => part ++ .comma :: listed stop (next :: parts)

def dotted (first : String) (others : List String) : List Token :=
  .identifier first :: others.flatMap fun name => [.dot, .identifier name]

def TypeName.tokens (type : TypeName) : List Token :=
  dotted type.first type.others ++ (List.replicate type.dimensions (bracketed .square [])).flatten

def TypeName.text (type : TypeName) : String :=
  Grammar.typeText (type.first :: type.others) type.dimensions

def Parameter.tokens (p : Parameter) : List Token :=
  p.type.tokens ++ ((if p.variadic then [.ellipsis] else []) ++ [.identifier p.name])

def Parameter.tree (p : Parameter) : Nomenclator.Parameter :=
  ⟨p.type.text ++ (if p.variadic then "..." else ""), p.name⟩

def parameterTokens (parameters : List Parameter) : List Token :=
  .opener .paren :: listed (.closer .paren) (parameters.map Parameter.tokens)

def Head.tokens : Head → List Token
  | name x => [.identifier x]
  | names xs => .opener .paren :: listed (.closer .paren) (xs.map fun x => [.identifier x])
  | typed parameters => parameterTokens parameters

def kindWord : TypeKind → Token
  | .classType => .keyword .classKw
  | .interfaceType | .annotationType => .keyword .interfaceKw
  | .enumType => .keyword .enumKw
  | .recordType => .identifier "record"

/-- What comes before the name of a type. -/
def kindTokens (kind : TypeKind) : List Token :=
  (if kind = .annotationType then [.atSign] else []) ++ [kindWord kind]

/-- What comes after the name of a type: the components of a record, which are none. -/
def componentTokens (kind : TypeKind) : List Token :=
  if kind = .recordType then parameterTokens [] else []

def staticTokens (isStatic : Bool) : List Token := if isStatic then [.keyword .staticKw] else []

/-- Only an enum has constants. They are ended even where there are none. -/
def constantTokens (kind : TypeKind) (constants : List (List Token)) : List Token :=
  if kind = .enumType then listed .semicolon constants else []

mutual

def Decl.tokens : Decl → List Token
  | .mk kind name constants members =>
    kindTokens kind ++ .identifier name :: (componentTokens kind ++
      bracketed .brace (constantTokens kind (Constant.tokensOf constants) ++ Member.tokensOf name members))

def Constant.tokens : Constant → List Token
  | .mk name arguments none => .identifier name :: bracketed .paren (Item.tokensOf arguments)
  | .mk name arguments (some members) =>
    .identifier name :: (bracketed .paren (Item.tokensOf arguments) ++
      bracketed .brace (Member.tokensOf "" members))

def Constant.tokensOf : List Constant → List (List Token)
  | [] => []
  | c :: cs => c.tokens :: Constant.tokensOf cs

/-- A member of a type with the given name. The name is empty in the body of an allocation or a
constant. -/
def Member.tokens (owner : String) : Member → List Token
  | .type decl => decl.tokens
  | .field isStatic type name value =>
    staticTokens isStatic ++
      (type.tokens ++ .identifier name :: .equal :: (Item.tokensOf value ++ [.semicolon]))
  | .method result name parameters none =>
    result.tokens ++ .identifier name :: (parameterTokens parameters ++ [.semicolon])
  | .method result name parameters (some code) =>
    result.tokens ++ .identifier name :: (parameterTokens parameters ++
      bracketed .brace (Item.tokensOf code))
  | .constructor parameters none => .identifier owner :: (parameterTokens parameters ++ [.semicolon])
  | .constructor parameters (some code) =>
    .identifier owner :: (parameterTokens parameters ++ bracketed .brace (Item.tokensOf code))
  | .initializer isStatic code => staticTokens isStatic ++ bracketed .brace (Item.tokensOf code)

def Member.tokensOf (owner : String) : List Member → List Token
  | [] => []
  | m :: ms => m.tokens owner ++ Member.tokensOf owner ms

def Item.tokens : Item → List Token
  | .localType decl => decl.tokens
  | .allocation type arguments none =>
    .keyword .newKw :: (type.tokens ++ bracketed .paren (Item.tokensOf arguments))
  | .allocation type arguments (some members) =>
    .keyword .newKw :: (type.tokens ++ (bracketed .paren (Item.tokensOf arguments) ++
      bracketed .brace (Member.tokensOf "" members)))
  | .lambda head body => head.tokens ++ .arrow :: bracketed .brace (Item.tokensOf body)
  | .expression head body => head.tokens ++ .arrow :: Item.tokensOf body
  | .group bracket code => bracketed bracket (Item.tokensOf code)
  | .mark token => [token]

def Item.tokensOf : List Item → List Token
  | [] => []
  | i :: is => i.tokens ++ Item.tokensOf is

end

def packageTokens : List String → List Token
  | [] => []
  | first :: others => .keyword .packageKw :: (dotted first others ++ [.semicolon])

def Unit.tokens (unit : Unit) : List Token :=
  packageTokens unit.package ++ unit.types.flatMap Decl.tokens

/-! ## The trees that are written -/

mutual

def Decl.tree : Decl → TypeDecl
  | .mk kind name constants members =>
    .mk 0 kind name (Constant.trees constants ++ Member.trees name members) nowhere

def Constant.tree : Constant → Nomenclator.Member
  | .mk name arguments none => .constant 0 name (Item.trees arguments) none nowhere
  | .mk name arguments (some members) =>
    .constant 0 name (Item.trees arguments) (some (Member.trees "" members)) nowhere

def Constant.trees : List Constant → List Nomenclator.Member
  | [] => []
  | c :: cs => c.tree :: Constant.trees cs

def Member.tree (owner : String) : Member → Nomenclator.Member
  | .type decl => .type decl.tree nowhere
  | .field isStatic _ _ value => .field isStatic (Item.trees value) nowhere
  | .method _ name parameters none =>
    .operation .method 0 name (parameters.map Parameter.tree) none nowhere
  | .method _ name parameters (some code) =>
    .operation .method 0 name (parameters.map Parameter.tree) (some (Item.trees code)) nowhere
  | .constructor parameters none =>
    .operation .constructor 0 owner (parameters.map Parameter.tree) none nowhere
  | .constructor parameters (some code) =>
    .operation .constructor 0 owner (parameters.map Parameter.tree) (some (Item.trees code)) nowhere
  | .initializer isStatic code => .initializer isStatic (Item.trees code) nowhere

def Member.trees (owner : String) : List Member → List Nomenclator.Member
  | [] => []
  | m :: ms => m.tree owner :: Member.trees owner ms

/-- A group is no node: what it holds stands in the code around it. -/
def Item.tree : Item → List CodeItem
  | .localType decl => [.localType decl.tree]
  | .allocation type arguments none => [.allocation 0 type.text (Item.trees arguments) none nowhere]
  | .allocation type arguments (some members) =>
    [.allocation 0 type.text (Item.trees arguments) (some (Member.trees "" members)) nowhere]
  | .lambda _ body | .expression _ body => [.lambda 0 (Item.trees body) nowhere]
  | .group _ code => Item.trees code
  | .mark _ => []

def Item.trees : List Item → List CodeItem
  | [] => []
  | i :: is => i.tree ++ Item.trees is

end

def Unit.tree (unit : Unit) : CompilationUnit := ⟨unit.package, unit.types.map Decl.tree⟩

/-! ## Well-formed syntax -/

/-- Where code stands, as far as that limits the marks in it. -/
inductive Setting
  | bracketed
  /-- The value of a field, which ends with a semicolon. -/
  | value
  /-- The body of a lambda, which ends with a comma too. -/
  | expression

/-- The mark declares nothing, and ends nothing in this setting. -/
def Setting.Admits (setting : Setting) : Token → Prop
  | .semicolon => setting = .bracketed
  | .comma => setting ≠ .expression
  | .identifier name => name ≠ "record"
  | .number | .string | .character | .operator | .equal | .question | .colon | .less | .greater => True
  | _ => False

/-- What may come next in the same code. A brace after an allocation would begin its body, and an
expression is not over before a mark ends it. -/
def Item.MayPrecede : Item → Option Token → Prop
  | .allocation _ _ none, next => next ≠ some (.opener .brace)
  | .expression _ _, next => next = none ∨ next = some .semicolon ∨ next = some .comma
  | _, _ => True

/-- A single name without dimensions. -/
def TypeName.IsWord (type : TypeName) (word : String) : Prop :=
  type.first = word ∧ type.others = [] ∧ type.dimensions = 0

mutual

def Decl.WellFormed : Decl → Prop
  | .mk kind name constants members =>
    '$' ∉ name.toList ∧ (kind = .enumType ∨ constants = []) ∧ Constant.AllWellFormed constants ∧
      Member.AllWellFormed name members

def Constant.WellFormed : Constant → Prop
  | .mk _ arguments none => Item.AllWellFormed .bracketed arguments
  | .mk _ arguments (some members) =>
    Item.AllWellFormed .bracketed arguments ∧ Member.AllWellFormed "" members

def Constant.AllWellFormed : List Constant → Prop
  | [] => True
  | c :: cs => c.WellFormed ∧ Constant.AllWellFormed cs

/-- A constructor stands directly in a type declaration. The word `record` before a name and a
parenthesis begins a type declaration, so no method has a result of that name. -/
def Member.WellFormed (owner : String) : Member → Prop
  | .type decl => decl.WellFormed
  | .field _ _ _ value => Item.AllWellFormed .value value
  | .method result name _ none => '$' ∉ name.toList ∧ ¬ result.IsWord "record"
  | .method result name _ (some code) =>
    '$' ∉ name.toList ∧ ¬ result.IsWord "record" ∧ Item.AllWellFormed .bracketed code
  | .constructor _ none => owner ≠ ""
  | .constructor _ (some code) => owner ≠ "" ∧ Item.AllWellFormed .bracketed code
  | .initializer _ code => Item.AllWellFormed .bracketed code

def Member.AllWellFormed (owner : String) : List Member → Prop
  | [] => True
  | m :: ms => m.WellFormed owner ∧ Member.AllWellFormed owner ms

def Item.WellFormed (setting : Setting) : Item → Prop
  | .localType decl => decl.WellFormed ∧ decl.kind ≠ .annotationType
  | .allocation _ arguments none => Item.AllWellFormed .bracketed arguments
  | .allocation _ arguments (some members) =>
    Item.AllWellFormed .bracketed arguments ∧ Member.AllWellFormed "" members
  | .lambda _ body => Item.AllWellFormed .bracketed body
  | .expression _ body =>
    Item.AllWellFormed .expression body ∧ (Item.tokensOf body).head? ≠ some (.opener .brace)
  | .group _ code => Item.AllWellFormed .bracketed code
  | .mark token => setting.Admits token

def Item.AllWellFormed (setting : Setting) : List Item → Prop
  | [] => True
  | i :: is =>
    i.WellFormed setting ∧ i.MayPrecede (Item.tokensOf is).head? ∧ Item.AllWellFormed setting is

end

def Unit.WellFormed (unit : Unit) : Prop := ∀ decl ∈ unit.types, decl.WellFormed

end Canonical

end Nomenclator
