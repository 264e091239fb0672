/-
What the program is asked to do, as its arguments say it.

The first argument is a word that begins a command. The others are taken
from left to right, and the first that settles the matter does: a flag, or
an operand that has no place. After `--` there are operands only.
-/

namespace Nomenclator

inductive Command
  /-- List the declarations of the files with their names. -/
  | names (paths : List String)
  /-- List the declarations of the files that have a name. -/
  | find (name : String) (paths : List String)
  /-- Take names apart. -/
  | check (names : List String)
  /-- Draw how the declarations of a file nest. -/
  | dot (path : String)
deriving DecidableEq

/-! ## Usage -/

/-- What arguments come to when they are no command. -/
inductive Usage
  | help
  | version
  | refused
deriving DecidableEq

namespace Usage

def text : Usage → String
  | help | refused =>
    "Qualified names of declarations.\n\n" ++
    "  names PATH...      print the qualified name of every declaration\n" ++
    "  find NAME PATH...  print where a qualified name is declared\n" ++
    "  check NAME...      check whether qualified names are well-formed\n" ++
    "  dot PATH           print a Graphviz graph of how declarations nest\n"
  | version => "nomenclator 0.1.0\n"

def exitCode : Usage → Nat
  | help | version => 0
  | refused => 2

/-- What a flag asks for. Behind a single hyphen the first letter decides. -/
def ofFlag (flag : String) : Usage :=
  if flag = "--help" then help
  else if flag = "--version" then version
  else match flag.toList with
    | '-' :: 'h' :: _ => help
    | '-' :: 'V' :: _ => version
    | _ => refused

end Usage

/-! ## Arguments -/

/-- An argument behind the first word. -/
inductive Argument
  | operand (text : String)
  | flag (usage : Usage)
deriving DecidableEq

namespace Argument

/-- A hyphen alone is an operand. -/
def isFlag (argument : String) : Bool :=
  match argument.toList with
  | '-' :: _ :: _ => true
  | _ => false

def ofList : List String → List Argument
  | [] => []
  | argument :: rest =>
    if argument = "--" then rest.map operand
    else if isFlag argument then flag (.ofFlag argument) :: ofList rest
    else operand argument :: ofList rest

/-- The operands, if there is no flag among them and each is admitted to its position. -/
def operands (admits : Nat → String → Bool) (position : Nat) :
    List Argument → Except Usage (List String)
  | [] => .ok []
  | flag usage :: _ => .error usage
  | operand text :: rest =>
    if admits position text then do
      return text :: (← operands admits (position + 1) rest)
    else .error .refused

theorem operands_eq_ok_iff {admits : Nat → String → Bool} {position : Nat}
    {arguments : List Argument} {texts : List String} :
    operands admits position arguments = .ok texts ↔
      arguments = texts.map operand ∧
        ∀ i (h : i < texts.length), admits (position + i) texts[i] := by
  induction arguments generalizing position texts with
  | nil => cases texts <;> simp [operands]
  | cons argument rest ih =>
    cases argument with
    | flag usage => cases texts <;> simp [operands]
    | operand text =>
      cases texts with
      | nil =>
        by_cases ha : admits position text
        · cases hr : operands admits (position + 1) rest <;>
            simp [operands, ha, hr, bind, Except.bind, pure, Except.pure]
        · simp [operands, ha]
      | cons first others =>
        have step : operands admits position (.operand text :: rest) = .ok (first :: others) ↔
            admits position text ∧ text = first ∧
              operands admits (position + 1) rest = .ok others := by
          by_cases ha : admits position text
          · cases hr : operands admits (position + 1) rest <;>
              simp [operands, ha, hr, bind, Except.bind, pure, Except.pure]
          · simp [operands, ha]
        rw [step, ih]
        constructor
        · rintro ⟨ha, rfl, rfl, hs⟩
          refine ⟨rfl, fun i hi => ?_⟩
          cases i with
          | zero => exact ha
          | succ i =>
            have := hs i (by simpa using hi)
            rwa [Nat.add_assoc, Nat.add_comm 1 i] at this
        · rintro ⟨he, hs⟩
          simp only [List.map_cons, List.cons.injEq, operand.injEq] at he
          obtain ⟨rfl, rfl⟩ := he
          refine ⟨hs 0 (by simp), rfl, rfl, fun i hi => ?_⟩
          rw [Nat.add_assoc, Nat.add_comm 1 i]
          exact hs (i + 1) (by simpa using hi)

end Argument

/-! ## Commands -/

/-- What begins a command. -/
inductive Verb
  | names
  | find
  | check
  | dot
  | help
deriving DecidableEq

def Verb.ofWord? (word : String) : Option Verb :=
  if word = "names" ∨ word = "n" then some names
  else if word = "find" ∨ word = "f" then some find
  else if word = "check" ∨ word = "c" then some check
  else if word = "dot" then some dot
  else if word = "help" then some help
  else none

namespace Command

/-- An empty path is no path. -/
def isPath (text : String) : Bool := !text.isEmpty

def ofNames (arguments : List Argument) : Except Usage Command := do
  match ← Argument.operands (fun _ => isPath) 0 arguments with
  | [] => .error .refused
  | paths => return names paths

def ofFind (arguments : List Argument) : Except Usage Command := do
  match ← Argument.operands (fun position text => position = 0 || isPath text) 0 arguments with
  | name :: path :: paths => return find name (path :: paths)
  | _ => .error .refused

def ofCheck (arguments : List Argument) : Except Usage Command := do
  match ← Argument.operands (fun _ _ => true) 0 arguments with
  | [] => .error .refused
  | texts => return check texts

def ofDot (arguments : List Argument) : Except Usage Command := do
  match ← Argument.operands (fun position text => position = 0 && isPath text) 0 arguments with
  | [path] => return dot path
  | _ => .error .refused

/-- Help is about one command at most, and takes no flags. -/
def helpOn : List String → Usage
  | [] => .help
  | [word] => if (Verb.ofWord? word).isSome then .help else .refused
  | _ => .refused

def ofArguments : List String → Except Usage Command
  | [] => .error .refused
  | word :: rest =>
    match Verb.ofWord? word with
    | some .names => ofNames (Argument.ofList rest)
    | some .find => ofFind (Argument.ofList rest)
    | some .check => ofCheck (Argument.ofList rest)
    | some .dot => ofDot (Argument.ofList rest)
    | some .help => .error (helpOn rest)
    | none => .error (.ofFlag word)

end Command

end Nomenclator
