/-
What reading a file answers: its text, or the reason why there is none.
-/

namespace Nomenclator

/-- Why a file cannot be read as text. -/
inductive ReadError
  | notFound
  | notADirectory
  | isADirectory
  | nameTooLong
  | notText
  | other (reason : String)
deriving DecidableEq

def ReadError.message : ReadError → String
  | notFound => "No such file or directory (os error 2)"
  | notADirectory => "Not a directory (os error 20)"
  | isADirectory => "Is a directory (os error 21)"
  | nameTooLong => "File name too long (os error 36)"
  | notText => "stream did not contain valid UTF-8"
  | other reason => reason

/-- The text that the bytes of a file spell. -/
def Text.ofBytes (bytes : ByteArray) : Except ReadError String :=
  match String.fromUTF8? bytes with
  | some text => .ok text
  | none => .error .notText

/-- What reading the file at a path answers. -/
abbrev Reader := String → Except ReadError String

end Nomenclator
