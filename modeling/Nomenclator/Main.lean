/-
The program: reads the files a command names, prints its lines to standard
output and its reports to standard error.
-/
import Nomenclator.Command.Run

namespace Nomenclator

/-- Why the system did not read a file. Opening gives the number of an error negated. -/
def ReadError.ofSystem (error : IO.Error) : ReadError :=
  match error with
  | .noFileOrDirectory .. => .notFound
  | .inappropriateType _ 21 _ => .isADirectory
  | .inappropriateType .. => .notADirectory
  | .invalidArgument _ code _ => if code = -36 then .nameTooLong else .other (toString error)
  | _ => .other (toString error)

def readText (path : String) : IO (Except ReadError String) := do
  try
    return Text.ofBytes (← IO.FS.readBinFile path)
  catch error => return .error (.ofSystem error)

/-- The files that a command reads. -/
def Command.files : Command → List String
  | .names paths | .find _ paths => paths
  | .check _ => []
  | .dot path => [path]

/-- Prints what the command answers. -/
def Command.execute (command : Command) : IO UInt32 := do
  let texts ← command.files.mapM fun path => do return (path, ← readText path)
  let outcome := command.run fun path => (texts.lookup path).getD (.error .notFound)
  IO.print outcome.output
  for report in outcome.reports do
    IO.eprintln report.headline
    IO.eprintln ("  --> " ++ report.place)
  if let some failure := outcome.failure then
    IO.eprintln ("Error: " ++ failure.message)
  return outcome.exitCode.toUInt32

end Nomenclator

open Nomenclator

def main (arguments : List String) : IO UInt32 := do
  match Command.ofArguments arguments with
  | .ok command => command.execute
  | .error usage =>
    if usage.exitCode = 0 then IO.print usage.text else IO.eprint usage.text
    return usage.exitCode.toUInt32
