import SungScore.CommandLine.Run

set_option autoImplicit false

/-!
# The program

The command line over the files of the machine. It connects the streams and the files with
`CommandLine.run`, which decides everything.
-/

namespace SungScore.CommandLine

/-- The reason of a failed operation of the machine. -/
def reasonOf (e : IO.Error) : Text :=
  match e with
  | .noFileOrDirectory .. => FileFault.missing.reason
  | .inappropriateType _ 21 _ => FileFault.isDirectory.reason
  | .inappropriateType .. => FileFault.notDirectory.reason
  | .invalidArgument _ 36 _ => FileFault.nameTooLong.reason
  | e => (toString e).toList

/-- An operation of the machine with the reason of its failure. -/
def attempt {α : Type} (act : IO α) : IO (Except Text α) := do
  match ← act.toBaseIO with
  | .ok a => return .ok a
  | .error e => return .error (reasonOf e)

/-- The rest of a stream, behind a text. -/
partial def restOf (stream : IO.FS.Stream) (before : String) : IO String := do
  let line ← stream.getLine
  if line.isEmpty then return before else restOf stream (before ++ line)

/-- The access to the files and the standard input of the machine. -/
def machine : Access IO where
  read name := attempt (do return (← IO.FS.readFile (String.ofList name)).toList)
  write name content := attempt (IO.FS.writeFile (String.ofList name) (String.ofList content))
  input := attempt (do return (← restOf (← IO.getStdin) "").toList)

end SungScore.CommandLine

/-- Runs the command. -/
def main (args : List String) : IO UInt32 := do
  let outcome ← SungScore.CommandLine.run SungScore.CommandLine.machine (args.map String.toList)
  IO.print (String.ofList outcome.output)
  IO.eprint (String.ofList outcome.errors)
  return UInt32.ofNat outcome.exit
