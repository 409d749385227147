import Circuitry.Cli.Run

/-!
# The command line

Reads and writes real files around the invocations of the command line.
-/

namespace Circuitry.Cli

/-- A failure with the given code of the system, which may come with its sign turned, and text. -/
def fileErrorOfCode (code : UInt32) (text : String) : FileError :=
  let number := min code.toNat (-code).toNat
  (FileError.ofCode? number).getD (.other s!"{text} (os error {number})")

def fileErrorOf : IO.Error → FileError
  | .noFileOrDirectory _ code text | .inappropriateType _ code text
  | .invalidArgument _ code text | .permissionDenied _ code text
  | .resourceExhausted _ code text | .noSuchThing _ code text | .alreadyExists _ code text
  | .otherError code text | .resourceBusy code text | .hardwareFault code text
  | .unsupportedOperation code text | .unsatisfiedConstraints code text =>
    fileErrorOfCode code text
  | error => .other (toString error)

def realFiles : FileSystem IO where
  read name := do
    try return .ok (← IO.FS.readFile name)
    catch error => return .error (fileErrorOf error)
  write name text := do
    try
      IO.FS.writeFile name text
      return .ok ()
    catch error => return .error (fileErrorOf error)

end Circuitry.Cli

def main (arguments : List String) : IO UInt32 := do
  let outcome ← Circuitry.Cli.run Circuitry.Cli.realFiles arguments
  IO.print outcome.stdout
  IO.eprint outcome.report
  return outcome.code.toUInt32
