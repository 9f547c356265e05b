import MixedInteger.CommandLine.Run

/-!
# The program

The command line with the files of the system: the file that a command names is read first, and the
command is then carried out on its contents.
-/

namespace MixedInteger

namespace CommandLine

/-- Reads a file of the system. -/
def readSystemFile (path : String) : IO (Except ReadError ByteArray) := do
  match ← (IO.FS.readBinFile path).toBaseIO with
  | .ok contents => return .ok contents
  | .error (.noFileOrDirectory _ _ _) => return .error .notFound
  | .error (.inappropriateType _ code _) =>
    return .error (if code = 21 then .folder else .notFolder)
  | .error (.permissionDenied _ _ _) => return .error (.other "Permission denied (os error 13)")
  | .error e => return .error (.other (toString e))

/-- Carries out a command line on the files of the system. -/
def runOnSystem (arguments : List String) : IO Output := do
  match parse arguments with
  | .error refusal => return refusal.output
  | .ok command =>
    match command.file? with
    | none => return command.run fun _ ↦ .error .notFound
    | some path =>
      let contents ← readSystemFile path
      return command.run fun _ ↦ contents

end CommandLine

end MixedInteger

open MixedInteger.CommandLine in
/-- The program. -/
def main (arguments : List String) : IO UInt32 := do
  let output ← runOnSystem arguments
  IO.eprint (textOf output.errors)
  IO.print (textOf output.lines)
  return UInt32.ofNat output.exit
