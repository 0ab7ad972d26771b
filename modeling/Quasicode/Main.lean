import Quasicode.Command

/-! The program: reads the file that the arguments name, runs the command and prints what it yields. -/
namespace Quasicode

/-- The number of a system error, which some calls report negated. -/
def errorNumber (code : UInt32) : Nat := code.toInt32.toInt.natAbs

/-- Why a file could not be read. -/
def readError : IO.Error → ReadError
  | .noFileOrDirectory _ _ _ => .notFound
  | .permissionDenied _ _ _ => .permissionDenied
  | .inappropriateType _ code _ => if errorNumber code = 20 then .notDirectory else .isDirectory
  | reason => .other (toString reason)

/-- The bytes of a file. -/
def readFile (file : String) : IO (Except ReadError ByteArray) := do
  try
    return .ok (← IO.FS.readBinFile file)
  catch reason =>
    return .error (readError reason)

/-- Prints what a run yields, and gives its status. -/
def printOutput (output : Output) : IO UInt32 := do
  IO.print output.out
  IO.eprint output.err
  return output.status.toUInt32

end Quasicode

open Quasicode

def main (args : List String) : IO UInt32 := do
  match Command.ofArgs args with
  | none => printOutput usage
  | some command =>
    let content ← match command.file? with
      | some file => readFile file
      | none => pure (.error .notFound)
    match command.run content with
    | .ok output => printOutput output
    | .error _ =>
      IO.eprintln "Error: internal fault"
      return 101
