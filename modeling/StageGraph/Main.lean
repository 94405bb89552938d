import StageGraph.CommandLine

set_option autoImplicit false

/-! # The program

Connects the command line with the files, the standard output and the standard error of the
system.
-/

namespace StageGraph.CommandLine

/-- The number of an error code, which may be given negated. -/
def errorNumber (code : UInt32) : Nat := min code.toNat (-code).toNat

/-- The problem behind an error of the system. -/
def FileProblem.ofError (e : IO.Error) : FileProblem :=
  match e with
  | .noFileOrDirectory .. => .notFound
  | .inappropriateType _ code _ | .invalidArgument _ code _ | .permissionDenied _ code _ =>
    (ofNumber? (errorNumber code)).getD (.other (toString e))
  | _ => .other (toString e)

/-- Reads a file as UTF-8. -/
def readTextFile (path : String) : IO (Except FileProblem String) := do
  try
    let bytes ← IO.FS.readBinFile path
    match String.fromUTF8? bytes with
    | some content => return .ok content
    | none => return .error .notUtf8
  catch e =>
    return .error (.ofError e)

end StageGraph.CommandLine

open StageGraph.CommandLine

/-- Runs the program and answers with its exit code. -/
def main (args : List String) : IO UInt32 := do
  let outcome ← run readTextFile args
  IO.print (String.ofList outcome.output)
  match outcome.report with
  | some report => IO.eprint report
  | none =>
    if outcome.exitCode = 2 then
      IO.eprint (String.ofList usage)
  return outcome.exitCode
