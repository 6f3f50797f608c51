import AsmScan.Program

/-!
The command line tool: reads the files that the request names and prints what
the program answers.
-/

namespace AsmScan

def readEntry (path : Path) : IO Entry := do
  try
    return .file (← IO.FS.readBinFile path.shown).toList
  catch
    | .inappropriateType _ 21 _ => return .directory
    | .permissionDenied _ code details => return .unreadable s!"{details} (os error {code})"
    | _ => return .absent

def requestedInputs : CommandLine.Request → List Path
  | .assemble inputs _ => inputs
  | _ => []

end AsmScan

def main (arguments : List String) : IO UInt32 := do
  let request := AsmScan.CommandLine.parse arguments
  let entries ← (AsmScan.requestedInputs request).mapM fun path =>
    return (path, ← AsmScan.readEntry path)
  let outcome := AsmScan.Program.answer (fun path => (entries.lookup path).getD .absent) request
  IO.print outcome.stdout
  IO.eprint outcome.stderr
  return outcome.status
