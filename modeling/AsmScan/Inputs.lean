import AsmScan.Disk
import AsmScan.Fault
import AsmScan.Options
import AsmScan.Source

/-!
The input files of a run: reading them from a disk, and listing them.
-/

namespace AsmScan

def Disk.load (disk : Disk) (p : Path) : Except Fault Source :=
  match disk p with
  | .absent => .error (.missingInput p.shown)
  | .unreadable reason => .error (.unreadable p.shown reason)
  | .file content =>
    match Text.decode? content with
    | none => .error (.unreadable p.shown "stream did not contain valid UTF-8")
    | some text => .ok { name := p.shown, text }

/-- What becomes of each path. A name that has been seen is not read again,
    whether it could be read or not. -/
def Disk.loadAll (disk : Disk) (seen : List String) : List Path → List (Except Fault Source)
  | [] => []
  | p :: rest =>
    (if p.shown ∈ seen then .error (.repeatedInput p.shown) else disk.load p) ::
      disk.loadAll (p.shown :: seen) rest

def totalSize (sources : List Source) : Nat := sources.foldr (fun s n => s.size + n) 0

def inputListing (sources : List Source) (options : Options) : String :=
  s!"Dumping a list of {sources.length} input files:\n\n" ++
    String.join (sources.map fun s => s!" File {s.name} ({s.size} bytes)\n") ++
    s!"\nTotal input bytes: {totalSize sources}\n\n" ++
    s!"Writing output file: {options.output.shown}\n"

end AsmScan
