import AsmScan.CommandLine
import AsmScan.Job

/-!
The program `p16asm` as a function from a disk and a request to its outcome.
-/

namespace AsmScan

structure Outcome where
  status : UInt32
  stdout : String := ""
  stderr : String := ""
  deriving DecidableEq

namespace Program

open CommandLine

def helpText : String :=
  "The p16 assembler\n\n" ++
  "Usage: p16asm [OPTIONS] [INPUTS]...\n\n" ++
  "Arguments:\n" ++
  "  [INPUTS]...  The input files to assemble\n\n" ++
  "Options:\n" ++
  "  -o, --output <OUTPUT>  The output file (the .p16 extension is optional) " ++
  "[default: out.p16]\n" ++
  "  -v, --verbose          Dump the input list and every token table\n" ++
  "  -h, --help             Print help\n" ++
  "  -V, --version          Print version\n"

def versionText : String := "p16asm 0.1.0\n"

def assemble (disk : Disk) (inputs : List Path) (options : Options) : Outcome :=
  match (Job.assemble disk inputs options).run {} with
  | .ok _ desk =>
    { status := 0
      stdout := desk.sink.shown
      stderr := String.join desk.notices ++
        if options.verbose then "Tokenise succeeded\n" else "" }
  | .error fault desk =>
    { status := 1
      stdout := desk.sink.shown
      stderr := String.join desk.notices ++ fault.message ++ "\n" }

def answer (disk : Disk) : Request → Outcome
  | .help => { status := 0, stdout := helpText }
  | .version => { status := 0, stdout := versionText }
  | .invalid fault => { status := 2, stderr := s!"error: {fault.message}\n" }
  | .assemble inputs options => assemble disk inputs options

def run (disk : Disk) (arguments : List String) : Outcome := answer disk (parse arguments)

end Program

end AsmScan
