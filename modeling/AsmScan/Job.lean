import AsmScan.ErrorLog
import AsmScan.Inputs
import AsmScan.Scan
import AsmScan.Sink
import AsmScan.Table.Listing

/-!
The jobs of the assembler: loading the inputs, tokenising them, reporting.
A job may fail with a fault, and what it did before that stays done.
-/

namespace AsmScan

/-- What a job works on: the error log, the output, the notices for the user and
    the trace. -/
structure Desk where
  log : ErrorLog := {}
  sink : Sink := {}
  notices : List String := []
  events : List Event := []
  deriving DecidableEq

abbrev Job := EStateM Fault Desk

namespace Job

def emit (events : List Event) : Job Unit :=
  modify fun desk => { desk with events := desk.events ++ events }

def notify (text : String) : Job Unit :=
  modify fun desk => { desk with notices := desk.notices ++ [text] }

def record (message : String) : Job Unit :=
  modify fun desk =>
    { desk with log := desk.log.record message, events := desk.events ++ [.recorded message] }

def report (error : UnclosedLiteral) : Job Unit := record (Fault.lexical error).message

def check : Job Unit := do
  match (← get).log.check with
  | .ok () => pure ()
  | .error fault => throw fault

/-- Writes a text; fails at the first byte that the output refuses. -/
def write (text : String) : Job Unit := do
  let desk ← get
  let bytes := Text.encode text
  set { desk with sink := desk.sink.write bytes }
  unless desk.sink.fits bytes do throw (.output Sink.refusal)

def scan (source : Source) : Job Table := do
  let scan := source.scan
  emit scan.openingEvents
  scan.errors.forM report
  emit [scan.closingEvent]
  return scan.table

def collect : List (Except Fault Source) → Job (List Source)
  | [] => return []
  | .ok source :: rest => do
    emit [.loaded source.name source.size]
    return source :: (← collect rest)
  | .error fault :: rest => do
    record fault.message
    collect rest

def load (disk : Disk) (paths : List Path) : Job (List Source) := do
  let sources ← collect (disk.loadAll [] paths)
  if sources.isEmpty then record Fault.noInput.message
  return sources

def progress (verbose : Bool) (table : Table) : String :=
  s!"  Tokenised file {table.source} ({table.length} total lines)\n" ++
    if verbose then table.listing else ""

/-- The tables of the sources; one without lines is left out and not mentioned. -/
def tables (verbose : Bool) : List Source → Job (List Table)
  | [] => return []
  | source :: rest => do
    if verbose then notify s!"[driver] Scanning {source.name}...\n"
    let table ← scan source
    if table.isEmpty then tables verbose rest
    else
      write (progress verbose table)
      return table :: (← tables verbose rest)

def tokenise (verbose : Bool) (sources : List Source) : Job (List Table) := do
  write "\n Tokenising input files...\n\n"
  let tables ← tables verbose sources
  let total := (tables.flatMap Table.lines).length
  write s!"\n Generated {total} tokenised lines\n\n"
  emit [.tokenised sources.length tables.length total]
  return tables

/-- A whole run. Nothing is scanned unless every input could be loaded. -/
def assembleAs (verbose : Bool) (disk : Disk) (paths : List Path) (options : Options) :
    Job (List Table) := do
  let sources ← load disk paths
  check
  write (inputListing sources options)
  let tables ← tokenise verbose sources
  check
  return tables

def assemble (disk : Disk) (paths : List Path) (options : Options) : Job (List Table) :=
  assembleAs options.verbose disk paths options

end Job

end AsmScan
