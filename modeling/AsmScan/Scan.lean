import AsmScan.Event
import AsmScan.Lexeme.Split
import AsmScan.Scan.State
import AsmScan.Source

/-!
Scanning a source: its lexemes are fed to the state one by one, and the end of
the text ends the last statement.
-/

namespace AsmScan

/-- What a scan of one source gives. A statement with an open literal is not in
    the table. -/
structure Scan where
  table : Table
  errors : List UnclosedLiteral
  trace : List (UInt32 × Token)
  bytes : Nat
  physicalLines : UInt32
  deriving DecidableEq

def Scan.finalState (source : String) (cs : List Char) : Scan.State :=
  ((lexemes cs).foldl (Scan.State.feed source) {}).close

def Source.scan (s : Source) : Scan :=
  let state := Scan.finalState s.name s.text.toList
  { table := { source := s.name, lines := state.lines.toList }
    errors := state.errors.toList
    trace := state.trace.toList
    bytes := state.position
    physicalLines := state.physicalLine }

namespace Scan

def hasErrors (s : Scan) : Bool := !s.errors.isEmpty

def openingEvents (s : Scan) : List Event :=
  s.trace.map (fun (line, token) => .token line token) ++
    s.errors.map fun e => .unclosed e.source e.line

def closingEvent (s : Scan) : Event :=
  .scanned s.table.source s.bytes s.physicalLines s.table.length s.table.tokenCount s.errors.length

def events (s : Scan) : List Event := s.openingEvents ++ [s.closingEvent]

end Scan

/-- Scans the sources in order. Each step has the scan and all errors up to it. -/
def scanAll (errors : List UnclosedLiteral) : List Source → List (Scan × List UnclosedLiteral)
  | [] => []
  | source :: rest =>
    let scan := source.scan
    let errors := errors ++ scan.errors
    (scan, errors) :: scanAll errors rest

end AsmScan
