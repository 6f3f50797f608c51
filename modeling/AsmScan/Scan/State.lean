import AsmScan.Fault
import AsmScan.Lexeme
import AsmScan.Table

/-!
The state of a scan between two lexemes, and what each lexeme does to it.
Two line counters run: the physical line moves with every line break, the start
line follows it only where a statement ends.
-/

namespace AsmScan.Scan

structure State where
  position : Nat := 0
  startLine : UInt32 := 1
  physicalLine : UInt32 := 1
  pending : Option Statement := none
  lines : Array Statement := #[]
  errors : Array UnclosedLiteral := #[]
  trace : Array (UInt32 × Token) := #[]
  deriving DecidableEq

namespace State

def advance (s : State) (l : Lexeme) : State :=
  { s with
    position := s.position + l.size
    physicalLine := s.physicalLine + UInt32.ofNat l.breaks }

/-- Ends the pending statement, if there is one; the next one starts here. -/
def close (s : State) : State :=
  { s with
    startLine := s.physicalLine
    pending := none
    lines := match s.pending with
      | none => s.lines
      | some statement => s.lines.push statement }

def push (source : String) (s : State) (t : Token) : State :=
  { s with
    pending := match s.pending with
      | none => some { source, startLine := s.startLine, first := t }
      | some statement => some (statement.push t)
    trace := s.trace.push (s.startLine, t) }

def pushChars (source : String) (s : State) (cs : List Char) : State :=
  match Token.ofChars? cs with
  | none => s
  | some t => s.push source t

def abandon (source : String) (s : State) : State :=
  { s with
    pending := none
    errors := s.errors.push { source, line := s.startLine } }

/-- What a lexeme does. A comment ends a statement just as a line break does. -/
def feed (source : String) (s : State) (l : Lexeme) : State :=
  match l with
  | .blank _ => s.advance l
  | .lineBreak | .comment _ => (s.advance l).close
  | .symbol _ | .literal _ _ | .word _ => (s.advance l).pushChars source l.text
  | .openLiteral _ _ => (s.advance l).abandon source

end State

end AsmScan.Scan
