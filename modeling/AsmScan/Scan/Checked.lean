import AsmScan.Scan.State

/-!
A scan that checks what the state takes for granted, and that has no result where a check fails.
Its pending statement is in two parts, the line that the first token was met on and the tokens,
which need not agree.
-/

namespace AsmScan.Scan

structure Checked where
  position : Nat := 0
  startLine : UInt32 := 1
  physicalLine : UInt32 := 1
  stamp : Option UInt32 := none
  pending : List Token := []
  lines : Array Statement := #[]
  errors : Array UnclosedLiteral := #[]
  deriving DecidableEq

namespace Checked

/-- There must be a number left for the next line. -/
def newLine (c : Checked) : Option Checked :=
  if c.physicalLine.toNat + 1 < UInt32.size then
    some { c with physicalLine := c.physicalLine + 1 }
  else none

def newLines (c : Checked) : Nat → Option Checked
  | 0 => some c
  | n + 1 => c.newLine.bind fun c => c.newLines n

def read (c : Checked) (l : Lexeme) : Option Checked :=
  { c with position := c.position + l.size : Checked }.newLines l.breaks

def push (c : Checked) (t : Token) : Checked :=
  { c with stamp := some (c.stamp.getD c.startLine), pending := c.pending ++ [t] }

def pushChars (c : Checked) (cs : List Char) : Checked :=
  match Token.ofChars? cs with
  | none => c
  | some t => c.push t

/-- A statement that has a line must have tokens. -/
def endStatement (source : String) (c : Checked) : Option Checked :=
  match c.stamp with
  | none => some c
  | some line => (Statement.ofTokens? source line c.pending).map fun st =>
      { c with stamp := none, pending := [], lines := c.lines.push st }

/-- The start line must not be ahead of the physical line. -/
def syncLines (c : Checked) : Option Checked :=
  if c.startLine ≤ c.physicalLine then some { c with startLine := c.physicalLine } else none

def flush (source : String) (c : Checked) : Option Checked :=
  (c.endStatement source).bind syncLines

def abandon (source : String) (c : Checked) : Checked :=
  { c with stamp := none, pending := [], errors := c.errors.push { source, line := c.startLine } }

def feed (source : String) (c : Checked) (l : Lexeme) : Option Checked :=
  (c.read l).bind fun c =>
    match l with
    | .blank _ => some c
    | .lineBreak | .comment _ => c.flush source
    | .symbol _ | .literal _ _ | .word _ => some (c.pushChars l.text)
    | .openLiteral _ _ => some (c.abandon source)

def run (source : String) (c : Checked) (ls : List Lexeme) : Option Checked :=
  ls.foldlM (feed source) c

end Checked

end AsmScan.Scan
