/-!
What can go wrong, and the words for it.
-/

namespace AsmScan

/-- A literal that is still open where its source ends. `line` is the line on
    which its statement starts. -/
structure UnclosedLiteral where
  source : String
  line : UInt32
  deriving DecidableEq

def UnclosedLiteral.message (e : UnclosedLiteral) : String :=
  s!"Error in file {e.source} on line {e.line}: Unterminated quoted string"

inductive Fault where
  | output (reason : String)
  | unreadable (path reason : String)
  | lexical (error : UnclosedLiteral)
  | repeatedInput (path : String)
  | missingInput (path : String)
  | noInput
  | combined (report : String)
  deriving DecidableEq

namespace Fault

def message : Fault → String
  | output reason => s!"IO error: {reason}"
  | unreadable path reason => s!"Error: Input file '{path}' could not be read: {reason}"
  | lexical error => error.message
  | repeatedInput path => s!"Error: Input file '{path}' included multiple times"
  | missingInput path => s!"Error: Input file '{path}' could not be found"
  | noInput => "Error: No input files!"
  | combined report => report

def cause? : Fault → Option String
  | output reason => some reason
  | unreadable _ reason => some reason
  | lexical error => some error.message
  | _ => none

end Fault

end AsmScan
