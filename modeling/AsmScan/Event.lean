import AsmScan.Table

/-!
The trace of a run: what happened, in order.
-/

namespace AsmScan

inductive Event where
  | token (line : UInt32) (token : Token)
  | unclosed (source : String) (line : UInt32)
  | scanned (source : String) (bytes : Nat) (physicalLines : UInt32) (lines tokens errors : Nat)
  | loaded (file : String) (bytes : Nat)
  | recorded (error : String)
  | tokenised (sources tables lines : Nat)
  deriving DecidableEq

namespace Event

def level : Event → String
  | token .. => "TRACE"
  | _ => "DEBUG"

def message : Event → String
  | token .. => "token"
  | unclosed .. => "unterminated quoted string"
  | scanned .. => "scanned source unit"
  | loaded .. => "loaded input file"
  | recorded .. => "error recorded"
  | tokenised .. => "tokenised inputs"

end Event

end AsmScan
