/-!
A source: a text and the name under which it is reported.
-/

namespace AsmScan

structure Source where
  name : String
  text : String
  deriving DecidableEq

def Source.size (s : Source) : Nat := s.text.utf8ByteSize

def Source.isEmpty (s : Source) : Bool := s.size == 0

end AsmScan
