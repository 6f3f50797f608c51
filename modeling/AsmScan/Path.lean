import AsmScan.Text.Utf8

/-!
Paths are byte strings, which need not be text. A slash divides them into
components.
-/

namespace AsmScan

structure Path where
  bytes : Text.Bytes
  deriving DecidableEq

namespace Path

def slash : UInt8 := 0x2F

def dot : UInt8 := 0x2E

def ofString (s : String) : Path := ⟨Text.encode s⟩

/-- The path as a text; bytes that are no text show as U+FFFD. -/
def shown (p : Path) : String := Text.lossy p.bytes

def components (p : Path) : List Text.Bytes := p.bytes.splitOn slash

def ofComponents (parts : List Text.Bytes) : Path := ⟨[slash].intercalate parts⟩

def isAbsolute (p : Path) : Bool := p.bytes.head? == some slash

end Path

end AsmScan
