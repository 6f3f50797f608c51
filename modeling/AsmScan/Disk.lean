import AsmScan.Path

/-!
A disk tells what reading a path gives.
-/

namespace AsmScan

inductive Entry where
  | absent
  | unreadable (reason : String)
  | file (content : Text.Bytes)
  deriving DecidableEq

/-- A directory exists but has no content to read. -/
def Entry.directory : Entry := .unreadable "Is a directory (os error 21)"

abbrev Disk := Path → Entry

end AsmScan
