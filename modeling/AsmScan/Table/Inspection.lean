import AsmScan.Source
import AsmScan.Table
import AsmScan.Text.Quoted

/-!
Short forms of sources, statements and tables for inspection, with every token
quoted.
-/

namespace AsmScan

def bracketed (items : List String) : String := "[" ++ ", ".intercalate items ++ "]"

def Source.inspect (s : Source) : String := s!"{s.name} ({s.size} bytes)"

def Statement.inspect (s : Statement) : String :=
  s!"{s.source}:{s.startLine} " ++ bracketed (s.tokens.map fun t => Text.quoted t.text)

def Table.inspect (t : Table) : String := bracketed (t.lines.map Statement.inspect)

def indented (s : String) : String :=
  "    " ++ String.ofList (s.toList.flatMap fun c => if c = '\n' then "\n    ".toList else [c])

def Table.inspectLines (t : Table) : String :=
  if t.isEmpty then "[]"
  else "[\n" ++ String.join (t.lines.map fun s => indented s.inspect ++ ",\n") ++ "]"

end AsmScan
