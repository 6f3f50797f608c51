import AsmScan.Table

/-!
The listing of a table: one line for each statement, a tab after each token.
-/

namespace AsmScan

def Statement.listing (s : Statement) : String :=
  s!"    Line {s.startLine} ({s.length} tokens): " ++
    String.join (s.tokens.map fun t => t.text ++ "\t") ++ "\n"

def Table.listing (t : Table) : String :=
  s!"\n   File {t.source} generated {t.length} tokenised lines...\n\n" ++
    String.join (t.lines.map Statement.listing) ++
    s!"\n   {t.tokenCount} tokens in total\n\n"

end AsmScan
