import AsmScan.Text.WhiteSpace

/-!
Tokens, statements and tables. A statement holds the tokens of one logical line
and is never empty; a table holds the statements of one source.
-/

namespace AsmScan

structure Token where
  text : String
  deriving DecidableEq

/-- White space at the ends is no part of a token, and nothing else is no token. -/
def Token.ofChars? (cs : List Char) : Option Token :=
  match Text.trim cs with
  | [] => none
  | trimmed => some ⟨String.ofList trimmed⟩

/-- The tokens of one logical line. `startLine` is the line it begins on, also
    when literals carry it over several physical lines. -/
structure Statement where
  source : String
  startLine : UInt32
  first : Token
  others : Array Token := #[]
  deriving DecidableEq

namespace Statement

def tokens (s : Statement) : List Token := s.first :: s.others.toList

def push (s : Statement) (t : Token) : Statement := { s with others := s.others.push t }

def length (s : Statement) : Nat := s.tokens.length

def ofTokens? (source : String) (line : UInt32) : List Token → Option Statement
  | [] => none
  | t :: ts => some { source, startLine := line, first := t, others := ts.toArray }

theorem tokens_ne_nil (s : Statement) : s.tokens ≠ [] := by simp [tokens]

theorem of_ofTokens? {source : String} {line : UInt32} {ts : List Token} {st : Statement}
    (h : ofTokens? source line ts = some st) :
    st.source = source ∧ st.startLine = line ∧ st.tokens = ts := by
  cases ts with
  | nil => exact absurd h (by simp [ofTokens?])
  | cons t ts =>
    obtain rfl := Option.some.inj h
    exact ⟨rfl, rfl, by simp [tokens]⟩

theorem ofTokens?_append (source : String) (line : UInt32) (ts : List Token) (t : Token) :
    ofTokens? source line (ts ++ [t]) =
      some (match ofTokens? source line ts with
        | none => { source, startLine := line, first := t }
        | some statement => statement.push t) := by
  cases ts with
  | nil => rfl
  | cons u ts => simp [ofTokens?, push]

end Statement

structure Table where
  source : String
  lines : List Statement
  deriving DecidableEq

namespace Table

def length (t : Table) : Nat := t.lines.length

def isEmpty (t : Table) : Bool := t.lines.isEmpty

def tokenCount (t : Table) : Nat := (t.lines.flatMap Statement.tokens).length

end Table

structure Occurrence where
  line : Nat
  index : Nat
  startLine : UInt32
  token : Token
  deriving DecidableEq

def Table.occurrences (t : Table) (text : String) : List Occurrence :=
  t.lines.zipIdx.flatMap fun (statement, line) =>
    statement.tokens.zipIdx.filterMap fun (token, index) =>
      if token.text = text then some ⟨line, index, statement.startLine, token⟩ else none

end AsmScan
