/-!
Character classes. The class of a character decides which lexeme it can begin,
and every class but `plain` ends a word.
-/

namespace AsmScan

/-- What a character can begin: a gap, the end of a line, a symbol, a literal or
    a word. -/
inductive CharClass where
  | blank
  | lineBreak
  | symbol
  | quote
  | plain
  deriving DecidableEq

def symbols : List Char :=
  [',', ';', ':', '[', ']', '\x7b', '\x7d', '(', ')',
    '+', '-', '/', '*', '=', '_', '^', '%', '$']

def quotes : List Char := ['\x22', '\x27', '\x60']

/-- The backslash: in a literal it protects the next character, at the end of a
    comment line it continues the comment. -/
def escape : Char := '\\'

def CharClass.of (c : Char) : CharClass :=
  if c = ' ' ∨ c = '\t' then .blank
  else if c = '\n' then .lineBreak
  else if c ∈ symbols then .symbol
  else if c ∈ quotes then .quote
  else .plain

theorem CharClass.eq_of_lineBreak {c : Char} (h : CharClass.of c = .lineBreak) : c = '\n' := by
  unfold CharClass.of at h
  grind

theorem CharClass.of_eq_blank_iff {c : Char} : CharClass.of c = .blank ↔ c = ' ' ∨ c = '\t' := by
  unfold CharClass.of
  grind

theorem CharClass.of_eq_symbol_iff {c : Char} : CharClass.of c = .symbol ↔ c ∈ symbols := by
  have all : symbols.all (fun c => CharClass.of c == .symbol) = true := rfl
  constructor
  · unfold CharClass.of
    grind
  · intro h
    exact beq_iff_eq.mp (List.all_eq_true.mp all c h)

theorem CharClass.of_eq_quote_iff {c : Char} : CharClass.of c = .quote ↔ c ∈ quotes := by
  have all : quotes.all (fun c => CharClass.of c == .quote) = true := rfl
  constructor
  · unfold CharClass.of
    grind
  · intro h
    exact beq_iff_eq.mp (List.all_eq_true.mp all c h)

def isPlain (c : Char) : Bool := CharClass.of c == .plain

def isTerminator (c : Char) : Bool := !isPlain c

end AsmScan
