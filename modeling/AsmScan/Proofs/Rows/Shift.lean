import AsmScan.Proofs.Rows.Scan

/-!
More text in front of a text. The rows stay the same, and every line moves by the
number of line breaks in front.
-/

namespace AsmScan

def Statement.shift (k : Nat) (st : Statement) : Statement :=
  { st with startLine := st.startLine + UInt32.ofNat k }

def UnclosedLiteral.shift (k : Nat) (e : UnclosedLiteral) : UnclosedLiteral :=
  { e with line := e.line + UInt32.ofNat k }

def Placed.behind (front : List Char) (p : Placed) : Placed :=
  { p with before := front ++ p.before }

def Mark.behind (front : List Char) (m : Mark) : Mark :=
  { m with before := front ++ m.before }

theorem lineAfter_front (front before : List Char) :
    UInt32.ofNat (lineAfter (front ++ before)) =
      UInt32.ofNat (lineAfter before) + UInt32.ofNat (front.count '\n') := by
  have moved : lineAfter (front ++ before) = lineAfter before + front.count '\n' := by
    simp only [lineAfter, List.count_append]
    omega
  rw [moved, UInt32.ofNat_add]

theorem place_behind (front before : List Char) (ls : List Lexeme) :
    place (front ++ before) ls = (place before ls).map (Placed.behind front) := by
  induction ls generalizing before with
  | nil => rfl
  | cons l ls ih =>
    rw [place, List.append_assoc, ih]
    rfl

theorem rows_behind (front : List Char) (ps : List Placed) :
    rows (ps.map (Placed.behind front)) = (rows ps).map (List.map (Placed.behind front)) :=
  splitOnP_map _ _ ps

namespace Row

theorem marks_behind (front : List Char) (row : Row) :
    marks (row.map (Placed.behind front)) = (marks row).map (Mark.behind front) := by
  rw [marks, marks, List.filterMap_map, List.map_filterMap]
  refine List.filterMap_congr fun p _ => ?_
  cases h : p.lexeme.token? <;> simp [Placed.mark?, Placed.behind, Mark.behind, h]

theorem statement?_behind (source : String) (front : List Char) (row : Row) :
    statement? source (row.map (Placed.behind front)) =
      (statement? source row).map (Statement.shift (front.count '\n')) := by
  have same : isOpen (row.map (Placed.behind front)) = isOpen row := List.any_map
  rw [statement?, statement?, same, marks_behind]
  split
  · rfl
  · cases marks row with
    | nil => rfl
    | cons m ms => simp [Mark.line, Mark.behind, Statement.shift, lineAfter_front]

theorem unclosed?_behind (source : String) (front : List Char) (row : Row) :
    unclosed? source (row.map (Placed.behind front)) =
      (unclosed? source row).map (UnclosedLiteral.shift (front.count '\n')) := by
  have found : (row.map (Placed.behind front)).find? (fun p => p.lexeme.isOpen) =
      (row.find? fun p => p.lexeme.isOpen).map (Placed.behind front) := List.find?_map
  rw [unclosed?, unclosed?, found, marks_behind]
  cases row.find? fun p => p.lexeme.isOpen with
  | none => rfl
  | some p =>
    cases marks row with
    | nil => simp [Placed.behind, UnclosedLiteral.shift, lineAfter_front]
    | cons m ms => simp [Mark.line, Mark.behind, UnclosedLiteral.shift, lineAfter_front]

end Row

theorem rows_place_behind (front : List Char) (ls : List Lexeme) :
    rows (place front ls) = (rows (place [] ls)).map (List.map (Placed.behind front)) := by
  rw [← rows_behind, ← place_behind, List.append_nil]

theorem statements_behind (source : String) (front : List Char) (ls : List Lexeme) :
    statements source front ls =
      (statements source [] ls).map (Statement.shift (front.count '\n')) := by
  rw [statements, rows_place_behind, List.filterMap_map, statements, List.map_filterMap]
  exact List.filterMap_congr fun row _ => Row.statement?_behind source front row

theorem reports_behind (source : String) (front : List Char) (ls : List Lexeme) :
    reports source front ls =
      (reports source [] ls).map (UnclosedLiteral.shift (front.count '\n')) := by
  rw [reports, rows_place_behind, List.filterMap_map, reports, List.map_filterMap]
  exact List.filterMap_congr fun row _ => Row.unclosed?_behind source front row

end AsmScan
