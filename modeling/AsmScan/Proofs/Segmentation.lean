import AsmScan.Proofs.Rows.Scan

/-!
The tokens of a table, read off the one grammatical list of lexemes of its text.
-/

namespace AsmScan

def tokenTexts (piece : List Lexeme) : List String :=
  piece.filterMap fun l => l.token?.map Token.text

/-- The list is cut at line breaks and comments. A piece gives the texts of its tokens,
    but none of them if a literal stays open in it; pieces without tokens are left out. -/
def tokenLists (ls : List Lexeme) : List (List String) :=
  (((ls.splitOnP Lexeme.isSeparator).filter fun piece => !piece.any Lexeme.isOpen).map
    tokenTexts).filter fun ts => !ts.isEmpty

theorem splitOnP_isSeparator (before : List Char) (ls : List Lexeme) :
    ls.splitOnP Lexeme.isSeparator = (rows (place before ls)).map (List.map Placed.lexeme) := by
  rw [rows, ← splitOnP_map, map_lexeme_place]

namespace Row

theorem tokenTexts_lexemes (row : Row) :
    tokenTexts (row.map Placed.lexeme) = (marks row).map fun m => m.token.text := by
  rw [tokenTexts, ← List.map_filterMap, ← map_token_marks, List.map_map]
  rfl

theorem texts_statement? (source : String) {row : Row} (h : isOpen row = false) :
    (statement? source row).map (fun st => st.tokens.map Token.text) =
      match tokenTexts (row.map Placed.lexeme) with
      | [] => none
      | ts => some ts := by
  rw [statement?, h, tokenTexts_lexemes]
  cases marks row with
  | nil => rfl
  | cons m ms => simp [Statement.tokens]

end Row

theorem texts_of_rows (source : String) (rs : List Row) :
    (rs.filterMap (Row.statement? source)).map (fun st => st.tokens.map Token.text) =
      (((rs.map (List.map Placed.lexeme)).filter fun piece => !piece.any Lexeme.isOpen).map
        tokenTexts).filter fun ts => !ts.isEmpty := by
  induction rs with
  | nil => rfl
  | cons row rs ih =>
    have same : (row.map Placed.lexeme).any Lexeme.isOpen = Row.isOpen row := List.any_map
    cases ho : Row.isOpen row with
    | true =>
      rw [List.filterMap_cons_none (Row.statement?_of_isOpen ho), ih]
      simp [same, ho]
    | false =>
      have texts := Row.texts_statement? source ho
      cases ht : tokenTexts (row.map Placed.lexeme) with
      | nil =>
        rw [ht] at texts
        have silent : Row.statement? source row = none := Option.map_eq_none_iff.mp texts
        rw [List.filterMap_cons_none silent, ih]
        simp [same, ho, ht]
      | cons t ts =>
        rw [ht] at texts
        obtain ⟨st, hst, heq⟩ := Option.map_eq_some_iff.mp texts
        rw [List.filterMap_cons_some hst, List.map_cons, ih, heq]
        simp [same, ho, ht]

theorem texts_scan (s : Source) :
    s.scan.table.lines.map (fun st => st.tokens.map Token.text) = tokenLists s.lexemes := by
  rw [Source.scan_eq, tokenLists, splitOnP_isSeparator []]
  exact texts_of_rows s.name (rows (place [] s.lexemes))

/-- Every text is cut into lexemes in exactly one way, and the tokens of its table are
    those of the pieces. An error is reported exactly when a literal stays open. -/
theorem existsUnique_segments (s : Source) :
    (∃! ls, Segments s.text ls) ∧
      ∀ ls, Segments s.text ls →
        s.scan.table.lines.map (fun st => st.tokens.map Token.text) = tokenLists ls ∧
        (s.scan.errors = [] ↔ ∀ l ∈ ls, l.isOpen = false) := by
  constructor
  · refine ⟨lexemes s.text.toList, segments_iff.mpr rfl, ?_⟩
    intro ls segments
    exact segments_iff.mp segments
  · intro ls segments
    obtain rfl := segments_iff.mp segments
    exact ⟨texts_scan s, s.errors_eq_nil_iff⟩

end AsmScan
