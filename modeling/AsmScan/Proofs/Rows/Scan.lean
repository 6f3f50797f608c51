import AsmScan.Proofs.Rows
import AsmScan.Scan

/-!
A scan reads row after row. Its state in the middle of a row is determined by the
rows before, by the text before the row and by what was read of it.
-/

namespace AsmScan

namespace Scan.State

structure InRow (source : String) (done : List Row) (start : List Char) (piece : List Lexeme)
    (s : State) : Prop where
  position : s.position = (String.ofList (start ++ piece.flatMap Lexeme.text)).utf8ByteSize
  startLine : s.startLine = UInt32.ofNat (lineAfter start)
  physicalLine : s.physicalLine =
    UInt32.ofNat (lineAfter (start ++ piece.flatMap Lexeme.text))
  pending : s.pending = Row.statement? source (place start piece)
  lines : s.lines.toList = done.filterMap (Row.statement? source)
  errors : s.errors.toList =
    done.filterMap (Row.unclosed? source) ++ (Row.unclosed? source (place start piece)).toList
  trace : s.trace.toList = done.flatMap Row.trace ++ Row.trace (place start piece)

variable {source : String} {done : List Row} {start : List Char} {piece : List Lexeme}
variable {s : State} {l : Lexeme}

theorem inRow_initial : InRow source [] [] [] {} where
  position := rfl
  startLine := rfl
  physicalLine := rfl
  pending := rfl
  lines := rfl
  errors := rfl
  trace := rfl

theorem InRow.position_advance (h : InRow source done start piece s) (l : Lexeme) :
    (s.advance l).position =
      (String.ofList (start ++ (piece ++ [l]).flatMap Lexeme.text)).utf8ByteSize := by
  simp only [advance, h.position, Lexeme.size, List.flatMap_append, List.flatMap_singleton,
    ← List.append_assoc, String.ofList_append, String.utf8ByteSize_append]

theorem InRow.physicalLine_advance (h : InRow source done start piece s) (l : Lexeme) :
    (s.advance l).physicalLine =
      UInt32.ofNat (lineAfter (start ++ (piece ++ [l]).flatMap Lexeme.text)) := by
  simp only [advance, h.physicalLine, Lexeme.breaks, List.flatMap_append, List.flatMap_singleton,
    ← List.append_assoc, lineAfter_append _ l.text, UInt32.ofNat_add]

theorem InRow.errors_inline (h : InRow source done start piece s) (hi : Inline piece) :
    s.errors.toList = done.filterMap (Row.unclosed? source) := by
  rw [h.errors, Row.unclosed?_eq_none hi]
  exact List.append_nil _

theorem InRow.gap (h : InRow source done start piece s) (hi : Inline piece) (hl : Inline [l])
    (ht : l.token? = none) : InRow source done start (piece ++ [l]) (s.advance l) := by
  have longer : Inline (piece ++ [l]) := hi.append hl
  constructor
  · exact h.position_advance l
  · exact h.startLine
  · exact h.physicalLine_advance l
  · rw [Row.statement?_eq source longer, Row.marks_append_of_none ht,
      ← Row.statement?_eq source hi]
    exact h.pending
  · exact h.lines
  · rw [Row.unclosed?_eq_none longer, ← h.errors_inline hi]
    exact (List.append_nil _).symm
  · rw [Row.trace_append_of_none ht]
    exact h.trace

theorem InRow.token (h : InRow source done start piece s) (hi : Inline piece) (hl : Inline [l])
    {t : Token} (ht : l.token? = some t) :
    InRow source done start (piece ++ [l]) ((s.advance l).push source t) := by
  have longer : Inline (piece ++ [l]) := hi.append hl
  constructor
  · exact h.position_advance l
  · exact h.startLine
  · exact h.physicalLine_advance l
  · rw [Row.statement?_eq source longer, Row.marks_append_of_some ht, List.map_append,
      List.map_singleton, Statement.ofTokens?_append, ← Row.statement?_eq source hi, ← h.pending,
      ← h.startLine]
    simp only [push, advance]
    cases s.pending <;> rfl
  · exact h.lines
  · rw [Row.unclosed?_eq_none longer, ← h.errors_inline hi]
    exact (List.append_nil _).symm
  · rw [Row.trace_append_of_some hi hl ht, ← List.append_assoc, ← h.trace, ← h.startLine]
    exact Array.toList_push

theorem InRow.lines_close (h : InRow source done start piece s) :
    s.close.lines.toList = (done ++ [place start piece]).filterMap (Row.statement? source) := by
  rw [List.filterMap_append, ← h.lines]
  simp only [close, h.pending]
  cases hp : Row.statement? source (place start piece) with
  | none => simp [hp]
  | some statement => simp [hp]

theorem InRow.errors_close (h : InRow source done start piece s) :
    s.errors.toList = (done ++ [place start piece]).filterMap (Row.unclosed? source) := by
  rw [h.errors, List.filterMap_append]
  cases hu : Row.unclosed? source (place start piece) with
  | none => simp [hu]
  | some error => simp [hu]

theorem InRow.trace_close (h : InRow source done start piece s) :
    s.trace.toList = (done ++ [place start piece]).flatMap Row.trace := by
  rw [h.trace, List.flatMap_append, List.flatMap_singleton]

theorem InRow.separator (h : InRow source done start piece s) (l : Lexeme) :
    InRow source (done ++ [place start piece]) (start ++ piece.flatMap Lexeme.text ++ l.text) []
      (s.advance l).close := by
  have read : start ++ piece.flatMap Lexeme.text ++ l.text =
      start ++ (piece ++ [l]).flatMap Lexeme.text := by simp
  rw [read]
  constructor
  · rw [List.flatMap_nil, List.append_nil]
    exact h.position_advance l
  · exact h.physicalLine_advance l
  · rw [List.flatMap_nil, List.append_nil]
    exact h.physicalLine_advance l
  · rfl
  · exact h.lines_close
  · exact h.errors_close.trans (List.append_nil _).symm
  · exact h.trace_close.trans (List.append_nil _).symm

theorem InRow.abandon (h : InRow source done start piece s) (hi : Inline piece)
    (ho : l.isOpen = true) :
    InRow source done start (piece ++ [l]) ((s.advance l).abandon source) := by
  constructor
  · exact h.position_advance l
  · exact h.startLine
  · exact h.physicalLine_advance l
  · exact (Row.statement?_of_isOpen (Row.isOpen_place_append piece ho)).symm
  · exact h.lines
  · rw [Row.unclosed?_eq source hi ho, ← h.errors_inline hi, ← h.startLine]
    exact Array.toList_push
  · rw [Row.trace_append_of_none (Lexeme.token?_of_isOpen ho)]
    exact h.trace

theorem pushChars_eq (source : String) (s : State) {cs : List Char} {t? : Option Token} :
    Token.ofChars? cs = t? → s.pushChars source cs = match t? with
      | none => s
      | some t => s.push source t := by
  rintro rfl
  rfl

theorem feed_of_inline (source : String) (s : State) (hl : Inline [l]) :
    feed source s l = match l.token? with
      | none => s.advance l
      | some t => (s.advance l).push source t := by
  obtain ⟨formed, hs, ho⟩ := hl l (List.mem_singleton_self l)
  cases l with
  | blank c => rfl
  | symbol c => exact pushChars_eq source _ (Lexeme.ofChars?_symbol formed)
  | literal quote body => exact pushChars_eq source _ (Lexeme.ofChars?_literal formed)
  | word cs => exact pushChars_eq source _ (Lexeme.ofChars?_word cs)
  | lineBreak | comment body => exact absurd hs (by simp [Lexeme.isSeparator])
  | openLiteral quote body => exact absurd ho (by simp [Lexeme.isOpen])

theorem feed_of_isSeparator (source : String) (s : State) (hs : l.isSeparator = true) :
    feed source s l = (s.advance l).close := by
  cases l with
  | lineBreak | comment body => rfl
  | _ => exact absurd hs (by simp [Lexeme.isSeparator])

theorem feed_of_isOpen (source : String) (s : State) (ho : l.isOpen = true) :
    feed source s l = (s.advance l).abandon source := by
  cases l with
  | openLiteral quote body => rfl
  | _ => exact absurd ho (by simp [Lexeme.isOpen])

theorem InRow.feed_inline (h : InRow source done start piece s) (hi : Inline piece)
    (hl : Inline [l]) : InRow source done start (piece ++ [l]) (feed source s l) := by
  rw [feed_of_inline source s hl]
  cases ht : l.token? with
  | none => exact h.gap hi hl ht
  | some t => exact h.token hi hl ht

theorem InRow.feed_separator (h : InRow source done start piece s) (hs : l.isSeparator = true) :
    InRow source (done ++ [place start piece]) (start ++ piece.flatMap Lexeme.text ++ l.text) []
      (feed source s l) := by
  rw [feed_of_isSeparator source s hs]
  exact h.separator l

theorem InRow.feed_open (h : InRow source done start piece s) (hi : Inline piece)
    (ho : l.isOpen = true) : InRow source done start (piece ++ [l]) (feed source s l) := by
  rw [feed_of_isOpen source s ho]
  exact h.abandon hi ho

theorem InRow.run (h : InRow source done start piece s) (hi : Inline piece)
    {ls : List Lexeme} (hg : Grammatical ls) :
    ∃ done' start' piece',
      rows (place start (piece ++ ls)) = done' ++ [place start' piece'] ∧
      start ++ (piece ++ ls).flatMap Lexeme.text = start' ++ piece'.flatMap Lexeme.text ∧
      InRow source (done ++ done') start' piece' (ls.foldl (feed source) s) := by
  -- What is read of the row moves into `piece`, and at a separator the row into `done`.
  induction ls generalizing done start piece s with
  | nil =>
    refine ⟨[], start, piece, ?_, by simp, by simpa using h⟩
    rw [List.append_nil]
    exact rows_inline start hi
  | cons l ls ih =>
    obtain hs | ⟨hs, ho, rfl⟩ | hl := separator_or_open_or_inline hg
    · obtain ⟨done', start', piece', split, read, state⟩ :=
        ih (h.feed_separator hs) inline_nil hg.2.2
      refine ⟨place start piece :: done', start', piece', ?_, by simpa using read, ?_⟩
      · rw [rows_append_cons start piece ls hs, rows_inline start hi]
        exact congrArg (place start piece :: ·) split
      · simpa using state
    · refine ⟨[], start, piece ++ [l], rows_inline_append start hi hs, rfl, ?_⟩
      simpa using h.feed_open hi ho
    · obtain ⟨done', start', piece', split, read, state⟩ :=
        ih (h.feed_inline hi hl) (hi.append hl) hg.2.2
      refine ⟨done', start', piece', ?_, ?_, state⟩
      · simpa using split
      · simpa using read

end Scan.State

def Source.lexemes (s : Source) : List Lexeme := AsmScan.lexemes s.text.toList

/-- What a scan gives, read off the rows. -/
theorem Source.scan_eq (s : Source) :
    s.scan =
      { table := { source := s.name, lines := statements s.name [] s.lexemes }
        errors := reports s.name [] s.lexemes
        trace := (rows (place [] s.lexemes)).flatMap Row.trace
        bytes := s.size
        physicalLines := UInt32.ofNat (lineAfter s.text.toList) } := by
  obtain ⟨done, start, piece, split, read, state⟩ :=
    (@Scan.State.inRow_initial s.name).run inline_nil (grammatical_lexemes s.text.toList)
  have text : s.text.toList = start ++ piece.flatMap Lexeme.text := by
    rw [← read, List.nil_append, List.nil_append, text_lexemes]
  rw [List.nil_append] at split state
  have lines := state.lines_close
  have errors := state.errors_close
  have trace := state.trace_close
  have position := state.position
  have physicalLine := state.physicalLine
  rw [← split] at lines errors trace
  rw [← text, String.ofList_toList] at position
  rw [← text] at physicalLine
  simp only [Source.scan, Scan.finalState, lines]
  simp only [Scan.State.close, errors, trace, position, physicalLine]
  rfl

theorem Source.errors_eq_nil_iff (s : Source) :
    s.scan.errors = [] ↔ ∀ l ∈ s.lexemes, l.isOpen = false := by
  have opens := any_isOpen_rows (place [] s.lexemes)
  have placed : (place [] s.lexemes).any (fun p => p.lexeme.isOpen) =
      s.lexemes.any Lexeme.isOpen := by
    conv_rhs => rw [← map_lexeme_place [] s.lexemes, List.any_map]
    rfl
  have same : (rows (place [] s.lexemes)).any Row.isOpen = s.lexemes.any Lexeme.isOpen :=
    opens.trans placed
  calc
    s.scan.errors = [] ↔ ∀ row ∈ rows (place [] s.lexemes), Row.isOpen row = false := by
      rw [Source.scan_eq, reports, List.filterMap_eq_nil_iff]
      exact forall₂_congr fun row _ => Row.unclosed?_eq_none_iff
    _ ↔ (rows (place [] s.lexemes)).any Row.isOpen = false := by simp
    _ ↔ ∀ l ∈ s.lexemes, l.isOpen = false := by simp [same]

end AsmScan
