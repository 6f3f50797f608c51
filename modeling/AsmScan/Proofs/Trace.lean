import AsmScan.Proofs.Jobs.Assembling
import AsmScan.Proofs.Segmentation

/-!
The trace of a scan. It has the tokens of the table, statement after statement, and then those of
the statement that a literal leaves open; it ends with the figures of the scan.
-/

namespace AsmScan

def Statement.entries (st : Statement) : List (UInt32 × Token) :=
  st.tokens.map fun t => (st.startLine, t)

def Table.entries (t : Table) : List (UInt32 × Token) := t.lines.flatMap Statement.entries

def Event.token? : Event → Option (UInt32 × Token)
  | .token line t => some (line, t)
  | _ => none

/-- The tokens of the pieces in which a literal stays open. -/
def abandonedTokens (ls : List Lexeme) : List Token :=
  ((ls.splitOnP Lexeme.isSeparator).filter fun piece => piece.any Lexeme.isOpen).flatMap
    fun piece => piece.filterMap Lexeme.token?

namespace Row

variable {source : String} {row : Row}

theorem trace_of_closed (source : String) (h : isOpen row = false) :
    trace row = (statement? source row).toList.flatMap Statement.entries := by
  rw [trace, statement?, h]
  cases marks row with
  | nil => rfl
  | cons m ms => simp [Statement.entries, Statement.tokens]

theorem trace_of_unclosed? {e : UnclosedLiteral} (h : unclosed? source row = some e) :
    trace row = ((marks row).map Mark.token).map fun t => (e.line, t) := by
  obtain ⟨p, -, rfl⟩ := Option.map_eq_some_iff.mp h
  rw [trace]
  cases marks row with
  | nil => rfl
  | cons m ms => simp

end Row

theorem rows_eq_concat {start : List Char} {piece ls : List Lexeme} (hi : Inline piece)
    (hg : Grammatical ls) : ∃ front last, rows (place start (piece ++ ls)) = front ++ [last] ∧
      ∀ row ∈ front, Row.isOpen row = false := by
  induction ls generalizing start piece with
  | nil =>
    rw [List.append_nil, rows_inline start hi]
    exact ⟨[], place start piece, rfl, by simp⟩
  | cons l ls ih =>
    obtain hs | ⟨hs, ho, rfl⟩ | hl := separator_or_open_or_inline hg
    · obtain ⟨front, last, split, closed⟩ :=
        @ih (start ++ piece.flatMap Lexeme.text ++ l.text) [] inline_nil hg.2.2
      refine ⟨place start piece :: front, last, ?_, ?_⟩
      · rw [rows_append_cons start piece ls hs, rows_inline start hi]
        exact congrArg (place start piece :: ·) split
      · exact List.forall_mem_cons.mpr ⟨Row.isOpen_place start hi, closed⟩
    · rw [rows_inline_append start hi hs]
      exact ⟨[], place start (piece ++ [l]), rfl, by simp⟩
    · rw [show piece ++ l :: ls = piece ++ [l] ++ ls by simp]
      exact ih (hi.append hl) hg.2.2

theorem flatMap_trace_of_closed (source : String) {rs : List Row}
    (h : ∀ row ∈ rs, Row.isOpen row = false) :
    rs.flatMap Row.trace = (rs.filterMap (Row.statement? source)).flatMap Statement.entries := by
  induction rs with
  | nil => rfl
  | cons row rest ih =>
    obtain ⟨closed, later⟩ := List.forall_mem_cons.mp h
    rw [List.flatMap_cons, Row.trace_of_closed source closed, ih later]
    cases hs : Row.statement? source row with
    | none => simp [hs]
    | some st => simp [hs]

theorem abandonedTokens_eq (before : List Char) (ls : List Lexeme) :
    abandonedTokens ls = ((rows (place before ls)).filter Row.isOpen).flatMap fun row =>
      (Row.marks row).map Mark.token := by
  rw [abandonedTokens, splitOnP_isSeparator before, List.filter_map, List.flatMap_map]
  simp only [← Row.map_token_marks]
  congr 2
  funext row
  exact List.any_map

theorem trace_scan (s : Source) :
    s.scan.trace = s.scan.table.entries ++
      s.scan.errors.flatMap fun e => (abandonedTokens s.lexemes).map fun t => (e.line, t) := by
  obtain ⟨front, last, split, closed⟩ :=
    @rows_eq_concat [] [] s.lexemes inline_nil (grammatical_lexemes s.text.toList)
  rw [List.nil_append] at split
  have silent : front.filterMap (Row.unclosed? s.name) = [] :=
    List.filterMap_eq_nil_iff.mpr fun row hr => Row.unclosed?_eq_none_iff.mpr (closed row hr)
  rw [Source.scan_eq, Table.entries, statements, reports, abandonedTokens_eq []]
  cases ho : Row.unclosed? s.name last with
  | none =>
    have all : ∀ row ∈ rows (place [] s.lexemes), Row.isOpen row = false := by
      rw [split]
      exact List.forall_mem_append.mpr ⟨closed, by simpa using Row.unclosed?_eq_none_iff.mp ho⟩
    have none : (rows (place [] s.lexemes)).filterMap (Row.unclosed? s.name) = [] := by
      simp [split, silent, ho]
    rw [none, List.flatMap_nil, List.append_nil, flatMap_trace_of_closed s.name all]
  | some e =>
    have last_open : Row.isOpen last = true := by rw [Row.isOpen_eq s.name, ho, Option.isSome_some]
    have single : (front ++ [last]).filter Row.isOpen = [last] := by
      rw [List.filter_append, List.filter_eq_nil_iff.mpr fun row hr => by simp [closed row hr]]
      simp [last_open]
    have error : (front ++ [last]).filterMap (Row.unclosed? s.name) = [e] := by
      simp [silent, ho]
    have kept : (front ++ [last]).filterMap (Row.statement? s.name) =
        front.filterMap (Row.statement? s.name) := by
      simp [Row.statement?_of_isOpen last_open]
    rw [split, single, error, kept, List.flatMap_append, flatMap_trace_of_closed s.name closed,
      List.flatMap_singleton, List.flatMap_singleton, List.flatMap_singleton,
      Row.trace_of_unclosed? ho]

theorem ofScan_openingEvents (s : Source) : ∀ e ∈ s.scan.openingEvents, e.ofScan = true := by
  intro e he
  obtain he | he := List.mem_append.mp he
  · obtain ⟨entry, -, rfl⟩ := List.mem_map.mp he
    rfl
  · obtain ⟨error, -, rfl⟩ := List.mem_map.mp he
    rfl

theorem filterMap_token?_openingEvents (s : Source) :
    s.scan.openingEvents.filterMap Event.token? = s.scan.trace := by
  have errors : (s.scan.errors.map fun e => Event.unclosed e.source e.line).filterMap
      Event.token? = [] := by
    simp [Event.token?]
  rw [Scan.openingEvents, List.filterMap_append, errors, List.append_nil, List.filterMap_map]
  exact List.filterMap_some

theorem filter_ofScan_recorded (messages : List String) :
    (messages.map Event.recorded).filter Event.ofScan = [] := by
  simp [Event.ofScan]

theorem filterMap_token?_recorded (messages : List String) :
    (messages.map Event.recorded).filterMap Event.token? = [] := by
  simp [Event.token?]

theorem Desk.events_foldl_recorded (d : Desk) (messages : List String) :
    (messages.foldl recorded d).events = d.events ++ messages.map .recorded := by
  induction messages generalizing d with
  | nil => exact (List.append_nil _).symm
  | cons message rest ih => exact (ih (d.recorded message)).trans (by simp [recorded])

namespace Job

/-- A scan traces the tokens of its table, each with the line on which its statement starts, and
    then those of the statement that a literal leaves open, with the line that is reported. Its
    last event gives the bytes and the lines of the text, the size of the table and the number of
    the reports, which is one at most. -/
theorem scan_traced (s : Source) (d : Desk) {ls : List Lexeme} (segments : Segments s.text ls)
    (bound : s.text.toList.count '\n' < UInt32.size - 1) :
    ∃ (e : Desk) (events : List Event) (reported : List String) (physicalLines : UInt32),
      (scan s).run d = .ok s.scan.table e ∧
      e.events = d.events ++ events ∧
      e.log.messages = d.log.messages ++ reported ∧
      reported = s.scan.errors.map (fun u => (Fault.lexical u).message) ∧
      events.filter Event.ofScan = s.scan.events ∧
      events.filterMap Event.token? =
        (s.scan.table.lines.flatMap fun st => st.tokens.map fun t => (st.startLine, t)) ++
          (s.scan.errors.flatMap fun u => (abandonedTokens ls).map fun t => (u.line, t)) ∧
      events.getLast? = some (.scanned s.name s.text.utf8ByteSize physicalLines
        s.scan.table.length s.scan.table.tokenCount reported.length) ∧
      physicalLines.toNat = 1 + s.text.toList.count '\n' ∧
      reported.length ≤ 1 := by
  obtain rfl := segments_iff.mp segments
  have bytes : s.scan.bytes = s.text.utf8ByteSize := congrArg Scan.bytes s.scan_eq
  have lines : s.scan.physicalLines.toNat = 1 + s.text.toList.count '\n' := by
    rw [Source.scan_eq]
    exact toNat_lineAfter bound (List.append_nil _).symm
  refine ⟨d.scanned s, s.scan.openingEvents ++ s.complaints.map .recorded ++ [s.scan.closingEvent],
    s.complaints, s.scan.physicalLines, run_scan d s, ?_, ?_, rfl, ?_, ?_, ?_, lines, ?_⟩
  · rw [Desk.scanned, Desk.emitted, Desk.events_foldl_recorded, Desk.emitted]
    simp only [List.append_assoc]
  · exact ((d.emitted s.scan.openingEvents).foldl_recorded s.complaints).2
  · rw [List.filter_append, List.filter_append, filter_ofScan_recorded, List.append_nil,
      List.filter_eq_self.mpr (ofScan_openingEvents s)]
    rfl
  · rw [List.filterMap_append, List.filterMap_append, filterMap_token?_recorded, List.append_nil,
      filterMap_token?_openingEvents, trace_scan]
    exact List.append_nil _
  · rw [List.getLast?_concat, Scan.closingEvent, bytes, Source.complaints, List.length_map]
    rfl
  · rw [Source.complaints, List.length_map]
    exact length_errors_le_one s

/-- Two statements, and one with a literal over two lines before the literal that stays open. -/
def cutShort : Source :=
  { name := "t.asm", text := "a \x27p\nq\x27 // c\nb,\n\x27r\ns\x27 x \x22t\n" }

theorem scan_traced_cutShort :
    Segments cutShort.text (lexemes cutShort.text.toList) ∧
      cutShort.text.toList.count '\n' < UInt32.size - 1 ∧
      ∃ (e : Desk) (events : List Event) (physicalLines : UInt32),
        (scan cutShort).run (Desk.fresh none) = .ok cutShort.scan.table e ∧
        e.events = (Desk.fresh none).events ++ events ∧
        e.log.messages = ["Error in file t.asm on line 4: Unterminated quoted string"] ∧
        events.filterMap Event.token? = [(1, ⟨"a"⟩), (1, ⟨"\x27p\nq\x27"⟩), (3, ⟨"b"⟩), (3, ⟨","⟩),
          (4, ⟨"\x27r\ns\x27"⟩), (4, ⟨"x"⟩)] ∧
        events.getLast? = some (.scanned "t.asm" 27 physicalLines 2 4 1) ∧
        physicalLines.toNat = 6 := by
  have segments : Segments cutShort.text (lexemes cutShort.text.toList) := segments_iff.mpr rfl
  have bound : cutShort.text.toList.count '\n' < UInt32.size - 1 := by decide
  obtain ⟨e, events, reported, physicalLines, run, emitted, messages, rfl, -, tokens, last, lines,
    -⟩ := scan_traced cutShort (Desk.fresh none) segments bound
  refine ⟨segments, bound, e, events, physicalLines, run, emitted, messages.trans ?_,
    tokens.trans ?_, last.trans ?_, lines.trans ?_⟩
  · decide +kernel
  · decide +kernel
  · have size : cutShort.text.utf8ByteSize = 27 := by decide +kernel
    have figures : cutShort.scan.table.length = 2 ∧ cutShort.scan.table.tokenCount = 4 ∧
        cutShort.scan.errors.length = 1 := by decide +kernel
    rw [List.length_map, size, figures.1, figures.2.1, figures.2.2]
    rfl
  · decide

end Job

end AsmScan
