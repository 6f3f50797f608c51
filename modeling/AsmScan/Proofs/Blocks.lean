import AsmScan.Proofs.Automaton

/-!
A text cut where the machine says that a line ends. Each block gives at most one statement,
and the scan of the text is made of the scans of its blocks.
-/

namespace AsmScan

/-- What stands between two line breaks that end lines, and the text before it. -/
structure Block where
  before : List Char
  text : List Char

/-- Cuts a text at the line breaks that end lines. The machine is in the given mode, and
    `block` is what it has read since the last cut. -/
def blocks (before block : List Char) (m : Mode) : List Char → List Block
  | [] => [⟨before, block⟩]
  | c :: rest =>
    if c = '\n' ∧ m.endsLine = true then
      ⟨before, block⟩ :: blocks (before ++ block ++ [c]) [] (m.step c) rest
    else blocks before (block ++ [c]) (m.step c) rest

def Source.blocks (s : Source) : List Block := AsmScan.blocks [] [] .code s.text.toList

def Block.source (name : String) (b : Block) : Source := ⟨name, String.ofList b.text⟩

theorem exists_append_of_mem_blocks {before block cs : List Char} {m : Mode} {b : Block}
    (h : b ∈ blocks before block m cs) :
    ∃ after, before ++ block ++ cs = b.before ++ b.text ++ after := by
  induction cs generalizing before block m with
  | nil =>
    obtain rfl := List.mem_singleton.mp h
    exact ⟨[], rfl⟩
  | cons c rest ih =>
    rw [blocks] at h
    split at h
    · obtain rfl | h := List.mem_cons.mp h
      · exact ⟨c :: rest, rfl⟩
      · obtain ⟨after, heq⟩ := ih h
        exact ⟨after, by simpa using heq⟩
    · obtain ⟨after, heq⟩ := ih h
      exact ⟨after, by simpa using heq⟩

theorem blocks_of_reads (before block : List Char) {m n : Mode} {cs : List Char}
    (h : m.Reads cs n) (rest : List Char) :
    blocks before block m (cs ++ rest) = blocks before (block ++ cs) n rest := by
  induction h generalizing block with
  | nil => simp
  | cons quiet _ ih =>
    rw [List.cons_append, blocks, if_neg quiet, ih]
    simp

theorem blocks_cons_lineBreak (before block : List Char) {m : Mode} {ls : List Lexeme}
    (ready : m.Ready ((.lineBreak :: ls).flatMap Lexeme.text)) :
    blocks before block m ((.lineBreak :: ls).flatMap Lexeme.text) =
      ⟨before, block⟩ :: blocks (before ++ block ++ ['\n']) [] .code (ls.flatMap Lexeme.text) := by
  obtain ⟨start, ends⟩ := ready_lineBreak ready
  change blocks before block m ('\n' :: ls.flatMap Lexeme.text) = _
  rw [blocks, if_pos ⟨rfl, ends⟩, start]

theorem blocks_cons_of_ne (before : List Char) (piece : List Lexeme) {m : Mode} {l : Lexeme}
    {ls : List Lexeme} (hg : Grammatical (l :: ls)) (hl : l ≠ .lineBreak)
    (ready : m.Ready ((l :: ls).flatMap Lexeme.text)) :
    ∃ n : Mode, n.Ready (ls.flatMap Lexeme.text) ∧
      blocks before (piece.flatMap Lexeme.text) m ((l :: ls).flatMap Lexeme.text) =
        blocks before ((piece ++ [l]).flatMap Lexeme.text) n (ls.flatMap Lexeme.text) := by
  obtain ⟨formed, follows, -⟩ := hg
  obtain ⟨n, path, -, next⟩ := l.exists_reads formed hl
  have same := ready.reads (Lexeme.text_ne_nil_of_wellFormed formed) path
  refine ⟨n, next _ follows, ?_⟩
  rw [List.flatMap_cons, blocks_of_reads _ _ same, List.flatMap_append, List.flatMap_singleton]

theorem flatMap_blocks {α : Type} {f : List Char → List Lexeme → List α} (hf : RowWise f)
    {before : List Char} {piece ls : List Lexeme} {m : Mode} (hg : Grammatical (piece ++ ls))
    (ready : m.Ready (ls.flatMap Lexeme.text)) :
    f before (piece ++ ls) =
      (blocks before (piece.flatMap Lexeme.text) m (ls.flatMap Lexeme.text)).flatMap
        fun b => f b.before (lexemes b.text) := by
  -- `piece` holds the lexemes that the machine has read since the last cut.
  induction ls generalizing before piece m with
  | nil =>
    rw [List.append_nil] at hg ⊢
    simp [blocks, lexemes_text hg]
  | cons l ls ih =>
    obtain ⟨front, back⟩ := grammatical_of_append hg
    by_cases hl : l = .lineBreak
    · subst hl
      have rest : f (before ++ piece.flatMap Lexeme.text ++ ['\n']) ls = _ :=
        @ih _ [] .code back.2.2 (Mode.ready_code _)
      rw [hf.append_cons _ _ _ rfl, show Lexeme.lineBreak.text = ['\n'] from rfl, rest,
        blocks_cons_lineBreak _ _ ready, List.flatMap_cons, lexemes_text front]
      rfl
    · obtain ⟨n, next, grown⟩ := blocks_cons_of_ne before piece back hl ready
      rw [grown, ← ih (by simpa using hg) next]
      simp

theorem lineBreak_not_mem_block {before : List Char} {piece ls : List Lexeme} {m : Mode}
    (hg : Grammatical (piece ++ ls)) (hp : .lineBreak ∉ piece)
    (ready : m.Ready (ls.flatMap Lexeme.text)) {b : Block}
    (h : b ∈ blocks before (piece.flatMap Lexeme.text) m (ls.flatMap Lexeme.text)) :
    .lineBreak ∉ lexemes b.text := by
  induction ls generalizing before piece m with
  | nil =>
    obtain rfl := List.mem_singleton.mp h
    rw [List.append_nil] at hg
    rwa [lexemes_text hg]
  | cons l ls ih =>
    obtain ⟨front, back⟩ := grammatical_of_append hg
    by_cases hl : l = .lineBreak
    · subst hl
      rw [blocks_cons_lineBreak _ _ ready] at h
      obtain rfl | h := List.mem_cons.mp h
      · rwa [lexemes_text front]
      · exact @ih _ [] .code back.2.2 List.not_mem_nil (Mode.ready_code _) h
    · obtain ⟨n, next, grown⟩ := blocks_cons_of_ne before piece back hl ready
      rw [grown] at h
      exact ih (by simpa using hg) (by simp [hp, Ne.symm hl]) next h

theorem Block.scan_source (name : String) (b : Block) :
    (b.source name).scan.table.lines.map (Statement.shift (b.before.count '\n')) =
        statements name b.before (lexemes b.text) ∧
      (b.source name).scan.errors.map (UnclosedLiteral.shift (b.before.count '\n')) =
        reports name b.before (lexemes b.text) := by
  rw [statements_behind name b.before, reports_behind name b.before, Source.scan_eq,
    Source.lexemes, Block.source, String.toList_ofList]
  exact ⟨rfl, rfl⟩

theorem length_lines_block {s : Source} {b : Block} (h : b ∈ s.blocks) :
    (b.source s.name).scan.table.lines.length ≤ 1 := by
  have single : .lineBreak ∉ lexemes b.text := by
    refine @lineBreak_not_mem_block [] [] s.lexemes .code (grammatical_lexemes _)
      List.not_mem_nil (Mode.ready_code _) b ?_
    rwa [Source.lexemes, text_lexemes]
  have lines := length_statements_line s.name b.before (grammatical_lexemes b.text) single
  rwa [← (b.scan_source s.name).1, List.length_map] at lines

theorem scan_eq_blocks (s : Source) :
    s.scan.table.lines = (s.blocks.flatMap fun b =>
        (b.source s.name).scan.table.lines.map (Statement.shift (b.before.count '\n'))) ∧
      s.scan.errors = s.blocks.flatMap fun b =>
        (b.source s.name).scan.errors.map (UnclosedLiteral.shift (b.before.count '\n')) := by
  have grammatical : Grammatical ([] ++ s.lexemes) := grammatical_lexemes s.text.toList
  have whole : s.lexemes.flatMap Lexeme.text = s.text.toList := text_lexemes _
  have lines := @flatMap_blocks _ _ (rowWise_statements s.name) [] _ _ _ grammatical
    (Mode.ready_code _)
  have errors := @flatMap_blocks _ _ (rowWise_reports s.name) [] _ _ _ grammatical
    (Mode.ready_code _)
  rw [whole] at lines errors
  simp only [(Block.scan_source _ _).1, (Block.scan_source _ _).2]
  rw [Source.scan_eq]
  exact ⟨lines, errors⟩

theorem errors_ne_nil_iff (s : Source) :
    s.scan.errors ≠ [] ↔ (Mode.code.run s.text.toList).inLiteral = true := by
  have ends := @inLiteral_run .code s.lexemes (grammatical_lexemes _) (Mode.ready_code _) rfl
  rw [Source.lexemes, text_lexemes] at ends
  rw [Ne, s.errors_eq_nil_iff, ends, List.any_eq_true]
  simp [Source.lexemes]

/-- A scan does what the machine says. There is an error exactly if the machine ends in a
    literal. Each block gives at most one statement, and the scans of the blocks, moved down
    by the line breaks before them, make up the scan of the text. -/
theorem scan_refines_machine (s : Source) (bound : s.text.toList.count '\n' < UInt32.size - 1) :
    (s.scan.errors ≠ [] ↔ ∃ quote, Mode.code.run s.text.toList = .literal quote ∨
        Mode.code.run s.text.toList = .literalEscape quote) ∧
      (∀ b ∈ s.blocks, (b.source s.name).scan.table.lines.length ≤ 1) ∧
      s.scan.table =
        { source := s.name
          lines := s.blocks.flatMap fun b =>
            (b.source s.name).scan.table.lines.map (Statement.shift (b.before.count '\n')) } ∧
      s.scan.errors = (s.blocks.flatMap fun b =>
        (b.source s.name).scan.errors.map (UnclosedLiteral.shift (b.before.count '\n'))) ∧
      ∀ b ∈ s.blocks,
        (∀ st ∈ (b.source s.name).scan.table.lines,
          (st.shift (b.before.count '\n')).startLine.toNat =
            st.startLine.toNat + b.before.count '\n') ∧
        ∀ e ∈ (b.source s.name).scan.errors,
          (e.shift (b.before.count '\n')).line.toNat = e.line.toNat + b.before.count '\n' := by
  obtain ⟨lines, errors⟩ := scan_eq_blocks s
  refine ⟨(errors_ne_nil_iff s).trans Mode.inLiteral_iff, fun b => length_lines_block,
    by rw [← lines]; rfl, errors, ?_⟩
  intro b hb
  obtain ⟨after, position⟩ := exists_append_of_mem_blocks hb
  have total : s.text.toList.count '\n' =
      b.before.count '\n' + b.text.count '\n' + after.count '\n' := by
    rw [← List.count_append, ← List.count_append, ← position]
    rfl
  have own : (b.source s.name).text.toList.count '\n' = b.text.count '\n' := by
    rw [Block.source, String.toList_ofList]
  have boundOwn : (b.source s.name).text.toList.count '\n' < UInt32.size - 1 := by omega
  constructor
  · intro st hst
    have last := startLine_le boundOwn hst
    exact toNat_add_ofNat (by omega)
  · intro e he
    have last := errorLine_le boundOwn he
    exact toNat_add_ofNat (by omega)

/-- Line breaks in a literal and in a continued comment, one after a lone slash, a blank line
    and a literal that stays open. -/
def braided : Source :=
  { name := "m.asm", text := "a \x27p\nq\x27 /\nb // c\\\nd\n\ne \x22f" }

theorem scan_refines_machine_braided :
    braided.text.toList.count '\n' < UInt32.size - 1 ∧
      Mode.code.run braided.text.toList = .literal '\x22' ∧
      braided.blocks.map (fun b => String.ofList b.text) =
        ["a \x27p\nq\x27 /", "b // c\\\nd", "", "e \x22f"] ∧
      braided.scan.table =
        { source := "m.asm"
          lines := [⟨"m.asm", 1, ⟨"a"⟩, #[⟨"\x27p\nq\x27"⟩, ⟨"/"⟩]⟩, ⟨"m.asm", 3, ⟨"b"⟩, #[]⟩] } ∧
      braided.scan.errors = [⟨"m.asm", 6⟩] := by
  obtain ⟨-, -, table, errors, -⟩ := scan_refines_machine braided (by decide)
  rw [table, errors]
  exact ⟨by decide, by decide +kernel, by decide +kernel, by decide +kernel, by decide +kernel⟩

end AsmScan
