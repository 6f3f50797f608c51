import AsmScan.Proofs.Concatenation
import AsmScan.Proofs.Layout
import AsmScan.Proofs.Spacing

/-!
A table written out as a text: every statement on its line, its tokens with one space
between them. Scanning that text gives the table back.
-/

namespace AsmScan

def Statement.chars (st : Statement) : List Char :=
  [' '].intercalate (st.tokens.map fun t => t.text.toList)

def renderFrom (current : Nat) : List Statement → List Char
  | [] => []
  | st :: rest =>
    List.replicate (st.startLine.toNat - current) '\n' ++
      (st.chars ++ renderFrom (st.startLine.toNat + st.breaks) rest)

/-- The text of a table, made from nothing but the table. -/
def Table.render (t : Table) : String := String.ofList (renderFrom 1 t.lines)

/-- What is subtracted on the way: how far each statement starts below the end of the one
    before it. -/
def gaps (current : Nat) : List Statement → List Int
  | [] => []
  | st :: rest =>
    ((st.startLine.toNat : Int) - current) :: gaps (st.startLine.toNat + st.breaks) rest

theorem gaps_pos {current : Nat} {sts : List Statement} (h : Spaced (current + 1) sts) :
    ∀ g ∈ gaps current sts, 1 ≤ g := by
  induction sts generalizing current with
  | nil => simp [gaps]
  | cons st rest ih =>
    intro g hg
    obtain rfl | hg := List.mem_cons.mp hg
    · have lowest := h.1
      omega
    · exact ih h.2 g hg

theorem gaps_of_spaced {current : Nat} {sts : List Statement} (h : Spaced current sts) :
    (∀ g ∈ gaps current sts, 0 ≤ g) ∧ ∀ g ∈ (gaps current sts).tail, 1 ≤ g := by
  cases sts with
  | nil => simp [gaps]
  | cons st rest =>
    have later : ∀ g ∈ gaps (st.startLine.toNat + st.breaks) rest, 1 ≤ g := gaps_pos h.2
    refine ⟨?_, later⟩
    intro g hg
    obtain rfl | hg := List.mem_cons.mp hg
    · have lowest := h.1
      omega
    · have positive := later g hg
      omega

theorem lexemes_replicate (n : Nat) (cs : List Char) :
    lexemes (List.replicate n '\n' ++ cs) = List.replicate n .lineBreak ++ lexemes cs := by
  induction n with
  | zero => rfl
  | succ n ih => rw [List.replicate_succ, List.cons_append, lexemes_lineBreak, ih]; rfl

theorem statements_replicate (source : String) (before : List Char) (n : Nat)
    (ls : List Lexeme) :
    statements source before (List.replicate n .lineBreak ++ ls) =
        statements source (before ++ List.replicate n '\n') ls ∧
      reports source before (List.replicate n .lineBreak ++ ls) =
        reports source (before ++ List.replicate n '\n') ls := by
  induction n generalizing before with
  | zero => simp
  | succ n ih =>
    rw [List.replicate_succ, List.cons_append, statements_cons _ _ _ rfl, reports_cons _ _ _ rfl,
      (ih _).1, (ih _).2]
    simp [Lexeme.text, List.replicate_succ]

theorem count_chars {st : Statement} (spelled : ∀ t ∈ st.tokens, ∃ l, Lexeme.Spells t l) :
    st.chars.count '\n' = st.breaks := by
  obtain ⟨ls, h⟩ := exists_forall₂_spells spelled
  rw [Statement.chars, ← text_spread h, ← count_tokens (inline_spread h),
    filterMap_token?_spread h, Statement.breaks]

theorem lexemes_chars {ts : List Token} {ls : List Lexeme}
    (h : List.Forall₂ Lexeme.Spells ts ls) {rest : List Char} (hr : ∀ c ∈ rest.head?, c = '\n') :
    lexemes ((spread ls).flatMap Lexeme.text ++ rest) = spread ls ++ lexemes rest := by
  have alone := lexemes_text (grammatical_spread h)
  rw [lexemes_append, alone]
  intro l hl
  rw [alone] at hl
  have row := inline_spread h l (List.mem_of_getLast? hl)
  exact Lexeme.mayPrecede_lineEnd (inline_singleton row.1 (by simp [row.2.1]) (by simp [row.2.2])) hr

theorem scan_chars {source : String} {before rest : List Char} {st : Statement}
    (spelled : ∀ t ∈ st.tokens, ∃ l, Lexeme.Spells t l) (hs : st.source = source)
    (line : st.startLine.toNat = lineAfter before) (hr : ∀ c ∈ rest.head?, c = '\n') :
    statements source before (lexemes (st.chars ++ rest)) =
        st :: statements source (before ++ st.chars) (lexemes rest) ∧
      reports source before (lexemes (st.chars ++ rest)) =
        reports source (before ++ st.chars) (lexemes rest) := by
  obtain ⟨ls, h⟩ := exists_forall₂_spells spelled
  have text : (spread ls).flatMap Lexeme.text = st.chars := text_spread h
  have row : statements source before (spread ls) = [st] := by
    rw [statements_inline (inline_spread h), filterMap_token?_spread h, ← line,
      UInt32.ofNat_toNat, ← hs]
    rfl
  have silent : reports source before (spread ls) = [] := reports_inline (inline_spread h)
  rw [← text, lexemes_chars h hr]
  cases rest with
  | nil =>
    rw [lexemes, List.append_nil, row, silent]
    exact ⟨rfl, rfl⟩
  | cons c rest =>
    obtain rfl := hr c rfl
    rw [lexemes_lineBreak, statements_append_cons _ _ _ _ rfl, reports_append_cons _ _ _ _ rfl,
      statements_cons _ _ _ rfl, reports_cons _ _ _ rfl, row, silent]
    exact ⟨rfl, rfl⟩

theorem head?_renderFrom {current : Nat} {sts : List Statement} (h : Spaced (current + 1) sts) :
    ∀ c ∈ (renderFrom current sts).head?, c = '\n' := by
  cases sts with
  | nil => simp [renderFrom]
  | cons st rest =>
    obtain ⟨n, hn⟩ : ∃ n, st.startLine.toNat - current = n + 1 :=
      ⟨st.startLine.toNat - current - 1, by have lowest := h.1; omega⟩
    rw [renderFrom, hn, List.replicate_succ]
    simp

theorem scan_renderFrom {source : String} {current : Nat} {before : List Char}
    {sts : List Statement} (spaced : Spaced current sts) (reached : lineAfter before = current)
    (spelled : ∀ st ∈ sts, st.source = source ∧ ∀ t ∈ st.tokens, ∃ l, Lexeme.Spells t l) :
    statements source before (lexemes (renderFrom current sts)) = sts ∧
      reports source before (lexemes (renderFrom current sts)) = [] := by
  induction sts generalizing current before with
  | nil =>
    rw [renderFrom, lexemes]
    exact ⟨rfl, rfl⟩
  | cons st rest ih =>
    obtain ⟨named, tokens⟩ := spelled st (by simp)
    have down : st.startLine.toNat =
        lineAfter (before ++ List.replicate (st.startLine.toNat - current) '\n') := by
      have lowest := spaced.1
      rw [lineAfter_append, reached, List.count_replicate_self]
      omega
    have across : lineAfter
        (before ++ List.replicate (st.startLine.toNat - current) '\n' ++ st.chars) =
        st.startLine.toNat + st.breaks := by
      rw [lineAfter_append, ← down, count_chars tokens]
    -- `before` now ends with this statement, on the line from which the next gap is counted.
    have tail := ih (spaced.2.mono (Nat.le_succ _)) across
      fun u hu => spelled u (List.mem_cons_of_mem st hu)
    have line := scan_chars tokens named down (head?_renderFrom spaced.2)
    have blank := statements_replicate source before (st.startLine.toNat - current)
      (lexemes (st.chars ++ renderFrom (st.startLine.toNat + st.breaks) rest))
    rw [renderFrom, lexemes_replicate, blank.1, blank.2, line.1, line.2, tail.1, tail.2]
    exact ⟨rfl, rfl⟩

theorem source_of_mem_scan {s : Source} {st : Statement} (h : st ∈ s.scan.table.lines) :
    st.source = s.name := by
  rw [Source.scan_eq] at h
  obtain ⟨row, -, hst⟩ := List.mem_filterMap.mp h
  exact (Row.of_statement? hst).1

/-- A table is the table of its own text, and writing that text never goes back up. -/
theorem scan_render (s : Source) (bound : s.text.toList.count '\n' < UInt32.size - 1) :
    (∀ g ∈ gaps 1 s.scan.table.lines, 0 ≤ g) ∧
      (∀ g ∈ (gaps 1 s.scan.table.lines).tail, 1 ≤ g) ∧
      (Source.mk s.name s.scan.table.render).scan.errors = [] ∧
      (Source.mk s.name s.scan.table.render).scan.table = s.scan.table := by
  have spaced := spaced_scan s bound
  obtain ⟨nonneg, positive⟩ := gaps_of_spaced spaced
  obtain ⟨lines, errors⟩ := @scan_renderFrom s.name 1 [] _ spaced rfl
    fun st hst => ⟨source_of_mem_scan hst, exists_spells_of_mem_scan hst⟩
  refine ⟨nonneg, positive, ?_, ?_⟩
  · rw [Source.scan_eq, Source.lexemes, Table.render, String.toList_ofList]
    exact errors
  · rw [Source.scan_eq, Source.lexemes, Table.render, String.toList_ofList, lines]
    rfl

def scattered : Source :=
  { name := "s.asm", text := "\n/ /'a\nb'\tx // c\\\n c\n\n y+1" }

theorem scan_render_scattered :
    scattered.text.toList.count '\n' < UInt32.size - 1 ∧
      scattered.scan.table.render = "\n/ / 'a\nb' x\n\n\ny + 1" ∧
      gaps 1 scattered.scan.table.lines = [1, 3] ∧
      (Source.mk "s.asm" "\n/ / 'a\nb' x\n\n\ny + 1").scan.table = scattered.scan.table := by
  have render : scattered.scan.table.render = "\n/ / 'a\nb' x\n\n\ny + 1" := by decide +kernel
  have same := (scan_render scattered (by decide)).2.2.2
  rw [render] at same
  exact ⟨by decide, render, by decide +kernel, same⟩

end AsmScan
