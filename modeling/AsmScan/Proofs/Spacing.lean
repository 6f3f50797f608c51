import AsmScan.Proofs.Provenance

/-!
Statements do not overlap: each one starts on a line after the last line of the one
before it, although comments end statements without ending their line.
-/

namespace AsmScan

def Statement.breaks (st : Statement) : Nat :=
  (st.tokens.flatMap fun t => t.text.toList).count '\n'

def Statement.lastLine (st : Statement) : Nat := st.startLine.toNat + st.breaks

/-- The first statement starts on the given line or later, and every other one after the
    last line of the statement before it. -/
def Spaced (lowest : Nat) : List Statement → Prop
  | [] => True
  | st :: rest =>
    lowest ≤ st.startLine.toNat ∧ Spaced (st.startLine.toNat + st.breaks + 1) rest

theorem Spaced.mono {low high : Nat} {sts : List Statement} (h : Spaced high sts)
    (hle : low ≤ high) : Spaced low sts := by
  cases sts with
  | nil => trivial
  | cons st rest => exact ⟨Nat.le_trans hle h.1, h.2⟩

theorem count_tokens {piece : List Lexeme} (hi : Inline piece) :
    ((piece.filterMap Lexeme.token?).flatMap fun t => t.text.toList).count '\n' =
      (piece.flatMap Lexeme.text).count '\n' := by
  induction piece with
  | nil => rfl
  | cons l ls ih =>
    obtain ⟨formed, hs, ho⟩ := hi l (by simp)
    have rest := ih fun k hk => hi k (List.mem_cons_of_mem l hk)
    cases ht : l.token? with
    | none =>
      have gap := Lexeme.count_text_of_token?_eq_none formed ht hs ho
      rw [List.filterMap_cons_none ht, rest, List.flatMap_cons, List.count_append, gap,
        Nat.zero_add]
    | some t =>
      have same := Lexeme.count_token formed ht
      rw [List.filterMap_cons_some ht, List.flatMap_cons, List.count_append, rest,
        List.flatMap_cons, List.count_append, same]

theorem Lexeme.eq_lineBreak {l : Lexeme} (h : l.WellFormed) (head : l.text.head? = some '\n') :
    l = .lineBreak := by
  cases l with
  | lineBreak => rfl
  | blank c =>
    obtain rfl : c = '\n' := Option.some.inj head
    exact absurd h (by simp [WellFormed])
  | comment body => exact absurd head (by simp [text])
  | symbol c =>
    obtain rfl : c = '\n' := Option.some.inj head
    exact absurd h lineBreak_not_mem_symbols
  | literal quote body | openLiteral quote body =>
    obtain rfl : quote = '\n' := Option.some.inj head
    exact absurd h.1 lineBreak_not_mem_quotes
  | word cs => exact absurd (List.mem_of_head? head) (lineBreak_not_mem_word h.2)

theorem eq_lineBreak_of_comment {body : List Char} {k : Lexeme} {ls : List Lexeme}
    (h : Grammatical (.comment body :: k :: ls)) : k = .lineBreak := by
  obtain ⟨-, follows, formed, -, -⟩ := h
  refine Lexeme.eq_lineBreak formed ?_
  cases ht : k.text with
  | nil => exact absurd ht (Lexeme.text_ne_nil_of_wellFormed formed)
  | cons c cs =>
    have first := follows c (by simp [ht])
    rw [first.1]
    rfl

theorem spaced_after {source : String} {before : List Char} {l : Lexeme} {ls : List Lexeme}
    (hg : Grammatical (l :: ls)) (hs : l.isSeparator = true)
    (tail : Spaced (lineAfter (before ++ l.text)) (statements source (before ++ l.text) ls))
    (next : ls.head? = some .lineBreak →
      Spaced (lineAfter (before ++ l.text) + 1) (statements source (before ++ l.text) ls)) :
    Spaced (lineAfter before + 1) (statements source (before ++ l.text) ls) := by
  cases l with
  | lineBreak => simpa [lineAfter_append, Lexeme.text] using tail
  | comment body =>
    cases ls with
    | nil => trivial
    | cons k ls =>
      obtain rfl := eq_lineBreak_of_comment hg
      refine (next rfl).mono ?_
      rw [lineAfter_append]
      omega
  | _ => exact absurd hs (by simp [Lexeme.isSeparator])

theorem statements_of_isOpen {source : String} {start : List Char} {piece : List Lexeme}
    {l : Lexeme} (hi : Inline piece) (hs : l.isSeparator = false) (ho : l.isOpen = true) :
    statements source start (piece ++ [l]) = [] := by
  rw [statements, rows_inline_append start hi hs, List.filterMap_cons_none
    (Row.statement?_of_isOpen (Row.isOpen_place_append piece ho))]
  rfl

theorem Row.lines_of_statement? {source : String} {start : List Char} {piece : List Lexeme}
    (hi : Inline piece) (bound : start.count '\n' < UInt32.size - 1) {st : Statement}
    (h : Row.statement? source (place start piece) = some st) :
    st.startLine.toNat = lineAfter start ∧
      st.lastLine = lineAfter (start ++ piece.flatMap Lexeme.text) := by
  rw [Row.statement?_eq source hi] at h
  obtain ⟨-, line, tokens⟩ := Statement.of_ofTokens? h
  rw [Row.map_token_marks, map_lexeme_place] at tokens
  have first : st.startLine.toNat = lineAfter start := by
    rw [line]
    exact toNat_lineAfter bound (List.append_nil start).symm
  have breaks : st.breaks = (piece.flatMap Lexeme.text).count '\n' := by
    rw [Statement.breaks, tokens, count_tokens hi]
  exact ⟨first, by rw [Statement.lastLine, first, breaks, lineAfter_append]⟩

theorem spaced_row {source : String} {start : List Char} {piece : List Lexeme}
    {sts : List Statement} (hi : Inline piece) (bound : start.count '\n' < UInt32.size - 1)
    (tail : Spaced (lineAfter (start ++ piece.flatMap Lexeme.text) + 1) sts) :
    Spaced (lineAfter start) (statements source start piece ++ sts) := by
  rw [statements, rows_inline start hi]
  cases h : Row.statement? source (place start piece) with
  | none =>
    rw [List.filterMap_cons_none h]
    exact tail.mono (by rw [lineAfter_append]; omega)
  | some st =>
    obtain ⟨first, last⟩ := Row.lines_of_statement? hi bound h
    rw [List.filterMap_cons_some h]
    refine ⟨Nat.le_of_eq first.symm, ?_⟩
    change Spaced (st.lastLine + 1) sts
    rwa [last]

theorem spaced_statements (source : String) {start : List Char} {piece ls : List Lexeme}
    (hi : Inline piece) (hg : Grammatical ls)
    (bound : (start ++ (piece ++ ls).flatMap Lexeme.text).count '\n' < UInt32.size - 1) :
    Spaced (lineAfter start) (statements source start (piece ++ ls)) ∧
      (ls.head? = some .lineBreak → Spaced (lineAfter start + 1) (statements source start ls)) := by
  -- The second part serves the comment that ends a row. Its line goes on up to a line break,
  -- and what follows that break is one line further down.
  induction ls generalizing start piece with
  | nil =>
    refine ⟨?_, fun head => absurd head (by simp)⟩
    have boundStart : start.count '\n' < UInt32.size - 1 := by
      rw [List.count_append] at bound
      omega
    have row : Spaced (lineAfter start) (statements source start piece ++ []) :=
      spaced_row hi boundStart trivial
    simpa using row
  | cons l ls ih =>
    have boundStart : start.count '\n' < UInt32.size - 1 := by
      rw [List.count_append] at bound
      omega
    obtain hs | ⟨hs, ho, rfl⟩ | hl := separator_or_open_or_inline hg
    · have after : ∀ before : List Char,
          (before ++ l.text ++ ls.flatMap Lexeme.text).count '\n' < UInt32.size - 1 →
          Spaced (lineAfter before + 1) (statements source (before ++ l.text) ls) := by
        intro before hb
        obtain ⟨tail, next⟩ := @ih (before ++ l.text) [] inline_nil hg.2.2 (by simpa using hb)
        exact spaced_after hg hs tail next
      constructor
      · rw [statements_append_cons source start piece ls hs]
        exact spaced_row hi boundStart (after _ (by simpa using bound))
      · intro _
        rw [statements_cons source start ls hs]
        refine after start ?_
        simp only [List.flatMap_append, List.flatMap_cons, List.count_append] at bound ⊢
        omega
    · rw [statements_of_isOpen hi hs ho]
      refine ⟨trivial, fun head => ?_⟩
      obtain rfl : l = .lineBreak := Option.some.inj head
      exact absurd hs (by decide)
    · have same : piece ++ l :: ls = (piece ++ [l]) ++ ls := by simp
      rw [same] at bound ⊢
      refine ⟨(ih (hi.append hl) hg.2.2 bound).1, fun head => ?_⟩
      obtain rfl : l = .lineBreak := Option.some.inj head
      exact absurd (hl _ (List.mem_singleton_self _)).2.1 (by decide)

theorem spaced_scan (s : Source) (bound : s.text.toList.count '\n' < UInt32.size - 1) :
    Spaced 1 s.scan.table.lines := by
  have whole : ([] ++ ([] ++ s.lexemes).flatMap Lexeme.text).count '\n' < UInt32.size - 1 := by
    rwa [List.nil_append, List.nil_append, Source.lexemes, text_lexemes]
  rw [Source.scan_eq]
  exact (spaced_statements s.name inline_nil (grammatical_lexemes s.text.toList) whole).1

def Statement.Covers (st : Statement) (line : Nat) : Prop :=
  st.startLine.toNat ≤ line ∧ line ≤ st.lastLine

theorem Spaced.le_startLine {lowest : Nat} {sts : List Statement} (h : Spaced lowest sts) :
    ∀ st ∈ sts, lowest ≤ st.startLine.toNat := by
  induction sts generalizing lowest with
  | nil => simp
  | cons st rest ih =>
    intro other hm
    obtain rfl | hm := List.mem_cons.mp hm
    · exact h.1
    · have first := h.1
      have later := ih h.2 other hm
      omega

theorem Spaced.pairwise {lowest : Nat} {sts : List Statement} (h : Spaced lowest sts) :
    sts.Pairwise fun x y => x.lastLine < y.startLine.toNat := by
  induction sts generalizing lowest with
  | nil => exact .nil
  | cons st rest ih => exact .cons h.2.le_startLine (ih h.2)

theorem exists_place_of_mem_rows {start : List Char} {piece ls : List Lexeme} (hi : Inline piece)
    (hg : Grammatical ls) {row : Row} (h : row ∈ rows (place start (piece ++ ls))) :
    ∃ start' piece' after, row = place start' piece' ∧
      start ++ (piece ++ ls).flatMap Lexeme.text =
        start' ++ piece'.flatMap Lexeme.text ++ after ∧
      (Inline piece' ∨ Row.isOpen row = true) := by
  induction ls generalizing start piece with
  | nil =>
    rw [List.append_nil, rows_inline start hi] at h
    obtain rfl := List.mem_singleton.mp h
    exact ⟨start, piece, [], rfl, by simp, .inl hi⟩
  | cons l ls ih =>
    obtain hs | ⟨hs, ho, rfl⟩ | hl := separator_or_open_or_inline hg
    · rw [rows_append_cons start piece ls hs, rows_inline start hi] at h
      obtain h | h := List.mem_append.mp h
      · obtain rfl := List.mem_singleton.mp h
        exact ⟨start, piece, (l :: ls).flatMap Lexeme.text, rfl, by simp, .inl hi⟩
      · obtain ⟨start', piece', after, row, text, shape⟩ := ih inline_nil hg.2.2 h
        exact ⟨start', piece', after, row, by rw [← text]; simp, shape⟩
    · rw [rows_inline_append start hi hs] at h
      obtain rfl := List.mem_singleton.mp h
      exact ⟨start, piece ++ [l], [], rfl, by simp, .inr (Row.isOpen_place_append piece ho)⟩
    · rw [show piece ++ l :: ls = piece ++ [l] ++ ls by simp] at h ⊢
      exact ih (hi.append hl) hg.2.2 h

theorem lastLine_le {s : Source} (bound : s.text.toList.count '\n' < UInt32.size - 1)
    {st : Statement} (h : st ∈ s.scan.table.lines) :
    st.lastLine ≤ 1 + s.text.toList.count '\n' := by
  rw [Source.scan_eq] at h
  obtain ⟨row, hr, hst⟩ := List.mem_filterMap.mp h
  obtain ⟨start, piece, after, rfl, text, hi | ho⟩ :=
    exists_place_of_mem_rows inline_nil (grammatical_lexemes s.text.toList) hr
  · have whole : s.text.toList = start ++ piece.flatMap Lexeme.text ++ after := by
      rw [← text, List.nil_append, List.nil_append, text_lexemes]
    have total := congrArg (List.count '\n') whole
    rw [List.append_assoc, List.count_append] at total
    rw [(Row.lines_of_statement? hi (by omega) hst).2]
    exact Nat.add_le_add_left (count_le_of_append whole) 1
  · rw [Row.statement?_of_isOpen ho] at hst
    exact absurd hst (by simp)

/-- Each statement starts below the last line of the one before it, and the last one ends within
    the text. So start lines increase, and no line has parts of two statements on it. -/
theorem scan_lines_apart (s : Source) (bound : s.text.toList.count '\n' < UInt32.size - 1) :
    (∀ st ∈ s.scan.table.lines.head?, 1 ≤ st.startLine.toNat) ∧
      s.scan.table.lines.IsChain (fun x y => x.startLine.toNat + x.breaks < y.startLine.toNat) ∧
      (∀ st ∈ s.scan.table.lines.getLast?,
        st.startLine.toNat + st.breaks ≤ 1 + s.text.toList.count '\n') ∧
      s.scan.table.lines.Pairwise (fun x y => x.startLine < y.startLine) ∧
      s.scan.table.lines.Pairwise fun x y => ∀ line, ¬(x.Covers line ∧ y.Covers line) := by
  have spaced := spaced_scan s bound
  have apart := spaced.pairwise
  refine ⟨?_, apart.isChain, ?_, ?_, ?_⟩
  · exact fun st hst => spaced.le_startLine st (List.mem_of_head? hst)
  · exact fun st hst => lastLine_le bound (List.mem_of_getLast? hst)
  · refine apart.imp fun {x y} below => ?_
    exact UInt32.lt_iff_toNat_lt.mpr (Nat.lt_of_le_of_lt (Nat.le_add_right _ _) below)
  · refine apart.imp fun {x y} below line covered => ?_
    have last := covered.1.2
    have first := covered.2.1
    omega

/-- Statements closed by a comment that goes on, by a comment and by line breaks, two of them with
    a literal over several lines. -/
def staggered : Source :=
  { name := "g.asm", text := "a \x27p\n\\\nq\x27 // c\\\n c\nb // d\n\n\x22r\ns\x22 t\n" }

theorem scan_lines_apart_staggered :
    staggered.text.toList.count '\n' < UInt32.size - 1 ∧
      staggered.scan.table.lines.map (fun st => (st.startLine.toNat, st.startLine.toNat + st.breaks)) =
        [(1, 3), (5, 5), (7, 8)] ∧
      1 + staggered.text.toList.count '\n' = 9 ∧
      staggered.scan.table.lines.IsChain
        (fun x y => x.startLine.toNat + x.breaks < y.startLine.toNat) ∧
      staggered.scan.table.lines.Pairwise fun x y => ∀ line, ¬(x.Covers line ∧ y.Covers line) := by
  have bound : staggered.text.toList.count '\n' < UInt32.size - 1 := by decide
  obtain ⟨-, apart, -, -, disjoint⟩ := scan_lines_apart staggered bound
  exact ⟨bound, by decide +kernel, by decide, apart, disjoint⟩

end AsmScan
