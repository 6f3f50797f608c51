import AsmScan.Fault
import AsmScan.Proofs.Tokens

/-!
Rows, the stretches of lexemes between line breaks and comments. A row with a token
gives one statement, unless a literal stays open in it. Every lexeme and every token
is kept with the text before it, from which its line is read off.
-/

namespace AsmScan

structure Placed where
  before : List Char
  lexeme : Lexeme

structure Mark where
  before : List Char
  token : Token

def place (before : List Char) : List Lexeme → List Placed
  | [] => []
  | l :: ls => ⟨before, l⟩ :: place (before ++ l.text) ls

/-- The line, counted from one, of what stands right after the text. -/
def lineAfter (before : List Char) : Nat := 1 + before.count '\n'

def Mark.line (m : Mark) : Nat := lineAfter m.before

def Placed.mark? (p : Placed) : Option Mark :=
  p.lexeme.token?.map fun t => ⟨p.before ++ p.lexeme.lead, t⟩

abbrev Row := List Placed

def rows (ps : List Placed) : List Row := ps.splitOnP fun p => p.lexeme.isSeparator

namespace Row

def marks (row : Row) : List Mark := row.filterMap Placed.mark?

def isOpen (row : Row) : Bool := row.any fun p => p.lexeme.isOpen

/-- The statement of a row starts on the line of its first token. -/
def statement? (source : String) (row : Row) : Option Statement :=
  if isOpen row then none
  else match marks row with
    | [] => none
    | m :: ms => some
        { source
          startLine := UInt32.ofNat m.line
          first := m.token
          others := (ms.map Mark.token).toArray }

/-- An open literal is reported on the line of the first token of its row, or on its
    own if no token stands before it. -/
def unclosed? (source : String) (row : Row) : Option UnclosedLiteral :=
  (row.find? fun p => p.lexeme.isOpen).map fun p =>
    { source
      line := UInt32.ofNat ((((marks row).head?.map Mark.line).getD (lineAfter p.before))) }

def trace (row : Row) : List (UInt32 × Token) :=
  match marks row with
  | [] => []
  | m :: ms => (m :: ms).map fun k => (UInt32.ofNat m.line, k.token)

end Row

def statements (source : String) (before : List Char) (ls : List Lexeme) : List Statement :=
  (rows (place before ls)).filterMap (Row.statement? source)

def reports (source : String) (before : List Char) (ls : List Lexeme) : List UnclosedLiteral :=
  (rows (place before ls)).filterMap (Row.unclosed? source)

theorem place_append (before : List Char) (ls ms : List Lexeme) :
    place before (ls ++ ms) =
      place before ls ++ place (before ++ ls.flatMap Lexeme.text) ms := by
  induction ls generalizing before with
  | nil => simp [place]
  | cons l ls ih => simp [place, ih]

theorem map_lexeme_place (before : List Char) (ls : List Lexeme) :
    (place before ls).map Placed.lexeme = ls := by
  induction ls generalizing before with
  | nil => rfl
  | cons l ls ih => simp [place, ih]

theorem lexeme_mem_of_mem_place {before : List Char} {ls : List Lexeme} {p : Placed}
    (h : p ∈ place before ls) : p.lexeme ∈ ls := by
  rw [← map_lexeme_place before ls]
  exact List.mem_map_of_mem h

theorem exists_append_of_mem_place {before : List Char} {ls : List Lexeme} {p : Placed}
    (h : p ∈ place before ls) :
    ∃ after, before ++ ls.flatMap Lexeme.text = p.before ++ p.lexeme.text ++ after := by
  induction ls generalizing before with
  | nil => simp [place] at h
  | cons l ls ih =>
    obtain rfl | h := List.mem_cons.mp h
    · exact ⟨ls.flatMap Lexeme.text, by simp⟩
    · obtain ⟨after, heq⟩ := ih h
      exact ⟨after, by simpa using heq⟩

theorem lineAfter_append (before more : List Char) :
    lineAfter (before ++ more) = lineAfter before + more.count '\n' := by
  simp [lineAfter, Nat.add_assoc]

theorem splitOnP_map {α β : Type} (f : α → β) (p : β → Bool) (xs : List α) :
    (xs.map f).splitOnP p = (xs.splitOnP fun x => p (f x)).map (List.map f) := by
  induction xs with
  | nil => rfl
  | cons x xs ih =>
    rw [List.map_cons, List.splitOnP_cons_eq_if_modifyHead, List.splitOnP_cons_eq_if_modifyHead, ih]
    split
    · rfl
    · cases xs.splitOnP fun x => p (f x) <;> rfl

theorem rows_of_no_separator {before : List Char} {ls : List Lexeme}
    (h : ∀ l ∈ ls, l.isSeparator = false) : rows (place before ls) = [place before ls] :=
  List.splitOnP_eq_singleton fun _ hp => h _ (lexeme_mem_of_mem_place hp)

theorem rows_append_cons (before : List Char) (ls ms : List Lexeme) {l : Lexeme}
    (h : l.isSeparator = true) :
    rows (place before (ls ++ l :: ms)) =
      rows (place before ls) ++ rows (place (before ++ ls.flatMap Lexeme.text ++ l.text) ms) := by
  rw [place_append, place]
  exact List.splitOnP_append_cons _ _ h

theorem flatten_rows (ps : List Placed) :
    (rows ps).flatten = ps.filter fun p => !p.lexeme.isSeparator := by
  induction ps with
  | nil => rfl
  | cons p ps ih =>
    rw [rows] at ih ⊢
    rw [List.splitOnP_cons_eq_if_modifyHead]
    cases hr : ps.splitOnP fun p => p.lexeme.isSeparator with
    | nil => exact absurd hr (List.splitOnP_ne_nil _ _)
    | cons row rest =>
      rw [hr] at ih
      split
      · next hs => simpa [hs] using ih
      · next hs => simpa [hs] using congrArg (p :: ·) ih

theorem mem_of_mem_rows {ps : List Placed} {row : Row} {p : Placed} (hr : row ∈ rows ps)
    (hp : p ∈ row) : p ∈ ps := by
  have kept : p ∈ (rows ps).flatten := List.mem_flatten.mpr ⟨row, hr, hp⟩
  rw [flatten_rows] at kept
  exact (List.mem_filter.mp kept).1

theorem any_isOpen_rows (ps : List Placed) :
    (rows ps).any (fun row => row.any fun p => p.lexeme.isOpen) =
      ps.any fun p => p.lexeme.isOpen := by
  rw [← List.any_flatten, flatten_rows, List.any_filter]
  congr 1
  funext p
  cases hs : p.lexeme.isSeparator with
  | true => rw [Lexeme.isOpen_of_isSeparator hs]; rfl
  | false => rfl

/-- Lexemes of one line, none of them open. -/
def Inline (ls : List Lexeme) : Prop :=
  ∀ l ∈ ls, l.WellFormed ∧ l.isSeparator = false ∧ l.isOpen = false

theorem inline_nil : Inline [] := fun _ h => absurd h List.not_mem_nil

theorem inline_singleton {l : Lexeme} (h : l.WellFormed) (hs : ¬l.isSeparator = true)
    (ho : ¬l.isOpen = true) : Inline [l] := by
  intro k hk
  obtain rfl := List.mem_singleton.mp hk
  exact ⟨h, eq_false_of_ne_true hs, eq_false_of_ne_true ho⟩

theorem separator_or_open_or_inline {l : Lexeme} {ls : List Lexeme} (h : Grammatical (l :: ls)) :
    l.isSeparator = true ∨ (l.isSeparator = false ∧ l.isOpen = true ∧ ls = []) ∨ Inline [l] := by
  by_cases hs : l.isSeparator = true
  · exact .inl hs
  · by_cases ho : l.isOpen = true
    · exact .inr (.inl ⟨eq_false_of_ne_true hs, ho, eq_nil_of_isOpen h ho⟩)
    · exact .inr (.inr (inline_singleton h.1 hs ho))

theorem rows_inline (start : List Char) {piece : List Lexeme} (hi : Inline piece) :
    rows (place start piece) = [place start piece] :=
  rows_of_no_separator fun l hl => (hi l hl).2.1

theorem rows_inline_append (start : List Char) {piece : List Lexeme} {l : Lexeme}
    (hi : Inline piece) (hs : l.isSeparator = false) :
    rows (place start (piece ++ [l])) = [place start (piece ++ [l])] := by
  refine rows_of_no_separator fun k hk => ?_
  obtain hk | hk := List.mem_append.mp hk
  · exact (hi k hk).2.1
  · obtain rfl := List.mem_singleton.mp hk
    exact hs

theorem Inline.append {ls ms : List Lexeme} (hl : Inline ls) (hm : Inline ms) :
    Inline (ls ++ ms) := by
  intro l h
  exact (List.mem_append.mp h).elim (hl l) (hm l)

namespace Row

theorem map_token_marks (row : Row) :
    (marks row).map Mark.token = (row.map Placed.lexeme).filterMap Lexeme.token? := by
  rw [marks, List.map_filterMap, List.filterMap_map]
  refine List.filterMap_congr fun p _ => ?_
  cases h : p.lexeme.token? <;> simp [Placed.mark?, h]

theorem marks_append_of_none {start : List Char} {piece : List Lexeme} {l : Lexeme}
    (h : l.token? = none) :
    marks (place start (piece ++ [l])) = marks (place start piece) := by
  rw [place_append, marks, List.filterMap_append]
  simp [marks, place, Placed.mark?, h]

theorem marks_append_of_some {start : List Char} {piece : List Lexeme} {l : Lexeme} {t : Token}
    (h : l.token? = some t) :
    marks (place start (piece ++ [l])) =
      marks (place start piece) ++ [⟨start ++ piece.flatMap Lexeme.text ++ l.lead, t⟩] := by
  rw [place_append, marks, List.filterMap_append]
  simp [marks, place, Placed.mark?, h]

theorem isOpen_place (start : List Char) {piece : List Lexeme} (h : Inline piece) :
    isOpen (place start piece) = false := by
  rw [isOpen, List.any_eq_false]
  intro p hp
  simp [(h _ (lexeme_mem_of_mem_place hp)).2.2]

theorem count_of_marks_eq_nil {start : List Char} {piece : List Lexeme} (hi : Inline piece)
    (h : marks (place start piece) = []) : (piece.flatMap Lexeme.text).count '\n' = 0 := by
  induction piece generalizing start with
  | nil => rfl
  | cons l ls ih =>
    have none : Placed.mark? ⟨start, l⟩ = none := List.filterMap_eq_nil_iff.mp h _ (by simp [place])
    have tail : marks (place (start ++ l.text) ls) = [] := by
      simpa [marks, place, none] using h
    obtain ⟨formed, hs, ho⟩ := hi l (by simp)
    have gap := Lexeme.count_text_of_token?_eq_none formed
      (by simpa [Placed.mark?] using none) hs ho
    have rest := ih (fun k hk => hi k (List.mem_cons_of_mem l hk)) tail
    simp [gap, rest]

theorem line_of_marks {start : List Char} {piece : List Lexeme} (hi : Inline piece)
    {m : Mark} {ms : List Mark} (h : marks (place start piece) = m :: ms) :
    m.line = lineAfter start := by
  induction piece generalizing start with
  | nil => simp [marks, place] at h
  | cons l ls ih =>
    obtain ⟨formed, hs, ho⟩ := hi l (by simp)
    cases ht : l.token? with
    | none =>
      have tail : marks (place (start ++ l.text) ls) = m :: ms := by
        simpa [marks, place, Placed.mark?, ht] using h
      have gap := Lexeme.count_text_of_token?_eq_none formed ht hs ho
      rw [ih (fun k hk => hi k (List.mem_cons_of_mem l hk)) tail, lineAfter_append, gap]
      rfl
    | some t =>
      have first : Mark.mk (start ++ l.lead) t = m := by
        simp only [marks, place, Placed.mark?, ht, List.filterMap_cons, Option.map_some] at h
        exact (List.cons.inj h).1
      rw [← first, Mark.line, lineAfter_append, Lexeme.count_lead formed]
      rfl

theorem of_statement? {source : String} {row : Row} {st : Statement}
    (h : statement? source row = some st) :
    st.source = source ∧ st.tokens = (marks row).map Mark.token ∧
      ∃ m ∈ (marks row).head?, st.startLine = UInt32.ofNat m.line := by
  rw [statement?] at h
  split at h
  · exact absurd h (by simp)
  · cases hm : marks row with
    | nil => simp [hm] at h
    | cons m ms =>
      rw [hm] at h
      obtain rfl := Option.some.inj h
      exact ⟨rfl, by simp [Statement.tokens], m, rfl, rfl⟩

theorem statement?_of_isOpen {source : String} {row : Row} (h : isOpen row = true) :
    statement? source row = none :=
  if_pos h

theorem statement?_eq (source : String) {start : List Char} {piece : List Lexeme}
    (hi : Inline piece) :
    statement? source (place start piece) =
      Statement.ofTokens? source (UInt32.ofNat (lineAfter start))
        ((marks (place start piece)).map Mark.token) := by
  rw [statement?, isOpen_place start hi]
  cases h : marks (place start piece) with
  | nil => rfl
  | cons m ms =>
    rw [← line_of_marks hi h]
    rfl

theorem trace_eq {start : List Char} {piece : List Lexeme} (hi : Inline piece) :
    trace (place start piece) =
      (marks (place start piece)).map fun m => (UInt32.ofNat (lineAfter start), m.token) := by
  rw [trace]
  cases h : marks (place start piece) with
  | nil => rfl
  | cons m ms =>
    rw [← line_of_marks hi h]

theorem trace_append_of_none {start : List Char} {piece : List Lexeme} {l : Lexeme}
    (h : l.token? = none) :
    trace (place start (piece ++ [l])) = trace (place start piece) := by
  rw [trace, marks_append_of_none h, trace]

theorem trace_append_of_some {start : List Char} {piece : List Lexeme} {l : Lexeme} {t : Token}
    (hi : Inline piece) (hl : Inline [l]) (h : l.token? = some t) :
    trace (place start (piece ++ [l])) =
      trace (place start piece) ++ [(UInt32.ofNat (lineAfter start), t)] := by
  rw [trace_eq (hi.append hl), trace_eq hi, marks_append_of_some h, List.map_append]
  rfl

theorem unclosed?_eq_none_iff {source : String} {row : Row} :
    unclosed? source row = none ↔ isOpen row = false := by
  simp [unclosed?, isOpen]

theorem unclosed?_eq_none {source : String} {start : List Char} {piece : List Lexeme}
    (hi : Inline piece) : unclosed? source (place start piece) = none :=
  unclosed?_eq_none_iff.mpr (isOpen_place _ hi)

theorem isOpen_place_append {start : List Char} (piece : List Lexeme) {l : Lexeme}
    (ho : l.isOpen = true) : isOpen (place start (piece ++ [l])) = true := by
  simp [isOpen, place_append, place, ho]

theorem unclosed?_eq (source : String) {start : List Char} {piece : List Lexeme} {l : Lexeme}
    (hi : Inline piece) (ho : l.isOpen = true) :
    unclosed? source (place start (piece ++ [l])) =
      some { source, line := UInt32.ofNat (lineAfter start) } := by
  have front : (place start piece).find? (fun p => p.lexeme.isOpen) = none := by
    simpa [isOpen] using isOpen_place start hi
  have found : (place start (piece ++ [l])).find? (fun p => p.lexeme.isOpen) =
      some ⟨start ++ piece.flatMap Lexeme.text, l⟩ := by
    rw [place_append, List.find?_append, front]
    simp [place, ho]
  rw [unclosed?, found, marks_append_of_none (Lexeme.token?_of_isOpen ho)]
  cases h : marks (place start piece) with
  | nil => simp [lineAfter_append, count_of_marks_eq_nil hi h]
  | cons m ms => simp [line_of_marks hi h]

end Row

theorem statements_append_cons (source : String) (before : List Char) (ls ms : List Lexeme)
    {l : Lexeme} (h : l.isSeparator = true) :
    statements source before (ls ++ l :: ms) = statements source before ls ++
      statements source (before ++ ls.flatMap Lexeme.text ++ l.text) ms := by
  rw [statements, rows_append_cons before ls ms h, List.filterMap_append]
  rfl

theorem reports_append_cons (source : String) (before : List Char) (ls ms : List Lexeme)
    {l : Lexeme} (h : l.isSeparator = true) :
    reports source before (ls ++ l :: ms) = reports source before ls ++
      reports source (before ++ ls.flatMap Lexeme.text ++ l.text) ms := by
  rw [reports, rows_append_cons before ls ms h, List.filterMap_append]
  rfl

theorem statements_inline {source : String} {start : List Char} {piece : List Lexeme}
    (hi : Inline piece) :
    statements source start piece =
      (Statement.ofTokens? source (UInt32.ofNat (lineAfter start))
        (piece.filterMap Lexeme.token?)).toList := by
  have tokens := Row.map_token_marks (place start piece)
  rw [map_lexeme_place] at tokens
  rw [statements, rows_inline start hi, ← tokens, ← Row.statement?_eq source hi]
  cases h : Row.statement? source (place start piece) <;> simp [h]

theorem reports_inline {source : String} {start : List Char} {piece : List Lexeme}
    (hi : Inline piece) : reports source start piece = [] := by
  rw [reports, rows_inline start hi, List.filterMap_cons_none (Row.unclosed?_eq_none hi)]
  rfl

theorem statements_cons (source : String) (before : List Char) (ms : List Lexeme) {l : Lexeme}
    (h : l.isSeparator = true) :
    statements source before (l :: ms) = statements source (before ++ l.text) ms := by
  have split := statements_append_cons source before [] ms h
  rwa [List.nil_append, List.flatMap_nil, List.append_nil] at split

theorem reports_cons (source : String) (before : List Char) (ms : List Lexeme) {l : Lexeme}
    (h : l.isSeparator = true) :
    reports source before (l :: ms) = reports source (before ++ l.text) ms := by
  have split := reports_append_cons source before [] ms h
  rwa [List.nil_append, List.flatMap_nil, List.append_nil] at split

end AsmScan
