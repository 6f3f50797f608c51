import AsmScan.Proofs.Lines

/-!
Texts that go on. More text can change only the last lexeme, and a lexeme adds at most one
statement to a table, so every statement but the last stays as it is.
-/

namespace AsmScan

namespace Scan.State

/-- The statements of the table if the text ended here. -/
def tableLines (s : State) : List Statement := s.lines.toList ++ s.pending.toList

theorem lines_close (s : State) : s.close.lines.toList = s.tableLines := by
  rw [tableLines, close]
  cases s.pending <;> simp

theorem tableLines_close (s : State) : s.close.tableLines = s.tableLines := by
  rw [tableLines, lines_close]
  exact List.append_nil _

theorem lines_pushChars (source : String) (s : State) (cs : List Char) :
    (s.pushChars source cs).lines = s.lines := by
  rw [pushChars]
  split <;> rfl

theorem tableLines_pushChars (source : String) (s : State) (cs : List Char) :
    (s.pushChars source cs).tableLines =
      s.lines.toList ++ (s.pushChars source cs).pending.toList := by
  rw [tableLines, lines_pushChars]

theorem lines_feed (source : String) (s : State) (l : Lexeme) :
    s.lines.toList <+: (feed source s l).lines.toList := by
  cases l with
  | blank c | openLiteral quote body => exact List.prefix_rfl
  | lineBreak | comment body =>
    rw [feed, lines_close]
    exact List.prefix_append _ _
  | symbol c | literal quote body | word cs =>
    rw [feed, lines_pushChars]
    exact List.prefix_rfl

theorem lines_run (source : String) (s : State) (ls : List Lexeme) :
    s.lines.toList <+: (ls.foldl (feed source) s).tableLines := by
  induction ls generalizing s with
  | nil => exact List.prefix_append _ _
  | cons l ls ih => exact (lines_feed source s l).trans (ih (feed source s l))

theorem exists_tableLines_feed (source : String) (s : State) (l : Lexeme) :
    ∃ last : Option Statement, (feed source s l).tableLines = s.lines.toList ++ last.toList := by
  cases l with
  | blank c => exact ⟨s.pending, rfl⟩
  | lineBreak | comment body => exact ⟨s.pending, tableLines_close _⟩
  | symbol c | literal quote body | word cs => exact ⟨_, tableLines_pushChars _ _ _⟩
  | openLiteral quote body => exact ⟨none, rfl⟩

theorem tableLines_feed_of_isOpen (source : String) (s : State) {l : Lexeme}
    (ho : l.isOpen = true) : (feed source s l).tableLines = s.lines.toList := by
  rw [feed_of_isOpen source s ho]
  exact List.append_nil _

end Scan.State

def Source.endState (s : Source) : Scan.State := s.lexemes.foldl (Scan.State.feed s.name) {}

theorem Source.lines_scan (s : Source) : s.scan.table.lines = s.endState.tableLines :=
  s.endState.lines_close

theorem Source.errors_scan (s : Source) : s.scan.errors = s.endState.errors.toList := rfl

theorem dropLast_append_toList {α : Type} (xs : List α) (last : Option α) :
    (xs ++ last.toList).dropLast <+: xs := by
  cases last with
  | none => simpa using List.dropLast_prefix xs
  | some x => simp

theorem lines_prefix_append (name : String) {p : String} {ls : List Lexeme} {l : Lexeme}
    (split : lexemes p.toList = ls ++ [l]) (s : String) :
    (ls.foldl (Scan.State.feed name) {}).lines.toList <+:
      (Source.mk name (p ++ s)).scan.table.lines := by
  have lexed : (Source.mk name (p ++ s)).lexemes = ls ++ lexemes (l.text ++ s.toList) := by
    rw [Source.lexemes, String.toList_append, lexemes_append_of_concat split]
  rw [Source.lines_scan, Source.endState, lexed, List.foldl_append]
  exact Scan.State.lines_run _ _ _

theorem Source.isOpen_last (s : Source) {ls : List Lexeme} {l : Lexeme}
    (split : s.lexemes = ls ++ [l]) (failed : s.scan.errors ≠ []) : l.isOpen = true := by
  have hg : Grammatical (ls ++ [l]) := split ▸ grammatical_lexemes s.text.toList
  rw [Ne, s.errors_eq_nil_iff, split] at failed
  refine eq_true_of_ne_false fun closed => failed fun k hk => ?_
  obtain hk | hk := List.mem_append.mp hk
  · exact isOpen_of_append_cons hg k hk
  · obtain rfl := List.mem_singleton.mp hk
    exact closed

/-- Appending text keeps all statements but the last, wherever the first text was cut. If a
    literal is open there, it keeps all of them. -/
theorem scan_append_keeps (name p s : String) :
    (Source.mk name p).scan.table.lines.dropLast <+:
        (Source.mk name (p ++ s)).scan.table.lines ∧
      ((Source.mk name p).scan.errors ≠ [] →
        (Source.mk name p).scan.table.lines <+: (Source.mk name (p ++ s)).scan.table.lines) := by
  obtain empty | ⟨ls, l, split⟩ := List.eq_nil_or_concat' (lexemes p.toList)
  · have none : (Source.mk name p).scan.table.lines = [] := by
      rw [Source.lines_scan, Source.endState, Source.lexemes, empty]
      rfl
    rw [none]
    exact ⟨List.nil_prefix, fun _ => List.nil_prefix⟩
  · have kept := lines_prefix_append name split s
    have lines : (Source.mk name p).scan.table.lines =
        (Scan.State.feed name (ls.foldl (Scan.State.feed name) {}) l).tableLines := by
      rw [Source.lines_scan, Source.endState, Source.lexemes, split, List.foldl_concat]
    rw [lines]
    constructor
    · obtain ⟨last, added⟩ :=
        Scan.State.exists_tableLines_feed name (ls.foldl (Scan.State.feed name) {}) l
      rw [added]
      exact (dropLast_append_toList _ last).trans kept
    · intro failed
      rw [Scan.State.tableLines_feed_of_isOpen _ _ (Source.isOpen_last ⟨name, p⟩ split failed)]
      exact kept

/-- A text that ends behind a backslash in a literal. -/
def torn : String := "a // c\nb\n\x27x\ny\x27 \x22z\\"

theorem scan_append_keeps_torn :
    (Source.mk "t" torn).scan.errors ≠ [] ∧
      (Source.mk "t" torn).scan.table.lines =
        [⟨"t", 1, ⟨"a"⟩, #[]⟩, ⟨"t", 2, ⟨"b"⟩, #[]⟩] ∧
      [⟨"t", 1, ⟨"a"⟩, #[]⟩, ⟨"t", 2, ⟨"b"⟩, #[]⟩] <+:
        (Source.mk "t" (torn ++ "\x22w\x22 d\ne")).scan.table.lines := by
  have failed : (Source.mk "t" torn).scan.errors ≠ [] := by decide +kernel
  have lines : (Source.mk "t" torn).scan.table.lines =
      [⟨"t", 1, ⟨"a"⟩, #[]⟩, ⟨"t", 2, ⟨"b"⟩, #[]⟩] := by decide +kernel
  have kept := (scan_append_keeps "t" torn "\x22w\x22 d\ne").2 failed
  rw [lines] at kept
  exact ⟨failed, lines, kept⟩

end AsmScan
