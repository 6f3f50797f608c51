import AsmScan.Proofs.Provenance
import AsmScan.Proofs.Rows.Shift

/-!
Two texts joined by a line break. If the break is one that ends a line, each text is
scanned as if it stood alone, and the lines of the second one move.
-/

namespace AsmScan

/-- Whether the text ends in a comment that a line break would belong to. -/
def EndsContinued (text : String) : Prop :=
  ∃ ls body, Segments text (ls ++ [.comment body]) ∧ body.getLast? = some escape

theorem endsContinued_iff {text : String} :
    EndsContinued text ↔
      ∃ body, (lexemes text.toList).getLast? = some (.comment body) ∧
        body.getLast? = some escape := by
  constructor
  · rintro ⟨ls, body, segments, he⟩
    exact ⟨body, by rw [← segments_iff.mp segments]; simp, he⟩
  · rintro ⟨body, last, he⟩
    obtain ⟨ls, split⟩ := List.getLast?_eq_some_iff.mp last
    exact ⟨ls, body, segments_iff.mpr split.symm, he⟩

theorem EndsContinued.getLast? {text : String} (h : EndsContinued text) :
    text.toList.getLast? = some escape := by
  obtain ⟨ls, body, ⟨-, joined⟩, ends⟩ := h
  have last : ('/' :: '/' :: body).getLast? = some escape := by
    rw [List.getLast?_cons_cons]
    exact (getLast?_slash_cons body).mpr ends
  rw [← joined, List.flatMap_append, List.flatMap_singleton, Lexeme.text]
  exact List.mem_getLast?_append_of_mem_getLast? last

theorem lexemes_lineBreak (cs : List Char) :
    lexemes ('\n' :: cs) = .lineBreak :: lexemes cs := by
  rw [lexemes]
  rfl

theorem lexemes_join {a b : List Char}
    (junction : ∀ l ∈ (lexemes a).getLast?, l.MayPrecede ('\n' :: b)) :
    lexemes (a ++ '\n' :: b) = lexemes a ++ .lineBreak :: lexemes b := by
  rw [lexemes_append junction, lexemes_lineBreak]

theorem junction_of_closed {name a : String} (clean : (Source.mk name a).scan.errors = [])
    (ends : ¬EndsContinued a) (b : List Char) :
    ∀ l ∈ (lexemes a.toList).getLast?, l.MayPrecede ('\n' :: b) := by
  intro l hl
  have closed := (Source.errors_eq_nil_iff ⟨name, a⟩).mp clean l (List.mem_of_getLast? hl)
  refine Lexeme.mayPrecede_lineBreak ?_ ?_
  · rintro body rfl he
    exact ends (endsContinued_iff.mpr ⟨body, hl, he⟩)
  · rintro quote body rfl
    exact absurd closed (by simp [Lexeme.isOpen])

theorem scan_join (name : String) {a b : String}
    (junction : ∀ l ∈ (lexemes a.toList).getLast?, l.MayPrecede ('\n' :: b.toList)) :
    (Source.mk name (a ++ "\n" ++ b)).scan.table.lines =
        (Source.mk name a).scan.table.lines ++
          (Source.mk name b).scan.table.lines.map (Statement.shift (1 + a.toList.count '\n')) ∧
      (Source.mk name (a ++ "\n" ++ b)).scan.errors =
        (Source.mk name a).scan.errors ++
          (Source.mk name b).scan.errors.map
            (UnclosedLiteral.shift (1 + a.toList.count '\n')) := by
  have text : (a ++ "\n" ++ b).toList = a.toList ++ '\n' :: b.toList := by simp
  have breaks : ([] ++ a.toList ++ Lexeme.lineBreak.text).count '\n' =
      1 + a.toList.count '\n' := by
    simp [Lexeme.text, Nat.add_comm]
  simp only [Source.scan_eq, Source.lexemes, text, lexemes_join junction]
  rw [statements_append_cons _ _ _ _ rfl, reports_append_cons _ _ _ _ rfl, text_lexemes,
    statements_behind name ([] ++ a.toList ++ Lexeme.lineBreak.text),
    reports_behind name ([] ++ a.toList ++ Lexeme.lineBreak.text), breaks]
  exact ⟨rfl, rfl⟩

theorem toNat_add_ofNat {line : UInt32} {k : Nat} (h : line.toNat + k < UInt32.size) :
    (line + UInt32.ofNat k).toNat = line.toNat + k := by
  have small : k < UInt32.size := by omega
  rw [UInt32.toNat_add, UInt32.toNat_ofNat_of_lt' small]
  exact Nat.mod_eq_of_lt h

/-- A line break that ends a line is a point where a text can be cut. -/
theorem scan_append_lineBreak (name a b : String)
    (bound : (a ++ "\n" ++ b).toList.count '\n' < UInt32.size - 1)
    (clean : (Source.mk name a).scan.errors = []) (ends : ¬EndsContinued a) :
    (Source.mk name (a ++ "\n" ++ b)).scan.table =
        { source := name
          lines := (Source.mk name a).scan.table.lines ++
            (Source.mk name b).scan.table.lines.map
              (Statement.shift (1 + a.toList.count '\n')) } ∧
      (Source.mk name (a ++ "\n" ++ b)).scan.errors =
        (Source.mk name b).scan.errors.map (UnclosedLiteral.shift (1 + a.toList.count '\n')) ∧
      (∀ st ∈ (Source.mk name b).scan.table.lines,
        (st.shift (1 + a.toList.count '\n')).startLine.toNat =
          st.startLine.toNat + (1 + a.toList.count '\n')) ∧
      ∀ e ∈ (Source.mk name b).scan.errors,
        (e.shift (1 + a.toList.count '\n')).line.toNat =
          e.line.toNat + (1 + a.toList.count '\n') := by
  obtain ⟨lines, errors⟩ := scan_join name (junction_of_closed clean ends b.toList)
  rw [clean, List.nil_append] at errors
  have total : (a ++ "\n" ++ b).toList.count '\n' =
      a.toList.count '\n' + (1 + b.toList.count '\n') := by
    simp [Nat.add_comm]
  rw [total] at bound
  have boundRight : (Source.mk name b).text.toList.count '\n' < UInt32.size - 1 := by
    change b.toList.count '\n' < UInt32.size - 1
    omega
  refine ⟨by rw [← lines]; rfl, errors, ?_, ?_⟩
  · intro st hst
    have last : st.startLine.toNat ≤ 1 + b.toList.count '\n' := startLine_le boundRight hst
    exact toNat_add_ofNat (by omega)
  · intro e he
    have last : e.line.toNat ≤ 1 + b.toList.count '\n' := errorLine_le boundRight he
    exact toNat_add_ofNat (by omega)

/-- The first text ends in a comment, the second one has a literal that stays open. -/
theorem scan_append_lineBreak_comment :
    (Source.mk "j" ("x \x27p\nq\x27 // c" ++ "\n" ++ "y\n\x22z")).scan.table =
        { source := "j"
          lines := [⟨"j", 1, ⟨"x"⟩, #[⟨"\x27p\nq\x27"⟩]⟩, ⟨"j", 3, ⟨"y"⟩, #[]⟩] } ∧
      (Source.mk "j" ("x \x27p\nq\x27 // c" ++ "\n" ++ "y\n\x22z")).scan.errors = [⟨"j", 4⟩] := by
  have continued : ¬EndsContinued "x \x27p\nq\x27 // c" := by
    rw [endsContinued_iff]
    rintro ⟨body, last, he⟩
    have comment : (lexemes "x \x27p\nq\x27 // c".toList).getLast? =
        some (.comment [' ', 'c']) := by decide +kernel
    rw [comment] at last
    obtain rfl : [' ', 'c'] = body := by simpa using last
    exact absurd he (by decide)
  obtain ⟨table, errors, -⟩ := scan_append_lineBreak "j" "x \x27p\nq\x27 // c" "y\n\x22z"
    (by decide) (by decide +kernel) continued
  rw [table, errors]
  exact ⟨by decide +kernel, by decide +kernel⟩

end AsmScan
