import AsmScan.Proofs.Lines

/-!
The statement that a literal leaves open. It reaches from a line break to the end of the
text, and a scan that fails there is the scan of the lines before it.
-/

namespace AsmScan

def WholeLines (ls : List Lexeme) : Prop := ls = [] ∨ ∃ above, ls = above ++ [.lineBreak]

theorem WholeLines.isOpen_eq_false {ls : List Lexeme} (h : WholeLines ls) (hg : Grammatical ls) :
    ∀ l ∈ ls, l.isOpen = false := by
  obtain rfl | ⟨above, rfl⟩ := h
  · simp
  · intro l hl
    obtain hl | hl := List.mem_append.mp hl
    · exact isOpen_of_append_cons hg l hl
    · obtain rfl := List.mem_singleton.mp hl
      rfl

theorem WholeLines.append {α : Type} {f : List Char → List Lexeme → List α} (hf : RowWise f)
    {front : List Lexeme} (h : WholeLines front) (before : List Char) (ls : List Lexeme) :
    f before (front ++ ls) = f before front ++ f (before ++ front.flatMap Lexeme.text) ls := by
  obtain rfl | ⟨above, rfl⟩ := h
  · simp [hf.nil]
  · rw [hf.concat _ _ rfl, List.append_assoc, List.singleton_append, hf.append_cons _ _ _ rfl]
    simp

theorem exists_open_line {ls : List Lexeme} (hg : Grammatical ls) {k : Lexeme} (hk : k ∈ ls)
    (ho : k.isOpen = true) :
    ∃ front piece l, ls = front ++ (piece ++ [l]) ∧ WholeLines front ∧ Inline piece ∧
      l.isSeparator = false ∧ l.isOpen = true := by
  obtain ⟨front, last, rfl, hn, whole⟩ := exists_last_line ls
  obtain ⟨hf, hl⟩ := grammatical_of_append hg
  have inLast : k ∈ last := by
    refine (List.mem_append.mp hk).resolve_left fun h => ?_
    rw [WholeLines.isOpen_eq_false whole hf k h] at ho
    exact absurd ho (by decide)
  obtain ⟨piece, hi, rfl | ⟨body, rfl⟩ | ⟨quote, body, rfl⟩⟩ := exists_inline_of_no_lineBreak hl hn
  · rw [(hi k inLast).2.2] at ho
    exact absurd ho (by decide)
  · obtain h | h := List.mem_append.mp inLast
    · rw [(hi k h).2.2] at ho
      exact absurd ho (by decide)
    · obtain rfl := List.mem_singleton.mp h
      exact absurd ho Bool.false_ne_true
  · exact ⟨front, piece, .openLiteral quote body, rfl, whole, hi, rfl, rfl⟩

def sourceOf (name : String) (ls : List Lexeme) : Source :=
  ⟨name, String.ofList (ls.flatMap Lexeme.text)⟩

theorem scan_sourceOf (name : String) {ls : List Lexeme} (hg : Grammatical ls) :
    (sourceOf name ls).scan.table = { source := name, lines := statements name [] ls } ∧
      (sourceOf name ls).scan.errors = reports name [] ls := by
  rw [Source.scan_eq, Source.lexemes, sourceOf, String.toList_ofList, lexemes_text hg]
  exact ⟨rfl, rfl⟩

theorem scan_open_line (name : String) {front piece : List Lexeme} {l : Lexeme}
    (hg : Grammatical (front ++ (piece ++ [l]))) (whole : WholeLines front) (hi : Inline piece)
    (hs : l.isSeparator = false) (ho : l.isOpen = true) :
    (sourceOf name (front ++ (piece ++ [l]))).scan.table = (sourceOf name front).scan.table ∧
      (sourceOf name front).scan.errors = [] ∧
      (sourceOf name (front ++ (piece ++ [l]))).scan.errors =
        [{ source := name, line := UInt32.ofNat (lineAfter (front.flatMap Lexeme.text)) }] := by
  obtain ⟨hf, -⟩ := grammatical_of_append hg
  rw [(scan_sourceOf name hg).1, (scan_sourceOf name hg).2, (scan_sourceOf name hf).1,
    (scan_sourceOf name hf).2, whole.append (rowWise_statements name),
    whole.append (rowWise_reports name),
    reports_eq_nil _ _ (whole.isOpen_eq_false hf), statements_of_isOpen hi hs ho,
    reports_of_isOpen hi hs ho, List.append_nil]
  exact ⟨rfl, rfl, rfl⟩

theorem sourceOf_lexemes (s : Source) : sourceOf s.name s.lexemes = s := by
  rw [sourceOf, Source.lexemes, text_lexemes, String.ofList_toList]

theorem exists_split_of_error (s : Source) {e : UnclosedLiteral} (he : e ∈ s.scan.errors) :
    ∃ front tail, s = sourceOf s.name (front ++ tail) ∧ WholeLines front ∧
      (sourceOf s.name front).scan.errors = [] ∧
      (sourceOf s.name front).scan.table = s.scan.table ∧
      s.scan.errors =
        [{ source := s.name, line := UInt32.ofNat (lineAfter (front.flatMap Lexeme.text)) }] ∧
      (sourceOf s.name tail).scan.table.lines = [] ∧
      (sourceOf s.name tail).scan.errors = [{ source := s.name, line := 1 }] := by
  have hg : Grammatical s.lexemes := grammatical_lexemes _
  have failed : ¬∀ l ∈ s.lexemes, l.isOpen = false := by
    rw [← s.errors_eq_nil_iff]
    exact List.ne_nil_of_mem he
  obtain ⟨k, hk, ho⟩ : ∃ k ∈ s.lexemes, k.isOpen = true := by simpa using failed
  obtain ⟨front, piece, l, split, whole, hi, hs, ho⟩ := exists_open_line hg hk ho
  have same : s = sourceOf s.name (front ++ (piece ++ [l])) := by rw [← split, sourceOf_lexemes]
  rw [split] at hg
  obtain ⟨table, clean, errors⟩ := scan_open_line s.name hg whole hi hs ho
  obtain ⟨-, alone⟩ := grammatical_of_append hg
  obtain ⟨own, -, ownErrors⟩ := scan_open_line s.name alone (.inl rfl) hi hs ho
  rw [← same] at table errors
  have nothing : (sourceOf s.name []).scan.table.lines = [] := by
    rw [(@scan_sourceOf s.name [] trivial).1]
    rfl
  exact ⟨front, piece ++ [l], same, whole, clean, table.symm, errors,
    (congrArg Table.lines own).trans nothing, ownErrors⟩

theorem WholeLines.text_ends {ls : List Lexeme} (h : WholeLines ls) :
    String.ofList (ls.flatMap Lexeme.text) = "" ∨
      (String.ofList (ls.flatMap Lexeme.text)).toList.getLast? = some '\n' := by
  obtain rfl | ⟨above, rfl⟩ := h
  · exact .inl rfl
  · exact .inr (by simp [Lexeme.text])

theorem length_errors_le_one (s : Source) : s.scan.errors.length ≤ 1 := by
  cases he : s.scan.errors with
  | nil => exact Nat.zero_le 1
  | cons e es =>
    obtain ⟨front, tail, -, -, -, -, errors, -⟩ :=
      exists_split_of_error s (he ▸ List.mem_cons_self)
    rw [← he, errors]
    exact Nat.le_refl 1

/-- There is at most one error. The text then consists of lines that are scanned without error
    to the same table, and of a statement that gives the error and nothing else. -/
theorem scan_error_split (s : Source) :
    s.scan.errors.length ≤ 1 ∧
      (s.text.toList.count '\n' < UInt32.size - 1 → ∀ e ∈ s.scan.errors, ∃ front rest : String,
        s.text = front ++ rest ∧ (front = "" ∨ front.toList.getLast? = some '\n') ∧
        (Source.mk s.name front).scan.errors = [] ∧
        (Source.mk s.name front).scan.table = s.scan.table ∧
        e.source = s.name ∧ e.line.toNat = 1 + front.toList.count '\n' ∧
        (Source.mk s.name rest).scan.table.lines = [] ∧
        (Source.mk s.name rest).scan.errors = [{ source := s.name, line := 1 }]) := by
  refine ⟨length_errors_le_one s, fun bound e he => ?_⟩
  obtain ⟨front, tail, same, whole, clean, table, errors, ownLines, ownErrors⟩ :=
    exists_split_of_error s he
  have text : s.text = (sourceOf s.name front).text ++ (sourceOf s.name tail).text := by
    rw [same]
    simp [sourceOf]
  have position : s.text.toList = front.flatMap Lexeme.text ++ tail.flatMap Lexeme.text := by
    rw [text]
    simp [sourceOf]
  rw [errors] at he
  obtain rfl := List.mem_singleton.mp he
  refine ⟨(sourceOf s.name front).text, (sourceOf s.name tail).text, text, whole.text_ends,
    clean, table, rfl, ?_, ownLines, ownErrors⟩
  rw [sourceOf, String.toList_ofList]
  exact toNat_lineAfter bound position

/-- A literal stays open behind a token and a literal over two lines. -/
def dangling : Source := { name := "d.asm", text := "ok // c\\\n c\n\nx \x27p\nq\x27 \x22y\nz" }

theorem scan_error_split_dangling :
    dangling.text.toList.count '\n' < UInt32.size - 1 ∧
      ⟨"d.asm", 4⟩ ∈ dangling.scan.errors ∧
      ∃ front rest : String, dangling.text = front ++ rest ∧
        (front = "" ∨ front.toList.getLast? = some '\n') ∧
        (Source.mk "d.asm" front).scan.errors = [] ∧
        (Source.mk "d.asm" front).scan.table =
          { source := "d.asm", lines := [⟨"d.asm", 1, ⟨"ok"⟩, #[]⟩] } ∧
        4 = 1 + front.toList.count '\n' ∧
        (Source.mk "d.asm" rest).scan.table.lines = [] ∧
        (Source.mk "d.asm" rest).scan.errors = [⟨"d.asm", 1⟩] := by
  have bound : dangling.text.toList.count '\n' < UInt32.size - 1 := by decide
  have raised : ⟨"d.asm", 4⟩ ∈ dangling.scan.errors := by decide +kernel
  obtain ⟨front, rest, text, ends, clean, table, -, line, lines, errors⟩ :=
    (scan_error_split dangling).2 bound _ raised
  have kept : dangling.scan.table =
      { source := "d.asm", lines := [⟨"d.asm", 1, ⟨"ok"⟩, #[]⟩] } := by decide +kernel
  exact ⟨bound, raised, front, rest, text, ends, clean, table.trans kept, line, lines, errors⟩

end AsmScan
