import AsmScan.Proofs.Spacing

/-!
Single lines of a text. Between two line breaks that end lines stands one row, after which
at most a comment or a literal that stays open can come.
-/

namespace AsmScan

/-- What is read off a text row by row, each row with what stands before it. -/
structure RowWise {α : Type} (f : List Char → List Lexeme → List α) : Prop where
  nil (before : List Char) : f before [] = []
  append_cons (before : List Char) (ls ms : List Lexeme) {l : Lexeme} (h : l.isSeparator = true) :
    f before (ls ++ l :: ms) =
      f before ls ++ f (before ++ ls.flatMap Lexeme.text ++ l.text) ms

theorem rowWise_statements (source : String) : RowWise (statements source) where
  nil _ := rfl
  append_cons before ls ms _ h := statements_append_cons source before ls ms h

theorem rowWise_reports (source : String) : RowWise (reports source) where
  nil _ := rfl
  append_cons before ls ms _ h := reports_append_cons source before ls ms h

section RowWise

variable {α : Type} {f : List Char → List Lexeme → List α} (hf : RowWise f)
include hf

theorem RowWise.concat (before : List Char) (ls : List Lexeme) {l : Lexeme}
    (h : l.isSeparator = true) : f before (ls ++ [l]) = f before ls := by
  rw [hf.append_cons before ls [] h, hf.nil, List.append_nil]

end RowWise

theorem exists_inline_of_no_lineBreak {ls : List Lexeme} (hg : Grammatical ls)
    (hn : .lineBreak ∉ ls) :
    ∃ piece, Inline piece ∧
      (ls = piece ∨ (∃ body, ls = piece ++ [.comment body]) ∨
        ∃ quote body, ls = piece ++ [.openLiteral quote body]) := by
  induction ls with
  | nil => exact ⟨[], inline_nil, .inl rfl⟩
  | cons l ls ih =>
    obtain hs | ⟨-, ho, rfl⟩ | hl := separator_or_open_or_inline hg
    · cases l with
      | lineBreak => exact absurd List.mem_cons_self hn
      | comment body =>
        cases ls with
        | nil => exact ⟨[], inline_nil, .inr (.inl ⟨body, rfl⟩)⟩
        | cons k ls =>
          obtain rfl := eq_lineBreak_of_comment hg
          exact absurd (List.mem_cons_of_mem _ List.mem_cons_self) hn
      | _ => exact absurd hs (by simp [Lexeme.isSeparator])
    · cases l with
      | openLiteral quote body => exact ⟨[], inline_nil, .inr (.inr ⟨quote, body, rfl⟩)⟩
      | _ => exact absurd ho (by simp [Lexeme.isOpen])
    · obtain ⟨piece, hi, shape⟩ := ih hg.2.2 fun h => hn (List.mem_cons_of_mem l h)
      refine ⟨l :: piece, hl.append hi, ?_⟩
      obtain rfl | ⟨body, rfl⟩ | ⟨quote, body, rfl⟩ := shape
      · exact .inl rfl
      · exact .inr (.inl ⟨body, rfl⟩)
      · exact .inr (.inr ⟨quote, body, rfl⟩)

theorem length_statements_inline (source : String) (before : List Char) {piece : List Lexeme}
    (hi : Inline piece) : (statements source before piece).length ≤ 1 := by
  rw [statements_inline hi]
  exact Option.length_toList_le

theorem length_statements_line (source : String) (before : List Char) {ls : List Lexeme}
    (hg : Grammatical ls) (hn : .lineBreak ∉ ls) :
    (statements source before ls).length ≤ 1 := by
  obtain ⟨piece, hi, rfl | ⟨body, rfl⟩ | ⟨quote, body, rfl⟩⟩ := exists_inline_of_no_lineBreak hg hn
  · exact length_statements_inline source before hi
  · rw [(rowWise_statements source).concat _ _ rfl]
    exact length_statements_inline source before hi
  · rw [statements_of_isOpen hi rfl rfl]
    exact Nat.zero_le 1

theorem reports_eq_nil (source : String) (before : List Char) {ls : List Lexeme}
    (h : ∀ l ∈ ls, l.isOpen = false) : reports source before ls = [] := by
  refine List.filterMap_eq_nil_iff.mpr fun row hr => Row.unclosed?_eq_none_iff.mpr ?_
  refine List.any_eq_false.mpr fun p hp => ?_
  simp [h _ (lexeme_mem_of_mem_place (mem_of_mem_rows hr hp))]

theorem reports_of_isOpen {source : String} {start : List Char} {piece : List Lexeme}
    {l : Lexeme} (hi : Inline piece) (hs : l.isSeparator = false) (ho : l.isOpen = true) :
    reports source start (piece ++ [l]) =
      [{ source, line := UInt32.ofNat (lineAfter start) }] := by
  rw [reports, rows_inline_append start hi hs, List.filterMap_cons_some (Row.unclosed?_eq _ hi ho)]
  rfl

theorem isOpen_of_append_cons {ls ms : List Lexeme} {m : Lexeme} (h : Grammatical (ls ++ m :: ms)) :
    ∀ l ∈ ls, l.isOpen = false := by
  induction ls with
  | nil => simp
  | cons l ls ih =>
    intro k hk
    obtain rfl | hk := List.mem_cons.mp hk
    · refine eq_false_of_ne_true fun ho => ?_
      exact absurd (eq_nil_of_isOpen h ho) (by simp)
    · exact ih h.2.2 k hk

theorem exists_last_line (ls : List Lexeme) :
    ∃ front last, ls = front ++ last ∧ .lineBreak ∉ last ∧
      (front = [] ∨ ∃ above, front = above ++ [.lineBreak]) := by
  induction ls with
  | nil => exact ⟨[], [], rfl, by simp, .inl rfl⟩
  | cons l ls ih =>
    obtain ⟨front, last, rfl, hn, rfl | ⟨above, rfl⟩⟩ := ih
    · by_cases hl : l = .lineBreak
      · exact ⟨[l], last, rfl, hn, .inr ⟨[], by simp [hl]⟩⟩
      · exact ⟨[], l :: last, rfl, by simp [hn, Ne.symm hl], .inl rfl⟩
    · exact ⟨l :: above ++ [.lineBreak], last, by simp, hn, .inr ⟨l :: above, rfl⟩⟩

end AsmScan
