import AsmScan.Proofs.Concatenation
import AsmScan.Proofs.Extension
import AsmScan.Proofs.Layout

/-!
A comment behind a text. It changes nothing in the table, whatever stands in it and on however
many lines it goes on. It goes on only where the backslash is the last character of the line: a
carriage return behind the backslash ends it.
-/

namespace AsmScan

def note (body : List Char) : List Char := ' ' :: '/' :: '/' :: body

theorem CommentBody.append {front back : List Char} (hf : CommentBody front)
    (hb : back.IsChain fun a b => b = '\n' → a = escape)
    (junction : back.head? = some '\n' → front.getLast? = some escape) :
    CommentBody (front ++ back) := by
  change ('/' :: front ++ back).IsChain fun a b => b = '\n' → a = escape
  refine List.IsChain.append hf hb ?_
  rintro a ha b hb rfl
  have last := (getLast?_slash_cons front).mpr (junction hb)
  exact Option.some.inj (ha.symm.trans last)

theorem CommentBody.append_note {front body : List Char} (hf : CommentBody front)
    (hb : CommentBody body) : CommentBody (front ++ note body) := by
  refine hf.append ?_ (by simp [note])
  have slashes : ('/' :: '/' :: body).IsChain fun a b => b = '\n' → a = escape :=
    List.isChain_cons_cons.mpr ⟨by simp, hb⟩
  exact List.isChain_cons_cons.mpr ⟨by simp, slashes⟩

theorem lexemes_note_of_comment {cs front body : List Char} {ls : List Lexeme}
    (split : lexemes cs = ls ++ [.comment front]) (hb : CommentBody body) :
    lexemes (cs ++ note body) = ls ++ [.comment (front ++ note body)] := by
  have hg : Grammatical (ls ++ [.comment front]) := split ▸ grammatical_lexemes cs
  have hf : CommentBody front := (grammatical_of_append hg).2.1
  have whole : Grammatical [.comment (front ++ note body)] :=
    ⟨hf.append_note hb, Lexeme.mayPrecede_nil _, trivial⟩
  have text : [Lexeme.comment (front ++ note body)].flatMap Lexeme.text =
      Lexeme.text (.comment front) ++ note body := by
    simp [Lexeme.text]
  rw [lexemes_append_of_concat split, ← text, lexemes_text whole]

theorem lexemes_note {cs body : List Char}
    (closed : ∀ l ∈ (lexemes cs).getLast?, l.isOpen = false)
    (silent : ∀ l ∈ (lexemes cs).getLast?, ∀ front, l ≠ .comment front)
    (hb : CommentBody body) :
    lexemes (cs ++ note body) = lexemes cs ++ [.blank ' ', .comment body] := by
  have own : Grammatical [.blank ' ', .comment body] :=
    ⟨.inl rfl, trivial, hb, Lexeme.mayPrecede_nil _, trivial⟩
  have text : [Lexeme.blank ' ', .comment body].flatMap Lexeme.text = note body := by
    simp [Lexeme.text, note]
  rw [lexemes_append, ← text, lexemes_text own]
  intro l hl
  by_cases hs : l.isSeparator = true
  · cases l with
    | lineBreak => trivial
    | comment front => exact absurd rfl (silent _ hl front)
    | _ => exact absurd hs (by simp [Lexeme.isSeparator])
  · have formed := wellFormed_of_mem (grammatical_lexemes cs) (List.mem_of_getLast? hl)
    exact Lexeme.mayPrecede_blank (inline_singleton formed hs (by simp [closed l hl])) (.inl rfl)

namespace Scan.State

/-- The same table and the same errors, if the text ended here. -/
structure SameOutcome (s t : State) : Prop where
  lines : t.tableLines = s.tableLines
  errors : t.errors = s.errors

variable {s t u : State}

theorem SameOutcome.symm (h : SameOutcome s t) : SameOutcome t s :=
  ⟨h.lines.symm, h.errors.symm⟩

theorem SameOutcome.trans (h : SameOutcome s t) (h' : SameOutcome t u) : SameOutcome s u :=
  ⟨h'.lines.trans h.lines, h'.errors.trans h.errors⟩

theorem SameOutcome.blank (source : String) (s : State) (c : Char) :
    SameOutcome s (feed source s (.blank c)) := ⟨rfl, rfl⟩

theorem SameOutcome.comment (source : String) (s : State) (body : List Char) :
    SameOutcome s (feed source s (.comment body)) := ⟨tableLines_close _, rfl⟩

end Scan.State

theorem Scan.State.SameOutcome.scan_eq {s t : Source} (h : SameOutcome s.endState t.endState)
    (name : t.name = s.name) : t.scan.errors = s.scan.errors ∧ t.scan.table = s.scan.table := by
  constructor
  · rw [Source.errors_scan, h.errors, Source.errors_scan]
  · have lines : t.scan.table.lines = s.scan.table.lines := by
      rw [Source.lines_scan, h.lines, Source.lines_scan]
    exact congrArg₂ Table.mk name lines

theorem sameOutcome_note (name : String) {p : String} {body : List Char}
    (clean : (Source.mk name p).scan.errors = []) (hb : CommentBody body) {q : String}
    (text : q.toList = p.toList ++ note body) :
    Scan.State.SameOutcome (Source.mk name p).endState (Source.mk name q).endState := by
  have closed := (Source.errors_eq_nil_iff ⟨name, p⟩).mp clean
  rw [Source.endState, Source.endState, Source.lexemes, Source.lexemes, text]
  by_cases ends : ∃ ls front, lexemes p.toList = ls ++ [.comment front]
  · obtain ⟨ls, front, split⟩ := ends
    rw [lexemes_note_of_comment split hb, split, List.foldl_concat, List.foldl_concat]
    exact (Scan.State.SameOutcome.comment name _ front).symm.trans (.comment name _ _)
  · have junction : ∀ l ∈ (lexemes p.toList).getLast?, ∀ front, l ≠ .comment front := by
      rintro l hl front rfl
      obtain ⟨ls, split⟩ := List.getLast?_eq_some_iff.mp hl
      exact ends ⟨ls, front, split⟩
    have lexed := lexemes_note (fun l hl => closed l (List.mem_of_getLast? hl)) junction hb
    rw [lexed, List.foldl_append]
    exact (Scan.State.SameOutcome.blank name _ ' ').trans (.comment name _ body)

/-- A comment behind a text never changes the table, whatever the text ends with. -/
theorem scan_append_comment (name p c : String) (clean : (Source.mk name p).scan.errors = [])
    (body : CommentBody c.toList) :
    (Source.mk name (p ++ " //" ++ c)).scan.errors = [] ∧
      (Source.mk name (p ++ " //" ++ c)).scan.table = (Source.mk name p).scan.table := by
  have text : (p ++ " //" ++ c).toList = p.toList ++ note c.toList := by simp [note]
  have same := (sameOutcome_note name clean body text).scan_eq rfl
  rw [clean] at same
  exact same

def slashed : String := "a \x27p\nq\x27 /"

def rambling : String := " \x22b\\\\\n/ \x27,\\\nd"

theorem scan_append_comment_rambling :
    (Source.mk "c" slashed).scan.errors = [] ∧ CommentBody rambling.toList ∧
      (Source.mk "c" (slashed ++ " //" ++ rambling)).scan.errors = [] ∧
      (Source.mk "c" (slashed ++ " //" ++ rambling)).scan.table =
        { source := "c", lines := [⟨"c", 1, ⟨"a"⟩, #[⟨"\x27p\nq\x27"⟩, ⟨"/"⟩]⟩] } := by
  have clean : (Source.mk "c" slashed).scan.errors = [] := by decide +kernel
  have body : CommentBody rambling.toList := by
    unfold CommentBody
    decide
  obtain ⟨errors, table⟩ := scan_append_comment "c" slashed rambling clean body
  exact ⟨clean, body, errors, table.trans (by decide +kernel)⟩

/-- A comment behind the text, a backslash at the end of its line, and one more line. -/
def continued (p c ending d : String) : String := p ++ " //" ++ c ++ "\\" ++ ending ++ d

theorem commentBody_continued {c d : List Char} (hc : '\n' ∉ c) (hd : '\n' ∉ d) :
    CommentBody (c ++ [escape] ++ '\n' :: d) := by
  have first : CommentBody (c ++ [escape]) := by
    refine commentBody_of_not_mem fun h => ?_
    exact absurd (List.mem_append.mp h) (by simp [hc, escape])
  refine first.append ?_ (by simp)
  cases d with
  | nil => exact .singleton _
  | cons a d =>
    have rest : (a :: d).IsChain fun a b => b = '\n' → a = escape :=
      (commentBody_of_not_mem hd).tail
    exact List.isChain_cons_cons.mpr ⟨fun ha => absurd (ha ▸ List.mem_cons_self) hd, rest⟩

theorem not_endsContinued_return (text : String) : ¬EndsContinued (text ++ "\r") := by
  intro h
  have last := h.getLast?
  rw [String.toList_append] at last
  simp [escape] at last

theorem sameOutcome_continued (name : String) {p c d : String}
    (clean : (Source.mk name p).scan.errors = []) (hc : '\n' ∉ c.toList) (hd : '\n' ∉ d.toList) :
    Scan.State.SameOutcome (Source.mk name p).endState
      (Source.mk name (continued p c "\n" d)).endState := by
  refine sameOutcome_note name clean (commentBody_continued hc hd) ?_
  simp [continued, note, escape]

theorem scan_continued_return (name : String) {p c : String} (d : String)
    (clean : (Source.mk name p).scan.errors = []) (hc : '\n' ∉ c.toList) :
    (Source.mk name (continued p c "\r\n" d)).scan.table.lines =
        (Source.mk name p).scan.table.lines ++
          (Source.mk name d).scan.table.lines.map (Statement.shift (1 + p.toList.count '\n')) ∧
      (Source.mk name (continued p c "\r\n" d)).scan.errors =
        (Source.mk name d).scan.errors.map (UnclosedLiteral.shift (1 + p.toList.count '\n')) := by
  have first : (p ++ " //" ++ c ++ "\\" ++ "\r").toList =
      p.toList ++ note (c.toList ++ [escape, '\r']) := by
    simp [note, escape]
  have body : CommentBody (c.toList ++ [escape, '\r']) :=
    commentBody_of_not_mem (by simp [hc, escape])
  obtain ⟨errors, table⟩ := (sameOutcome_note name clean body first).scan_eq rfl
  have breaks : (p ++ " //" ++ c ++ "\\" ++ "\r").toList.count '\n' = p.toList.count '\n' := by
    have unbroken : '\n' ∉ note (c.toList ++ [escape, '\r']) := by simp [note, hc, escape]
    rw [first, List.count_append, List.count_eq_zero_of_not_mem unbroken, Nat.add_zero]
  have text : continued p c "\r\n" d = p ++ " //" ++ c ++ "\\" ++ "\r" ++ "\n" ++ d := by
    rw [continued, show "\r\n" = "\r" ++ "\n" from rfl, ← String.append_assoc]
  have joined := scan_join name
    (junction_of_closed (errors.trans clean) (not_endsContinued_return _) d.toList)
  rw [breaks, errors, table, clean, List.nil_append] at joined
  rw [text]
  exact joined

/-- With a line break alone the comment goes on, and the line behind it is part of it. A carriage
    return before the break ends the comment, and that line is scanned as a text of its own. The
    two agree exactly if it holds no statement. -/
theorem scan_continued (name p c d : String) (clean : (Source.mk name p).scan.errors = [])
    (hc : '\n' ∉ c.toList) (hd : '\n' ∉ d.toList) :
    (Source.mk name (continued p c "\n" d)).scan.errors = [] ∧
      (Source.mk name (continued p c "\n" d)).scan.table = (Source.mk name p).scan.table ∧
      (Source.mk name (continued p c "\r\n" d)).scan.errors =
        (Source.mk name d).scan.errors.map (UnclosedLiteral.shift (1 + p.toList.count '\n')) ∧
      (Source.mk name (continued p c "\r\n" d)).scan.table.lines =
        (Source.mk name p).scan.table.lines ++
          (Source.mk name d).scan.table.lines.map (Statement.shift (1 + p.toList.count '\n')) ∧
      ((Source.mk name (continued p c "\r\n" d)).scan.table =
          (Source.mk name (continued p c "\n" d)).scan.table ↔
        (Source.mk name d).scan.table.lines = []) := by
  obtain ⟨goesOn, same⟩ := (sameOutcome_continued name clean hc hd).scan_eq rfl
  obtain ⟨lines, errors⟩ := scan_continued_return name d clean hc
  refine ⟨goesOn.trans clean, same, errors, lines, ?_⟩
  rw [same]
  constructor
  · intro equal
    have none := congrArg Table.lines equal
    rw [lines] at none
    exact List.map_eq_nil_iff.mp (List.append_right_eq_self.mp none)
  · intro none
    rw [none, List.map_nil, List.append_nil] at lines
    exact congrArg (Table.mk name) lines

theorem scan_continued_slashed :
    (Source.mk "c" slashed).scan.errors = [] ∧
      '\n' ∉ " c".toList ∧ '\n' ∉ "y,".toList ∧
      (Source.mk "c" (continued slashed " c" "\n" "y,")).scan.table.lines =
        [⟨"c", 1, ⟨"a"⟩, #[⟨"\x27p\nq\x27"⟩, ⟨"/"⟩]⟩] ∧
      (Source.mk "c" (continued slashed " c" "\r\n" "y,")).scan.table.lines =
        [⟨"c", 1, ⟨"a"⟩, #[⟨"\x27p\nq\x27"⟩, ⟨"/"⟩]⟩, ⟨"c", 3, ⟨"y"⟩, #[⟨","⟩]⟩] := by
  have clean : (Source.mk "c" slashed).scan.errors = [] := by decide +kernel
  obtain ⟨-, same, -, lines, -⟩ :=
    scan_continued "c" slashed " c" "y," clean (by decide) (by decide)
  refine ⟨clean, by decide, by decide, ?_, lines.trans (by decide +kernel)⟩
  rw [same]
  decide +kernel

/-- The line behind the comment becomes code if the lines end in a carriage return and a line
    break. -/
theorem continued_return_differs :
    ¬∀ name p c d : String, (Source.mk name p).scan.errors = [] →
      '\n' ∉ c.toList → '\r' ∉ c.toList → '\n' ∉ d.toList → '\r' ∉ d.toList →
        (Source.mk name (continued p c "\r\n" d)).scan.table =
            (Source.mk name (continued p c "\n" d)).scan.table ∧
          (Source.mk name (continued p c "\n" d)).scan.table = (Source.mk name p).scan.table := by
  intro h
  have same := (h "f" "x" "c" "y" (by decide +kernel) (by decide) (by decide) (by decide)
    (by decide)).1
  exact absurd same (by decide +kernel)

end AsmScan
