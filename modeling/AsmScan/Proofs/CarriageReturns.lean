import AsmScan.Proofs.Layout
import AsmScan.Proofs.Spacing

/-!
Lines that end in a carriage return and a line break. Outside literals the carriage return is
white space at the end of a word or a character of a comment, and nothing is left of it.
-/

namespace AsmScan

def crlf (cs : List Char) : List Char := cs.flatMap fun c => if c = '\n' then ['\r', c] else [c]

theorem crlf_append (cs ds : List Char) : crlf (cs ++ ds) = crlf cs ++ crlf ds :=
  List.flatMap_append

theorem crlf_cons (c : Char) (cs : List Char) : crlf (c :: cs) = crlf [c] ++ crlf cs :=
  crlf_append [c] cs

theorem crlf_cons_of_ne {c : Char} (h : c ≠ '\n') (cs : List Char) :
    crlf (c :: cs) = c :: crlf cs := by
  rw [crlf_cons]
  simp [crlf, h]

theorem crlf_eq_self {cs : List Char} (h : '\n' ∉ cs) : crlf cs = cs := by
  induction cs with
  | nil => rfl
  | cons c cs ih =>
    rw [crlf_cons_of_ne (List.ne_of_not_mem_cons h).symm, ih (List.not_mem_of_not_mem_cons h)]

theorem count_crlf (cs : List Char) : (crlf cs).count '\n' = cs.count '\n' := by
  induction cs with
  | nil => rfl
  | cons c cs ih =>
    by_cases hc : c = '\n'
    · subst hc
      rw [crlf_cons, List.count_append, ih, List.count_cons_self, Nat.add_comm]
      rfl
    · rw [crlf_cons_of_ne hc, List.count_cons_of_ne hc, List.count_cons_of_ne hc, ih]

theorem head?_crlf (cs : List Char) :
    (crlf cs).head? = cs.head?.map fun c => if c = '\n' then '\r' else c := by
  cases cs with
  | nil => rfl
  | cons c cs =>
    by_cases hc : c = '\n'
    · subst hc
      rfl
    · rw [crlf_cons_of_ne hc]
      simp [hc]

def Token.crlf (t : Token) : Token := ⟨String.ofList (AsmScan.crlf t.text.toList)⟩

def Statement.crlf (st : Statement) : Statement :=
  { st with first := st.first.crlf, others := st.others.map Token.crlf }

def Source.crlf (s : Source) : Source :=
  { s with text := String.ofList (AsmScan.crlf s.text.toList) }

theorem Statement.crlf_push (st : Statement) (t : Token) :
    (st.push t).crlf = st.crlf.push t.crlf := by
  simp [crlf, push]

theorem Token.crlf_eq_self {t : Token} (h : '\n' ∉ t.text.toList) : t.crlf = t := by
  rw [crlf, AsmScan.crlf_eq_self h, String.ofList_toList]

theorem trim_append_return (cs : List Char) : Text.trim (cs ++ ['\r']) = Text.trim cs := by
  have white : Text.isWhite '\r' = true := by decide
  rw [Text.trim, Text.trim, List.dropWhile_append]
  cases h : cs.dropWhile Text.isWhite with
  | nil => simp [white]
  | cons c rest => simp [white]

theorem LiteralBody.crlf {quote : Char} {body : List Char} (hq : quote ∈ quotes)
    (h : LiteralBody quote body) : LiteralBody quote (crlf body) := by
  have plain : '\n' ≠ quote := by
    rintro rfl
    exact lineBreak_not_mem_quotes hq
  have return_ : '\r' ≠ quote := by
    rintro rfl
    exact absurd hq (by decide)
  induction h with
  | nil => exact .nil
  | @pair c body _ ih =>
    rw [crlf_cons_of_ne (by decide)]
    by_cases hc : c = '\n'
    · subst hc
      exact .pair (.plain plain (by decide) ih)
    · rw [crlf_cons_of_ne hc]
      exact .pair ih
  | @plain c body hc he _ ih =>
    by_cases hn : c = '\n'
    · subst hn
      exact .plain return_ (by decide) (.plain plain (by decide) ih)
    · rw [crlf_cons_of_ne hn]
      exact .plain hc he ih

theorem OpenBody.crlf {quote : Char} {body : List Char} (hq : quote ∈ quotes)
    (h : OpenBody quote body) : OpenBody quote (crlf body) := by
  obtain hb | ⟨front, hb, rfl⟩ := h
  · exact .inl (hb.crlf hq)
  · exact .inr ⟨_, hb.crlf hq, crlf_append front [escape]⟩

namespace Lexeme

def crlf : Lexeme → Lexeme
  | literal quote body => literal quote (AsmScan.crlf body)
  | openLiteral quote body => openLiteral quote (AsmScan.crlf body)
  | l => l

theorem crlf_quoted {quote : Char} (hq : quote ∈ quotes) (body : List Char) :
    AsmScan.crlf (quote :: body) = quote :: AsmScan.crlf body := by
  refine crlf_cons_of_ne ?_ body
  rintro rfl
  exact lineBreak_not_mem_quotes hq

theorem crlf_closed {quote : Char} (hq : quote ∈ quotes) (body : List Char) :
    AsmScan.crlf (quote :: body ++ [quote]) = quote :: AsmScan.crlf body ++ [quote] := by
  rw [crlf_append, crlf_quoted hq, crlf_quoted hq []]
  rfl

theorem text_crlf {l : Lexeme} (hl : l.WellFormed) (hn : l ≠ lineBreak)
    (hc : ∀ body, l = comment body → '\n' ∉ body) : l.crlf.text = AsmScan.crlf l.text := by
  cases l with
  | lineBreak => exact absurd rfl hn
  | blank c =>
    obtain rfl | rfl := hl <;> rfl
  | comment body =>
    have none : '\n' ∉ '/' :: '/' :: body := by simpa using hc body rfl
    exact (crlf_eq_self none).symm
  | symbol c =>
    refine (crlf_eq_self ?_).symm
    rintro h
    obtain rfl := List.mem_singleton.mp h
    exact lineBreak_not_mem_symbols hl
  | literal quote body => exact (crlf_closed hl.1 body).symm
  | word cs => exact (crlf_eq_self (lineBreak_not_mem_word hl.2)).symm
  | openLiteral quote body => exact (crlf_quoted hl.1 body).symm

theorem WellFormed.crlf {l : Lexeme} (h : l.WellFormed) : l.crlf.WellFormed := by
  cases l with
  | literal quote body => exact ⟨h.1, h.2.crlf h.1⟩
  | openLiteral quote body => exact ⟨h.1, h.2.crlf h.1⟩
  | blank _ | lineBreak | comment _ | symbol _ | word _ => exact h

theorem MayPrecede.crlf {l : Lexeme} {rest : List Char} (h : l.MayPrecede rest)
    (hr : rest.head? = some '\n' → (∀ cs, l ≠ word cs) ∧ ∀ body, l ≠ comment body) :
    l.crlf.MayPrecede (AsmScan.crlf rest) := by
  have kept (c : Char) (hc : c ∈ (AsmScan.crlf rest).head?) :
      ∃ d ∈ rest.head?, c = if d = '\n' then '\r' else d := by
    rw [head?_crlf] at hc
    obtain ⟨d, hd, rfl⟩ := Option.map_eq_some_iff.mp hc
    exact ⟨d, hd, rfl⟩
  cases l with
  | comment body =>
    intro c hc
    obtain ⟨d, hd, -⟩ := kept c hc
    obtain rfl := (h d hd).1
    exact absurd rfl ((hr hd).2 body)
  | symbol s =>
    rintro ⟨slash, hc⟩
    obtain ⟨d, hd, same⟩ := kept '/' hc
    split at same
    · exact absurd same (by decide)
    · exact h ⟨slash, same ▸ hd⟩
  | word cs =>
    intro c hc
    obtain ⟨d, hd, rfl⟩ := kept c hc
    split
    · next hn => exact absurd rfl ((hr (hn ▸ hd)).1 cs)
    · exact h d hd
  | openLiteral quote body =>
    obtain rfl : rest = [] := h
    rfl
  | blank _ | lineBreak | literal _ _ => trivial

end Lexeme

/-- The lexemes of a text with carriage returns. The one before a line break belongs to the
    word or the comment in front of it, or is a word of its own. -/
def withReturns : List Lexeme → List Lexeme
  | .word cs :: .lineBreak :: ls => .word (cs ++ ['\r']) :: .lineBreak :: withReturns ls
  | .comment body :: .lineBreak :: ls => .comment (body ++ ['\r']) :: .lineBreak :: withReturns ls
  | .lineBreak :: ls => .word ['\r'] :: .lineBreak :: withReturns ls
  | l :: ls => l.crlf :: withReturns ls
  | [] => []

def SingleLineComments (ls : List Lexeme) : Prop := ∀ body, .comment body ∈ ls → '\n' ∉ body

theorem SingleLineComments.tail {l : Lexeme} {ls : List Lexeme}
    (h : SingleLineComments (l :: ls)) : SingleLineComments ls :=
  fun body hb => h body (List.mem_cons_of_mem l hb)

theorem crlf_lineBreak_cons (cs : List Char) : crlf ('\n' :: cs) = '\r' :: '\n' :: crlf cs := rfl

theorem text_withReturns {ls : List Lexeme} (hg : Grammatical ls) (single : SingleLineComments ls) :
    (withReturns ls).flatMap Lexeme.text = crlf (ls.flatMap Lexeme.text) := by
  fun_induction withReturns ls with
  | case1 cs ls ih =>
    have rest := ih hg.2.2.2.2 single.tail.tail
    have first : cs = crlf cs := Lexeme.text_crlf hg.1 nofun nofun
    change cs ++ ['\r'] ++ '\n' :: (withReturns ls).flatMap Lexeme.text =
      crlf (cs ++ '\n' :: ls.flatMap Lexeme.text)
    rw [crlf_append, ← first, crlf_lineBreak_cons, rest, List.append_assoc]
    rfl
  | case2 body ls ih =>
    have rest := ih hg.2.2.2.2 single.tail.tail
    have first : '/' :: '/' :: body = crlf ('/' :: '/' :: body) :=
      Lexeme.text_crlf hg.1 nofun fun _ hb => single _ (hb ▸ List.mem_cons_self)
    change '/' :: '/' :: (body ++ ['\r']) ++ '\n' :: (withReturns ls).flatMap Lexeme.text =
      crlf ('/' :: '/' :: body ++ '\n' :: ls.flatMap Lexeme.text)
    rw [crlf_append, ← first, crlf_lineBreak_cons, rest]
    simp
  | case3 ls ih =>
    have rest := ih hg.2.2 single.tail
    change '\r' :: '\n' :: (withReturns ls).flatMap Lexeme.text =
      crlf ('\n' :: ls.flatMap Lexeme.text)
    rw [rest, crlf_lineBreak_cons]
  | case4 l ls _ _ hn ih =>
    have rest := ih hg.2.2 single.tail
    have first : l.crlf.text = crlf l.text :=
      Lexeme.text_crlf hg.1 hn fun body hb => single body (hb ▸ List.mem_cons_self)
    rw [List.flatMap_cons, first, rest, List.flatMap_cons, crlf_append]
  | case5 => rfl

theorem exists_cons_lineBreak {ls : List Lexeme} (hg : Grammatical ls)
    (h : (ls.flatMap Lexeme.text).head? = some '\n') : ∃ rest, ls = .lineBreak :: rest := by
  cases ls with
  | nil => exact absurd h (by simp)
  | cons l ls =>
    have own : l.text.head? = some '\n' := by
      rwa [List.flatMap_cons,
        List.head?_append_of_ne_nil _ (Lexeme.text_ne_nil_of_wellFormed hg.1)] at h
    exact ⟨ls, by rw [Lexeme.eq_lineBreak hg.1 own]⟩

theorem wellFormed_word_return {cs : List Char} (h : ∀ c ∈ cs, isTerminator c = false) :
    (Lexeme.word (cs ++ ['\r'])).WellFormed := by
  refine ⟨by simp, fun c hc => ?_⟩
  obtain hc | hc := List.mem_append.mp hc
  · exact h c hc
  · obtain rfl := List.mem_singleton.mp hc
    decide

theorem wellFormed_comment_return {body : List Char} (h : '\n' ∉ body) :
    (Lexeme.comment (body ++ ['\r'])).WellFormed :=
  commentBody_of_not_mem (by simpa using h)

theorem grammatical_line_end {l : Lexeme} {ls : List Lexeme} (hl : l.WellFormed)
    (follows : l.MayPrecede ('\n' :: ls.flatMap Lexeme.text)) (hg : Grammatical ls) :
    Grammatical (l :: .lineBreak :: ls) :=
  ⟨hl, follows, trivial, trivial, hg⟩

theorem grammatical_withReturns {ls : List Lexeme} (hg : Grammatical ls)
    (single : SingleLineComments ls) : Grammatical (withReturns ls) := by
  fun_induction withReturns ls with
  | case1 cs ls ih =>
    refine grammatical_line_end (wellFormed_word_return hg.1.2) ?_ (ih hg.2.2.2.2 single.tail.tail)
    exact Lexeme.mayPrecede_lineBreak nofun nofun
  | case2 body ls ih =>
    refine grammatical_line_end (wellFormed_comment_return (single body List.mem_cons_self)) ?_
      (ih hg.2.2.2.2 single.tail.tail)
    refine Lexeme.mayPrecede_lineBreak ?_ nofun
    intro _ same
    obtain rfl := Lexeme.comment.inj same
    rw [List.getLast?_concat]
    decide
  | case3 ls ih =>
    refine grammatical_line_end (wellFormed_word_return (List.forall_mem_nil _)) ?_ (ih hg.2.2 single.tail)
    exact Lexeme.mayPrecede_lineBreak nofun nofun
  | case4 l ls noWord noComment hn ih =>
    -- A word or a comment that a line break ends would take the carriage return in; the cases
    -- above are the ones where it does.
    refine ⟨hg.1.crlf, ?_, ih hg.2.2 single.tail⟩
    rw [text_withReturns hg.2.2 single.tail]
    refine hg.2.1.crlf fun ends => ?_
    obtain ⟨rest, rfl⟩ := exists_cons_lineBreak hg.2.2 ends
    exact ⟨fun cs hw => noWord cs rest hw rfl, fun body hb => noComment body rest hb rfl⟩
  | case5 => trivial

namespace Lexeme

theorem token_crlf_eq_self {l : Lexeme} {t : Token} (hl : l.WellFormed) (h : l.token? = some t)
    (none : l.text.count '\n' = 0) : t.crlf = t := by
  refine Token.crlf_eq_self (List.count_eq_zero.mp ?_)
  rw [count_token hl h, none]

theorem token?_crlf {l : Lexeme} (hl : l.WellFormed) : l.crlf.token? = l.token?.map Token.crlf := by
  cases l with
  | literal quote body =>
    change some _ = some (Token.crlf _)
    rw [Token.crlf, String.toList_ofList, crlf_closed hl.1]
  | symbol c =>
    have none : c ≠ '\n' := fun h => lineBreak_not_mem_symbols (h ▸ hl)
    refine congrArg some (Token.crlf_eq_self ?_).symm
    simpa using none.symm
  | word cs =>
    change (word cs).token? = _
    cases h : (word cs).token? with
    | none => rfl
    | some t =>
      have none := List.count_eq_zero.mpr (lineBreak_not_mem_word hl.2)
      rw [Option.map_some, token_crlf_eq_self hl h none]
  | blank _ | lineBreak | comment _ | openLiteral _ _ => rfl

theorem token?_word_return (cs : List Char) : (word (cs ++ ['\r'])).token? = (word cs).token? := by
  simp only [token?, trim_append_return]

/-- The second lexeme does to a scan what the first one does, but for the carriage returns in
    its token. -/
structure Alike (l k : Lexeme) : Prop where
  breaks : k.breaks = l.breaks
  token : k.token? = l.token?.map Token.crlf
  separator : k.isSeparator = l.isSeparator
  opened : k.isOpen = l.isOpen

theorem alike_lineBreak : Alike lineBreak lineBreak := ⟨rfl, rfl, rfl, rfl⟩

theorem alike_crlf {l : Lexeme} (hl : l.WellFormed) (hn : l ≠ lineBreak)
    (hc : ∀ body, l = comment body → '\n' ∉ body) : Alike l l.crlf where
  breaks := by rw [Lexeme.breaks, text_crlf hl hn hc, count_crlf, Lexeme.breaks]
  token := token?_crlf hl
  separator := by cases l <;> rfl
  opened := by cases l <;> rfl

theorem alike_word_return {cs : List Char} (hl : (word cs).WellFormed) :
    Alike (word cs) (word (cs ++ ['\r'])) where
  breaks := by simp [Lexeme.breaks, text]
  token := by
    rw [token?_word_return]
    exact token?_crlf hl
  separator := rfl
  opened := rfl

theorem alike_comment_return (body : List Char) :
    Alike (comment body) (comment (body ++ ['\r'])) where
  breaks := by simp [Lexeme.breaks, text]
  token := rfl
  separator := rfl
  opened := rfl

end Lexeme

namespace Scan.State

/-- The second state is the first one, but for the carriage returns in its tokens. -/
structure Returned (s t : State) : Prop where
  startLine : t.startLine = s.startLine
  physicalLine : t.physicalLine = s.physicalLine
  pending : t.pending = s.pending.map Statement.crlf
  lines : t.lines = s.lines.map Statement.crlf
  errors : t.errors = s.errors

variable {source : String} {s t : State} {l k : Lexeme}

theorem returned_initial : Returned {} {} := ⟨rfl, rfl, rfl, by simp, rfl⟩

theorem Returned.advance (h : Returned s t) (same : k.breaks = l.breaks) :
    Returned (s.advance l) (t.advance k) where
  startLine := h.startLine
  physicalLine := by simp only [State.advance, h.physicalLine, same]
  pending := h.pending
  lines := h.lines
  errors := h.errors

theorem Returned.push (h : Returned s t) (token : Token) :
    Returned (s.push source token) (t.push source token.crlf) where
  startLine := h.startLine
  physicalLine := h.physicalLine
  pending := by
    simp only [State.push, h.pending, h.startLine]
    cases s.pending with
    | none => simp [Statement.crlf]
    | some st => exact congrArg some (st.crlf_push token).symm
  lines := h.lines
  errors := h.errors

theorem Returned.close (h : Returned s t) : Returned s.close t.close where
  startLine := h.physicalLine
  physicalLine := h.physicalLine
  pending := rfl
  lines := by
    simp only [State.close, h.pending, h.lines]
    cases s.pending with
    | none => rfl
    | some st => simp
  errors := h.errors

theorem Returned.abandon (h : Returned s t) : Returned (s.abandon source) (t.abandon source) where
  startLine := h.startLine
  physicalLine := h.physicalLine
  pending := rfl
  lines := h.lines
  errors := by simp only [State.abandon, h.errors, h.startLine]

theorem Returned.stray (h : Returned s t) : Returned s (feed source t (.word ['\r'])) := by
  have silent : feed source t (.word ['\r']) = t.advance (.word ['\r']) :=
    pushChars_eq source _ (Lexeme.ofChars?_word ['\r'])
  rw [silent]
  exact
    { startLine := h.startLine
      physicalLine := (UInt32.add_zero _).trans h.physicalLine
      pending := h.pending
      lines := h.lines
      errors := h.errors }

theorem Returned.feed (h : Returned s t) (source : String) (hl : l.WellFormed)
    (hk : k.WellFormed) (alike : l.Alike k) : Returned (feed source s l) (feed source t k) := by
  have moved := h.advance alike.breaks
  by_cases hs : l.isSeparator = true
  · rw [feed_of_isSeparator source s hs, feed_of_isSeparator source t (alike.separator.trans hs)]
    exact moved.close
  by_cases ho : l.isOpen = true
  · rw [feed_of_isOpen source s ho, feed_of_isOpen source t (alike.opened.trans ho)]
    exact moved.abandon
  have first : Inline [l] := inline_singleton hl hs ho
  have second : Inline [k] :=
    inline_singleton hk (by rwa [alike.separator]) (by rwa [alike.opened])
  rw [feed_of_inline source s first, feed_of_inline source t second, alike.token]
  cases l.token? with
  | none => exact moved
  | some token => exact moved.push token

theorem Returned.run (h : Returned s t) {ls : List Lexeme} (hg : Grammatical ls)
    (single : SingleLineComments ls) :
    Returned (ls.foldl (State.feed source) s) ((withReturns ls).foldl (State.feed source) t) := by
  -- Each lexeme meets its own image, so the two states stay in step. The one extra word, which
  -- stands before a line break, is fed to the second state alone.
  fun_induction withReturns ls generalizing s t with
  | case1 cs ls ih =>
    have word := h.feed source hg.1 (wellFormed_word_return hg.1.2)
      (Lexeme.alike_word_return hg.1)
    exact ih (word.feed source trivial trivial Lexeme.alike_lineBreak) hg.2.2.2.2 single.tail.tail
  | case2 body ls ih =>
    have comment := h.feed source hg.1
      (wellFormed_comment_return (single body List.mem_cons_self))
      (Lexeme.alike_comment_return body)
    exact ih (comment.feed source trivial trivial Lexeme.alike_lineBreak) hg.2.2.2.2 single.tail.tail
  | case3 ls ih =>
    exact ih (h.stray.feed source trivial trivial Lexeme.alike_lineBreak) hg.2.2 single.tail
  | case4 l ls _ _ hn ih =>
    have alike := Lexeme.alike_crlf hg.1 hn fun body hb => single body (hb ▸ List.mem_cons_self)
    exact ih (h.feed source hg.1 hg.1.crlf alike) hg.2.2 single.tail
  | case5 => exact h

end Scan.State

theorem Source.lexemes_crlf {s : Source} (single : SingleLineComments s.lexemes) :
    s.crlf.lexemes = withReturns s.lexemes := by
  have hg := grammatical_lexemes s.text.toList
  have text := text_withReturns hg single
  rw [text_lexemes] at text
  rw [Source.lexemes, Source.crlf, String.toList_ofList, ← text]
  exact lexemes_text (grammatical_withReturns hg single)

theorem Source.returned_finalState {s : Source} (single : SingleLineComments s.lexemes) :
    Scan.State.Returned (Scan.finalState s.name s.text.toList)
      (Scan.finalState s.name s.crlf.text.toList) := by
  have hg := grammatical_lexemes s.text.toList
  have same : AsmScan.lexemes s.crlf.text.toList = withReturns s.lexemes := lexemes_crlf single
  rw [Scan.finalState, Scan.finalState, same]
  exact (Scan.State.returned_initial.run hg single).close

theorem Lexeme.Spells.exists_literal {t : Token} {l : Lexeme} (h : Spells t l)
    (differs : t.crlf ≠ t) :
    ∃ quote body, quote ∈ quotes ∧ LiteralBody quote body ∧
      t.text = String.ofList (quote :: body ++ [quote]) ∧ '\n' ∈ body := by
  obtain ⟨formed, gives, text⟩ := h
  have broken : '\n' ∈ l.text := by
    rw [text]
    exact not_imp_comm.mp Token.crlf_eq_self differs
  cases l with
  | literal quote body =>
    refine ⟨quote, body, formed.1, formed.2, ?_, ?_⟩
    · rw [← String.ofList_toList (s := t.text), ← text]
      rfl
    · have other : '\n' ≠ quote := fun hq => lineBreak_not_mem_quotes (hq ▸ formed.1)
      simpa [Lexeme.text, other] using broken
  | symbol c =>
    obtain rfl := List.mem_singleton.mp broken
    exact absurd formed lineBreak_not_mem_symbols
  | word cs => exact absurd broken (lineBreak_not_mem_word formed.2)
  | blank _ | lineBreak | comment _ | openLiteral _ _ => exact absurd gives (by simp [token?])

/-- Carriage returns before the line breaks change nothing in a scan but the literals that span
    lines, and these only by the carriage returns inside them. -/
theorem scan_crlf (s : Source) {ls : List Lexeme} (segments : Segments s.text ls)
    (single : SingleLineComments ls) :
    s.crlf.scan.errors = s.scan.errors ∧
      s.crlf.scan.table =
        { source := s.name, lines := s.scan.table.lines.map Statement.crlf } ∧
      ∀ st ∈ s.scan.table.lines, ∀ t ∈ st.tokens, t.crlf ≠ t →
        ∃ quote body, quote ∈ quotes ∧ LiteralBody quote body ∧
          t.text = String.ofList (quote :: body ++ [quote]) ∧ '\n' ∈ body := by
  obtain rfl : ls = s.lexemes := segments_iff.mp segments
  have final := s.returned_finalState single
  refine ⟨congrArg Array.toList final.errors, ?_, ?_⟩
  · have lines := congrArg Array.toList final.lines
    rw [Array.toList_map] at lines
    exact congrArg (Table.mk s.name) lines
  · intro st hst t ht differs
    obtain ⟨l, spells⟩ := exists_spells_of_mem_scan hst t ht
    exact spells.exists_literal differs

/-- Every way a line can end: a carriage return of its own, a symbol, a protected line break in a
    literal, a blank, a comment and an open literal. -/
def mixed : Source :=
  { name := "m.asm", text := "a\r\nb,\n\x27c\\\nd\x27 \n// e\nx \x22f\ng" }

theorem scan_crlf_mixed :
    Segments mixed.text mixed.lexemes ∧ SingleLineComments mixed.lexemes ∧
      mixed.crlf.text = "a\r\r\nb,\r\n\x27c\\\r\nd\x27 \r\n// e\r\nx \x22f\r\ng" ∧
      mixed.crlf.scan.errors = [{ source := "m.asm", line := 6 }] ∧
      mixed.crlf.scan.table.lines.map (fun st => (st.startLine, st.tokens.map Token.text)) =
        [(1, ["a"]), (2, ["b", ","]), (3, ["\x27c\\\r\nd\x27"])] := by
  have segments : Segments mixed.text mixed.lexemes := segments_iff.mpr rfl
  have cut : mixed.lexemes =
      [.word ['a', '\r'], .lineBreak, .word ['b'], .symbol ',', .lineBreak,
        .literal '\x27' ['c', '\\', '\n', 'd'], .blank ' ', .lineBreak, .comment [' ', 'e'],
        .lineBreak, .word ['x'], .blank ' ', .openLiteral '\x22' ['f', '\n', 'g']] := by
    decide +kernel
  have single : SingleLineComments mixed.lexemes := by
    rw [cut]
    simp [SingleLineComments]
  obtain ⟨errors, table, -⟩ := scan_crlf mixed segments single
  refine ⟨segments, single, by decide +kernel, errors.trans (by decide +kernel), ?_⟩
  rw [table]
  decide +kernel

end AsmScan
