import AsmScan.Proofs.Layout
import AsmScan.Proofs.Lines

/-!
Pages: lists of tokens written out freely, with blanks around the tokens, comments behind
them and other lines between them. Scanning a page gives the lists back.
-/

namespace AsmScan

/-- What a token can be, said by its characters. -/
inductive Token.Valid : Token → Prop where
  | symbol {c : Char} : c ∈ symbols → Valid ⟨String.ofList [c]⟩
  | literal {quote : Char} {body : List Char} : quote ∈ quotes → LiteralBody quote body →
    Valid ⟨String.ofList (quote :: body ++ [quote])⟩
  | word {cs : List Char} : cs ≠ [] → (∀ c ∈ cs, isTerminator c = false) → Text.Trimmed cs →
    Valid ⟨String.ofList cs⟩

def Token.IsWord (t : Token) : Prop := ∀ c ∈ t.text.toList, isTerminator c = false

instance (t : Token) : Decidable t.IsWord := List.decidableBAll _ t.text.toList

def Token.slash : Token := ⟨"/"⟩

def Blanks (cs : List Char) : Prop := ∀ c ∈ cs, c = ' ' ∨ c = '\t'

instance (cs : List Char) : Decidable (Blanks cs) := List.decidableBAll _ cs

structure Item where
  token : Token
  gap : List Char

def Item.text (i : Item) : List Char := i.token.text.toList ++ i.gap

/-- Two words need a blank between them, and so do two slashes. -/
def Item.MayPrecede (i j : Item) : Prop :=
  i.gap = [] → ¬(i.token.IsWord ∧ j.token.IsWord) ∧ ¬(i.token = .slash ∧ j.token = .slash)

instance : DecidableRel Item.MayPrecede := fun i j =>
  inferInstanceAs (Decidable (i.gap = [] →
    ¬(i.token.IsWord ∧ j.token.IsWord) ∧ ¬(i.token = .slash ∧ j.token = .slash)))

/-- A line as it is written. One without items stands between the others. -/
structure PageLine where
  indent : List Char
  items : List Item
  comment : Option (List Char)

namespace PageLine

def tokens (l : PageLine) : List Token := l.items.map Item.token

def commentText (l : PageLine) : List Char :=
  match l.comment with
  | none => []
  | some body => '/' :: '/' :: body

def text (l : PageLine) : List Char := l.indent ++ l.items.flatMap Item.text ++ l.commentText

structure WellWritten (l : PageLine) : Prop where
  indent : Blanks l.indent
  items : ∀ i ∈ l.items, i.token.Valid ∧ Blanks i.gap
  apart : l.items.IsChain Item.MayPrecede
  comment : ∀ body ∈ l.comment, '\n' ∉ body ∧ body.getLast? ≠ some escape ∧
    ∀ i ∈ l.items.getLast?, i.gap ≠ []

end PageLine

/-- The text of a page; every line but the last one ends with a line break. -/
def pageText (page : List PageLine) : List Char := ['\n'].intercalate (page.map PageLine.text)

/-- The page has the given lists of tokens on it, one on each line with items. -/
structure LaysOut (page : List PageLine) (lists : List (List Token)) : Prop where
  wellWritten : ∀ l ∈ page, l.WellWritten
  tokens_eq : (page.map PageLine.tokens).filter (fun ts => !ts.isEmpty) = lists

/-- The lines with items, each with the number of the line on which it is written. -/
def numbered (before : List Char) : List PageLine → List (Nat × List Token)
  | [] => []
  | l :: rest =>
    (if l.items.isEmpty then [] else [(1 + before.count '\n', l.tokens)]) ++
      numbered (before ++ l.text ++ ['\n']) rest

theorem Token.Valid.exists_spells {t : Token} (h : t.Valid) : ∃ l, Lexeme.Spells t l := by
  cases h with
  | @symbol c hc => exact ⟨.symbol c, hc, rfl, by simp [Lexeme.text]⟩
  | @literal quote body hq hb => exact ⟨.literal quote body, ⟨hq, hb⟩, rfl, by simp [Lexeme.text]⟩
  | @word cs hne hw ht =>
    refine ⟨.word cs, ⟨hne, hw⟩, ?_, by simp [Lexeme.text]⟩
    rw [Lexeme.token?_word_eq_some_iff, Text.trim_eq_self ht]
    exact ⟨hne, rfl⟩

namespace Lexeme

theorem isTerminator_of_mem_symbols {c : Char} (h : c ∈ symbols) : isTerminator c = true := by
  simp [isTerminator, isPlain, CharClass.of_eq_symbol_iff.mpr h]

theorem isTerminator_of_mem_quotes {c : Char} (h : c ∈ quotes) : isTerminator c = true := by
  simp [isTerminator, isPlain, CharClass.of_eq_quote_iff.mpr h]

theorem Spells.isWord_or_head {t : Token} {l : Lexeme} (h : Spells t l) :
    t.IsWord ∨ ∃ c rest, t.text.toList = c :: rest ∧ isTerminator c = true := by
  obtain ⟨formed, gives, text⟩ := h
  rw [Token.IsWord, ← text]
  cases l with
  | symbol c => exact .inr ⟨c, [], rfl, isTerminator_of_mem_symbols formed⟩
  | literal quote body =>
    exact .inr ⟨quote, body ++ [quote], rfl, isTerminator_of_mem_quotes formed.1⟩
  | word cs => exact .inl formed.2
  | blank c | lineBreak | comment body | openLiteral quote body =>
    exact absurd gives (by simp [token?])

theorem Spells.eq_slash {t : Token} {l : Lexeme} (h : Spells t l)
    (head : t.text.toList.head? = some '/') : t = .slash := by
  obtain ⟨formed, gives, text⟩ := h
  rw [← text] at head
  cases l with
  | symbol c =>
    obtain rfl : c = '/' := Option.some.inj head
    exact (Option.some.inj gives).symm
  | literal quote body =>
    obtain rfl : quote = '/' := Option.some.inj head
    exact absurd formed.1 (by decide)
  | word cs => exact absurd (formed.2 _ (List.mem_of_head? head)) (by decide)
  | blank c | lineBreak | comment body | openLiteral quote body =>
    exact absurd gives (by simp [token?])

theorem Spells.mayPrecede {t u : Token} {l k : Lexeme} (ht : Spells t l) (hu : Spells u k)
    (words : ¬(t.IsWord ∧ u.IsWord)) (slashes : ¬(t = .slash ∧ u = .slash)) (rest : List Char) :
    l.MayPrecede (u.text.toList ++ rest) := by
  have nonempty : u.text.toList ≠ [] := hu.2.2 ▸ text_ne_nil_of_wellFormed hu.1
  have head : (u.text.toList ++ rest).head? = u.text.toList.head? :=
    List.head?_append_of_ne_nil _ nonempty
  obtain ⟨formed, gives, text⟩ := ht
  cases l with
  | symbol c =>
    rintro ⟨rfl, hc⟩
    exact slashes ⟨(Option.some.inj gives).symm, hu.eq_slash (head ▸ hc)⟩
  | word cs =>
    intro c hc
    rw [head] at hc
    obtain hw | ⟨d, others, starts, ends⟩ := hu.isWord_or_head
    · refine absurd ⟨?_, hw⟩ words
      rw [Token.IsWord, ← text]
      exact formed.2
    · rw [starts] at hc
      obtain rfl : d = c := Option.some.inj hc
      exact ends
  | literal quote body => trivial
  | blank c | lineBreak | comment body | openLiteral quote body =>
    exact absurd gives (by simp [token?])

end Lexeme

theorem grammatical_blanks {cs : List Char} (h : Blanks cs) {ls : List Lexeme}
    (hg : Grammatical ls) : Grammatical (cs.map .blank ++ ls) := by
  induction cs with
  | nil => exact hg
  | cons c cs ih =>
    exact ⟨h c List.mem_cons_self, trivial, ih fun d hd => h d (List.mem_cons_of_mem c hd)⟩

theorem inline_blanks {cs : List Char} (h : Blanks cs) : Inline (cs.map .blank) := by
  intro l hl
  obtain ⟨c, hc, rfl⟩ := List.mem_map.mp hl
  exact ⟨h c hc, rfl, rfl⟩

theorem token?_blanks (cs : List Char) : (cs.map Lexeme.blank).filterMap Lexeme.token? = [] := by
  rw [List.filterMap_map]
  exact List.filterMap_eq_nil_iff.mpr fun _ _ => rfl

theorem text_blanks (cs : List Char) : (cs.map Lexeme.blank).flatMap Lexeme.text = cs := by
  rw [List.flatMap_map]
  exact List.flatMap_singleton' cs

def Item.Closed (items : List Item) (rest : List Char) : Prop :=
  ∀ i ∈ items.getLast?, i.gap = [] → ∀ c ∈ rest.head?, c = '\n'

theorem Item.mayPrecede_text {i : Item} {items : List Item} {l : Lexeme} {rest : List Char}
    (hl : Lexeme.Spells i.token l) (hgap : Blanks i.gap)
    (valid : ∀ j ∈ items, j.token.Valid ∧ Blanks j.gap)
    (apart : (i :: items).IsChain Item.MayPrecede)
    (closed : Item.Closed (i :: items) rest) :
    l.MayPrecede (i.gap ++ (items.flatMap Item.text ++ rest)) := by
  cases hg : i.gap with
  | cons c gap => exact Lexeme.mayPrecede_blank hl.inline (hgap c (hg ▸ List.mem_cons_self))
  | nil =>
    cases items with
    | nil => exact Lexeme.mayPrecede_lineEnd hl.inline (closed i rfl hg)
    | cons j items =>
      obtain ⟨touch, -⟩ := List.isChain_cons_cons.mp apart
      obtain ⟨words, slashes⟩ := touch hg
      obtain ⟨k, hk⟩ := (valid j List.mem_cons_self).1.exists_spells
      simp only [List.flatMap_cons, Item.text, List.append_assoc, List.nil_append]
      exact hl.mayPrecede hk words slashes _

theorem exists_lexemes_items {items : List Item}
    (valid : ∀ i ∈ items, i.token.Valid ∧ Blanks i.gap) (apart : items.IsChain Item.MayPrecede) :
    ∃ ls, Inline ls ∧ ls.filterMap Lexeme.token? = items.map Item.token ∧
      ls.flatMap Lexeme.text = items.flatMap Item.text ∧
      ∀ tail, Grammatical tail → Item.Closed items (tail.flatMap Lexeme.text) →
        Grammatical (ls ++ tail) := by
  induction items with
  | nil => exact ⟨[], inline_nil, rfl, rfl, fun tail ht _ => ht⟩
  | cons i items ih =>
    obtain ⟨token, gap⟩ := valid i List.mem_cons_self
    have others := fun j hj => valid j (List.mem_cons_of_mem i hj)
    obtain ⟨ls, hi, tokens, text, grammatical⟩ := ih others apart.tail
    obtain ⟨l, hl⟩ := token.exists_spells
    have inline : Inline (l :: (i.gap.map .blank ++ ls)) :=
      hl.inline.append ((inline_blanks gap).append hi)
    refine ⟨l :: (i.gap.map .blank ++ ls), inline, ?_, ?_, ?_⟩
    · rw [List.filterMap_cons_some hl.2.1, List.filterMap_append, token?_blanks, List.nil_append,
        tokens, List.map_cons]
    · rw [List.flatMap_cons, List.flatMap_append, text_blanks, text, hl.2.2, List.flatMap_cons,
        Item.text, List.append_assoc]
    · intro tail ht closed
      have later : Item.Closed items (tail.flatMap Lexeme.text) := by
        cases items with
        | nil => exact fun j hj => absurd hj (by simp)
        | cons j items => simpa only [Item.Closed, List.getLast?_cons_cons] using closed
      have rest := grammatical_blanks gap (grammatical tail ht later)
      refine ⟨hl.1, ?_, by simpa using rest⟩
      have follows := Item.mayPrecede_text hl gap others apart closed
      simpa [List.flatMap_append, text_blanks, text] using follows

def Remark (ls : List Lexeme) : Prop := ls = [] ∨ ∃ body, ls = [.comment body]

theorem grammatical_remark {body : List Char} {tail : List Lexeme} (inside : '\n' ∉ body)
    (ends : body.getLast? ≠ some escape) (ht : Grammatical tail)
    (hr : ∀ c ∈ (tail.flatMap Lexeme.text).head?, c = '\n') :
    Grammatical (.comment body :: tail) :=
  ⟨commentBody_of_not_mem inside, fun c hc => ⟨hr c hc, ends⟩, ht⟩

theorem PageLine.WellWritten.exists_lexemes {l : PageLine} (h : l.WellWritten) :
    ∃ piece last, Inline piece ∧ Remark last ∧ piece.filterMap Lexeme.token? = l.tokens ∧
      (piece ++ last).flatMap Lexeme.text = l.text ∧
      ∀ tail, Grammatical tail → (∀ c ∈ (tail.flatMap Lexeme.text).head?, c = '\n') →
        Grammatical (piece ++ last ++ tail) := by
  obtain ⟨ls, hi, tokens, text, grammatical⟩ := exists_lexemes_items h.items h.apart
  have front : (l.indent.map Lexeme.blank ++ ls).flatMap Lexeme.text =
      l.indent ++ l.items.flatMap Item.text := by
    rw [List.flatMap_append, text_blanks, text]
  have gives : (l.indent.map Lexeme.blank ++ ls).filterMap Lexeme.token? = l.tokens := by
    rw [List.filterMap_append, token?_blanks, List.nil_append, tokens, PageLine.tokens]
  refine ⟨l.indent.map Lexeme.blank ++ ls, ?_⟩
  cases hc : l.comment with
  | none =>
    refine ⟨[], (inline_blanks h.indent).append hi, .inl rfl, gives, ?_, ?_⟩
    · rw [List.append_nil, front, PageLine.text, PageLine.commentText, hc, List.append_nil]
    · intro tail ht hr
      rw [List.append_nil, List.append_assoc]
      exact grammatical_blanks h.indent (grammatical tail ht fun _ _ _ => hr)
  | some body =>
    obtain ⟨inside, ends, gap⟩ := h.comment body hc
    refine ⟨[.comment body], (inline_blanks h.indent).append hi, .inr ⟨body, rfl⟩, gives, ?_, ?_⟩
    · rw [List.flatMap_append, front, PageLine.text, PageLine.commentText, hc]
      simp [Lexeme.text]
    · intro tail ht hr
      rw [List.append_assoc, List.append_assoc]
      refine grammatical_blanks h.indent (grammatical _ (grammatical_remark inside ends ht hr) ?_)
      exact fun i hl hg => absurd hg (gap i hl)

section RowWise

variable {α : Type} {f : List Char → List Lexeme → List α} (hf : RowWise f)
include hf

theorem RowWise.remark (before : List Char) (piece : List Lexeme) {last : List Lexeme}
    (h : Remark last) : f before (piece ++ last) = f before piece := by
  obtain rfl | ⟨body, rfl⟩ := h
  · rw [List.append_nil]
  · exact hf.concat before piece rfl

theorem RowWise.line (before : List Char) (piece ls : List Lexeme) {last : List Lexeme}
    (h : Remark last) :
    f before (piece ++ last ++ .lineBreak :: ls) =
      f before piece ++ f (before ++ (piece ++ last).flatMap Lexeme.text ++ ['\n']) ls := by
  rw [hf.append_cons _ _ _ rfl, hf.remark before piece h]
  rfl

end RowWise

theorem pageText_cons_cons (l k : PageLine) (page : List PageLine) :
    pageText (l :: k :: page) = l.text ++ '\n' :: pageText (k :: page) := by
  simp [pageText, List.intercalate_cons_cons]

def Statement.onLine (st : Statement) : Nat × List Token := (st.startLine.toNat, st.tokens)

theorem onLine_inline {source : String} {before : List Char} {l : PageLine} {piece : List Lexeme}
    (hi : Inline piece) (tokens : piece.filterMap Lexeme.token? = l.tokens)
    (bound : before.count '\n' < UInt32.size - 1) :
    (statements source before piece).map Statement.onLine =
      if l.items.isEmpty then [] else [(1 + before.count '\n', l.tokens)] := by
  have line := toNat_lineAfter bound (List.append_nil before).symm
  rw [statements_inline hi, tokens, PageLine.tokens]
  cases l.items with
  | nil => rfl
  | cons i items => simp [Statement.ofTokens?, Statement.onLine, Statement.tokens, line]

theorem exists_lexemes_page (source : String) {before : List Char} {page : List PageLine}
    (h : ∀ l ∈ page, l.WellWritten)
    (bound : (before ++ pageText page).count '\n' < UInt32.size - 1) :
    ∃ ls, Grammatical ls ∧ ls.flatMap Lexeme.text = pageText page ∧
      (statements source before ls).map Statement.onLine = numbered before page ∧
      reports source before ls = [] := by
  induction page generalizing before with
  | nil => exact ⟨[], trivial, rfl, rfl, rfl⟩
  | cons l page ih =>
    obtain ⟨piece, last, hi, remark, tokens, text, grammatical⟩ :=
      (h l List.mem_cons_self).exists_lexemes
    have boundBefore : before.count '\n' < UInt32.size - 1 := by
      rw [List.count_append] at bound
      omega
    have row := @onLine_inline source before l piece hi tokens boundBefore
    cases page with
    | nil =>
      refine ⟨piece ++ last, ?_, ?_, ?_, ?_⟩
      · simpa using grammatical [] trivial (by simp)
      · simpa [pageText] using text
      · rw [(rowWise_statements source).remark before piece remark, row, numbered, numbered,
          List.append_nil]
      · rw [(rowWise_reports source).remark before piece remark, reports_inline hi]
    | cons k page =>
      rw [pageText_cons_cons] at bound ⊢
      obtain ⟨ls, hg, rest, lines, silent⟩ := @ih (before ++ l.text ++ ['\n'])
        (fun m hm => h m (List.mem_cons_of_mem l hm)) (by simpa using bound)
      refine ⟨piece ++ last ++ .lineBreak :: ls, ?_, ?_, ?_, ?_⟩
      · refine grammatical (.lineBreak :: ls) ⟨trivial, trivial, hg⟩ fun c hc => ?_
        exact (Option.some.inj hc).symm
      · rw [List.flatMap_append, text, List.flatMap_cons, rest]
        rfl
      · rw [(rowWise_statements source).line before piece ls remark, List.map_append, row, text,
          lines]
        rfl
      · rw [(rowWise_reports source).line before piece ls remark, reports_inline hi, text, silent]
        rfl

theorem map_snd_numbered (before : List Char) (page : List PageLine) :
    (numbered before page).map Prod.snd =
      (page.map PageLine.tokens).filter fun ts => !ts.isEmpty := by
  induction page generalizing before with
  | nil => rfl
  | cons l page ih =>
    rw [numbered, List.map_append, ih, List.map_cons]
    cases hi : l.items with
    | nil => simp [PageLine.tokens, hi]
    | cons i items => simp [PageLine.tokens, hi]

/-- However lists of tokens are written out, a scan gives them back in order, each with the line
    on which it was written, and reports nothing. -/
theorem scan_page (name : String) {page : List PageLine} {lists : List (List Token)}
    (laid : LaysOut page lists) (bound : (pageText page).count '\n' < UInt32.size - 1) :
    (Source.mk name (String.ofList (pageText page))).scan.errors = [] ∧
      (Source.mk name (String.ofList (pageText page))).scan.table.source = name ∧
      (Source.mk name (String.ofList (pageText page))).scan.table.lines.map Statement.tokens =
        lists ∧
      (Source.mk name (String.ofList (pageText page))).scan.table.lines.map Statement.onLine =
        numbered [] page := by
  obtain ⟨ls, hg, text, lines, silent⟩ :=
    @exists_lexemes_page name [] page laid.wellWritten (by simpa using bound)
  have tokens : (statements name [] ls).map Statement.tokens =
      ((statements name [] ls).map Statement.onLine).map Prod.snd := by
    rw [List.map_map]
    rfl
  rw [← text, Source.scan_eq, Source.lexemes, String.toList_ofList, lexemes_text hg]
  exact ⟨silent, rfl, by rw [tokens, lines, map_snd_numbered, laid.tokens_eq], lines⟩

def leaflet : List PageLine :=
  [{ indent := [], items := [], comment := some [' ', '\\', 'a'] },
    { indent := ['\t']
      items := [⟨⟨"x"⟩, []⟩, ⟨⟨","⟩, []⟩, ⟨⟨"/"⟩, [' ']⟩, ⟨⟨"/"⟩, []⟩,
        ⟨⟨"\x27p\n\\\x27/\x27"⟩, [' ']⟩]
      comment := some ['b', '\x22'] },
    { indent := [' '], items := [], comment := none },
    { indent := [], items := [⟨⟨"y"⟩, ['\t']⟩, ⟨⟨"z"⟩, []⟩], comment := none }]

theorem laysOut_leaflet :
    LaysOut leaflet
      [[⟨"x"⟩, ⟨","⟩, ⟨"/"⟩, ⟨"/"⟩, ⟨"\x27p\n\\\x27/\x27"⟩], [⟨"y"⟩, ⟨"z"⟩]] := by
  have word {c : Char} (plain : isTerminator c = false) (dark : Text.isWhite c = false) :
      Token.Valid ⟨String.ofList [c]⟩ :=
    .word (List.cons_ne_nil c []) (by simpa using plain) (by simp [Text.Trimmed, dark])
  have symbol : ∀ c ∈ [',', '/'], Token.Valid ⟨String.ofList [c]⟩ := by
    simp only [List.forall_mem_cons]
    exact ⟨.symbol (by decide), .symbol (by decide), by simp⟩
  have literal : Token.Valid ⟨"\x27p\n\\\x27/\x27"⟩ :=
    @Token.Valid.literal '\x27' ['p', '\n', '\\', '\x27', '/'] (by decide)
      (.plain (by decide) (by decide) (.plain (by decide) (by decide)
        (.pair (.plain (by decide) (by decide) .nil))))
  refine ⟨?_, by decide⟩
  simp only [leaflet, List.forall_mem_cons]
  refine ⟨⟨by decide, by simp, .nil, by decide⟩,
    ⟨by decide, ?_, by decide, by decide⟩,
    ⟨by decide, by simp, .nil, by decide⟩,
    ⟨by decide, ?_, by decide, by decide⟩, by simp⟩
  · simp only [List.forall_mem_cons]
    exact ⟨⟨word (by decide) (by decide), by decide⟩, ⟨symbol _ (by simp), by decide⟩,
      ⟨symbol _ (by simp), by decide⟩, ⟨symbol _ (by simp), by decide⟩,
      ⟨literal, by decide⟩, by simp⟩
  · simp only [List.forall_mem_cons]
    exact ⟨⟨word (by decide) (by decide), by decide⟩, ⟨word (by decide) (by decide), by decide⟩,
      by simp⟩

theorem scan_page_leaflet :
    pageText leaflet =
        "// \\a\n\tx,/ /\x27p\n\\\x27/\x27 //b\x22\n \ny\tz".toList ∧
      (pageText leaflet).count '\n' < UInt32.size - 1 ∧
      (Source.mk "l" (String.ofList (pageText leaflet))).scan.errors = [] ∧
      (Source.mk "l" (String.ofList (pageText leaflet))).scan.table.lines.map Statement.onLine =
        [(2, [⟨"x"⟩, ⟨","⟩, ⟨"/"⟩, ⟨"/"⟩, ⟨"\x27p\n\\\x27/\x27"⟩]), (5, [⟨"y"⟩, ⟨"z"⟩])] := by
  obtain ⟨clean, -, -, lines⟩ := scan_page "l" laysOut_leaflet (by decide)
  exact ⟨by decide, by decide, clean, lines.trans (by decide)⟩

end AsmScan
