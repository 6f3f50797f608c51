import AsmScan.Proofs.Page
import AsmScan.Proofs.RoundTrip

/-!
The kinds of token, told apart by their characters. A text is a token of some table exactly if it
is of one kind, and then it is scanned to itself.
-/

namespace AsmScan

inductive TokenKind where
  | symbol
  | literal
  | word
  deriving DecidableEq

namespace TokenKind

def opening : TokenKind → CharClass
  | symbol => .symbol
  | literal => .quote
  | word => .plain

theorem opening_inj {kind other : TokenKind} (h : kind.opening = other.opening) : kind = other := by
  cases kind <;> cases other <;> simp [opening] at h ⊢

end TokenKind

namespace Token

/-- Which texts the tokens of a kind have. A word has none of the characters that end words, and
    no white space at its ends. -/
def OfKind (t : Token) : TokenKind → Prop
  | .symbol => ∃ c ∈ symbols, t.text.toList = [c]
  | .literal => ∃ quote ∈ quotes, ∃ body, LiteralBody quote body ∧
      t.text.toList = quote :: body ++ [quote]
  | .word => t.text.toList ≠ [] ∧
      (∀ c ∈ t.text.toList, c ≠ ' ' ∧ c ≠ '\t' ∧ c ≠ '\n' ∧ c ∉ symbols ∧ c ∉ quotes) ∧
      Text.Trimmed t.text.toList

end Token

theorem isTerminator_eq_false_iff_ne {c : Char} :
    isTerminator c = false ↔ c ≠ ' ' ∧ c ≠ '\t' ∧ c ≠ '\n' ∧ c ∉ symbols ∧ c ∉ quotes := by
  rw [isTerminator_eq_false_iff]
  unfold CharClass.of
  grind

variable {t : Token} {kind other : TokenKind}

theorem Token.eq_of_toList_eq {cs : List Char} (h : t.text.toList = cs) :
    t = ⟨String.ofList cs⟩ := by
  rw [← h, String.ofList_toList]

theorem Token.OfKind.valid (h : t.OfKind kind) : t.Valid := by
  cases kind with
  | symbol =>
    obtain ⟨c, hc, text⟩ := h
    rw [Token.eq_of_toList_eq text]
    exact .symbol hc
  | literal =>
    obtain ⟨quote, hq, body, hb, text⟩ := h
    rw [Token.eq_of_toList_eq text]
    exact .literal hq hb
  | word =>
    obtain ⟨nonempty, chars, trimmed⟩ := h
    rw [Token.eq_of_toList_eq (t := t) rfl]
    exact .word nonempty (fun c hc => isTerminator_eq_false_iff_ne.mpr (chars c hc)) trimmed

theorem Lexeme.Spells.exists_ofKind {l : Lexeme} (h : Lexeme.Spells t l) :
    ∃ kind, t.OfKind kind := by
  obtain ⟨formed, gives, text⟩ := h
  cases l with
  | symbol c => exact ⟨.symbol, c, formed, text.symm⟩
  | literal quote body => exact ⟨.literal, quote, formed.1, body, formed.2, text.symm⟩
  | word cs =>
    obtain ⟨nonempty, rfl⟩ := Lexeme.token?_word_eq_some_iff.mp gives
    have same : cs = Text.trim cs := by simpa [Lexeme.text] using text
    refine ⟨.word, ?_⟩
    rw [Token.OfKind, String.toList_ofList]
    refine ⟨nonempty, fun c hc => ?_, Text.trimmed_trim cs⟩
    exact isTerminator_eq_false_iff_ne.mp (formed.2 c (same ▸ hc))
  | blank c | lineBreak | comment body | openLiteral quote body =>
    exact absurd gives (by simp [Lexeme.token?])

theorem Token.OfKind.exists_head (h : t.OfKind kind) :
    ∃ c, t.text.toList.head? = some c ∧ CharClass.of c = kind.opening := by
  cases kind with
  | symbol =>
    obtain ⟨c, hc, text⟩ := h
    exact ⟨c, by rw [text]; rfl, CharClass.of_eq_symbol_iff.mpr hc⟩
  | literal =>
    obtain ⟨quote, hq, body, -, text⟩ := h
    exact ⟨quote, by rw [text]; rfl, CharClass.of_eq_quote_iff.mpr hq⟩
  | word =>
    obtain ⟨nonempty, chars, -⟩ := h
    have head := List.head?_eq_some_head nonempty
    have first := chars _ (List.head_mem nonempty)
    exact ⟨_, head, isTerminator_eq_false_iff.mp (isTerminator_eq_false_iff_ne.mpr first)⟩

theorem Token.OfKind.unique (h : t.OfKind kind) (h' : t.OfKind other) : kind = other := by
  obtain ⟨c, head, opens⟩ := h.exists_head
  obtain ⟨d, head', opens'⟩ := h'.exists_head
  obtain rfl : c = d := Option.some.inj (head.symm.trans head')
  exact TokenKind.opening_inj (opens.symm.trans opens')

theorem Token.OfKind.scan_eq (h : t.OfKind kind) (name : String) :
    (Source.mk name t.text).scan.errors = [] ∧
      (Source.mk name t.text).scan.table =
        { source := name, lines := [{ source := name, startLine := 1, first := t }] } := by
  have spelled : ∀ u ∈ (Statement.mk name 1 t #[]).tokens, ∃ l, Lexeme.Spells u l := by
    intro u hu
    obtain rfl : u = t := List.mem_singleton.mp hu
    exact h.valid.exists_spells
  have chars : (Statement.mk name 1 t #[]).chars ++ [] = t.text.toList := by
    simp [Statement.chars, Statement.tokens, List.intercalate_singleton]
  obtain ⟨lines, errors⟩ := @scan_chars name [] [] _ spelled rfl rfl (by simp)
  rw [chars] at lines errors
  rw [Source.scan_eq, Source.lexemes, lines, errors, lexemes]
  exact ⟨rfl, rfl⟩

/-- The tokens of tables are exactly the texts of one kind. No text is of two kinds, no statement
    is without a token, and a text of any kind is read back as the one token it is. -/
theorem mem_tokens_scan_iff (t : Token) :
    ((∃ s : Source, ∃ st ∈ s.scan.table.lines, t ∈ st.tokens) ↔ ∃! kind, t.OfKind kind) ∧
      (∀ kind other, t.OfKind kind → t.OfKind other → kind = other) ∧
      (∀ s : Source, ∀ st ∈ s.scan.table.lines, st.tokens ≠ []) ∧
      ∀ name kind, t.OfKind kind →
        (Source.mk name t.text).scan.errors = [] ∧
        (Source.mk name t.text).scan.table =
          { source := name, lines := [{ source := name, startLine := 1, first := t }] } := by
  refine ⟨⟨?_, ?_⟩, fun kind other h h' => h.unique h', fun s st _ => st.tokens_ne_nil,
    fun name kind h => h.scan_eq name⟩
  · rintro ⟨s, st, hst, ht⟩
    obtain ⟨l, hl⟩ := exists_spells_of_mem_scan hst t ht
    obtain ⟨kind, h⟩ := hl.exists_ofKind
    exact ⟨kind, h, fun other h' => h'.unique h⟩
  · rintro ⟨kind, h, -⟩
    obtain ⟨-, table⟩ := h.scan_eq ""
    refine ⟨⟨"", t.text⟩, { source := "", startLine := 1, first := t }, ?_,
      List.mem_singleton_self t⟩
    rw [table]
    exact List.mem_singleton_self _

theorem mem_tokens_scan_iff_quoted :
    Token.OfKind ⟨"\x27\\\x27\n//\x27"⟩ .literal ∧
      ¬Token.OfKind ⟨"\x27\\\x27\n//\x27"⟩ .symbol ∧
      ¬Token.OfKind ⟨"\x27\\\x27\n//\x27"⟩ .word ∧
      (∃ s : Source, ∃ st ∈ s.scan.table.lines, ⟨"\x27\\\x27\n//\x27"⟩ ∈ st.tokens) ∧
      (Source.mk "q" "\x27\\\x27\n//\x27").scan.table =
        { source := "q", lines := [⟨"q", 1, ⟨"\x27\\\x27\n//\x27"⟩, #[]⟩] } := by
  have literal : Token.OfKind ⟨"\x27\\\x27\n//\x27"⟩ .literal :=
    ⟨'\x27', by decide, ['\\', '\x27', '\n', '/', '/'],
      .pair (.plain (by decide) (by decide) (.plain (by decide) (by decide)
        (.plain (by decide) (by decide) .nil))), by decide⟩
  obtain ⟨token_iff, unique, -, alone⟩ := mem_tokens_scan_iff ⟨"\x27\\\x27\n//\x27"⟩
  exact ⟨literal, fun symbol => absurd (unique _ _ literal symbol) (by decide),
    fun word => absurd (unique _ _ literal word) (by decide),
    token_iff.mpr ⟨_, literal, fun other h => unique _ _ h literal⟩,
    (alone "q" _ literal).2⟩

end AsmScan
