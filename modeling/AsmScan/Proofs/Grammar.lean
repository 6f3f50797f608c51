import AsmScan.Lexeme.Split
import Mathlib.Data.List.Chain

/-!
The lexical grammar, said without a scanner: which lexemes are well formed, and
what may stand after each of them. A text has exactly one grammatical list of
lexemes, and `lexemes` finds it.
-/

namespace AsmScan

/-- What stands between the quotes of a literal: pairs of a backslash and any
    character, and characters other than the quote and the backslash. -/
inductive LiteralBody (quote : Char) : List Char → Prop where
  | nil : LiteralBody quote []
  | pair {c : Char} {body : List Char} :
    LiteralBody quote body → LiteralBody quote (escape :: c :: body)
  | plain {c : Char} {body : List Char} :
    c ≠ quote → c ≠ escape → LiteralBody quote body → LiteralBody quote (c :: body)

/-- What stands after a quote that is never closed; a backslash may be left alone
    at the end. -/
def OpenBody (quote : Char) (body : List Char) : Prop :=
  LiteralBody quote body ∨ ∃ front, LiteralBody quote front ∧ body = front ++ [escape]

/-- Every line break in a comment stands right after a backslash. The body itself
    stands after a slash. -/
def CommentBody (body : List Char) : Prop :=
  ('/' :: body).IsChain fun a b => b = '\n' → a = escape

namespace Lexeme

def WellFormed : Lexeme → Prop
  | blank c => c = ' ' ∨ c = '\t'
  | lineBreak => True
  | comment body => CommentBody body
  | symbol c => c ∈ symbols
  | literal quote body => quote ∈ quotes ∧ LiteralBody quote body
  | word cs => cs ≠ [] ∧ ∀ c ∈ cs, isTerminator c = false
  | openLiteral quote body => quote ∈ quotes ∧ OpenBody quote body

def MayPrecede (rest : List Char) : Lexeme → Prop
  | comment body => ∀ c ∈ rest.head?, c = '\n' ∧ body.getLast? ≠ some escape
  | symbol c => ¬(c = '/' ∧ rest.head? = some '/')
  | word _ => ∀ c ∈ rest.head?, isTerminator c = true
  | openLiteral _ _ => rest = []
  | blank _ | lineBreak | literal _ _ => True

end Lexeme

def Grammatical : List Lexeme → Prop
  | [] => True
  | l :: ls => l.WellFormed ∧ l.MayPrecede (ls.flatMap Lexeme.text) ∧ Grammatical ls

def Segments (text : String) (ls : List Lexeme) : Prop :=
  Grammatical ls ∧ ls.flatMap Lexeme.text = text.toList

theorem escape_not_mem_quotes : escape ∉ quotes := by decide

theorem ne_escape_of_mem_quotes {quote : Char} (h : quote ∈ quotes) : quote ≠ escape := by
  intro he
  exact escape_not_mem_quotes (he ▸ h)

theorem commentBody_of_not_mem {body : List Char} (h : '\n' ∉ body) : CommentBody body := by
  refine List.isChain_iff_forall_rel_of_append_cons_cons.mpr ?_
  intro a b front back split hb
  have mem : '\n' ∈ '/' :: body := by simp [split, hb]
  exact absurd (List.mem_of_ne_of_mem (by decide) mem) h

theorem splitComment_of_isChain {c : Char} {body rest : List Char}
    (chain : (c :: body).IsChain fun a b => b = '\n' → a = escape)
    (hr : ∀ d ∈ rest.head?, d = '\n' ∧ (c :: body).getLast? ≠ some escape) :
    splitComment (c == escape) (body ++ rest) = (body, rest) := by
  induction body generalizing c with
  | nil =>
    cases rest with
    | nil => rfl
    | cons d rest =>
      obtain ⟨rfl, hc⟩ := hr d rfl
      have unescaped : (c == escape) = false := by simpa using hc
      rw [List.nil_append, splitComment, if_pos ⟨rfl, unescaped⟩]
  | cons b body ih =>
    obtain ⟨hb, chain⟩ := List.isChain_cons_cons.mp chain
    have inside : ¬(b = '\n' ∧ (c == escape) = false) := by
      rintro ⟨h, hc⟩
      simp [hb h] at hc
    rw [List.cons_append, splitComment, if_neg inside, ih chain]
    intro d hd
    simpa [List.getLast?_cons_cons] using hr d hd

theorem isChain_splitComment (c : Char) (cs : List Char) :
    (c :: (splitComment (c == escape) cs).1).IsChain fun a b => b = '\n' → a = escape := by
  induction cs generalizing c with
  | nil => simp [splitComment]
  | cons b cs ih =>
    rw [splitComment]
    split
    · simp
    · next inside =>
      refine List.isChain_cons_cons.mpr ⟨?_, ih b⟩
      intro hb
      simpa [hb] using inside

theorem splitComment_rest (c : Char) (cs : List Char) :
    ∀ d ∈ (splitComment (c == escape) cs).2.head?,
      d = '\n' ∧ (c :: (splitComment (c == escape) cs).1).getLast? ≠ some escape := by
  induction cs generalizing c with
  | nil => simp [splitComment]
  | cons b cs ih =>
    rw [splitComment]
    split
    · next ends =>
      intro d hd
      obtain rfl : b = d := by simpa using hd
      exact ⟨ends.1, by simpa using ends.2⟩
    · intro d hd
      simpa [List.getLast?_cons_cons] using ih b d hd

theorem splitLiteral_plain {quote c : Char} (cs : List Char) (hc : c ≠ quote) (he : c ≠ escape) :
    splitLiteral quote false (c :: cs) =
      (splitLiteral quote false cs).map fun split => (c :: split.1, split.2) := by
  have unescaped : (c == escape) = false := beq_false_of_ne he
  simp [splitLiteral, hc, unescaped]

theorem splitLiteral_escape {quote : Char} (cs : List Char) (hq : quote ≠ escape) :
    splitLiteral quote false (escape :: cs) =
      (splitLiteral quote true cs).map fun split => (escape :: split.1, split.2) := by
  simp [splitLiteral, hq.symm]

theorem splitLiteral_escaped (quote c : Char) (cs : List Char) :
    splitLiteral quote true (c :: cs) =
      (splitLiteral quote false cs).map fun split => (c :: split.1, split.2) := by
  simp [splitLiteral]

theorem splitLiteral_body_append {quote : Char} {body : List Char} (rest : List Char)
    (hq : quote ≠ escape) (hb : LiteralBody quote body) :
    splitLiteral quote false (body ++ rest) =
      (splitLiteral quote false rest).map fun split => (body ++ split.1, split.2) := by
  induction hb with
  | nil => simp
  | pair hb ih =>
    rw [List.cons_append, splitLiteral_escape _ hq, List.cons_append, splitLiteral_escaped, ih,
      Option.map_map, Option.map_map]
    rfl
  | plain hc he hb ih =>
    rw [List.cons_append, splitLiteral_plain _ hc he, ih, Option.map_map]
    rfl

theorem splitLiteral_of_literalBody {quote : Char} {body : List Char} (rest : List Char)
    (hq : quote ≠ escape) (hb : LiteralBody quote body) :
    splitLiteral quote false (body ++ quote :: rest) = some (body, rest) := by
  rw [splitLiteral_body_append _ hq hb]
  simp [splitLiteral]

theorem splitLiteral_of_openBody {quote : Char} {body : List Char}
    (hq : quote ≠ escape) (hb : OpenBody quote body) : splitLiteral quote false body = none := by
  obtain hb | ⟨front, hb, rfl⟩ := hb
  · rw [← List.append_nil body, splitLiteral_body_append _ hq hb]
    rfl
  · rw [splitLiteral_body_append _ hq hb, splitLiteral_escape _ hq]
    rfl

theorem literalBody_of_splitLiteral {quote : Char} {escaped : Bool} {cs body rest : List Char}
    (h : splitLiteral quote escaped cs = some (body, rest)) :
    LiteralBody quote (if escaped then escape :: body else body) := by
  -- With `escaped`, the backslash of an unfinished pair is put back in front.
  induction cs generalizing escaped body with
  | nil => simp [splitLiteral] at h
  | cons c cs ih =>
    rw [splitLiteral] at h
    split at h
    · next closes =>
      obtain ⟨rfl, rfl⟩ : [] = body ∧ cs = rest := by simpa using h
      simpa [closes.2] using LiteralBody.nil
    · next inside =>
      obtain ⟨split, hs, heq⟩ := Option.map_eq_some_iff.mp h
      obtain ⟨rfl, rfl⟩ := Prod.mk.inj heq
      have tail := ih hs
      cases escaped with
      | true => simpa using LiteralBody.pair (c := c) (by simpa using tail)
      | false =>
        have hc : c ≠ quote := by simpa using inside
        by_cases he : c = escape
        · simpa [he] using tail
        · exact .plain hc he (by simpa [he] using tail)

theorem openBody_of_splitLiteral {quote : Char} {escaped : Bool} {cs : List Char}
    (h : splitLiteral quote escaped cs = none) :
    OpenBody quote (if escaped then escape :: cs else cs) := by
  induction cs generalizing escaped with
  | nil =>
    cases escaped with
    | true => exact .inr ⟨[], .nil, rfl⟩
    | false => exact .inl .nil
  | cons c cs ih =>
    rw [splitLiteral] at h
    split at h
    · simp at h
    · next inside =>
      have tail := ih (Option.map_eq_none_iff.mp h)
      cases escaped with
      | true =>
        obtain hb | ⟨front, hb, heq⟩ := tail
        · exact .inl (.pair (by simpa using hb))
        · exact .inr ⟨escape :: c :: front, .pair hb, by simpa using heq⟩
      | false =>
        have hc : c ≠ quote := by simpa using inside
        by_cases he : c = escape
        · simpa [he] using tail
        · obtain hb | ⟨front, hb, heq⟩ := tail
          · exact .inl (.plain hc he (by simpa [he] using hb))
          · exact .inr ⟨c :: front, .plain hc he hb, by simpa [he] using heq⟩

theorem isTerminator_eq_false_iff {c : Char} :
    isTerminator c = false ↔ CharClass.of c = .plain := by
  simp [isTerminator, isPlain]

theorem isPlain_of_word {cs : List Char} (h : ∀ c ∈ cs, isTerminator c = false) :
    ∀ c ∈ cs, isPlain c = true := by
  intro c hc
  simpa [isTerminator] using h c hc

theorem takeWhile_isPlain {rest : List Char} (h : ∀ c ∈ rest.head?, isTerminator c = true) :
    rest.takeWhile isPlain = [] ∧ rest.dropWhile isPlain = rest := by
  cases rest with
  | nil => exact ⟨rfl, rfl⟩
  | cons c rest =>
    have stop : isPlain c = false := by simpa [isTerminator] using h c rfl
    simp [stop]

theorem head?_dropWhile_isPlain (cs : List Char) :
    ∀ c ∈ (cs.dropWhile isPlain).head?, isTerminator c = true := by
  intro c hc
  have stop := List.head?_dropWhile_not isPlain cs
  rw [Option.mem_def.mp hc] at stop
  simpa [isTerminator] using stop

theorem getLast?_slash_cons (body : List Char) :
    ('/' :: body).getLast? = some escape ↔ body.getLast? = some escape := by
  cases body with
  | nil => decide
  | cons c body => rw [List.getLast?_cons_cons]

namespace Lexeme

theorem text_ne_nil_of_wellFormed {l : Lexeme} (h : l.WellFormed) : l.text ≠ [] := by
  cases l with
  | word cs => exact h.1
  | _ => simp [text]

theorem next_comment {body rest : List Char} (hb : CommentBody body)
    (hr : (comment body).MayPrecede rest) :
    next '/' ('/' :: (body ++ rest)) = (comment body, rest) := by
  have ends : ∀ d ∈ rest.head?, d = '\n' ∧ ('/' :: body).getLast? ≠ some escape := by
    intro d hd
    exact ⟨(hr d hd).1, fun he => (hr d hd).2 ((getLast?_slash_cons body).mp he)⟩
  have split : splitComment false (body ++ rest) = (body, rest) :=
    splitComment_of_isChain hb ends
  have slash : CharClass.of '/' = .symbol := by decide
  simp [next, slash, split]

theorem next_word {c : Char} {ws rest : List Char}
    (hw : ∀ d ∈ c :: ws, isTerminator d = false)
    (hr : ∀ d ∈ rest.head?, isTerminator d = true) :
    next c (ws ++ rest) = (word (c :: ws), rest) := by
  have first := isTerminator_eq_false_iff.mp (hw c (by simp))
  have plain := isPlain_of_word fun d hd => hw d (List.mem_cons_of_mem c hd)
  obtain ⟨taken, dropped⟩ := takeWhile_isPlain hr
  simp only [next, first]
  rw [List.takeWhile_append_of_pos plain, List.dropWhile_append_of_pos plain, taken, dropped,
    List.append_nil]

theorem next_eq_of_wellFormed {l : Lexeme} {c : Char} {cs rest : List Char} (hl : l.WellFormed)
    (hr : l.MayPrecede rest) (ht : l.text ++ rest = c :: cs) : next c cs = (l, rest) := by
  cases l with
  | blank b =>
    obtain ⟨rfl, rfl⟩ := List.cons.inj ht
    simp only [next, CharClass.of_eq_blank_iff.mpr hl]
    rfl
  | lineBreak =>
    obtain ⟨rfl, rfl⟩ := List.cons.inj ht
    rfl
  | comment body =>
    obtain ⟨rfl, rfl⟩ := List.cons.inj ht
    exact next_comment hl hr
  | symbol b =>
    obtain ⟨rfl, rfl⟩ := List.cons.inj ht
    simp only [next, CharClass.of_eq_symbol_iff.mpr hl]
    exact if_neg hr
  | literal quote body =>
    obtain ⟨rfl, rfl⟩ := List.cons.inj ht
    have split := splitLiteral_of_literalBody rest (ne_escape_of_mem_quotes hl.1) hl.2
    simp [next, CharClass.of_eq_quote_iff.mpr hl.1, split]
  | word ws =>
    cases ws with
    | nil => exact absurd rfl hl.1
    | cons w ws =>
      obtain ⟨rfl, rfl⟩ := List.cons.inj ht
      exact next_word hl.2 hr
  | openLiteral quote body =>
    obtain rfl : rest = [] := hr
    obtain ⟨rfl, rfl⟩ := List.cons.inj ht
    have split := splitLiteral_of_openBody (ne_escape_of_mem_quotes hl.1) hl.2
    simp [next, CharClass.of_eq_quote_iff.mpr hl.1, split]

theorem wellFormed_next (c : Char) (cs : List Char) :
    (next c cs).1.WellFormed ∧ (next c cs).1.MayPrecede (next c cs).2 := by
  unfold next
  split
  · next h => exact ⟨CharClass.of_eq_blank_iff.mp h, trivial⟩
  · exact ⟨trivial, trivial⟩
  · next h =>
    split
    · refine ⟨isChain_splitComment '/' cs.tail, ?_⟩
      intro d hd
      have ends := splitComment_rest '/' cs.tail d hd
      exact ⟨ends.1, fun he => ends.2 ((getLast?_slash_cons _).mpr he)⟩
    · next alone => exact ⟨CharClass.of_eq_symbol_iff.mp h, alone⟩
  · next h =>
    have hq := CharClass.of_eq_quote_iff.mp h
    split
    · next body after split => exact ⟨⟨hq, literalBody_of_splitLiteral split⟩, trivial⟩
    · next split => exact ⟨⟨hq, openBody_of_splitLiteral split⟩, rfl⟩
  · next h =>
    refine ⟨⟨by simp, ?_⟩, head?_dropWhile_isPlain cs⟩
    intro d hd
    obtain rfl | hd := List.mem_cons.mp hd
    · exact isTerminator_eq_false_iff.mpr h
    · have plain : isPlain d = true := List.all_eq_true.mp List.all_takeWhile d hd
      simpa [isTerminator] using plain

end Lexeme

theorem wellFormed_of_mem {ls : List Lexeme} (hg : Grammatical ls) {l : Lexeme} (h : l ∈ ls) :
    l.WellFormed := by
  induction ls with
  | nil => exact absurd h List.not_mem_nil
  | cons k ks ih =>
    obtain rfl | h := List.mem_cons.mp h
    · exact hg.1
    · exact ih hg.2.2 h

theorem grammatical_lexemes (cs : List Char) : Grammatical (lexemes cs) := by
  fun_induction lexemes cs with
  | case1 => trivial
  | case2 c rest ih =>
    obtain ⟨formed, follows⟩ := Lexeme.wellFormed_next c rest
    refine ⟨formed, ?_, ih⟩
    rw [text_lexemes]
    exact follows

/-- The grammar leaves no choice: a grammatical list is what its text is split into. -/
theorem lexemes_text {ls : List Lexeme} (h : Grammatical ls) :
    lexemes (ls.flatMap Lexeme.text) = ls := by
  induction ls with
  | nil => rw [List.flatMap_nil, lexemes]
  | cons l ls ih =>
    obtain ⟨formed, follows, tail⟩ := h
    cases ht : (l :: ls).flatMap Lexeme.text with
    | nil =>
      have nonempty := Lexeme.text_ne_nil_of_wellFormed formed
      simp [nonempty] at ht
    | cons c cs =>
      have taken := Lexeme.next_eq_of_wellFormed formed follows (by simpa using ht)
      rw [lexemes, taken, ih tail]

theorem segments_iff {text : String} {ls : List Lexeme} :
    Segments text ls ↔ ls = lexemes text.toList := by
  constructor
  · rintro ⟨grammatical, joined⟩
    rw [← joined, lexemes_text grammatical]
  · rintro rfl
    exact ⟨grammatical_lexemes _, text_lexemes _⟩

namespace Lexeme

theorem mayPrecede_append {l : Lexeme} {rest : List Char} (more : List Char)
    (h : l.MayPrecede rest) (hne : rest ≠ []) : l.MayPrecede (rest ++ more) := by
  have head : (rest ++ more).head? = rest.head? := List.head?_append_of_ne_nil rest hne
  cases l with
  | comment body | symbol c | word cs => simpa only [MayPrecede, head] using h
  | openLiteral quote body => exact absurd h hne
  | blank _ | lineBreak | literal _ _ => trivial

theorem mayPrecede_nil (l : Lexeme) : l.MayPrecede [] := by
  cases l <;> simp [MayPrecede]

theorem mayPrecede_of_append {l : Lexeme} {rest more : List Char}
    (h : l.MayPrecede (rest ++ more)) : l.MayPrecede rest := by
  cases rest with
  | nil => exact l.mayPrecede_nil
  | cons c rest =>
    cases l with
    | comment body | symbol d | word cs => exact h
    | openLiteral quote body => exact absurd h (List.cons_ne_nil _ _)
    | blank _ | lineBreak | literal _ _ => trivial

theorem mayPrecede_lineBreak {l : Lexeme} {rest : List Char}
    (hc : ∀ body, l = comment body → body.getLast? ≠ some escape)
    (ho : ∀ quote body, l ≠ openLiteral quote body) : l.MayPrecede ('\n' :: rest) := by
  cases l with
  | comment body =>
    intro c h
    exact ⟨(Option.some.inj h).symm, hc body rfl⟩
  | symbol c => simp [MayPrecede]
  | word cs =>
    intro c h
    obtain rfl : '\n' = c := Option.some.inj h
    decide
  | openLiteral quote body => exact absurd rfl (ho quote body)
  | blank _ | lineBreak | literal _ _ => trivial

end Lexeme

theorem grammatical_append {ls ms : List Lexeme} (hl : Grammatical ls) (hm : Grammatical ms)
    (junction : ∀ l ∈ ls.getLast?, l.MayPrecede (ms.flatMap Lexeme.text)) :
    Grammatical (ls ++ ms) := by
  induction ls with
  | nil => exact hm
  | cons l ls ih =>
    obtain ⟨formed, follows, tail⟩ := hl
    cases ls with
    | nil => exact ⟨formed, junction l rfl, hm⟩
    | cons k ls =>
      refine ⟨formed, ?_, ih tail (by simpa [List.getLast?_cons_cons] using junction)⟩
      change l.MayPrecede ((k :: ls ++ ms).flatMap Lexeme.text)
      rw [List.flatMap_append]
      refine Lexeme.mayPrecede_append _ follows ?_
      simp [Lexeme.text_ne_nil_of_wellFormed tail.1]

theorem grammatical_of_append {ls ms : List Lexeme} (h : Grammatical (ls ++ ms)) :
    Grammatical ls ∧ Grammatical ms := by
  induction ls with
  | nil => exact ⟨trivial, h⟩
  | cons l ls ih =>
    rw [List.cons_append] at h
    obtain ⟨formed, follows, tail⟩ := h
    obtain ⟨front, back⟩ := ih tail
    rw [List.flatMap_append] at follows
    exact ⟨⟨formed, Lexeme.mayPrecede_of_append follows, front⟩, back⟩

theorem lexemes_append {a b : List Char}
    (junction : ∀ l ∈ (lexemes a).getLast?, l.MayPrecede b) :
    lexemes (a ++ b) = lexemes a ++ lexemes b := by
  have both : Grammatical (lexemes a ++ lexemes b) := by
    refine grammatical_append (grammatical_lexemes a) (grammatical_lexemes b) ?_
    rwa [text_lexemes]
  have split := lexemes_text both
  rwa [List.flatMap_append, text_lexemes, text_lexemes] at split

theorem mayPrecede_of_grammatical_append {ls ms : List Lexeme} (h : Grammatical (ls ++ ms)) :
    ∀ l ∈ ls.getLast?, l.MayPrecede (ms.flatMap Lexeme.text) := by
  induction ls with
  | nil => simp
  | cons l ls ih =>
    cases ls with
    | nil =>
      intro k hk
      obtain rfl : l = k := Option.some.inj hk
      exact h.2.1
    | cons k ls => simpa [List.getLast?_cons_cons] using ih h.2.2

/-- More text can change only the last lexeme. -/
theorem lexemes_append_of_concat {cs : List Char} {ls : List Lexeme} {l : Lexeme}
    (split : lexemes cs = ls ++ [l]) (more : List Char) :
    lexemes (cs ++ more) = ls ++ lexemes (l.text ++ more) := by
  have hg : Grammatical (ls ++ [l]) := split ▸ grammatical_lexemes cs
  obtain ⟨front, back⟩ := grammatical_of_append hg
  have text : cs = ls.flatMap Lexeme.text ++ l.text := by
    rw [← text_lexemes cs, split, List.flatMap_append, List.flatMap_singleton]
  have junction : ∀ k ∈ (lexemes (ls.flatMap Lexeme.text)).getLast?,
      k.MayPrecede (l.text ++ more) := by
    intro k hk
    rw [lexemes_text front] at hk
    have follows := mayPrecede_of_grammatical_append hg k hk
    rw [List.flatMap_singleton] at follows
    exact Lexeme.mayPrecede_append more follows (Lexeme.text_ne_nil_of_wellFormed back.1)
  rw [text, List.append_assoc, lexemes_append junction, lexemes_text front]

end AsmScan
