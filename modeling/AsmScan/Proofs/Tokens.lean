import AsmScan.Proofs.Grammar
import AsmScan.Table
import Mathlib.Data.List.DropRight

/-!
The token of a lexeme. Symbols and literals are tokens as they stand; a word loses
the white space at its ends and is no token if nothing else is in it.
-/

namespace AsmScan

namespace Text

def Trimmed (cs : List Char) : Prop :=
  (∀ c ∈ cs.head?, isWhite c = false) ∧ ∀ c ∈ cs.getLast?, isWhite c = false

theorem trim_eq_self {cs : List Char} (h : Trimmed cs) : trim cs = cs := by
  have front : cs.dropWhile isWhite = cs := by
    cases cs with
    | nil => rfl
    | cons c cs => rw [List.dropWhile_cons_of_neg (by simp [h.1 c rfl])]
  have back : cs.rdropWhile isWhite = cs := by
    rw [List.rdropWhile_eq_self_iff]
    intro hne
    simp [h.2 _ (List.getLast?_eq_getLast_of_ne_nil hne)]
  change (cs.dropWhile isWhite).rdropWhile isWhite = cs
  rw [front, back]

theorem trimmed_trim (cs : List Char) : Trimmed (trim cs) := by
  constructor
  · intro c hc
    obtain ⟨rest, ht⟩ := List.head?_eq_some_iff.mp hc
    obtain ⟨after, parts⟩ := List.rdropWhile_prefix isWhite (cs.dropWhile isWhite)
    have head : (cs.dropWhile isWhite).head? = some c := by
      rw [← parts, show (cs.dropWhile isWhite).rdropWhile isWhite = c :: rest from ht]
      rfl
    have stop := List.head?_dropWhile_not isWhite cs
    rwa [head] at stop
  · intro c hc
    obtain ⟨hne, rfl⟩ := List.mem_getLast?_eq_getLast hc
    have stop := List.rdropWhile_last_not isWhite (cs.dropWhile isWhite) hne
    exact eq_false_of_ne_true stop

theorem exists_append_trim (cs : List Char) :
    ∃ after, cs = cs.takeWhile isWhite ++ trim cs ++ after := by
  obtain ⟨after, h⟩ := List.rdropWhile_prefix isWhite (cs.dropWhile isWhite)
  refine ⟨after, ?_⟩
  calc
    cs = cs.takeWhile isWhite ++ cs.dropWhile isWhite := List.takeWhile_append_dropWhile.symm
    _ = cs.takeWhile isWhite ++ (trim cs ++ after) := by rw [← h]; rfl
    _ = cs.takeWhile isWhite ++ trim cs ++ after := (List.append_assoc ..).symm

end Text

namespace Lexeme

/-- Line breaks and comments end the line of tokens before them. -/
def isSeparator : Lexeme → Bool
  | lineBreak | comment _ => true
  | _ => false

def isOpen : Lexeme → Bool
  | openLiteral _ _ => true
  | _ => false

def token? : Lexeme → Option Token
  | symbol c => some ⟨String.ofList [c]⟩
  | literal quote body => some ⟨String.ofList (quote :: body ++ [quote])⟩
  | word cs => if Text.trim cs = [] then none else some ⟨String.ofList (Text.trim cs)⟩
  | _ => none

def lead : Lexeme → List Char
  | word cs => cs.takeWhile Text.isWhite
  | _ => []

end Lexeme

theorem Token.ofChars?_of_trimmed {cs : List Char} (h : Text.Trimmed cs) (hne : cs ≠ []) :
    Token.ofChars? cs = some ⟨String.ofList cs⟩ := by
  rw [Token.ofChars?, Text.trim_eq_self h]
  cases cs with
  | nil => exact absurd rfl hne
  | cons c cs => rfl

theorem isWhite_of_mem_symbols {c : Char} (h : c ∈ symbols) : Text.isWhite c = false := by
  have none : symbols.any Text.isWhite = false := rfl
  exact eq_false_of_ne_true (List.any_eq_false.mp none c h)

theorem isWhite_of_mem_quotes {c : Char} (h : c ∈ quotes) : Text.isWhite c = false := by
  have none : quotes.any Text.isWhite = false := rfl
  exact eq_false_of_ne_true (List.any_eq_false.mp none c h)

theorem lineBreak_not_mem_symbols : '\n' ∉ symbols := by decide

theorem lineBreak_not_mem_quotes : '\n' ∉ quotes := by decide

theorem lineBreak_not_mem_word {cs : List Char} (h : ∀ c ∈ cs, isTerminator c = false) :
    '\n' ∉ cs := by
  intro hn
  exact absurd (h '\n' hn) (by decide)

namespace Lexeme

theorem trimmed_symbol {c : Char} (h : c ∈ symbols) : Text.Trimmed [c] := by
  have white := isWhite_of_mem_symbols h
  exact ⟨by simpa using white, by simpa using white⟩

theorem trimmed_literal {quote : Char} (body : List Char) (h : quote ∈ quotes) :
    Text.Trimmed (quote :: body ++ [quote]) := by
  have white := isWhite_of_mem_quotes h
  refine ⟨by simpa using white, ?_⟩
  rw [List.getLast?_concat]
  simpa using white

theorem ofChars?_symbol {c : Char} (h : (symbol c).WellFormed) :
    Token.ofChars? (symbol c).text = (symbol c).token? :=
  Token.ofChars?_of_trimmed (trimmed_symbol h) (List.cons_ne_nil _ _)

theorem ofChars?_literal {quote : Char} {body : List Char} (h : (literal quote body).WellFormed) :
    Token.ofChars? (literal quote body).text = (literal quote body).token? :=
  Token.ofChars?_of_trimmed (trimmed_literal body h.1) (List.cons_ne_nil _ _)

theorem ofChars?_word (cs : List Char) : Token.ofChars? (word cs).text = (word cs).token? := by
  simp only [token?, Token.ofChars?, text]
  cases Text.trim cs with
  | nil => rfl
  | cons c trimmed => rfl

theorem token?_word_eq_some_iff {cs : List Char} {t : Token} :
    (word cs).token? = some t ↔ Text.trim cs ≠ [] ∧ t = ⟨String.ofList (Text.trim cs)⟩ := by
  simp only [token?]
  split
  · next h => simp [h]
  · next h => simp [h, eq_comm]

theorem exists_text_eq {l : Lexeme} {t : Token} (h : l.token? = some t) :
    ∃ after, l.text = l.lead ++ t.text.toList ++ after := by
  cases l with
  | symbol c =>
    obtain rfl := Option.some.inj h
    exact ⟨[], by simp [text, lead]⟩
  | literal quote body =>
    obtain rfl := Option.some.inj h
    exact ⟨[], by simp [text, lead]⟩
  | word cs =>
    obtain ⟨-, rfl⟩ := token?_word_eq_some_iff.mp h
    simpa [text, lead] using Text.exists_append_trim cs
  | blank c | lineBreak | comment body | openLiteral quote body => exact absurd h (by simp [token?])

theorem count_lead {l : Lexeme} (h : l.WellFormed) : l.lead.count '\n' = 0 := by
  cases l with
  | word cs =>
    refine List.count_eq_zero_of_not_mem fun hn => lineBreak_not_mem_word h.2 ?_
    exact (List.takeWhile_prefix Text.isWhite).subset hn
  | _ => rfl

theorem count_token {l : Lexeme} {t : Token} (hl : l.WellFormed) (h : l.token? = some t) :
    t.text.toList.count '\n' = l.text.count '\n' := by
  cases l with
  | symbol c =>
    obtain rfl := Option.some.inj h
    simp [text]
  | literal quote body =>
    obtain rfl := Option.some.inj h
    simp [text]
  | word cs =>
    obtain ⟨-, rfl⟩ := token?_word_eq_some_iff.mp h
    obtain ⟨after, parts⟩ := Text.exists_append_trim cs
    have none : cs.count '\n' = 0 := List.count_eq_zero_of_not_mem (lineBreak_not_mem_word hl.2)
    have counted := congrArg (List.count '\n') parts
    simp only [List.count_append] at counted
    simp only [text, String.toList_ofList]
    omega
  | blank c | lineBreak | comment body | openLiteral quote body => exact absurd h (by simp [token?])

theorem count_text_of_token?_eq_none {l : Lexeme} (hl : l.WellFormed) (h : l.token? = none)
    (hs : l.isSeparator = false) (ho : l.isOpen = false) : l.text.count '\n' = 0 := by
  cases l with
  | blank c =>
    obtain rfl | rfl := hl <;> rfl
  | word cs => exact List.count_eq_zero_of_not_mem (lineBreak_not_mem_word hl.2)
  | symbol c | literal quote body => exact absurd h (by simp [token?])
  | lineBreak | comment body => exact absurd hs (by simp [isSeparator])
  | openLiteral quote body => exact absurd ho (by simp [isOpen])

theorem token?_of_isOpen {l : Lexeme} (h : l.isOpen = true) : l.token? = none := by
  cases l with
  | openLiteral quote body => rfl
  | _ => exact absurd h (by simp [isOpen])

theorem isOpen_of_isSeparator {l : Lexeme} (h : l.isSeparator = true) : l.isOpen = false := by
  cases l with
  | openLiteral quote body => exact absurd h (by simp [isSeparator])
  | _ => rfl

end Lexeme

theorem eq_nil_of_isOpen {l : Lexeme} {ls : List Lexeme} (h : Grammatical (l :: ls))
    (ho : l.isOpen = true) : ls = [] := by
  obtain ⟨-, follows, tail⟩ := h
  cases l with
  | openLiteral quote body =>
    cases ls with
    | nil => rfl
    | cons k ls =>
      have empty : (k :: ls).flatMap Lexeme.text = [] := follows
      simp [Lexeme.text_ne_nil_of_wellFormed tail.1] at empty
  | _ => exact absurd ho (by simp [Lexeme.isOpen])

end AsmScan
