import AsmScan.Proofs.Concatenation
import AsmScan.Proofs.Lines

/-!
A machine that reads a text one character at a time and tells where a line can end. A scan
agrees with it: every lexeme is a path of the machine, and the text is scanned line by line.
-/

namespace AsmScan

/-- Where the machine stands. The mode `slash` is the one after a slash that may begin a
    comment, and the escapes are those after a backslash. -/
inductive Mode where
  | code
  | slash
  | comment
  | commentEscape
  | literal (quote : Char)
  | literalEscape (quote : Char)
  deriving DecidableEq

namespace Mode

def step : Mode → Char → Mode
  | code, c => if c = '/' then slash else if c ∈ quotes then literal c else code
  | slash, c => if c = '/' then comment else if c ∈ quotes then literal c else code
  | comment, c => if c = '\n' then code else if c = escape then commentEscape else comment
  | commentEscape, c => if c = escape then commentEscape else comment
  | literal quote, c =>
    if c = escape then literalEscape quote else if c = quote then code else literal quote
  | literalEscape quote, _ => literal quote

def run (m : Mode) (cs : List Char) : Mode := cs.foldl step m

def endsLine : Mode → Bool
  | code | slash | comment => true
  | _ => false

def inLiteral : Mode → Bool
  | literal _ | literalEscape _ => true
  | _ => false

/-- The machine goes from one mode to another, and no line ends on the way. -/
inductive Reads : Mode → List Char → Mode → Prop where
  | nil {m : Mode} : Reads m [] m
  | cons {m n : Mode} {c : Char} {cs : List Char} :
    ¬(c = '\n' ∧ m.endsLine = true) → Reads (m.step c) cs n → Reads m (c :: cs) n

def Ready : Mode → List Char → Prop
  | code, _ => True
  | slash, cs => cs.head? ≠ some '/'
  | comment, cs => ∀ c ∈ cs.head?, c = '\n'
  | _, cs => cs = []

theorem ready_code (cs : List Char) : code.Ready cs := trivial

theorem inLiteral_iff {m : Mode} :
    m.inLiteral = true ↔ ∃ quote, m = literal quote ∨ m = literalEscape quote := by
  cases m <;> simp [inLiteral]

theorem run_append (m : Mode) (cs ds : List Char) : m.run (cs ++ ds) = (m.run cs).run ds :=
  List.foldl_append

theorem Reads.run_eq {m n : Mode} {cs : List Char} (h : Reads m cs n) : m.run cs = n := by
  induction h with
  | nil => rfl
  | cons _ _ ih => exact ih

theorem Reads.append {m n k : Mode} {cs ds : List Char} (h : Reads m cs n) (h' : Reads n ds k) :
    Reads m (cs ++ ds) k := by
  induction h with
  | nil => exact h'
  | cons quiet _ ih => exact .cons quiet (ih h')

theorem Reads.single {m : Mode} {c : Char} (h : ¬(c = '\n' ∧ m.endsLine = true)) :
    Reads m [c] (m.step c) :=
  .cons h .nil

theorem Ready.step_eq {m : Mode} {c : Char} {cs : List Char} (h : m.Ready (c :: cs)) :
    m.step c = code.step c ∧ m.endsLine = true := by
  cases m with
  | code => exact ⟨rfl, rfl⟩
  | slash =>
    have hc : c ≠ '/' := by simpa [Ready] using h
    exact ⟨by simp [step, hc], rfl⟩
  | comment =>
    obtain rfl : c = '\n' := by simpa [Ready] using h
    exact ⟨by decide, rfl⟩
  | _ => exact absurd h (List.cons_ne_nil c cs)

theorem Ready.reads {m n : Mode} {cs rest : List Char} (h : m.Ready (cs ++ rest))
    (hne : cs ≠ []) (hr : Reads code cs n) : Reads m cs n := by
  cases hr with
  | nil => exact absurd rfl hne
  | cons quiet hr =>
    obtain ⟨same, ends⟩ := h.step_eq
    exact .cons (fun ⟨hn, _⟩ => quiet ⟨hn, rfl⟩) (same ▸ hr)

end Mode

section Paths

open Mode

theorem step_code {c : Char} (hs : c ≠ '/') (hq : c ∉ quotes) : code.step c = code := by
  rw [step, if_neg hs, if_neg hq]

theorem step_code_quote {quote : Char} (hq : quote ∈ quotes) :
    code.step quote = literal quote := by
  have hs : quote ≠ '/' := by
    rintro rfl
    exact absurd hq (by decide)
  rw [step, if_neg hs, if_pos hq]

theorem step_literal_escape (quote : Char) :
    (literal quote).step escape = literalEscape quote := by
  rw [step, if_pos rfl]

theorem step_literal_quote {quote : Char} (hq : quote ∈ quotes) :
    (literal quote).step quote = code := by
  rw [step, if_neg (ne_escape_of_mem_quotes hq), if_pos rfl]

theorem reads_quote {quote : Char} {cs : List Char} {n : Mode} (hq : quote ∈ quotes)
    (h : Reads (literal quote) cs n) : Reads code (quote :: cs) n := by
  refine .cons ?_ ?_
  · rintro ⟨rfl, -⟩
    exact lineBreak_not_mem_quotes hq
  · rwa [step_code_quote hq]

theorem reads_literalBody {quote : Char} {body : List Char} (h : LiteralBody quote body) :
    Reads (literal quote) body (literal quote) := by
  induction h with
  | nil => exact .nil
  | pair _ ih =>
    refine .cons (by simp [endsLine]) ?_
    rw [step_literal_escape]
    exact .cons (by simp [endsLine]) ih
  | plain hc he _ ih =>
    refine .cons (by simp [endsLine]) ?_
    rwa [step, if_neg he, if_neg hc]

theorem reads_openBody {quote : Char} {body : List Char} (h : OpenBody quote body) :
    ∃ n, Reads (literal quote) body n ∧ n.inLiteral = true := by
  obtain hb | ⟨front, hb, rfl⟩ := h
  · exact ⟨literal quote, reads_literalBody hb, rfl⟩
  · refine ⟨literalEscape quote, (reads_literalBody hb).append ?_, rfl⟩
    rw [← step_literal_escape quote]
    exact Reads.single (by simp [endsLine])

def commentMode (c : Char) : Mode := if c = escape then commentEscape else comment

theorem step_commentMode {c d : Char} (h : d = '\n' → c = escape) :
    (commentMode c).step d = commentMode d := by
  by_cases hc : c = escape
  · simp [commentMode, hc, step]
  · have inside : d ≠ '\n' := fun hd => hc (h hd)
    simp [commentMode, hc, step, inside]

theorem reads_commentBody {c : Char} {body : List Char}
    (h : (c :: body).IsChain fun a b => b = '\n' → a = escape) :
    Reads (commentMode c) body (commentMode ((c :: body).getLast (List.cons_ne_nil c body))) := by
  induction body generalizing c with
  | nil => exact .nil
  | cons d body ih =>
    obtain ⟨hd, tail⟩ := List.isChain_cons_cons.mp h
    rw [List.getLast_cons_cons]
    refine .cons ?_ (step_commentMode hd ▸ ih tail)
    rintro ⟨hn, ends⟩
    simp [commentMode, hd hn, endsLine] at ends

theorem reads_word {cs : List Char} (h : ∀ c ∈ cs, isTerminator c = false) :
    Reads code cs code := by
  induction cs with
  | nil => exact .nil
  | cons c cs ih =>
    have plain := isTerminator_eq_false_iff.mp (h c List.mem_cons_self)
    have stays : code.step c = code := by
      refine step_code ?_ fun hq => ?_
      · rintro rfl
        exact absurd plain (by decide)
      · rw [CharClass.of_eq_quote_iff.mpr hq] at plain
        exact absurd plain (by decide)
    refine .cons ?_ (stays.symm ▸ ih fun d hd => h d (List.mem_cons_of_mem c hd))
    rintro ⟨rfl, -⟩
    exact absurd plain (by decide)

theorem ready_commentMode {body rest : List Char} (h : (Lexeme.comment body).MayPrecede rest) :
    (commentMode (('/' :: body).getLast (List.cons_ne_nil '/' body))).Ready rest := by
  rw [commentMode]
  split
  · next last =>
    cases rest with
    | nil => rfl
    | cons c rest =>
      refine absurd ((getLast?_slash_cons body).mp ?_) (h c rfl).2
      rw [List.getLast?_eq_getLast_of_ne_nil (List.cons_ne_nil '/' body), last]
  · exact fun c hc => (h c hc).1

theorem Lexeme.exists_reads {l : Lexeme} (hl : l.WellFormed) (hn : l ≠ .lineBreak) :
    ∃ n, Reads code l.text n ∧ n.inLiteral = l.isOpen ∧
      ∀ rest, l.MayPrecede rest → n.Ready rest := by
  cases l with
  | blank c =>
    refine ⟨code, ?_, rfl, fun _ _ => trivial⟩
    obtain rfl | rfl := hl <;> exact Reads.single (by decide)
  | lineBreak => exact absurd rfl hn
  | comment body =>
    refine ⟨_, .cons (by decide) (.cons (by decide) (reads_commentBody hl)), ?_, ?_⟩
    · rw [commentMode]
      split <;> rfl
    · exact fun rest h => ready_commentMode h
  | symbol c =>
    have quiet : ¬(c = '\n' ∧ code.endsLine = true) := by
      rintro ⟨rfl, -⟩
      exact lineBreak_not_mem_symbols hl
    refine ⟨code.step c, Reads.single quiet, ?_⟩
    by_cases hc : c = '/'
    · subst hc
      exact ⟨rfl, fun rest h hr => h ⟨rfl, hr⟩⟩
    · have hq : c ∉ quotes := fun hq => by
        have symbol := CharClass.of_eq_symbol_iff.mpr hl
        rw [CharClass.of_eq_quote_iff.mpr hq] at symbol
        exact absurd symbol (by decide)
      rw [step_code hc hq]
      exact ⟨rfl, fun _ _ => trivial⟩
  | literal quote body =>
    refine ⟨code, reads_quote hl.1 ((reads_literalBody hl.2).append ?_), rfl, fun _ _ => trivial⟩
    rw [← step_literal_quote hl.1]
    exact Reads.single (by simp [endsLine])
  | word cs => exact ⟨code, reads_word hl.2, rfl, fun _ _ => trivial⟩
  | openLiteral quote body =>
    obtain ⟨n, hr, inside⟩ := reads_openBody hl.2
    refine ⟨n, reads_quote hl.1 hr, inside, ?_⟩
    rintro rest rfl
    cases n with
    | literal _ | literalEscape _ => rfl
    | _ => exact absurd inside (by simp [inLiteral])

theorem ready_lineBreak {m : Mode} {cs : List Char} (h : m.Ready ('\n' :: cs)) :
    m.step '\n' = code ∧ m.endsLine = true := by
  obtain ⟨same, ends⟩ := h.step_eq
  exact ⟨same.trans (by decide), ends⟩

theorem Mode.Ready.exists_run {m : Mode} {l : Lexeme} {rest : List Char}
    (ready : m.Ready (l.text ++ rest)) (hl : l.WellFormed) :
    ∃ n, m.run l.text = n ∧ n.inLiteral = l.isOpen ∧ ∀ rest, l.MayPrecede rest → n.Ready rest := by
  by_cases hn : l = .lineBreak
  · subst hn
    exact ⟨code, (ready_lineBreak ready).1, rfl, fun _ _ => trivial⟩
  · obtain ⟨n, path, inside, next⟩ := l.exists_reads hl hn
    have same := ready.reads (Lexeme.text_ne_nil_of_wellFormed hl) path
    exact ⟨n, same.run_eq, inside, next⟩

end Paths

theorem inLiteral_run {m : Mode} {ls : List Lexeme} (hg : Grammatical ls)
    (ready : m.Ready (ls.flatMap Lexeme.text)) (closed : m.inLiteral = false) :
    (m.run (ls.flatMap Lexeme.text)).inLiteral = ls.any Lexeme.isOpen := by
  induction ls generalizing m with
  | nil => exact closed
  | cons l ls ih =>
    obtain ⟨n, run, inside, next⟩ := ready.exists_run hg.1
    rw [List.flatMap_cons, Mode.run_append, run, List.any_cons, ← inside]
    cases ho : l.isOpen with
    | true =>
      obtain rfl := eq_nil_of_isOpen hg ho
      simp [inside, ho, Mode.run]
    | false => rw [ih hg.2.2 (next _ hg.2.1) (inside.trans ho), inside, ho, Bool.false_or]

end AsmScan
