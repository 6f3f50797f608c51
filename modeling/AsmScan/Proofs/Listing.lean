import AsmScan.Proofs.RoundTrip
import AsmScan.Table.Listing
import Mathlib

/-!
A listing tells the whole table. Tokens stand in it unchanged, also those with tabs and line breaks
in them, but where a token ends can be seen from its own characters, and the counts say how many
tokens and statements to read.
-/

namespace AsmScan

/-- A value that is written can be read back, whatever is written after it. -/
def ReadsBack {α : Type} (write : α → List Char) (valid : α → Prop) : Prop :=
  ∀ ⦃a b : α⦄, valid a → valid b → ∀ ⦃rest rest' : List Char⦄,
    write a ++ rest = write b ++ rest' → a = b ∧ rest = rest'

theorem ReadsBack.flatMap {α : Type} {write : α → List Char} {valid : α → Prop}
    (h : ReadsBack write valid) {as bs : List α} (ha : ∀ a ∈ as, valid a) (hb : ∀ b ∈ bs, valid b)
    (length : as.length = bs.length) {rest rest' : List Char}
    (written : as.flatMap write ++ rest = bs.flatMap write ++ rest') : as = bs ∧ rest = rest' := by
  induction as generalizing bs with
  | nil =>
    obtain rfl := List.eq_nil_of_length_eq_zero length.symm
    exact ⟨rfl, written⟩
  | cons a as ih =>
    cases bs with
    | nil => exact absurd length (by simp)
    | cons b bs =>
      rw [List.flatMap_cons, List.flatMap_cons, List.append_assoc, List.append_assoc] at written
      obtain ⟨rfl, later⟩ := h (ha a List.mem_cons_self) (hb b List.mem_cons_self) written
      obtain ⟨rfl, rest⟩ := ih (fun c hc => ha c (List.mem_cons_of_mem a hc))
        (fun c hc => hb c (List.mem_cons_of_mem a hc)) (Nat.succ.inj length) later
      exact ⟨rfl, rest⟩

def numeral (n : Nat) : List Char := n.repr.toList ++ [' ']

theorem isDigit_of_mem_repr {n : Nat} {c : Char} (h : c ∈ n.repr.toList) : c.isDigit = true := by
  rw [Nat.toList_repr] at h
  exact Nat.isDigit_of_mem_toDigits (by decide) (by decide) h

theorem takeWhile_numeral (n : Nat) (rest : List Char) :
    (numeral n ++ rest).takeWhile Char.isDigit = n.repr.toList := by
  rw [numeral, List.append_assoc, List.takeWhile_append_of_pos fun c => isDigit_of_mem_repr,
    List.singleton_append, List.takeWhile_cons_of_neg (by decide), List.append_nil]

theorem readsBack_numeral : ReadsBack numeral fun _ => True := by
  intro n m _ _ rest rest' written
  have digits := congrArg (List.takeWhile Char.isDigit) written
  rw [takeWhile_numeral, takeWhile_numeral, String.toList_inj, Nat.repr_inj] at digits
  subst digits
  exact ⟨rfl, List.append_cancel_left written⟩

def Token.cell (t : Token) : List Char := t.text.toList ++ ['\t']

theorem readsBack_cell : ReadsBack Token.cell fun t => ∃ l, Lexeme.Spells t l := by
  rintro t u ⟨l, hl⟩ ⟨k, hk⟩ rest rest' written
  -- The two tokens are the lexeme at the front of one and the same text.
  have text : l.text ++ '\t' :: rest = k.text ++ '\t' :: rest' := by
    rw [hl.2.2, hk.2.2]
    simpa [Token.cell] using written
  obtain ⟨c, cs, front⟩ := List.exists_cons_of_ne_nil
    (List.append_ne_nil_of_left_ne_nil (Lexeme.text_ne_nil_of_wellFormed hl.1) ('\t' :: rest))
  have first := Lexeme.next_eq_of_wellFormed hl.1
    (Lexeme.mayPrecede_blank hl.inline (.inr rfl)) front
  have second := Lexeme.next_eq_of_wellFormed hk.1
    (Lexeme.mayPrecede_blank hk.inline (.inr rfl)) (text.symm.trans front)
  obtain ⟨same, after⟩ := Prod.mk.inj (first.symm.trans second)
  subst same
  exact ⟨Option.some.inj (hl.2.1.symm.trans hk.2.1), (List.cons.inj after).2⟩

theorem Statement.toList_listing (st : Statement) :
    st.listing.toList =
      "    Line ".toList ++ (numeral st.startLine.toNat ++ ("(".toList ++ (numeral st.length ++
        ("tokens): ".toList ++ (st.tokens.flatMap Token.cell ++ ['\n']))))) := by
  have cells : (st.tokens.map fun t => t.text ++ "\t").flatMap String.toList =
      st.tokens.flatMap Token.cell := by
    simp only [List.flatMap_map, String.toList_append]
    rfl
  rw [listing]
  simp only [String.toList_append, String.toList_join, cells, numeral, List.append_assoc]
  rfl

theorem Statement.eq_of_tokens_eq {st st' : Statement} (source : st.source = st'.source)
    (startLine : st.startLine = st'.startLine) (tokens : st.tokens = st'.tokens) : st = st' := by
  obtain ⟨first, others⟩ := List.cons.inj tokens
  cases st
  cases st'
  simp_all [Array.toList_inj]

theorem readsBack_statement (source : String) :
    ReadsBack (fun st : Statement => st.listing.toList) fun st =>
      st.source = source ∧ ∀ t ∈ st.tokens, ∃ l, Lexeme.Spells t l := by
  rintro st st' ⟨hs, spelled⟩ ⟨hs', spelled'⟩ rest rest' written
  simp only [Statement.toList_listing, List.append_assoc] at written
  obtain ⟨startLine, counted⟩ := readsBack_numeral trivial trivial (List.append_cancel_left written)
  obtain ⟨count, listed⟩ := readsBack_numeral trivial trivial (List.append_cancel_left counted)
  obtain ⟨tokens, after⟩ :=
    readsBack_cell.flatMap spelled spelled' count (List.append_cancel_left listed)
  have same : st = st' :=
    Statement.eq_of_tokens_eq (hs.trans hs'.symm) (UInt32.toNat_inj.mp startLine) tokens
  exact ⟨same, (List.cons.inj after).2⟩

theorem Table.toList_listing (t : Table) :
    t.listing.toList =
      "\n   File ".toList ++ (t.source.toList ++ (" generated ".toList ++ (numeral t.length ++
        ("tokenised lines...\n\n".toList ++
          (t.lines.flatMap (fun st => st.listing.toList) ++
            s!"\n   {t.tokenCount} tokens in total\n\n".toList))))) := by
  rw [listing]
  simp only [String.toList_append, String.toList_join, List.flatMap_map, numeral,
    List.append_assoc]
  rfl

theorem Source.statements_scan (s : Source) :
    ∀ st ∈ s.scan.table.lines, st.source = s.name ∧ ∀ t ∈ st.tokens, ∃ l, Lexeme.Spells t l :=
  fun _ h => ⟨source_of_mem_scan h, exists_spells_of_mem_scan h⟩

theorem Table.eq_of_lines_eq {t t' : Table} (source : t.source = t'.source)
    (lines : t.lines = t'.lines) : t = t' := by
  obtain ⟨name, sts⟩ := t
  obtain ⟨name', sts'⟩ := t'
  obtain rfl : name = name' := source
  obtain rfl : sts = sts' := lines
  rfl

/-- Two tables of sources with one name are equal if their listings are. -/
theorem table_eq_of_listing_eq {a b : Source} (name : a.name = b.name)
    (h : a.scan.table.listing = b.scan.table.listing) : a.scan.table = b.scan.table := by
  have source : a.scan.table.source = b.scan.table.source := by
    rw [Source.scan_eq, Source.scan_eq]
    exact name
  have written := congrArg String.toList h
  rw [Table.toList_listing, Table.toList_listing, source] at written
  have counted := List.append_cancel_left
    (List.append_cancel_left (List.append_cancel_left written))
  obtain ⟨count, listed⟩ := readsBack_numeral trivial trivial counted
  obtain ⟨lines, -⟩ := (readsBack_statement a.name).flatMap a.statements_scan
    (name ▸ b.statements_scan) count (List.append_cancel_left listed)
  exact Table.eq_of_lines_eq source lines

/-- A literal that looks like the end of a statement and the whole of the next one. -/
def disguised : Source :=
  { name := "d.asm", text := "mov 'a\t\n    Line 2 (1 tokens): b\t\n' // c\n\n/ \x22\t\x22\n" }

def reindented : Source :=
  { name := "d.asm", text := "\tmov\t'a\t\n    Line 2 (1 tokens): b\t\n'\n// d\n/\t\x22\t\x22" }

theorem table_eq_of_listing_eq_disguised :
    disguised.name = reindented.name ∧ disguised.text ≠ reindented.text ∧
      disguised.scan.table.listing = reindented.scan.table.listing ∧
      disguised.scan.table.listing =
        "\n   File d.asm generated 2 tokenised lines...\n\n" ++
          "    Line 1 (2 tokens): mov\t'a\t\n    Line 2 (1 tokens): b\t\n'\t\n" ++
          "    Line 5 (2 tokens): /\t\x22\t\x22\t\n" ++
          "\n   4 tokens in total\n\n" ∧
      disguised.scan.table = reindented.scan.table := by
  have same : disguised.scan.table.listing = reindented.scan.table.listing := by decide +kernel
  exact ⟨rfl, by decide, same, by decide +kernel, table_eq_of_listing_eq rfl same⟩

end AsmScan
