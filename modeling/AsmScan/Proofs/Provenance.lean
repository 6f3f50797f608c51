import AsmScan.Proofs.Rows.Scan
import Mathlib.Data.List.Forall2

/-!
Where statements and errors come from. Each statement belongs to one row of the text
and has the line of the first token of that row; so has the report of an open literal.
-/

namespace AsmScan

namespace Row

def isComplete (row : Row) : Bool := !isOpen row && !(marks row).isEmpty

/-- The lexemes and the tokens of the row stand in the text where they are said to. -/
def StandsIn (text : List Char) (row : Row) : Prop :=
  (∀ p ∈ row, ∃ after, text = p.before ++ p.lexeme.text ++ after) ∧
    ∀ m ∈ marks row, ∃ after, text = m.before ++ m.token.text.toList ++ after

end Row

structure Statement.ReadFrom (source : Source) (row : Row) (st : Statement) : Prop where
  source_eq : st.source = source.name
  tokens_eq : st.tokens = (Row.marks row).map Mark.token
  startLine_eq : ∀ m ∈ (Row.marks row).head?, st.startLine.toNat = 1 + m.before.count '\n'

structure UnclosedLiteral.RaisedBy (source : Source) (row : Row) (e : UnclosedLiteral) : Prop where
  source_eq : e.source = source.name
  line_of_token : ∀ m ∈ (Row.marks row).head?, e.line.toNat = 1 + m.before.count '\n'
  line_of_quote : Row.marks row = [] →
    ∀ p ∈ row.find? (fun p => p.lexeme.isOpen), e.line.toNat = 1 + p.before.count '\n'

theorem Row.standsIn_of_mem_rows {s : Source} {row : Row} (h : row ∈ rows (place [] s.lexemes)) :
    Row.StandsIn s.text.toList row := by
  have placed : ∀ p ∈ row, ∃ after, s.text.toList = p.before ++ p.lexeme.text ++ after := by
    intro p hp
    obtain ⟨after, heq⟩ := exists_append_of_mem_place (mem_of_mem_rows h hp)
    rw [List.nil_append, Source.lexemes, text_lexemes] at heq
    exact ⟨after, heq⟩
  refine ⟨placed, ?_⟩
  intro m hm
  obtain ⟨p, hp, hmark⟩ := List.mem_filterMap.mp hm
  obtain ⟨t, ht, rfl⟩ := Option.map_eq_some_iff.mp hmark
  obtain ⟨after, heq⟩ := placed p hp
  obtain ⟨rest, parts⟩ := Lexeme.exists_text_eq ht
  exact ⟨rest ++ after, by simp [heq, parts]⟩

theorem Row.exists_append_of_mem {s : Source} {row : Row}
    (hr : row ∈ rows (place [] s.lexemes)) {p : Placed} (hp : p ∈ row) :
    ∃ rest, s.text.toList = p.before ++ rest := by
  obtain ⟨after, position⟩ := (Row.standsIn_of_mem_rows hr).1 p hp
  rw [List.append_assoc] at position
  exact ⟨_, position⟩

theorem Row.exists_append_of_mem_marks {s : Source} {row : Row}
    (hr : row ∈ rows (place [] s.lexemes)) {m : Mark} (hm : m ∈ marks row) :
    ∃ rest, s.text.toList = m.before ++ rest := by
  obtain ⟨after, position⟩ := (Row.standsIn_of_mem_rows hr).2 m hm
  rw [List.append_assoc] at position
  exact ⟨_, position⟩

theorem toNat_lineAfter {text before rest : List Char}
    (bound : text.count '\n' < UInt32.size - 1) (h : text = before ++ rest) :
    (UInt32.ofNat (lineAfter before)).toNat = 1 + before.count '\n' := by
  have counted : text.count '\n' = before.count '\n' + rest.count '\n' := by
    rw [h, List.count_append]
  refine UInt32.toNat_ofNat_of_lt' ?_
  rw [lineAfter]
  omega

theorem forall₂_filterMap {α β : Type} {f : α → Option β} {keep : α → Bool} {R : α → β → Prop}
    (xs : List α) (hk : ∀ x ∈ xs, keep x = (f x).isSome)
    (hR : ∀ x ∈ xs, ∀ y, f x = some y → R x y) :
    List.Forall₂ R (xs.filter keep) (xs.filterMap f) := by
  induction xs with
  | nil => exact .nil
  | cons x xs ih =>
    have tail := ih (fun z hz => hk z (List.mem_cons_of_mem x hz))
      (fun z hz => hR z (List.mem_cons_of_mem x hz))
    have head := hk x (by simp)
    cases hx : f x with
    | none =>
      rw [List.filterMap_cons_none hx, List.filter_cons_of_neg (by simp [head, hx])]
      exact tail
    | some y =>
      rw [List.filterMap_cons_some hx, List.filter_cons_of_pos (by simp [head, hx])]
      exact .cons (hR x (by simp) y hx) tail

theorem Row.isComplete_eq (source : String) (row : Row) :
    Row.isComplete row = (Row.statement? source row).isSome := by
  rw [Row.isComplete, Row.statement?]
  cases Row.isOpen row with
  | true => rfl
  | false => cases Row.marks row <;> rfl

theorem Row.isOpen_eq (source : String) (row : Row) :
    Row.isOpen row = (Row.unclosed? source row).isSome := by
  cases h : Row.unclosed? source row with
  | none => exact Row.unclosed?_eq_none_iff.mp h
  | some e =>
    refine eq_true_of_ne_false fun closed => ?_
    rw [Row.unclosed?_eq_none_iff.mpr closed] at h
    exact absurd h (by simp)

theorem readFrom_statement? {s : Source} (bound : s.text.toList.count '\n' < UInt32.size - 1)
    {row : Row} (hr : row ∈ rows (place [] s.lexemes)) {st : Statement}
    (h : Row.statement? s.name row = some st) : st.ReadFrom s row := by
  obtain ⟨source, tokens, m, hm, line⟩ := Row.of_statement? h
  refine ⟨source, tokens, ?_⟩
  intro k hk
  obtain rfl : m = k := Option.some.inj (hm.symm.trans hk)
  obtain ⟨rest, position⟩ := Row.exists_append_of_mem_marks hr (List.mem_of_head? hm)
  rw [line]
  exact toNat_lineAfter bound position

theorem raisedBy_unclosed? {s : Source} (bound : s.text.toList.count '\n' < UInt32.size - 1)
    {row : Row} (hr : row ∈ rows (place [] s.lexemes)) {e : UnclosedLiteral}
    (h : Row.unclosed? s.name row = some e) : e.RaisedBy s row := by
  obtain ⟨p, found, rfl⟩ := Option.map_eq_some_iff.mp h
  refine ⟨rfl, ?_, ?_⟩
  · intro m hm
    obtain ⟨rest, position⟩ := Row.exists_append_of_mem_marks hr (List.mem_of_head? hm)
    simp only [Option.mem_def.mp hm, Option.map_some, Option.getD_some]
    exact toNat_lineAfter bound position
  · intro silent q hq
    obtain rfl : p = q := by simpa [found] using hq
    obtain ⟨rest, position⟩ := Row.exists_append_of_mem hr (List.mem_of_find?_eq_some found)
    simp only [silent, List.head?_nil, Option.map_none, Option.getD_none]
    exact toNat_lineAfter bound position

theorem count_le_of_append {text before rest : List Char} (h : text = before ++ rest) :
    before.count '\n' ≤ text.count '\n' := by
  rw [h, List.count_append]
  exact Nat.le_add_right _ _

theorem startLine_le {s : Source} (bound : s.text.toList.count '\n' < UInt32.size - 1)
    {st : Statement} (h : st ∈ s.scan.table.lines) :
    st.startLine.toNat ≤ 1 + s.text.toList.count '\n' := by
  rw [Source.scan_eq] at h
  obtain ⟨row, hr, hst⟩ := List.mem_filterMap.mp h
  obtain ⟨-, -, m, hm, -⟩ := Row.of_statement? hst
  obtain ⟨rest, position⟩ := Row.exists_append_of_mem_marks hr (List.mem_of_head? hm)
  rw [(readFrom_statement? bound hr hst).startLine_eq m hm]
  exact Nat.add_le_add_left (count_le_of_append position) 1

theorem errorLine_le {s : Source} (bound : s.text.toList.count '\n' < UInt32.size - 1)
    {e : UnclosedLiteral} (h : e ∈ s.scan.errors) :
    e.line.toNat ≤ 1 + s.text.toList.count '\n' := by
  rw [Source.scan_eq] at h
  obtain ⟨row, hr, he⟩ := List.mem_filterMap.mp h
  have raised := raisedBy_unclosed? bound hr he
  cases hm : Row.marks row with
  | nil =>
    obtain ⟨p, found, -⟩ := Option.map_eq_some_iff.mp he
    obtain ⟨rest, position⟩ := Row.exists_append_of_mem hr (List.mem_of_find?_eq_some found)
    rw [raised.line_of_quote hm p found]
    exact Nat.add_le_add_left (count_le_of_append position) 1
  | cons m ms =>
    obtain ⟨rest, position⟩ := Row.exists_append_of_mem_marks hr (hm ▸ List.mem_cons_self)
    rw [raised.line_of_token m (by simp [hm])]
    exact Nat.add_le_add_left (count_le_of_append position) 1

/-- Statements and errors name their source and the line on which their row begins. -/
theorem scan_provenance (s : Source) {ls : List Lexeme} (segments : Segments s.text ls)
    (bound : s.text.toList.count '\n' < UInt32.size - 1) :
    (∀ row ∈ rows (place [] ls), Row.StandsIn s.text.toList row) ∧
      List.Forall₂ (Statement.ReadFrom s) ((rows (place [] ls)).filter Row.isComplete)
        s.scan.table.lines ∧
      List.Forall₂ (UnclosedLiteral.RaisedBy s) ((rows (place [] ls)).filter Row.isOpen)
        s.scan.errors := by
  obtain rfl := segments_iff.mp segments
  refine ⟨fun row => Row.standsIn_of_mem_rows, ?_, ?_⟩
  · rw [Source.scan_eq]
    refine forall₂_filterMap _ (fun row _ => Row.isComplete_eq s.name row) ?_
    intro row hr st hst
    exact readFrom_statement? bound hr hst
  · rw [Source.scan_eq]
    refine forall₂_filterMap _ (fun row _ => Row.isOpen_eq s.name row) ?_
    intro row hr e he
    exact raisedBy_unclosed? bound hr he

/-- A continued comment, a blank line, a word of white space, a literal over two lines and
    one that stays open. -/
def winding : Source :=
  { name := "w.asm", text := "// c\\\n c\n\n \u00a0 \n 'a\nb' x\ny \x22z" }

theorem scan_provenance_winding :
    Segments winding.text (lexemes winding.text.toList) ∧
      winding.text.toList.count '\n' < UInt32.size - 1 ∧
      List.Forall₂ (Statement.ReadFrom winding)
        ((rows (place [] (lexemes winding.text.toList))).filter Row.isComplete)
        winding.scan.table.lines ∧
      List.Forall₂ (UnclosedLiteral.RaisedBy winding)
        ((rows (place [] (lexemes winding.text.toList))).filter Row.isOpen)
        winding.scan.errors ∧
      winding.scan.table.lines.map Statement.startLine = [5] ∧
      winding.scan.errors = [{ source := "w.asm", line := 7 }] := by
  have segments : Segments winding.text (lexemes winding.text.toList) := segments_iff.mpr rfl
  obtain ⟨-, read, raised⟩ := scan_provenance winding segments (by decide)
  exact ⟨segments, by decide, read, raised, by decide +kernel, by decide +kernel⟩

end AsmScan
