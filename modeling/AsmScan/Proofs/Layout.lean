import AsmScan.Proofs.Rows.Scan
import Mathlib.Data.List.Forall2

/-!
Tokens laid out on a line. Every token of a table is spelled by a lexeme of its own,
and tokens with a blank between them are read back as they are.
-/

namespace AsmScan

namespace Lexeme

/-- The lexeme is the token and nothing else. -/
def Spells (t : Token) (l : Lexeme) : Prop :=
  l.WellFormed ∧ l.token? = some t ∧ l.text = t.text.toList

theorem Spells.inline {t : Token} {l : Lexeme} (h : Spells t l) : Inline [l] := by
  refine inline_singleton h.1 ?_ ?_
  · intro hs
    cases l with
    | lineBreak | comment body => exact absurd h.2.1 (by simp [token?])
    | _ => exact absurd hs (by simp [isSeparator])
  · intro ho
    exact absurd h.2.1 (by simp [token?_of_isOpen ho])

theorem mem_of_mem_trim {cs : List Char} {c : Char} (h : c ∈ Text.trim cs) : c ∈ cs := by
  obtain ⟨after, parts⟩ := Text.exists_append_trim cs
  rw [parts]
  exact List.mem_append_left _ (List.mem_append_right _ h)

theorem exists_spells {l : Lexeme} {t : Token} (hl : l.WellFormed) (h : l.token? = some t) :
    ∃ k, Spells t k := by
  cases l with
  | symbol c =>
    obtain rfl := Option.some.inj h
    exact ⟨symbol c, hl, rfl, by simp [text]⟩
  | literal quote body =>
    obtain rfl := Option.some.inj h
    exact ⟨literal quote body, hl, rfl, by simp [text]⟩
  | word cs =>
    obtain ⟨hne, rfl⟩ := token?_word_eq_some_iff.mp h
    have again : Text.trim (Text.trim cs) = Text.trim cs := Text.trim_eq_self (Text.trimmed_trim cs)
    refine ⟨word (Text.trim cs), ⟨hne, fun c hc => hl.2 c (mem_of_mem_trim hc)⟩, ?_, by simp [text]⟩
    rw [token?_word_eq_some_iff, again]
    exact ⟨hne, rfl⟩
  | blank c | lineBreak | comment body | openLiteral quote body => exact absurd h (by simp [token?])

theorem mayPrecede_blank {l : Lexeme} {c : Char} {rest : List Char} (hl : Inline [l])
    (hc : c = ' ' ∨ c = '\t') : l.MayPrecede (c :: rest) := by
  obtain ⟨-, hs, ho⟩ := hl l (List.mem_singleton_self l)
  cases l with
  | symbol d =>
    rintro ⟨-, hd⟩
    obtain rfl : c = '/' := Option.some.inj hd
    exact absurd hc (by decide)
  | word cs =>
    intro d h
    obtain rfl : c = d := Option.some.inj h
    obtain rfl | rfl := hc <;> decide
  | comment body => exact absurd hs (by simp [isSeparator])
  | openLiteral quote body => exact absurd ho (by simp [isOpen])
  | blank _ | lineBreak | literal _ _ => trivial

theorem mayPrecede_lineEnd {l : Lexeme} {rest : List Char} (hl : Inline [l])
    (hr : ∀ c ∈ rest.head?, c = '\n') : l.MayPrecede rest := by
  obtain ⟨-, hs, ho⟩ := hl l (List.mem_singleton_self l)
  cases rest with
  | nil => exact l.mayPrecede_nil
  | cons c rest =>
    obtain rfl := hr c rfl
    refine mayPrecede_lineBreak ?_ ?_
    · rintro body rfl
      exact absurd hs (by simp [isSeparator])
    · rintro quote body rfl
      exact absurd ho (by simp [isOpen])

end Lexeme

def spread (ls : List Lexeme) : List Lexeme := ls.intersperse (.blank ' ')

theorem spread_cons_cons (l k : Lexeme) (ks : List Lexeme) :
    spread (l :: k :: ks) = l :: .blank ' ' :: spread (k :: ks) :=
  List.intersperse_cons_cons

theorem inline_blank : Inline [.blank ' '] :=
  inline_singleton (.inl rfl) (by decide) (by decide)

section Spelled

variable {ts : List Token} {ls : List Lexeme} (h : List.Forall₂ Lexeme.Spells ts ls)
include h

theorem inline_spread : Inline (spread ls) := by
  induction h with
  | nil => exact inline_nil
  | @cons t l ts ls hl _ ih =>
    cases ls with
    | nil => exact hl.inline
    | cons k ks => exact hl.inline.append (inline_blank.append ih)

theorem filterMap_token?_spread : (spread ls).filterMap Lexeme.token? = ts := by
  induction h with
  | nil => rfl
  | @cons t l ts ls hl htail ih =>
    cases htail with
    | nil => simp [spread, hl.2.1]
    | cons hk hks =>
      rw [spread_cons_cons, List.filterMap_cons_some hl.2.1, List.filterMap_cons_none rfl, ih]

theorem text_spread :
    (spread ls).flatMap Lexeme.text = [' '].intercalate (ts.map fun t => t.text.toList) := by
  induction h with
  | nil => rfl
  | @cons t l ts ls hl htail ih =>
    cases htail with
    | nil => simp [spread, hl.2.2]
    | cons hk hks =>
      rw [spread_cons_cons, List.flatMap_cons, List.flatMap_cons, ih, hl.2.2]
      simp [List.intercalate_cons_cons, Lexeme.text]

theorem grammatical_spread : Grammatical (spread ls) := by
  induction h with
  | nil => trivial
  | @cons t l ts ls hl htail ih =>
    cases htail with
    | nil => exact ⟨hl.1, l.mayPrecede_nil, trivial⟩
    | cons hk hks => exact ⟨hl.1, Lexeme.mayPrecede_blank hl.inline (.inl rfl), .inl rfl, trivial, ih⟩

end Spelled

theorem exists_forall₂_spells {ts : List Token} (h : ∀ t ∈ ts, ∃ l, Lexeme.Spells t l) :
    ∃ ls, List.Forall₂ Lexeme.Spells ts ls := by
  induction ts with
  | nil => exact ⟨[], .nil⟩
  | cons t ts ih =>
    obtain ⟨l, hl⟩ := h t (by simp)
    obtain ⟨ls, hls⟩ := ih fun u hu => h u (List.mem_cons_of_mem t hu)
    exact ⟨l :: ls, .cons hl hls⟩

theorem exists_spells_of_mem_scan {s : Source} {st : Statement} (h : st ∈ s.scan.table.lines) :
    ∀ t ∈ st.tokens, ∃ l, Lexeme.Spells t l := by
  rw [Source.scan_eq] at h
  obtain ⟨row, hr, hst⟩ := List.mem_filterMap.mp h
  obtain ⟨-, tokens, -⟩ := Row.of_statement? hst
  intro t ht
  rw [tokens] at ht
  obtain ⟨m, hm, rfl⟩ := List.mem_map.mp ht
  obtain ⟨p, hp, hmark⟩ := List.mem_filterMap.mp hm
  obtain ⟨t, gives, rfl⟩ := Option.map_eq_some_iff.mp hmark
  have mem := lexeme_mem_of_mem_place (mem_of_mem_rows hr hp)
  exact Lexeme.exists_spells (wellFormed_of_mem (grammatical_lexemes _) mem) gives

end AsmScan
