import AsmScan.Proofs.Concatenation
import AsmScan.Scan.Checked

/-!
What holds between any two lexemes of a scan. The parts of the pending statement, the counters and
the text read so far hold each other in place. So no counter overflows, no statement ends before it
begins, and none ends without tokens.
-/

namespace AsmScan

namespace Scan.Checked

/-- What holds after the characters `front`. -/
structure Sound (front : List Char) (c : Checked) : Prop where
  position : c.position = (String.ofList front).utf8ByteSize
  physicalLine : c.physicalLine.toNat = 1 + front.count '\n'
  one_le_startLine : 1 ≤ c.startLine.toNat
  startLine_le : c.startLine.toNat ≤ c.physicalLine.toNat
  breaks : c.errors = #[] → c.physicalLine.toNat - c.startLine.toNat =
    (c.pending.flatMap fun t => t.text.toList).count '\n'
  stamped : c.stamp.isSome = true ↔ c.pending ≠ []
  stamp : ∀ line ∈ c.stamp, line = c.startLine

/-- The parts are those of the pending statement, and the rest is the same. -/
structure Agrees (source : String) (c : Checked) (s : State) : Prop where
  position : s.position = c.position
  startLine : s.startLine = c.startLine
  physicalLine : s.physicalLine = c.physicalLine
  pending : s.pending = c.stamp.bind fun line => Statement.ofTokens? source line c.pending
  lines : s.lines = c.lines
  errors : s.errors = c.errors

variable {source : String} {front : List Char} {c : Checked} {s : State} {l : Lexeme} {t : Token}

theorem sound_initial : Sound [] {} where
  position := rfl
  physicalLine := rfl
  one_le_startLine := Nat.le_refl 1
  startLine_le := Nat.le_refl 1
  breaks := fun _ => rfl
  stamped := by simp
  stamp := by simp

theorem agrees_initial : Agrees source {} {} := ⟨rfl, rfl, rfl, rfl, rfl, rfl⟩

def moved (c : Checked) (l : Lexeme) : Checked :=
  { c with
    position := c.position + l.size
    physicalLine := c.physicalLine + UInt32.ofNat l.breaks }

theorem newLines_eq {n : Nat} (room : c.physicalLine.toNat + n < UInt32.size) :
    c.newLines n = some { c with physicalLine := c.physicalLine + UInt32.ofNat n } := by
  induction n generalizing c with
  | zero => simp [newLines]
  | succ n ih =>
    have next : (c.physicalLine + 1).toNat = c.physicalLine.toNat + 1 :=
      @toNat_add_ofNat c.physicalLine 1 (by omega)
    have first : c.newLine = some { c with physicalLine := c.physicalLine + 1 } :=
      if_pos (by omega)
    have later := @ih { c with physicalLine := c.physicalLine + 1 } (by rw [next]; omega)
    rw [newLines, first, Option.bind_some, later, Nat.add_comm n 1, UInt32.ofNat_add,
      ← UInt32.add_assoc]
    rfl

theorem Sound.room (h : Sound front c) (bound : (front ++ l.text).count '\n' < UInt32.size - 1) :
    c.physicalLine.toNat + l.breaks < UInt32.size := by
  rw [List.count_append] at bound
  rw [h.physicalLine, Lexeme.breaks]
  omega

theorem Sound.read_eq (h : Sound front c)
    (bound : (front ++ l.text).count '\n' < UInt32.size - 1) : c.read l = some (c.moved l) :=
  newLines_eq (h.room bound)

theorem Sound.position_moved (h : Sound front c) (l : Lexeme) :
    (c.moved l).position = (String.ofList (front ++ l.text)).utf8ByteSize := by
  simp only [moved, h.position, Lexeme.size, String.ofList_append, String.utf8ByteSize_append]

theorem Sound.physicalLine_moved (h : Sound front c)
    (bound : (front ++ l.text).count '\n' < UInt32.size - 1) :
    (c.moved l).physicalLine.toNat = 1 + (front ++ l.text).count '\n' := by
  change (c.physicalLine + UInt32.ofNat l.breaks).toNat = _
  rw [toNat_add_ofNat (h.room bound), h.physicalLine, List.count_append, Nat.add_assoc]
  rfl

theorem Sound.startLine_le_moved (h : Sound front c)
    (bound : (front ++ l.text).count '\n' < UInt32.size - 1) :
    (c.moved l).startLine.toNat ≤ (c.moved l).physicalLine.toNat := by
  have before := h.startLine_le
  rw [h.physicalLine] at before
  rw [h.physicalLine_moved bound, List.count_append]
  change c.startLine.toNat ≤ _
  omega

theorem Sound.gap (h : Sound front c) (bound : (front ++ l.text).count '\n' < UInt32.size - 1)
    (flat : l.text.count '\n' = 0) : Sound (front ++ l.text) (c.moved l) where
  position := h.position_moved l
  physicalLine := h.physicalLine_moved bound
  one_le_startLine := h.one_le_startLine
  startLine_le := h.startLine_le_moved bound
  breaks clean := by
    rw [h.physicalLine_moved bound, List.count_append, flat, Nat.add_zero, ← h.physicalLine]
    exact h.breaks clean
  stamped := h.stamped
  stamp := h.stamp

theorem Agrees.moved (h : Agrees source c s) (l : Lexeme) :
    Agrees source (c.moved l) (s.advance l) where
  position := congrArg (· + l.size) h.position
  startLine := h.startLine
  physicalLine := congrArg (· + UInt32.ofNat l.breaks) h.physicalLine
  pending := h.pending
  lines := h.lines
  errors := h.errors

theorem Sound.push (h : Sound front c) (bound : (front ++ l.text).count '\n' < UInt32.size - 1)
    (same : t.text.toList.count '\n' = l.text.count '\n') :
    Sound (front ++ l.text) ((c.moved l).push t) where
  position := h.position_moved l
  physicalLine := h.physicalLine_moved bound
  one_le_startLine := h.one_le_startLine
  startLine_le := h.startLine_le_moved bound
  breaks clean := by
    have before := h.breaks clean
    have le := h.startLine_le
    have after := h.physicalLine_moved bound
    rw [h.physicalLine] at before le
    rw [List.count_append] at after
    change (c.moved l).physicalLine.toNat - c.startLine.toNat =
      ((c.pending ++ [t]).flatMap fun t => t.text.toList).count '\n'
    rw [List.flatMap_append, List.flatMap_singleton, List.count_append, same]
    omega
  stamped := by simp [Checked.push]
  stamp := by
    intro line hline
    obtain rfl := Option.some.inj hline
    change c.stamp.getD c.startLine = c.startLine
    cases hs : c.stamp with
    | none => rfl
    | some first => exact h.stamp first hs

theorem Agrees.push (h : Agrees source c s) (stamped : c.stamp.isSome = true ↔ c.pending ≠ [])
    (t : Token) : Agrees source (c.push t) (s.push source t) where
  position := h.position
  startLine := h.startLine
  physicalLine := h.physicalLine
  pending := by
    change (s.push source t).pending =
      Statement.ofTokens? source (c.stamp.getD c.startLine) (c.pending ++ [t])
    rw [Statement.ofTokens?_append]
    cases hs : c.stamp with
    | none =>
      have empty : c.pending = [] := by simpa [hs] using stamped
      have before : s.pending = none := by rw [h.pending, hs, Option.bind_none]
      simp only [State.push, before, empty, h.startLine]
      rfl
    | some line =>
      obtain ⟨first, others, tokens⟩ := List.exists_cons_of_ne_nil (stamped.mp (by rw [hs]; rfl))
      have before : s.pending = Statement.ofTokens? source line c.pending := by
        rw [h.pending, hs, Option.bind_some]
      simp only [State.push, before, tokens]
      rfl
  lines := h.lines
  errors := h.errors

def flushed (source : String) (c : Checked) : Checked :=
  { c with
    startLine := c.physicalLine
    stamp := none
    pending := []
    lines := match c.stamp.bind fun line => Statement.ofTokens? source line c.pending with
      | none => c.lines
      | some st => c.lines.push st }

theorem flush_eq (stamped : c.stamp.isSome = true ↔ c.pending ≠ [])
    (le : c.startLine.toNat ≤ c.physicalLine.toNat) : c.flush source = some (c.flushed source) := by
  have ended : c.endStatement source =
      some { c.flushed source with startLine := c.startLine } := by
    cases hs : c.stamp with
    | none =>
      have empty : c.pending = [] := by simpa [hs] using stamped
      simp only [endStatement, flushed, hs, Option.bind_none, ← empty]
      rw [← hs]
    | some line =>
      obtain ⟨first, others, tokens⟩ := List.exists_cons_of_ne_nil (stamped.mp (by rw [hs]; rfl))
      simp only [endStatement, flushed, hs, tokens]
      rfl
  rw [flush, ended, Option.bind_some]
  exact if_pos (UInt32.le_iff_toNat_le.mpr le)

theorem Sound.flushed (h : Sound front c)
    (bound : (front ++ l.text).count '\n' < UInt32.size - 1) :
    Sound (front ++ l.text) ((c.moved l).flushed source) where
  position := h.position_moved l
  physicalLine := h.physicalLine_moved bound
  one_le_startLine := by
    change 1 ≤ (c.moved l).physicalLine.toNat
    rw [h.physicalLine_moved bound]
    exact Nat.le_add_right 1 _
  startLine_le := Nat.le_refl _
  breaks _ := Nat.sub_self _
  stamped := by simp [Checked.flushed]
  stamp := by simp [Checked.flushed]

theorem Agrees.flushed (h : Agrees source c s) : Agrees source (c.flushed source) s.close where
  position := h.position
  startLine := h.physicalLine
  physicalLine := h.physicalLine
  pending := rfl
  lines := by
    rw [State.close, h.pending, h.lines]
    rfl
  errors := h.errors

theorem Sound.abandon (h : Sound front c)
    (bound : (front ++ l.text).count '\n' < UInt32.size - 1) :
    Sound (front ++ l.text) ((c.moved l).abandon source) where
  position := h.position_moved l
  physicalLine := h.physicalLine_moved bound
  one_le_startLine := h.one_le_startLine
  startLine_le := h.startLine_le_moved bound
  breaks clean := absurd clean (by simp [Checked.abandon])
  stamped := by simp [Checked.abandon]
  stamp := by simp [Checked.abandon]

theorem Agrees.abandon (h : Agrees source c s) :
    Agrees source (c.abandon source) (s.abandon source) where
  position := h.position
  startLine := h.startLine
  physicalLine := h.physicalLine
  pending := rfl
  lines := h.lines
  errors := by
    rw [State.abandon, h.errors, h.startLine]
    rfl

section Step

variable (h : Sound front c) (ha : Agrees source c s)
include h ha

theorem Sound.pushChars (hl : l.WellFormed) (hs : l.isSeparator = false) (ho : l.isOpen = false)
    (chars : Token.ofChars? l.text = l.token?)
    (bound : (front ++ l.text).count '\n' < UInt32.size - 1) :
    Sound (front ++ l.text) ((c.moved l).pushChars l.text) ∧
      Agrees source ((c.moved l).pushChars l.text) ((s.advance l).pushChars source l.text) := by
  rw [Checked.pushChars, State.pushChars, chars]
  cases ht : l.token? with
  | none => exact ⟨h.gap bound (Lexeme.count_text_of_token?_eq_none hl ht hs ho), ha.moved l⟩
  | some t => exact ⟨h.push bound (Lexeme.count_token hl ht), (ha.moved l).push h.stamped t⟩

theorem Sound.feed (hl : l.WellFormed) (bound : (front ++ l.text).count '\n' < UInt32.size - 1) :
    ∃ c', c.feed source l = some c' ∧ Sound (front ++ l.text) c' ∧
      Agrees source c' (State.feed source s l) := by
  rw [Checked.feed, h.read_eq bound, Option.bind_some]
  cases l with
  | blank b =>
    have flat : (Lexeme.blank b).text.count '\n' = 0 := by obtain rfl | rfl := hl <;> rfl
    exact ⟨_, rfl, h.gap bound flat, ha.moved _⟩
  | lineBreak | comment body =>
    exact ⟨_, flush_eq h.stamped (h.startLine_le_moved bound), h.flushed bound,
      (ha.moved _).flushed⟩
  | symbol b => exact ⟨_, rfl, h.pushChars ha hl rfl rfl (Lexeme.ofChars?_symbol hl) bound⟩
  | literal quote body =>
    exact ⟨_, rfl, h.pushChars ha hl rfl rfl (Lexeme.ofChars?_literal hl) bound⟩
  | word cs => exact ⟨_, rfl, h.pushChars ha hl rfl rfl (Lexeme.ofChars?_word cs) bound⟩
  | openLiteral quote body => exact ⟨_, rfl, h.abandon bound, (ha.moved _).abandon⟩

theorem Sound.run {ls : List Lexeme} (hl : ∀ l ∈ ls, l.WellFormed)
    (bound : (front ++ ls.flatMap Lexeme.text).count '\n' < UInt32.size - 1) :
    ∃ c', c.run source ls = some c' ∧ Sound (front ++ ls.flatMap Lexeme.text) c' ∧
      Agrees source c' (ls.foldl (State.feed source) s) := by
  induction ls generalizing front c s with
  | nil => exact ⟨c, rfl, by simpa using h, ha⟩
  | cons l ls ih =>
    rw [List.flatMap_cons, ← List.append_assoc] at bound ⊢
    have first : (front ++ l.text).count '\n' < UInt32.size - 1 :=
      Nat.lt_of_le_of_lt (count_le_of_append rfl) bound
    obtain ⟨c', fed, sound, agrees⟩ := h.feed ha (hl l List.mem_cons_self) first
    obtain ⟨c'', later, both⟩ :=
      ih sound agrees (fun k hk => hl k (List.mem_cons_of_mem l hk)) bound
    refine ⟨c'', ?_, both⟩
    rw [Checked.run, List.foldlM_cons, fed]
    exact later

end Step

end Scan.Checked

/-- Between any two lexemes all checks have passed, the state of the scan is that of the checked one,
    and what has been read fixes the position, the physical line and how far the start line is
    behind it. The checks up to the end of the text and of its last statement pass too, and give
    the table and the errors of the scan. -/
theorem scan_sound (s : Source) (bound : s.text.toList.count '\n' < UInt32.size - 1)
    {done todo : List Lexeme} (split : s.lexemes = done ++ todo) :
    ∃ c final, Scan.Checked.run s.name {} done = some c ∧
      s.text.toList = done.flatMap Lexeme.text ++ todo.flatMap Lexeme.text ∧
      c.Sound (done.flatMap Lexeme.text) ∧ c.position ≤ s.size ∧
      c.Agrees s.name (done.foldl (Scan.State.feed s.name) {}) ∧
      (c.run s.name todo).bind (Scan.Checked.flush s.name) = some final ∧
      final.lines.toList = s.scan.table.lines ∧ final.errors.toList = s.scan.errors ∧
      final.position = s.scan.bytes ∧ final.physicalLine = s.scan.physicalLines := by
  have text : s.text.toList = done.flatMap Lexeme.text ++ todo.flatMap Lexeme.text := by
    rw [← List.flatMap_append, ← split, Source.lexemes, text_lexemes]
  have formed : ∀ l ∈ done ++ todo, l.WellFormed := fun l hl =>
    wellFormed_of_mem (grammatical_lexemes s.text.toList) (show l ∈ s.lexemes from split ▸ hl)
  rw [text] at bound
  obtain ⟨c, reached, sound, agrees⟩ :=
    (@Scan.Checked.sound_initial).run (@Scan.Checked.agrees_initial s.name)
      (fun l hl => formed l (List.mem_append_left todo hl))
      (Nat.lt_of_le_of_lt (count_le_of_append rfl) bound)
  obtain ⟨c', rest, sound', agrees'⟩ :=
    sound.run agrees (fun l hl => formed l (List.mem_append_right done hl)) bound
  have size : c.position ≤ s.size := by
    have bytes := congrArg (fun cs => (String.ofList cs).utf8ByteSize) text
    simp only [String.ofList_toList, String.ofList_append, String.utf8ByteSize_append] at bytes
    rw [sound.position, Source.size, bytes]
    exact Nat.le_add_right _ _
  have state : Scan.finalState s.name s.text.toList =
      (todo.foldl (Scan.State.feed s.name) (done.foldl (Scan.State.feed s.name) {})).close := by
    rw [← List.foldl_append, ← split]
    rfl
  have last := agrees'.flushed
  rw [← state] at last
  refine ⟨c, c'.flushed s.name, reached, text, sound, size, agrees, ?_,
    congrArg Array.toList last.lines.symm, congrArg Array.toList last.errors.symm,
    last.position.symm, last.physicalLine.symm⟩
  rw [rest]
  exact Scan.Checked.flush_eq sound'.stamped sound'.startLine_le

/-- A word of white space, a literal over two lines and, as the next lexeme, a comment that goes on
    in a third one. -/
def meandering : Source :=
  { name := "m.asm", text := "\u00a0 x \x27a\nb\x27 // c\\\n d\n\x22e" }

def meanderingBefore : Scan.Checked :=
  { position := 11, startLine := 1, physicalLine := 2, stamp := some 1
    pending := [⟨"x"⟩, ⟨"\x27a\nb\x27"⟩] }

theorem scan_sound_meandering :
    meandering.text.toList.count '\n' < UInt32.size - 1 ∧
      meandering.lexemes = meandering.lexemes.take 6 ++ meandering.lexemes.drop 6 ∧
      Scan.Checked.run "m.asm" {} (meandering.lexemes.take 6) = some meanderingBefore ∧
      meanderingBefore.Sound "\u00a0 x \x27a\nb\x27 ".toList ∧
      meanderingBefore.Agrees "m.asm"
        ((meandering.lexemes.take 6).foldl (Scan.State.feed "m.asm") {}) ∧
      (meandering.lexemes.drop 6).head? = some (.comment " c\\\n d".toList) ∧
      ∃ final, (meanderingBefore.run "m.asm" (meandering.lexemes.drop 6)).bind
          (Scan.Checked.flush "m.asm") = some final ∧
        final.lines.toList = [⟨"m.asm", 1, ⟨"x"⟩, #[⟨"\x27a\nb\x27"⟩]⟩] ∧
        final.errors.toList = [⟨"m.asm", 4⟩] := by
  have bound : meandering.text.toList.count '\n' < UInt32.size - 1 := by decide +kernel
  have split : meandering.lexemes = meandering.lexemes.take 6 ++ meandering.lexemes.drop 6 :=
    (List.take_append_drop 6 _).symm
  have before : Scan.Checked.run "m.asm" {} (meandering.lexemes.take 6) =
      some meanderingBefore := by decide +kernel
  have read : (meandering.lexemes.take 6).flatMap Lexeme.text =
      "\u00a0 x \x27a\nb\x27 ".toList := by decide +kernel
  have lines : meandering.scan.table.lines = [⟨"m.asm", 1, ⟨"x"⟩, #[⟨"\x27a\nb\x27"⟩]⟩] := by
    decide +kernel
  have errors : meandering.scan.errors = [⟨"m.asm", 4⟩] := by decide +kernel
  obtain ⟨c, final, reached, -, sound, -, agrees, ends, table, faults, -⟩ :=
    scan_sound meandering bound split
  obtain rfl : c = meanderingBefore := Option.some.inj (reached.symm.trans before)
  rw [read] at sound
  exact ⟨bound, split, before, sound, agrees, by decide +kernel, final, ends, table.trans lines,
    faults.trans errors⟩

end AsmScan
