import AsmScan.Proofs.Concatenation

/-!
Where a literal closes: at the first quote of its kind with an even number of backslashes directly
before it. A scan reads a literal in pairs of a backslash and a character; the runs of backslashes
tell the same without following the pairs from the start.
-/

namespace AsmScan

def escapesAtEnd (cs : List Char) : Nat := (cs.rtakeWhile (· == escape)).length

/-- Whether the next character is the second one of a pair. -/
def isEscaped (cs : List Char) : Bool := escapesAtEnd cs % 2 == 1

/-- The quote between the characters `before` and `after` closes a literal. -/
structure Closes (quote : Char) (rest before after : List Char) : Prop where
  text_eq : rest = before ++ quote :: after
  even : escapesAtEnd before % 2 = 0

def ClosesFirst (quote : Char) (rest before after : List Char) : Prop :=
  Closes quote rest before after ∧ ∀ b a, Closes quote rest b a → before.length ≤ b.length

theorem isEscaped_eq_false_iff {cs : List Char} :
    isEscaped cs = false ↔ escapesAtEnd cs % 2 = 0 := by
  rw [isEscaped, beq_eq_false_iff_ne]
  omega

theorem isEscaped_concat (cs : List Char) (c : Char) :
    isEscaped (cs ++ [c]) = (c == escape && !isEscaped cs) := by
  by_cases hc : c = escape
  · subst hc
    have longer : escapesAtEnd (cs ++ [escape]) = escapesAtEnd cs + 1 := by
      rw [escapesAtEnd, List.rtakeWhile_concat_pos _ _ _ (by simp), List.length_append]
      rfl
    obtain even | odd := Nat.mod_two_eq_zero_or_one (escapesAtEnd cs)
    · simp [isEscaped, longer, Nat.add_mod, even]
    · simp [isEscaped, longer, Nat.add_mod, odd]
  · have none : escapesAtEnd (cs ++ [c]) = 0 := by
      rw [escapesAtEnd, List.rtakeWhile_concat_neg _ _ _ (by simpa using hc)]
      rfl
    simp [isEscaped, none, hc]

theorem isEscaped_of_splitLiteral_eq_none {quote : Char} {read rest : List Char}
    (h : splitLiteral quote (isEscaped read) rest = none) {b a : List Char}
    (split : rest = b ++ quote :: a) : isEscaped (read ++ b) = true := by
  -- What is read moves from `rest` into `read`, and the flag of the scan with it.
  induction rest generalizing read b with
  | nil => exact absurd split (by simp)
  | cons c rest ih =>
    rw [splitLiteral, ← isEscaped_concat] at h
    split at h
    · exact absurd h (by simp)
    · next inside =>
      cases b with
      | nil =>
        obtain ⟨rfl, -⟩ := List.cons.inj split
        simpa using inside
      | cons d b =>
        obtain ⟨rfl, tail⟩ := List.cons.inj split
        simpa using ih (Option.map_eq_none_iff.mp h) tail

theorem isEscaped_of_splitLiteral_eq_some {quote : Char} {read rest body after : List Char}
    (h : splitLiteral quote (isEscaped read) rest = some (body, after)) :
    isEscaped (read ++ body) = false ∧
      ∀ b a, body = b ++ quote :: a → isEscaped (read ++ b) = true := by
  induction rest generalizing read body with
  | nil => exact absurd h (by simp [splitLiteral])
  | cons c rest ih =>
    rw [splitLiteral, ← isEscaped_concat] at h
    split at h
    · next closes =>
      obtain ⟨rfl, rfl⟩ : [] = body ∧ rest = after := by simpa using h
      exact ⟨by simpa using closes.2, by simp⟩
    · next inside =>
      obtain ⟨parts, hs, heq⟩ := Option.map_eq_some_iff.mp h
      obtain ⟨rfl, rfl⟩ := Prod.mk.inj heq
      obtain ⟨last, earlier⟩ := ih hs
      refine ⟨by simpa using last, ?_⟩
      intro b a split
      cases b with
      | nil =>
        obtain ⟨rfl, -⟩ := List.cons.inj split
        simpa using inside
      | cons d b =>
        obtain ⟨rfl, tail⟩ := List.cons.inj split
        simpa using earlier b a tail

theorem not_closes_of_splitLiteral_eq_none {quote : Char} {rest : List Char}
    (h : splitLiteral quote false rest = none) (b a : List Char) : ¬Closes quote rest b a := by
  rintro ⟨split, even⟩
  have escaped : isEscaped ([] ++ b) = true := isEscaped_of_splitLiteral_eq_none h split
  rw [List.nil_append, isEscaped_eq_false_iff.mpr even] at escaped
  exact absurd escaped (by decide)

theorem closesFirst_of_splitLiteral_eq_some {quote : Char} {rest body after : List Char}
    (h : splitLiteral quote false rest = some (body, after)) :
    ClosesFirst quote rest body after := by
  have text : rest = body ++ quote :: after := (splitLiteral_append h).symm
  obtain ⟨last, earlier⟩ := @isEscaped_of_splitLiteral_eq_some quote [] rest body after h
  refine ⟨⟨text, isEscaped_eq_false_iff.mp last⟩, ?_⟩
  rintro b a ⟨split, even⟩
  -- A quote further to the front would stand in the body, where every quote is escaped.
  refine Nat.le_of_not_lt fun shorter => ?_
  have inBody : b ++ [quote] <+: body := by
    have upTo : b ++ [quote] <+: rest := ⟨a, by simp [split]⟩
    refine List.prefix_of_prefix_length_le upTo ⟨_, text.symm⟩ ?_
    simpa using Nat.succ_le_of_lt shorter
  obtain ⟨c, hc⟩ := inBody
  have escaped := earlier b c (by simp [← hc])
  rw [List.nil_append, isEscaped_eq_false_iff.mpr even] at escaped
  exact absurd escaped (by decide)

theorem ClosesFirst.unique {quote : Char} {rest before after b a : List Char}
    (h : ClosesFirst quote rest before after) (h' : ClosesFirst quote rest b a) :
    before = b ∧ after = a := by
  have same : before.length = b.length :=
    Nat.le_antisymm (h.2 b a h'.1) (h'.2 before after h.1)
  obtain ⟨front, back⟩ := List.append_inj (h.1.text_eq.symm.trans h'.1.text_eq) same
  exact ⟨front, (List.cons.inj back).2⟩

theorem splitLiteral_eq_some_iff {quote : Char} {rest before after : List Char} :
    splitLiteral quote false rest = some (before, after) ↔
      ClosesFirst quote rest before after := by
  constructor
  · exact closesFirst_of_splitLiteral_eq_some
  · intro h
    cases hs : splitLiteral quote false rest with
    | none => exact absurd h.1 (not_closes_of_splitLiteral_eq_none hs before after)
    | some parts =>
      obtain ⟨rfl, rfl⟩ := (closesFirst_of_splitLiteral_eq_some hs).unique h
      rfl

theorem splitLiteral_eq_none_iff {quote : Char} {rest : List Char} :
    splitLiteral quote false rest = none ↔ ∀ b a, ¬Closes quote rest b a := by
  constructor
  · exact not_closes_of_splitLiteral_eq_none
  · intro h
    cases hs : splitLiteral quote false rest with
    | none => rfl
    | some parts => exact absurd (closesFirst_of_splitLiteral_eq_some hs).1 (h _ _)

namespace Lexeme

theorem next_of_closesFirst {quote : Char} {rest before after : List Char} (hq : quote ∈ quotes)
    (h : ClosesFirst quote rest before after) :
    next quote rest = (literal quote before, after) := by
  have split := splitLiteral_eq_some_iff.mpr h
  simp only [next, CharClass.of_eq_quote_iff.mpr hq, split]

theorem next_of_not_closes {quote : Char} {rest : List Char} (hq : quote ∈ quotes)
    (h : ∀ before after, ¬Closes quote rest before after) :
    next quote rest = (openLiteral quote rest, []) := by
  have split := splitLiteral_eq_none_iff.mpr h
  simp only [next, CharClass.of_eq_quote_iff.mpr hq, split]

theorem next_eq_literal_iff {quote : Char} {rest before after : List Char} (hq : quote ∈ quotes) :
    next quote rest = (literal quote before, after) ↔ ClosesFirst quote rest before after := by
  refine ⟨fun h => ?_, next_of_closesFirst hq⟩
  rw [← splitLiteral_eq_some_iff]
  cases hs : splitLiteral quote false rest with
  | none =>
    rw [next_of_not_closes hq (splitLiteral_eq_none_iff.mp hs)] at h
    exact absurd (Prod.mk.inj h).1 (by simp)
  | some parts =>
    rw [next_of_closesFirst hq (splitLiteral_eq_some_iff.mp hs)] at h
    simpa [Prod.ext_iff] using h

end Lexeme

theorem count_quote_cons {quote : Char} (hq : quote ∈ quotes) (cs : List Char) :
    (quote :: cs).count '\n' = cs.count '\n' := by
  refine List.count_cons_of_ne ?_
  rintro rfl
  exact lineBreak_not_mem_quotes hq

namespace Scan.State

theorem feed_literal (source : String) (s : State) {quote : Char} (hq : quote ∈ quotes)
    (body : List Char) :
    feed source s (.literal quote body) =
      { s with
        position := s.position + (String.ofList (quote :: (body ++ [quote]))).utf8ByteSize
        physicalLine := s.physicalLine + UInt32.ofNat ((body ++ [quote]).count '\n')
        : State }.push source ⟨String.ofList (quote :: (body ++ [quote]))⟩ := by
  have token := Token.ofChars?_of_trimmed (Lexeme.trimmed_literal body hq) (List.cons_ne_nil _ _)
  have breaks : (Lexeme.literal quote body).breaks = (body ++ [quote]).count '\n' :=
    count_quote_cons hq _
  change (s.advance (.literal quote body)).pushChars source (quote :: body ++ [quote]) = _
  rw [pushChars, token, advance, breaks]
  rfl

theorem feed_openLiteral (source : String) (s : State) {quote : Char} (hq : quote ∈ quotes)
    (body : List Char) :
    feed source s (.openLiteral quote body) =
      { s with
        position := s.position + (String.ofList (quote :: body)).utf8ByteSize
        physicalLine := s.physicalLine + UInt32.ofNat (body.count '\n')
        pending := none
        errors := s.errors.push { source, line := s.startLine } } := by
  have breaks : (Lexeme.openLiteral quote body).breaks = body.count '\n' := count_quote_cons hq _
  change (s.advance (.openLiteral quote body)).abandon source = _
  rw [advance, breaks]
  rfl

end Scan.State

/-- A literal closes, if it does, at the first quote with an even number of backslashes directly
    before it. Its token is the text up to that quote, the physical line moves by the breaks in it,
    and the start line stays. Otherwise all of the text is read, and the literal is reported with
    the start line. -/
theorem literal_closes (source : String) (s : Scan.State) {quote : Char} (hq : quote ∈ quotes)
    (rest : List Char) :
    ((∃ body after, Lexeme.next quote rest = (.literal quote body, after)) ↔
        ∃ before after, Closes quote rest before after) ∧
      (∀ before after, Lexeme.next quote rest = (.literal quote before, after) ↔
        ClosesFirst quote rest before after) ∧
      (∀ before after, ClosesFirst quote rest before after →
        Scan.State.feed source s (.literal quote before) =
          { s with
            position := s.position + (String.ofList (quote :: (before ++ [quote]))).utf8ByteSize
            physicalLine := s.physicalLine + UInt32.ofNat ((before ++ [quote]).count '\n')
            : Scan.State }.push source ⟨String.ofList (quote :: (before ++ [quote]))⟩ ∧
        (s.physicalLine.toNat + rest.count '\n' < UInt32.size →
          (Scan.State.feed source s (.literal quote before)).physicalLine.toNat =
            s.physicalLine.toNat + (before ++ [quote]).count '\n')) ∧
      ((∀ before after, ¬Closes quote rest before after) →
        Lexeme.next quote rest = (.openLiteral quote rest, []) ∧
        Scan.State.feed source s (.openLiteral quote rest) =
          { s with
            position := s.position + (String.ofList (quote :: rest)).utf8ByteSize
            physicalLine := s.physicalLine + UInt32.ofNat (rest.count '\n')
            pending := none
            errors := s.errors.push { source, line := s.startLine } }) := by
  refine ⟨⟨?_, ?_⟩, fun before after => Lexeme.next_eq_literal_iff hq, ?_, ?_⟩
  · rintro ⟨body, after, h⟩
    exact ⟨body, after, ((Lexeme.next_eq_literal_iff hq).mp h).1⟩
  · rintro ⟨before, after, h⟩
    cases hs : splitLiteral quote false rest with
    | none => exact absurd h (not_closes_of_splitLiteral_eq_none hs before after)
    | some parts => exact ⟨_, _, Lexeme.next_of_closesFirst hq (splitLiteral_eq_some_iff.mp hs)⟩
  · intro before after h
    have effect := Scan.State.feed_literal source s hq before
    refine ⟨effect, fun bound => ?_⟩
    have inside : (before ++ [quote]).count '\n' ≤ rest.count '\n' :=
      @count_le_of_append _ _ after (by simp [h.1.text_eq])
    rw [effect]
    exact toNat_add_ofNat (by omega)
  · intro h
    exact ⟨Lexeme.next_of_not_closes hq h, Scan.State.feed_openLiteral source s hq rest⟩

def guarded : List Char := "\\\\\\\x22\n\x27\\\\".toList

def unguarded : List Char := "x\n\\\x22".toList

theorem literal_closes_guarded :
    '\x22' ∈ quotes ∧
      ClosesFirst '\x22' (guarded ++ "\x22 \x22".toList) guarded " \x22".toList ∧
      Lexeme.next '\x22' (guarded ++ "\x22 \x22".toList) =
        (.literal '\x22' guarded, " \x22".toList) ∧
      (Scan.State.feed "f" { startLine := 3, physicalLine := 5 }
        (.literal '\x22' guarded)).physicalLine.toNat = 6 ∧
      (∀ before after, ¬Closes '\x22' unguarded before after) ∧
      Lexeme.next '\x22' unguarded = (.openLiteral '\x22' unguarded, []) ∧
      (Scan.State.feed "f" { startLine := 3, physicalLine := 5 }
        (.openLiteral '\x22' unguarded)).errors = #[⟨"f", 3⟩] := by
  have hq : '\x22' ∈ quotes := by decide
  have first : ClosesFirst '\x22' (guarded ++ "\x22 \x22".toList) guarded " \x22".toList :=
    splitLiteral_eq_some_iff.mp (by decide +kernel)
  have never : ∀ before after, ¬Closes '\x22' unguarded before after :=
    splitLiteral_eq_none_iff.mp (by decide +kernel)
  obtain ⟨-, closed, effect, -⟩ := literal_closes "f" { startLine := 3, physicalLine := 5 } hq
    (guarded ++ "\x22 \x22".toList)
  obtain ⟨-, -, -, opened⟩ := literal_closes "f" { startLine := 3, physicalLine := 5 } hq unguarded
  refine ⟨hq, first, (closed _ _).mpr first, ?_, never, (opened never).1, ?_⟩
  · rw [(effect _ _ first).2 (by decide +kernel)]
    decide +kernel
  · rw [(opened never).2]
    rfl

end AsmScan
