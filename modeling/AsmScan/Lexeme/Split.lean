import AsmScan.CharClass
import AsmScan.Lexeme

/-!
Splitting a text into lexemes. `next` takes the lexeme at the front, `lexemes`
repeats it to the end. Nothing is lost: `text_lexemes` joins the pieces again.
-/

namespace AsmScan

/-- The rest of a comment and what follows it. A comment ends before the first
    line break without a backslash right before it. -/
def splitComment (escaped : Bool) : List Char → List Char × List Char
  | [] => ([], [])
  | c :: rest =>
    if c = '\n' ∧ escaped = false then ([], c :: rest)
    else
      let split := splitComment (c == escape) rest
      (c :: split.1, split.2)

/-- The rest of a literal up to its closing quote and what follows that quote,
    or nothing if the literal stays open. A backslash protects the next character. -/
def splitLiteral (quote : Char) (escaped : Bool) : List Char → Option (List Char × List Char)
  | [] => none
  | c :: rest =>
    if c = quote ∧ escaped = false then some ([], rest)
    else
      (splitLiteral quote (c == escape && !escaped) rest).map fun split => (c :: split.1, split.2)

def Lexeme.next (c : Char) (rest : List Char) : Lexeme × List Char :=
  match CharClass.of c with
  | .blank => (blank c, rest)
  | .lineBreak => (lineBreak, rest)
  | .symbol =>
    if c = '/' ∧ rest.head? = some '/' then
      let split := splitComment false rest.tail
      (comment split.1, split.2)
    else (symbol c, rest)
  | .quote =>
    match splitLiteral c false rest with
    | some (body, after) => (literal c body, after)
    | none => (openLiteral c rest, [])
  | .plain => (word (c :: rest.takeWhile isPlain), rest.dropWhile isPlain)

theorem splitComment_append (escaped : Bool) (cs : List Char) :
    (splitComment escaped cs).1 ++ (splitComment escaped cs).2 = cs := by
  induction cs generalizing escaped with
  | nil => rfl
  | cons c rest ih =>
    rw [splitComment]
    split
    · rfl
    · simp [ih]

theorem splitLiteral_append {quote : Char} {escaped : Bool} {cs body after : List Char}
    (h : splitLiteral quote escaped cs = some (body, after)) : body ++ quote :: after = cs := by
  induction cs generalizing escaped body with
  | nil => simp [splitLiteral] at h
  | cons c rest ih =>
    rw [splitLiteral] at h
    split at h
    · simp_all
    · obtain ⟨split, hs, heq⟩ := Option.map_eq_some_iff.1 h
      obtain ⟨rfl, rfl⟩ := Prod.mk.inj heq
      simp [ih hs]

namespace Lexeme

theorem next_append (c : Char) (rest : List Char) :
    (next c rest).1.text ++ (next c rest).2 = c :: rest := by
  unfold next
  split
  · rfl
  · next h => simp [text, CharClass.eq_of_lineBreak h]
  · split
    · next h =>
      obtain ⟨rfl, hr⟩ := h
      cases rest with
      | nil => simp at hr
      | cons d rest =>
        obtain rfl : d = '/' := by simpa using hr
        simp [text, splitComment_append]
    · rfl
  · split
    · next h => simp [text, splitLiteral_append h]
    · simp [text]
  · simp [text, List.takeWhile_append_dropWhile]

theorem text_ne_nil_next (c : Char) (rest : List Char) : (next c rest).1.text ≠ [] := by
  unfold next
  split <;> (try split) <;> simp [text]

theorem length_next (c : Char) (rest : List Char) : (next c rest).2.length ≤ rest.length := by
  have joined := congrArg List.length (next_append c rest)
  have taken := List.length_pos_iff.2 (text_ne_nil_next c rest)
  simp only [List.length_append, List.length_cons] at joined
  omega

end Lexeme

def lexemes : List Char → List Lexeme
  | [] => []
  | c :: rest => (Lexeme.next c rest).1 :: lexemes (Lexeme.next c rest).2
termination_by cs => cs.length
decreasing_by exact Nat.lt_succ_of_le (Lexeme.length_next c rest)

theorem text_lexemes (cs : List Char) : (lexemes cs).flatMap Lexeme.text = cs := by
  fun_induction lexemes cs with
  | case1 => rfl
  | case2 c rest ih => rw [List.flatMap_cons, ih, Lexeme.next_append]

end AsmScan
