import AsmScan.Proofs.Jobs.Assembling
import AsmScan.Proofs.Text.Utf8
import Mathlib.Algebra.GroupWithZero.Nat

/-!
Tokenising onto an output with a limit, whatever is in the log already. Either everything is
done, or the sources are scanned up to the one whose text holds the first byte refused.
-/

namespace AsmScan

def Source.announcement (s : Source) : String := s!"[driver] Scanning {s.name}...\n"

def announcements (verbose : Bool) (sources : List Source) : List String :=
  if verbose then sources.map Source.announcement else []

theorem announcements_cons (verbose : Bool) (s : Source) (rest : List Source) :
    announcements verbose (s :: rest) = announcements verbose [s] ++ announcements verbose rest := by
  cases verbose <;> rfl

theorem accounts_append (verbose : Bool) (front back : List Source) :
    accounts verbose (front ++ back) = accounts verbose front ++ accounts verbose back := by
  rw [accounts, List.map_append, String.join_append]
  rfl

namespace Desk

/-- The same desk with an empty output. -/
def facing (d : Desk) (limit : Option Nat) : Desk := { d with sink := (fresh limit).sink }

theorem accepted_facing (d : Desk) (limit : Option Nat) (text : String) :
    ((d.facing limit).written text).sink.accepted = Text.upTo limit (Text.encode text) := rfl

theorem fits_facing (d : Desk) (n : Nat) (text : String) :
    (d.facing (some n)).fits text = true ↔ (Text.encode text).length ≤ n := by
  have same : (d.facing (some n)).fits text = (fresh (some n)).fits text := rfl
  rw [same, fits_fresh]
  simp

theorem not_fits_facing (d : Desk) (n : Nat) (text : String) :
    (d.facing (some n)).fits text = false ↔ n < (Text.encode text).length := by
  rw [← Bool.not_eq_true, fits_facing, Nat.not_le]

theorem notices_foldl_recorded (d : Desk) (messages : List String) :
    (messages.foldl recorded d).notices = d.notices := by
  induction messages generalizing d with
  | nil => rfl
  | cons message rest ih => exact ih (d.recorded message)

theorem notices_worked (verbose : Bool) (d : Desk) (s : Source) :
    (d.worked verbose s).notices = d.notices ++ announcements verbose [s] := by
  refine (notices_foldl_recorded _ _).trans ?_
  cases verbose with
  | true => rfl
  | false => exact (List.append_nil _).symm

theorem notices_foldl_worked (verbose : Bool) (d : Desk) (sources : List Source) :
    (sources.foldl (worked verbose) d).notices = d.notices ++ announcements verbose sources := by
  induction sources generalizing d with
  | nil => cases verbose <;> exact (List.append_nil _).symm
  | cons s rest ih =>
    rw [List.foldl_cons, ih, notices_worked, List.append_assoc, ← announcements_cons]

end Desk

namespace Job

theorem lineCount_tablesOf (sources : List Source) :
    lineCount (tablesOf sources) = (sources.map fun s => s.scan.table.length).sum := by
  induction sources with
  | nil => rfl
  | cons s rest ih =>
    rw [List.map_cons, List.sum_cons, ← ih]
    cases empty : s.scan.table.isEmpty with
    | true =>
      have none : s.scan.table.length = 0 := by simpa [Table.isEmpty, Table.length] using empty
      simp [tablesOf, lineCount, empty, none]
    | false => simp [tablesOf, lineCount, empty, Table.length]

/-- Where in the output the text after these sources begins. -/
def position (verbose : Bool) (done : List Source) : Nat :=
  (Text.encode (heading ++ accounts verbose done)).length

theorem position_nil (verbose : Bool) : position verbose [] = (Text.encode heading).length := by
  rw [position, show heading ++ accounts verbose [] = heading from String.append_empty]

theorem position_mono (verbose : Bool) {done more : List Source} (h : done <+: more) :
    position verbose done ≤ position verbose more := by
  obtain ⟨rest, rfl⟩ := h
  rw [position, position, accounts_append, ← String.append_assoc, Text.encode_append (_ ++ _),
    List.length_append]
  exact Nat.le_add_right _ _

theorem position_le_output (verbose : Bool) (sources : List Source) :
    position verbose sources ≤ (Text.encode (tokeniseText verbose sources)).length := by
  rw [position, tokeniseText, ← String.append_assoc, Text.encode_append (_ ++ _),
    List.length_append]
  exact Nat.le_add_right _ _

/-- The sources that are scanned if the byte at this place of the output is the first one
    refused: none if it is in the heading, all up to the one whose text holds it, or all if it
    is in the summary. -/
inductive Reached (verbose : Bool) (sources : List Source) (n : Nat) : List Source → Prop where
  | heading : n < (Text.encode heading).length → Reached verbose sources n []
  | source {front rest : List Source} {s : Source} : sources = front ++ s :: rest →
    position verbose front ≤ n → n < position verbose (front ++ [s]) →
    Reached verbose sources n (front ++ [s])
  | summary : position verbose sources ≤ n → Reached verbose sources n sources

section Reached

variable {verbose : Bool} {sources : List Source} {n : Nat}

theorem position_mono_concat (verbose : Bool) {front front' : List Source} {s s' : Source}
    (h : front ++ [s] <+: sources) (h' : front' ++ [s'] <+: sources)
    (shorter : front.length < front'.length) :
    position verbose (front ++ [s]) ≤ position verbose front' := by
  have before : front' <+: sources := (List.prefix_append front' [s']).trans h'
  refine position_mono verbose (List.prefix_of_prefix_length_le h before ?_)
  simpa [Nat.succ_le_iff] using shorter

theorem concat_eq_of_position {front front' : List Source} {s s' : Source}
    (h : front ++ [s] <+: sources) (h' : front' ++ [s'] <+: sources)
    (begun : position verbose front ≤ n) (inside : n < position verbose (front ++ [s]))
    (begun' : position verbose front' ≤ n) (inside' : n < position verbose (front' ++ [s'])) :
    front ++ [s] = front' ++ [s'] := by
  obtain shorter | equal | longer := Nat.lt_trichotomy front.length front'.length
  · have ends := position_mono_concat verbose h h' shorter
    omega
  · exact (List.prefix_of_prefix_length_le h h' (by simp [equal])).eq_of_length (by simp [equal])
  · have ends := position_mono_concat verbose h' h longer
    omega

theorem Reached.unique {a b : List Source} (ha : Reached verbose sources n a)
    (hb : Reached verbose sources n b) : a = b := by
  have start (done : List Source) := position_mono verbose (List.nil_prefix (l := done))
  rw [position_nil] at start
  cases ha with
  | heading early =>
    cases hb with
    | heading _ => rfl
    | @source front _ _ _ begun _ => exact absurd (start front) (by omega)
    | summary begun => exact absurd (start sources) (by omega)
  | @source front rest s split begun inside =>
    have part : front ++ [s] <+: sources := ⟨rest, by simp [split]⟩
    cases hb with
    | heading early => exact absurd (start front) (by omega)
    | @source front' rest' s' split' begun' inside' =>
      exact concat_eq_of_position part ⟨rest', by simp [split']⟩ begun inside begun' inside'
    | summary all => exact absurd (position_mono verbose part) (by omega)
  | summary all =>
    cases hb with
    | heading early => exact absurd (start sources) (by omega)
    | @source front rest s split _ inside =>
      have part : front ++ [s] <+: sources := ⟨rest, by simp [split]⟩
      exact absurd (position_mono verbose part) (by omega)
    | summary _ => rfl

end Reached

theorem StopsTokenising.exists_reached {verbose : Bool} {sources : List Source} {d e : Desk}
    {n : Nat} (h : StopsTokenising verbose sources (d.facing (some n)) e) :
    ∃ scanned, Reached verbose sources n scanned ∧
      e.log.messages = d.log.messages ++ scanned.flatMap Source.complaints ∧
      e.notices = d.notices ++ announcements verbose scanned := by
  cases h with
  | heading exceeds =>
    refine ⟨[], .heading ((Desk.not_fits_facing _ _ _).mp exceeds), (List.append_nil _).symm, ?_⟩
    cases verbose <;> exact (List.append_nil _).symm
  | source first stop =>
    obtain ⟨front, s, rest, split, before, exceeds, rfl⟩ := stop
    have after (text : String) :
        ((d.facing (some n)).written Job.heading).fits text =
          (d.facing (some n)).fits (Job.heading ++ text) := by
      rw [Desk.fits_append, first, Bool.true_and]
    rw [after] at before exceeds
    exact ⟨front ++ [s], .source split ((Desk.fits_facing _ _ _).mp before)
      ((Desk.not_fits_facing _ _ _).mp exceeds), Desk.messages_foldl_worked _ _ _,
      Desk.notices_foldl_worked _ _ _⟩
  | summary all =>
    exact ⟨sources, .summary ((Desk.fits_facing _ _ _).mp all), Desk.messages_foldl_worked _ _ _,
      Desk.notices_foldl_worked _ _ _⟩

theorem notices_tokenised (verbose : Bool) (sources : List Source) (d : Desk) :
    (tokenised verbose sources d).notices = d.notices ++ announcements verbose sources :=
  Desk.notices_foldl_worked verbose (d.written heading) sources

/-- How tokenising ends on an output that takes `n` bytes. With enough room everything is
    written and the messages of all sources are recorded. Otherwise the first `n` bytes are
    taken, and the messages are those of the sources reached, that of the refused byte included. -/
theorem tokenise_outcome (verbose : Bool) (sources : List Source) (d : Desk) (n : Nat) :
    let run (limit : Option Nat) := (tokenise verbose sources).run (d.facing limit)
    let output := Text.encode (tokeniseText verbose sources)
    (∃ e, run none = .ok (tablesOf sources) e ∧ e.sink.accepted = output) ∧
    tokeniseText verbose sources =
      "\n Tokenising input files...\n\n" ++
        (String.join (sources.map fun s =>
          if s.scan.table.lines = [] then ""
          else s!"  Tokenised file {s.name} ({s.scan.table.length} total lines)\n" ++
            if verbose then s.scan.table.listing else "") ++
        s!"\n Generated {(sources.map fun s => s.scan.table.length).sum} tokenised lines\n\n") ∧
    (output.length ≤ n → ∃ e, run (some n) = .ok (tablesOf sources) e ∧
      e.sink.accepted = output ∧
      e.log.messages = d.log.messages ++ sources.flatMap Source.complaints ∧
      e.notices = d.notices ++ announcements verbose sources) ∧
    (n < output.length → ∃ e scanned, run (some n) = .error (.output Sink.refusal) e ∧
      e.sink.accepted = output.take n ∧
      (∀ reached, Reached verbose sources n reached ↔ reached = scanned) ∧
      e.log.messages = d.log.messages ++ scanned.flatMap Source.complaints ∧
      e.notices = d.notices ++ announcements verbose scanned) := by
  intro run output
  have limited := writes_tokenise verbose sources (d.facing (some n))
  have accepted (limit : Option Nat) := d.accepted_facing limit (tokeniseText verbose sources)
  refine ⟨?_, ?_, fun fits => ?_, fun exceeds => ?_⟩
  · obtain ⟨done, sink⟩ := (writes_tokenise verbose sources (d.facing none)).ok rfl
    exact ⟨_, done, by rw [sink, accepted]; rfl⟩
  · rw [tokeniseText, summary, lineCount_tablesOf]
    rfl
  · obtain ⟨done, sink⟩ := limited.ok ((Desk.fits_facing _ _ _).mpr fits)
    refine ⟨_, done, ?_, messages_tokenised _ _ _, notices_tokenised _ _ _⟩
    rw [sink, accepted]
    exact List.take_of_length_le fits
  · obtain ⟨e, stopped, sink, stop⟩ := limited.error ((Desk.not_fits_facing _ _ _).mpr exceeds)
    obtain ⟨scanned, reached, messages, notices⟩ := stop.exists_reached
    refine ⟨e, scanned, stopped, by rw [sink, accepted]; rfl, fun other => ?_, messages, notices⟩
    exact ⟨fun h => h.unique reached, fun h => h ▸ reached⟩

def mute : Source := ⟨"a.asm", "// c\n\x27x"⟩

def spread : Source := ⟨"b.asm", "x \x27y\nz\x27 w\n \x27q"⟩

/-- The output refuses a byte of what is written about the second source, or has just enough
    room. -/
theorem tokenise_outcome_mute_spread :
    let d : Desk := { Desk.fresh none with log := ⟨["earlier"]⟩ }
    let messages := ["earlier", "Error in file a.asm on line 2: Unterminated quoted string",
      "Error in file b.asm on line 3: Unterminated quoted string"]
    let text := "\n Tokenising input files...\n\n" ++
      "  Tokenised file b.asm (1 total lines)\n" ++
      "\n   File b.asm generated 1 tokenised lines...\n\n" ++
      "    Line 1 (3 tokens): x\t\x27y\nz\x27\tw\t\n" ++
      "\n   3 tokens in total\n\n" ++
      "\n Generated 1 tokenised lines\n\n"
    let output := Text.encode text
    tokeniseText true [mute, spread] = text ∧
    (∃ e, (tokenise true [mute, spread]).run (d.facing (some 40)) =
        .error (.output Sink.refusal) e ∧ e.sink.accepted = output.take 40 ∧
      e.log.messages = messages ∧
      e.notices = ["[driver] Scanning a.asm...\n", "[driver] Scanning b.asm...\n"]) ∧
    ∃ e, (tokenise true [mute, spread]).run (d.facing (some output.length)) =
        .ok (tablesOf [mute, spread]) e ∧ e.sink.accepted = output ∧
      e.log.messages = messages := by
  intro d messages text output
  obtain ⟨-, spelled, -, refused⟩ := tokenise_outcome true [mute, spread] d 40
  obtain ⟨-, -, taken, -⟩ := tokenise_outcome true [mute, spread] d output.length
  have written : tokeniseText true [mute, spread] = text := spelled.trans (by decide +kernel)
  have recorded : d.log.messages ++ [mute, spread].flatMap Source.complaints = messages := by
    decide +kernel
  have begun : position true [mute] = 29 := by decide +kernel
  have inside : 40 < position true ([mute] ++ [spread]) := by
    rw [position, Text.length_encode]
    decide +kernel
  have exceeds : 40 < output.length := by
    have whole := Nat.lt_of_lt_of_le inside (position_le_output true [mute, spread])
    rwa [written] at whole
  rw [written] at refused taken
  refine ⟨written, ?_, ?_⟩
  · obtain ⟨e, scanned, run, accepted, exact, log, notices⟩ := refused exceeds
    obtain rfl := (exact ([mute] ++ [spread])).mp (.source rfl (begun ▸ by omega) inside)
    exact ⟨e, run, accepted, log.trans recorded, notices⟩
  · obtain ⟨e, run, accepted, log, -⟩ := taken (Nat.le_refl _)
    exact ⟨e, run, accepted, log.trans recorded⟩

end Job

end AsmScan
