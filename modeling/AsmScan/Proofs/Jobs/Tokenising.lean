import AsmScan.Proofs.Jobs.Loading

/-!
Tokenising the sources one after another: what is written, what comes out, and how much is
done where the output refuses a byte.
-/

namespace AsmScan

namespace Source

def complaints (s : Source) : List String := s.scan.errors.map fun e => (Fault.lexical e).message

/-- What is to be written about a source: nothing if it has no statements, otherwise a line and,
    if that is wanted, the listing. -/
def account (verbose : Bool) (s : Source) : String :=
  if s.scan.table.lines = [] then ""
  else s!"  Tokenised file {s.name} ({s.scan.table.length} total lines)\n" ++
    if verbose then s.scan.table.listing else ""

theorem account_of_isEmpty (verbose : Bool) {s : Source} (h : s.scan.table.isEmpty = true) :
    s.account verbose = "" :=
  if_pos (List.isEmpty_iff.mp h)

theorem account_of_not_isEmpty (verbose : Bool) {s : Source} (h : s.scan.table.isEmpty = false) :
    s.account verbose = Job.progress verbose s.scan.table :=
  if_neg (List.isEmpty_eq_false_iff.mp h)

end Source

def accounts (verbose : Bool) (sources : List Source) : String :=
  String.join (sources.map (Source.account verbose))

theorem accounts_cons (verbose : Bool) (s : Source) (rest : List Source) :
    accounts verbose (s :: rest) = s.account verbose ++ accounts verbose rest :=
  String.join_cons

def tablesOf (sources : List Source) : List Table :=
  (sources.map fun s => s.scan.table).filter fun t => !t.isEmpty

namespace Desk

def announced (verbose : Bool) (d : Desk) (s : Source) : Desk :=
  if verbose then d.notified s!"[driver] Scanning {s.name}...\n" else d

def scanned (d : Desk) (s : Source) : Desk :=
  (s.complaints.foldl recorded (d.emitted s.scan.openingEvents)).emitted [s.scan.closingEvent]

def worked (verbose : Bool) (d : Desk) (s : Source) : Desk :=
  ((d.announced verbose s).scanned s).written (s.account verbose)

theorem foldl_recorded (d : Desk) (messages : List String) :
    (messages.foldl recorded d).sink = d.sink ∧
      (messages.foldl recorded d).log.messages = d.log.messages ++ messages := by
  induction messages generalizing d with
  | nil => exact ⟨rfl, (List.append_nil _).symm⟩
  | cons message rest ih =>
    obtain ⟨sink, log⟩ := ih (d.recorded message)
    exact ⟨sink, log.trans (by simp [recorded])⟩

theorem sink_scanned (verbose : Bool) (d : Desk) (s : Source) :
    ((d.announced verbose s).scanned s).sink = d.sink := by
  refine (foldl_recorded _ _).1.trans ?_
  cases verbose <;> rfl

theorem sink_worked (verbose : Bool) (d : Desk) (s : Source) :
    (d.worked verbose s).sink = (d.written (s.account verbose)).sink := by
  rw [worked, written, sink_scanned, written]

theorem messages_worked (verbose : Bool) (d : Desk) (s : Source) :
    (d.worked verbose s).log.messages = d.log.messages ++ s.complaints := by
  refine (foldl_recorded _ _).2.trans ?_
  cases verbose <;> rfl

theorem messages_foldl_worked (verbose : Bool) (d : Desk) (sources : List Source) :
    (sources.foldl (worked verbose) d).log.messages =
      d.log.messages ++ sources.flatMap Source.complaints := by
  induction sources generalizing d with
  | nil => simp
  | cons s rest ih =>
    rw [List.foldl_cons, ih, messages_worked, List.append_assoc, List.flatMap_cons]

end Desk

namespace Job

theorem run_forM_report (d : Desk) (errors : List UnclosedLiteral) :
    (errors.forM report).run d =
      .ok () ((errors.map fun e => (Fault.lexical e).message).foldl Desk.recorded d) := by
  induction errors generalizing d with
  | nil => rfl
  | cons e rest ih =>
    change (record (Fault.lexical e).message >>= fun _ => rest.forM report).run d = _
    rw [run_bind_of_ok (run_record d _), ih]
    rfl

theorem run_scan (d : Desk) (s : Source) : (scan s).run d = .ok s.scan.table (d.scanned s) := by
  rw [scan, run_bind_of_ok (run_emit d _), run_bind_of_ok (run_forM_report _ _)]
  rfl

theorem run_write_empty (d : Desk) : (write "").run d = .ok () d := by
  rw [run_write, if_pos d.fits_empty, Desk.written_empty]

theorem run_tables_cons (verbose : Bool) (d : Desk) (s : Source) (rest : List Source) :
    (tables verbose (s :: rest)).run d =
      (write (s.account verbose) >>= fun _ => tables verbose rest >>= fun ts =>
        pure (if s.scan.table.isEmpty then ts else s.scan.table :: ts)).run
          ((d.announced verbose s).scanned s) := by
  have announced : (tables verbose (s :: rest)).run d =
      (scan s >>= fun table =>
        if table.isEmpty then tables verbose rest
        else write (progress verbose table) >>= fun _ => tables verbose rest >>= fun ts =>
          pure (table :: ts)).run (d.announced verbose s) := by
    rw [tables]
    cases verbose <;> rfl
  rw [announced, run_bind_of_ok (run_scan _ s)]
  cases empty : s.scan.table.isEmpty with
  | true =>
    rw [Source.account_of_isEmpty verbose empty, run_bind_of_ok (run_write_empty _)]
    simp only [if_true, bind_pure]
  | false =>
    rw [Source.account_of_not_isEmpty verbose empty]
    rfl

/-- The output refuses a byte of what is written about a source. That source has been scanned,
    and so have those before it, but no other. -/
def StopsAtSource (verbose : Bool) (sources : List Source) (d e : Desk) : Prop :=
  ∃ front source rest, sources = front ++ source :: rest ∧
    d.fits (accounts verbose front) = true ∧
    d.fits (accounts verbose (front ++ [source])) = false ∧
    e = (front ++ [source]).foldl (Desk.worked verbose) d

theorem StopsAtSource.head (verbose : Bool) (s : Source) (rest : List Source) {d : Desk}
    (exceeds : d.fits (s.account verbose) = false) :
    StopsAtSource verbose (s :: rest) d (d.worked verbose s) := by
  refine ⟨[], s, rest, rfl, d.fits_empty, ?_, rfl⟩
  rw [List.nil_append, accounts_cons]
  exact (congrArg d.fits (String.append_empty)).trans exceeds

theorem StopsAtSource.tail {verbose : Bool} {s : Source} {sources : List Source} {d e : Desk}
    (fits : d.fits (s.account verbose) = true)
    (h : StopsAtSource verbose sources (d.worked verbose s) e) :
    StopsAtSource verbose (s :: sources) d e := by
  obtain ⟨front, source, rest, rfl, before, exceeds, he⟩ := h
  have first (ss : List Source) :
      d.fits (accounts verbose (s :: ss)) = (d.worked verbose s).fits (accounts verbose ss) := by
    rw [accounts_cons, Desk.fits_append, fits, Bool.true_and, Desk.fits, Desk.fits,
      Desk.sink_worked]
  refine ⟨s :: front, source, rest, rfl, ?_, ?_, he⟩
  · rw [first, before]
  · rw [List.cons_append, first, exceeds]

theorem writes_tables (verbose : Bool) (sources : List Source) (d : Desk) :
    (tables verbose sources).Writes d (accounts verbose sources) (tablesOf sources)
      (sources.foldl (Desk.worked verbose) d) (StopsAtSource verbose sources d) := by
  induction sources generalizing d with
  | nil =>
    constructor
    · intro _
      exact ⟨rfl, congrArg Desk.sink d.written_empty.symm⟩
    · intro exceeds
      exact absurd (d.fits_empty.symm.trans exceeds) (by decide)
  | cons s rest ih =>
    have result : (if s.scan.table.isEmpty then tablesOf rest else s.scan.table :: tablesOf rest) =
        tablesOf (s :: rest) := by
      simp only [tablesOf, List.map_cons, List.filter_cons]
      cases s.scan.table.isEmpty <;> rfl
    have first := writes_write ((d.announced verbose s).scanned s) (s.account verbose)
    have both := first.bind (f := fun _ => tables verbose rest >>= fun ts =>
      pure (if s.scan.table.isEmpty then ts else s.scan.table :: ts))
      fun _ => (ih (d.worked verbose s)).then_ok (by rw [result]; rfl) rfl
    rw [← accounts_cons] at both
    have whole := both.of_run_eq (run_tables_cons verbose d s rest) (d.sink_scanned verbose s)
    have same : ((d.announced verbose s).scanned s).fits (s.account verbose) =
        d.fits (s.account verbose) := by
      rw [Desk.fits, Desk.fits, Desk.sink_scanned]
    refine whole.imp fun e _ stop => ?_
    rw [same] at stop
    obtain ⟨exceeds, rfl⟩ | ⟨fits, later⟩ := stop
    · exact .head verbose s rest exceeds
    · exact later.tail fits

def heading : String := "\n Tokenising input files...\n\n"

def lineCount (tables : List Table) : Nat := (tables.flatMap Table.lines).length

def summary (tables : List Table) : String :=
  s!"\n Generated {lineCount tables} tokenised lines\n\n"

def conclude (sources : List Source) (tables : List Table) : Job (List Table) := do
  write (summary tables)
  emit [.tokenised sources.length tables.length (lineCount tables)]
  return tables

theorem tokenise_eq (verbose : Bool) (sources : List Source) :
    tokenise verbose sources =
      write heading >>= fun _ => tables verbose sources >>= conclude sources := rfl

def tokeniseText (verbose : Bool) (sources : List Source) : String :=
  heading ++ (accounts verbose sources ++ summary (tablesOf sources))

inductive StopsTokenising (verbose : Bool) (sources : List Source) (d : Desk) : Desk → Prop where
  | heading : d.fits heading = false → StopsTokenising verbose sources d (d.written heading)
  | source {e : Desk} : d.fits heading = true →
    StopsAtSource verbose sources (d.written heading) e → StopsTokenising verbose sources d e
  | summary : d.fits (heading ++ accounts verbose sources) = true →
    StopsTokenising verbose sources d
      ((sources.foldl (Desk.worked verbose) (d.written heading)).written
        (summary (tablesOf sources)))

def concluded (sources : List Source) (d : Desk) : Desk :=
  (d.written (summary (tablesOf sources))).emitted
    [.tokenised sources.length (tablesOf sources).length (lineCount (tablesOf sources))]

def tokenised (verbose : Bool) (sources : List Source) (d : Desk) : Desk :=
  concluded sources (sources.foldl (Desk.worked verbose) (d.written heading))

theorem messages_tokenised (verbose : Bool) (sources : List Source) (d : Desk) :
    (tokenised verbose sources d).log.messages =
      d.log.messages ++ sources.flatMap Source.complaints :=
  Desk.messages_foldl_worked verbose (d.written heading) sources

theorem writes_conclude (sources : List Source) (d : Desk) :
    (conclude sources (tablesOf sources)).Writes d (summary (tablesOf sources)) (tablesOf sources)
      (concluded sources d) (· = d.written (summary (tablesOf sources))) :=
  (writes_write d (summary (tablesOf sources))).then_ok rfl rfl

theorem writes_tokenise (verbose : Bool) (sources : List Source) (d : Desk) :
    (tokenise verbose sources).Writes d (tokeniseText verbose sources) (tablesOf sources)
      (tokenised verbose sources d) (StopsTokenising verbose sources d) := by
  rw [tokenise_eq]
  have later := (writes_tables verbose sources (d.written heading)).bind
    fun _ => writes_conclude sources _
  have whole := (writes_write d heading).bind
    (f := fun _ => tables verbose sources >>= conclude sources) fun _ => later
  refine whole.imp fun e _ stop => ?_
  obtain ⟨exceeds, rfl⟩ | ⟨first, ⟨-, stop⟩ | ⟨all, rfl⟩⟩ := stop
  · exact .heading exceeds
  · exact .source first stop
  · refine .summary ?_
    rw [Desk.fits_append, first, all]
    rfl

end Job

end AsmScan
