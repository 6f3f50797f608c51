import AsmScan.Program
import AsmScan.Proofs.Inputs
import AsmScan.Proofs.Jobs.Limit

/-!
How the program ends, for any disk and any request that names inputs: its exit status, what it
prints, and what has no influence on them.
-/

namespace AsmScan

/-- A literal is open where the text ends. -/
def EndsOpen (text : String) : Prop :=
  ∃ ls quote body, Segments text (ls ++ [.openLiteral quote body])

theorem endsOpen_iff (s : Source) : EndsOpen s.text ↔ s.endsInLiteral = true := by
  rw [Source.endsInLiteral, ← errors_ne_nil_iff, Ne, s.errors_eq_nil_iff]
  constructor
  · rintro ⟨ls, quote, body, segments⟩ closed
    have last : Lexeme.openLiteral quote body ∈ s.lexemes := by
      rw [Source.lexemes, ← segments_iff.mp segments]
      simp
    exact absurd (closed _ last) (by simp [Lexeme.isOpen])
  · intro opened
    obtain ⟨l, hl, ho⟩ : ∃ l ∈ s.lexemes, l.isOpen = true := by simpa using opened
    obtain ⟨ls, rest, split⟩ := List.append_of_mem hl
    have grammatical : Grammatical (ls ++ l :: rest) := split ▸ grammatical_lexemes _
    obtain rfl := eq_nil_of_isOpen (grammatical_of_append grammatical).2 ho
    cases l with
    | openLiteral quote body => exact ⟨ls, quote, body, segments_iff.mpr split.symm⟩
    | _ => exact absurd ho (by simp [Lexeme.isOpen])

theorem Text.lossy_eq_empty_iff {bytes : Text.Bytes} : Text.lossy bytes = "" ↔ bytes = [] := by
  constructor
  · intro h
    cases bytes with
    | nil => rfl
    | cons b rest =>
      have chars : Text.lossyChars (b :: rest) = [] := by
        simpa [Text.lossy] using congrArg String.toList h
      rw [Text.lossyChars] at chars
      split at chars
      · exact absurd chars (List.cons_ne_nil _ _)
      · split at chars <;> exact absurd chars (List.cons_ne_nil _ _)
  · rintro rfl
    simp [Text.lossy, Text.lossyChars]

/-- The messages of a run: those of loading the inputs, or if there are none, those of the
    scans. -/
def Disk.report (disk : Disk) (inputs : List Path) : List String :=
  if disk.complaints inputs = [] then (disk.sources inputs).flatMap Source.complaints
  else disk.complaints inputs

theorem Disk.report_eq_nil_iff {disk : Disk} {inputs : List Path} :
    disk.report inputs = [] ↔ disk.Loads inputs ∧ ∀ p ∈ inputs, ∀ content text,
      disk p = .file content → Text.decode? content = some text → ¬EndsOpen text := by
  rw [report]
  split
  · next clean =>
    have loads := complaints_eq_nil_iff.mp clean
    rw [flatMap_complaints_eq_nil_iff]
    constructor
    · intro closed
      refine ⟨loads, fun p hp content text file valid opened => ?_⟩
      have source : ⟨p.shown, text⟩ ∈ disk.sources inputs :=
        loads.mem_sources_iff.mpr ⟨p, hp, load_eq_ok_iff.mpr ⟨content, text, file, valid, rfl⟩⟩
      have ends := (endsOpen_iff ⟨p.shown, text⟩).mp opened
      rw [closed _ source] at ends
      exact absurd ends Bool.false_ne_true
    · rintro ⟨-, closed⟩ s hs
      obtain ⟨p, hp, loaded⟩ := loads.mem_sources_iff.mp hs
      obtain ⟨content, text, file, valid, rfl⟩ := load_eq_ok_iff.mp loaded
      exact eq_false_of_ne_true fun ends =>
        closed p hp content text file valid ((endsOpen_iff _).mpr ends)
  · next failed => exact iff_of_false failed fun h => failed (complaints_eq_nil_iff.mpr h.1)

namespace Job

variable (verbose : Bool) (disk : Disk) (inputs : List Path) (options : Options)

theorem run_assembleAs_of_clean (clean : disk.complaints inputs = []) :
    ∃ e, e.notices = announcements verbose (disk.sources inputs) ∧
      e.sink.accepted = Text.encode (fullText verbose disk inputs options) ∧
      (disk.report inputs ≠ [] → (assembleAs verbose disk inputs options).run (Desk.fresh none) =
        .error (.combined ("\n".intercalate (disk.report inputs))) e) ∧
      (disk.report inputs = [] → (assembleAs verbose disk inputs options).run (Desk.fresh none) =
        .ok (tablesOf (disk.sources inputs)) e) := by
  obtain ⟨run, sink⟩ := (writes_tokeniseLoaded verbose disk inputs options none clean).ok rfl
  have messages := messages_tokeniseLoaded verbose disk inputs options none clean
  have report : disk.report inputs = (disk.sources inputs).flatMap Source.complaints :=
    if_pos clean
  rw [assembleAs_eq, run_bind_of_ok run, report, ← messages]
  refine ⟨_, ?_, ?_, fun failed => run_bind_of_error (run_check_of_errors failed),
    fun none => run_bind_of_ok (run_check_of_clean none)⟩
  · rw [notices_tokenised]
    change ((Desk.fresh none).loaded disk inputs).notices ++ _ = _
    rw [(Desk.unscanned_loaded none disk inputs).notices, List.nil_append]
  · rw [sink, Desk.accepted_fresh]
    rfl

end Job

namespace Program

variable (disk : Disk) (inputs : List Path) (options : Options)

theorem assemble_of_error {fault : Fault} {desk : Desk}
    (run : (Job.assembleAs options.verbose disk inputs options).run (Desk.fresh none) =
      .error fault desk) :
    assemble disk inputs options =
      { status := 1
        stdout := desk.sink.shown
        stderr := String.join desk.notices ++ fault.message ++ "\n" } := by
  have same : (Job.assemble disk inputs options).run {} = .error fault desk := run
  rw [assemble, same]

theorem assemble_of_ok {tables : List Table} {desk : Desk}
    (run : (Job.assembleAs options.verbose disk inputs options).run (Desk.fresh none) =
      .ok tables desk) :
    assemble disk inputs options =
      { status := 0
        stdout := desk.sink.shown
        stderr := String.join desk.notices ++
          if options.verbose then "Tokenise succeeded\n" else "" } := by
  have same : (Job.assemble disk inputs options).run {} = .ok tables desk := run
  rw [assemble, same]

/-- What the user is told before the run ends: each source that is scanned. -/
def told (verbose : Bool) : List String :=
  if disk.complaints inputs = [] then announcements verbose (disk.sources inputs) else []

theorem encode_fullText_ne_nil :
    Text.encode (Job.fullText options.verbose disk inputs options) ≠ [] := by
  intro empty
  have listed := Job.le_length_inputListing options (disk.sources inputs)
  rw [Job.fullText, Text.encode_append, List.append_eq_nil_iff] at empty
  rw [empty.1] at listed
  exact absurd listed (by decide)

theorem assemble_of_report_eq_nil (succeeded : disk.report inputs = []) :
    (assemble disk inputs options).status = 0 := by
  have clean := Disk.complaints_eq_nil_iff.mpr (Disk.report_eq_nil_iff.mp succeeded).1
  obtain ⟨desk, -, -, -, run⟩ :=
    Job.run_assembleAs_of_clean options.verbose disk inputs options clean
  rw [assemble_of_ok disk inputs options (run succeeded)]

theorem assemble_of_report_ne_nil (failed : disk.report inputs ≠ []) :
    (assemble disk inputs options).status = 1 ∧
      (∃ desk, (Job.assemble disk inputs options).run (Desk.fresh none) =
        .error (.combined ("\n".intercalate (disk.report inputs))) desk) ∧
      (assemble disk inputs options).stderr =
        String.join (told disk inputs options.verbose) ++
          "\n".intercalate (disk.report inputs) ++ "\n" ∧
      ((assemble disk inputs options).stdout = "" ↔ ¬disk.Loads inputs) := by
  rw [← Disk.complaints_eq_nil_iff, told]
  by_cases clean : disk.complaints inputs = []
  · obtain ⟨desk, notices, accepted, run, -⟩ :=
      Job.run_assembleAs_of_clean options.verbose disk inputs options clean
    have ends := assemble_of_error disk inputs options (run failed)
    rw [ends, if_pos clean, notices]
    refine ⟨rfl, ⟨desk, run failed⟩, rfl, iff_of_false ?_ (not_not.mpr clean)⟩
    rw [Sink.shown, Text.lossy_eq_empty_iff, accepted]
    exact encode_fullText_ne_nil disk inputs options
  · have run := Job.run_assembleAs_of_complaints options.verbose disk inputs options none clean
    have same : disk.report inputs = disk.complaints inputs := if_neg clean
    have ends := assemble_of_error disk inputs options run
    rw [← same] at run
    rw [ends, if_neg clean, ← same, Desk.sink_loaded,
      (Desk.unscanned_loaded none disk inputs).notices]
    exact ⟨rfl, ⟨_, run⟩, rfl, iff_of_true (Text.lossy_eq_empty_iff.mpr rfl) failed⟩

theorem status_assemble_eq_zero_iff :
    (assemble disk inputs options).status = 0 ↔ disk.report inputs = [] := by
  refine ⟨fun zero => ?_, assemble_of_report_eq_nil disk inputs options⟩
  by_contra failed
  rw [(assemble_of_report_ne_nil disk inputs options failed).1] at zero
  exact absurd zero (by decide)

/-- How the program ends, whatever reads the arguments. It succeeds exactly if every input can be
    loaded and none ends in an open literal; otherwise the status is 1 and the last thing printed
    is the report, which depends on the disk and the inputs alone. -/
theorem answer_assemble {Arguments : Type} (parse : Arguments → CommandLine.Request)
    {arguments : Arguments} {inputs : List Path} {options : Options}
    (parsed : parse arguments = .assemble inputs options) :
    ((answer disk (parse arguments)).status = 0 ↔
      disk.Loads inputs ∧ ∀ p ∈ inputs, ∀ content text,
        disk p = .file content → Text.decode? content = some text → ¬EndsOpen text) ∧
    ((answer disk (parse arguments)).status ≠ 0 →
      (answer disk (parse arguments)).status = 1 ∧
      (∃ desk, (Job.assemble disk inputs options).run (Desk.fresh none) =
        .error (.combined ("\n".intercalate (disk.report inputs))) desk) ∧
      (answer disk (parse arguments)).stderr =
        String.join (told disk inputs options.verbose) ++
          "\n".intercalate (disk.report inputs) ++ "\n" ∧
      ((answer disk (parse arguments)).stdout = "" ↔ ¬disk.Loads inputs)) ∧
    ∀ (others : Arguments) (other : Options), parse others = .assemble inputs other →
      (answer disk (parse others)).status = (answer disk (parse arguments)).status := by
  have zero_iff := status_assemble_eq_zero_iff disk inputs
  have failed (o : Options) (h : disk.report inputs ≠ []) : (assemble disk inputs o).status = 1 :=
    (assemble_of_report_ne_nil disk inputs o h).1
  rw [parsed]
  refine ⟨(zero_iff options).trans Disk.report_eq_nil_iff, fun nonzero => ?_,
    fun others other parsed' => ?_⟩
  · exact assemble_of_report_ne_nil disk inputs options (mt (zero_iff options).mpr nonzero)
  · rw [parsed']
    by_cases h : disk.report inputs = []
    · exact ((zero_iff other).mpr h).trans ((zero_iff options).mpr h).symm
    · exact (failed other h).trans (failed options h).symm

/-- Runs on the two files: the first alone, both, and the first one twice. -/
theorem answer_assemble_twoFiles :
    (run Job.twoFiles ["a.asm"]).status = 0 ∧
      (run Job.twoFiles ["a.asm", "b.asm"]).status = 1 ∧
      (run Job.twoFiles ["a.asm", "b.asm"]).stderr =
        "Error in file b.asm on line 2: Unterminated quoted string\n" ∧
      (run Job.twoFiles ["a.asm", "b.asm"]).stdout ≠ "" ∧
      (run Job.twoFiles ["a.asm", "-v", "b.asm"]).status = 1 ∧
      (run Job.twoFiles ["a.asm", "a.asm"]).status = 1 ∧
      (run Job.twoFiles ["a.asm", "a.asm"]).stdout = "" ∧
      (run Job.twoFiles ["a.asm", "a.asm"]).stderr =
        "Error: Input file \x27a.asm\x27 included multiple times\n" := by
  let fileA : Path := .ofString "a.asm"
  let fileB : Path := .ofString "b.asm"
  have parsed_one : CommandLine.parse ["a.asm"] = .assemble [fileA] {} := by decide +kernel
  have parsed_both : CommandLine.parse ["a.asm", "b.asm"] = .assemble [fileA, fileB] {} := by
    decide +kernel
  have parsed_verbose : CommandLine.parse ["a.asm", "-v", "b.asm"] =
      .assemble [fileA, fileB] { verbose := true } := by
    decide +kernel
  have parsed_twice : CommandLine.parse ["a.asm", "a.asm"] = .assemble [fileA, fileA] {} := by
    decide +kernel
  obtain ⟨alone, -⟩ := answer_assemble Job.twoFiles CommandLine.parse parsed_one
  obtain ⟨opened_iff, opened, same⟩ := answer_assemble Job.twoFiles CommandLine.parse parsed_both
  obtain ⟨repeated_iff, repeated, -⟩ := answer_assemble Job.twoFiles CommandLine.parse parsed_twice
  have loads : Job.twoFiles.Loads [fileA, fileB] := Disk.complaints_eq_nil_iff.mp (by decide +kernel)
  have fails : ¬Job.twoFiles.Loads [fileA, fileA] := by
    rw [← Disk.complaints_eq_nil_iff]
    decide +kernel
  have report : Job.twoFiles.report [fileA, fileB] ≠ [] := by decide +kernel
  obtain ⟨one, -, stderr, stdout⟩ := opened (mt (Disk.report_eq_nil_iff.mpr ∘ opened_iff.mp) report)
  obtain ⟨one', -, stderr', stdout'⟩ := repeated (mt (fun h => (repeated_iff.mp h).1) fails)
  refine ⟨alone.mpr (Disk.report_eq_nil_iff.mp (by decide +kernel)), one, stderr.trans ?_,
    fun empty => stdout.mp empty loads, (same _ _ parsed_verbose).trans one, one',
    stdout'.mpr fails, stderr'.trans ?_⟩
  · decide +kernel
  · decide +kernel

end Program

end AsmScan
