import AsmScan.Proofs.Blocks
import AsmScan.Proofs.Jobs.Tokenising
import AsmScan.Proofs.OpenStatement

/-!
How a whole run ends, whatever the disk, the paths and the limit of the output.
-/

namespace AsmScan

def Source.endsInLiteral (s : Source) : Bool := (Mode.code.run s.text.toList).inLiteral

theorem Source.length_complaints (s : Source) :
    s.complaints.length = if s.endsInLiteral then 1 else 0 := by
  have one := length_errors_le_one s
  have some_iff := errors_ne_nil_iff s
  rw [Source.complaints, List.length_map]
  split
  · rename_i open_
    have ne := List.length_pos_iff.mpr (some_iff.mpr open_)
    omega
  · rename_i closed
    rw [List.length_eq_zero_iff]
    exact not_not.mp (mt some_iff.mp closed)

theorem Source.complaints_eq_nil_iff (s : Source) :
    s.complaints = [] ↔ s.endsInLiteral = false := by
  rw [← List.length_eq_zero_iff, s.length_complaints]
  cases s.endsInLiteral <;> decide

theorem flatMap_complaints_eq_nil_iff {sources : List Source} :
    sources.flatMap Source.complaints = [] ↔ ∀ s ∈ sources, s.endsInLiteral = false := by
  rw [List.flatMap_eq_nil_iff]
  exact forall₂_congr fun s _ => s.complaints_eq_nil_iff

namespace Desk

def fresh (limit : Option Nat) : Desk := { sink := { limit } }

variable (limit : Option Nat)

theorem fits_fresh (text : String) :
    (fresh limit).fits text = true ↔ ∀ n ∈ limit, (Text.encode text).length ≤ n := by
  rw [fits, Sink.fits_iff]
  simp [fresh]

theorem not_fits_fresh {limit : Option Nat} {n : Nat} (hn : n ∈ limit) {text : String}
    (h : n < (Text.encode text).length) : (fresh limit).fits text = false := by
  rw [← Bool.not_eq_true, fits_fresh]
  exact fun all => Nat.not_le_of_lt h (all n hn)

theorem accepted_fresh (text : String) :
    ((fresh limit).written text).sink.accepted = Text.upTo limit (Text.encode text) := rfl

structure Unscanned (d : Desk) : Prop where
  notices : d.notices = []
  events : ∀ e ∈ d.events, e.ofScan = false

theorem fits_congr {d e : Desk} (h : d.sink = e.sink) (text : String) :
    d.fits text = e.fits text := by
  rw [fits, fits, h]

theorem sink_loaded (disk : Disk) (paths : List Path) :
    ((fresh limit).loaded disk paths).sink = (fresh limit).sink :=
  congrArg Prod.fst ((fresh limit).work_loaded disk paths)

theorem unscanned_loaded (disk : Disk) (paths : List Path) :
    ((fresh limit).loaded disk paths).Unscanned := by
  have same := congrArg Prod.snd ((fresh limit).work_loaded disk paths)
  constructor
  · exact congrArg Prod.fst same
  · intro e he
    have none : ((fresh limit).loaded disk paths).events.filter Event.ofScan = [] :=
      congrArg Prod.snd same
    simpa using List.filter_eq_nil_iff.mp none e he

end Desk

namespace Job

variable (verbose : Bool) (disk : Disk) (paths : List Path) (options : Options)
  (limit : Option Nat)

/-- Everything that a run writes if nothing stops it. -/
def fullText : String :=
  inputListing (disk.sources paths) options ++ tokeniseText verbose (disk.sources paths)

def tokeniseLoaded : Job (List Table) := do
  let sources ← load disk paths
  check
  write (inputListing sources options)
  tokenise verbose sources

theorem assembleAs_eq :
    assembleAs verbose disk paths options =
      tokeniseLoaded verbose disk paths options >>= fun tables =>
        check >>= fun _ => pure tables := by
  simp only [assembleAs, tokeniseLoaded, bind_assoc]

theorem run_tokeniseLoaded_of_complaints (h : disk.complaints paths ≠ []) :
    (tokeniseLoaded verbose disk paths options).run (Desk.fresh limit) =
      .error (.combined ("\n".intercalate (disk.complaints paths)))
        ((Desk.fresh limit).loaded disk paths) := by
  have messages := (Desk.fresh limit).messages_loaded disk paths
  rw [Desk.fresh, List.nil_append] at messages
  rw [tokeniseLoaded, run_bind_of_ok (run_load _ disk paths)]
  rw [← messages] at h ⊢
  exact run_bind_of_error (run_check_of_errors h)

theorem run_tokeniseLoaded_of_clean (clean : disk.complaints paths = []) :
    (tokeniseLoaded verbose disk paths options).run (Desk.fresh limit) =
      (write (inputListing (disk.sources paths) options) >>= fun _ =>
        tokenise verbose (disk.sources paths)).run ((Desk.fresh limit).loaded disk paths) := by
  have messages := (Desk.fresh limit).messages_loaded disk paths
  rw [clean] at messages
  rw [tokeniseLoaded, run_bind_of_ok (run_load _ disk paths),
    run_bind_of_ok (run_check_of_clean messages)]

theorem writes_tokeniseLoaded (clean : disk.complaints paths = []) :
    (tokeniseLoaded verbose disk paths options).Writes (Desk.fresh limit)
      (fullText verbose disk paths options) (tablesOf (disk.sources paths))
      (tokenised verbose (disk.sources paths) (((Desk.fresh limit).loaded disk paths).written
        (inputListing (disk.sources paths) options)))
      fun e => (Desk.fresh limit).fits (inputListing (disk.sources paths) options) = true ∨
        e.Unscanned := by
  let loaded := (Desk.fresh limit).loaded disk paths
  have same : loaded.sink = (Desk.fresh limit).sink := Desk.sink_loaded limit disk paths
  have unscanned : loaded.Unscanned := Desk.unscanned_loaded limit disk paths
  have listed := (writes_write loaded (inputListing (disk.sources paths) options)).bind
    (f := fun _ => tokenise verbose (disk.sources paths)) fun _ => writes_tokenise verbose _ _
  have whole := listed.of_run_eq
    (run_tokeniseLoaded_of_clean verbose disk paths options limit clean) same
  refine whole.imp fun e _ stop => ?_
  obtain ⟨-, rfl⟩ | ⟨fits, -⟩ := stop
  · exact .inr ⟨unscanned.notices, unscanned.events⟩
  · exact .inl ((Desk.fits_congr same _).symm.trans fits)

theorem messages_tokeniseLoaded (clean : disk.complaints paths = []) :
    (tokenised verbose (disk.sources paths) (((Desk.fresh limit).loaded disk paths).written
        (inputListing (disk.sources paths) options))).log.messages =
      (disk.sources paths).flatMap Source.complaints := by
  rw [messages_tokenised]
  change ((Desk.fresh limit).loaded disk paths).log.messages ++ _ = _
  rw [Desk.messages_loaded, clean]
  rfl

theorem run_assembleAs_of_complaints (h : disk.complaints paths ≠ []) :
    (assembleAs verbose disk paths options).run (Desk.fresh limit) =
      .error (.combined ("\n".intercalate (disk.complaints paths)))
        ((Desk.fresh limit).loaded disk paths) := by
  rw [assembleAs_eq]
  exact run_bind_of_error (run_tokeniseLoaded_of_complaints verbose disk paths options limit h)

theorem run_assembleAs_of_refused (clean : disk.complaints paths = [])
    (exceeds : (Desk.fresh limit).fits (fullText verbose disk paths options) = false) :
    ∃ e, (assembleAs verbose disk paths options).run (Desk.fresh limit) =
        .error (.output Sink.refusal) e ∧
      e.sink = ((Desk.fresh limit).written (fullText verbose disk paths options)).sink ∧
      ((Desk.fresh limit).fits (inputListing (disk.sources paths) options) = false →
        e.Unscanned) := by
  obtain ⟨e, run, sink, stop⟩ :=
    (writes_tokeniseLoaded verbose disk paths options limit clean).error exceeds
  rw [assembleAs_eq]
  refine ⟨e, run_bind_of_error run, sink, fun early => stop.resolve_left fun fits => ?_⟩
  exact absurd (early.symm.trans fits) Bool.false_ne_true

theorem run_assembleAs_of_fits (clean : disk.complaints paths = [])
    (fits : (Desk.fresh limit).fits (fullText verbose disk paths options) = true) :
    ∃ e, e.sink = ((Desk.fresh limit).written (fullText verbose disk paths options)).sink ∧
      ((disk.sources paths).flatMap Source.complaints ≠ [] →
        (assembleAs verbose disk paths options).run (Desk.fresh limit) = .error
          (.combined ("\n".intercalate ((disk.sources paths).flatMap Source.complaints))) e) ∧
      ((disk.sources paths).flatMap Source.complaints = [] →
        (assembleAs verbose disk paths options).run (Desk.fresh limit) =
          .ok (tablesOf (disk.sources paths)) e) := by
  obtain ⟨run, sink⟩ := (writes_tokeniseLoaded verbose disk paths options limit clean).ok fits
  have messages := messages_tokeniseLoaded verbose disk paths options limit clean
  rw [assembleAs_eq, run_bind_of_ok run, ← messages]
  exact ⟨_, sink, fun failed => run_bind_of_error (run_check_of_errors failed),
    fun none => run_bind_of_ok (run_check_of_clean none)⟩

theorem clean_of_run_assembleAs {tables : List Table} {desk : Desk}
    (ok : (assembleAs verbose disk paths options).run (Desk.fresh limit) = .ok tables desk) :
    disk.complaints paths = [] ∧
      (Desk.fresh limit).fits (fullText verbose disk paths options) = true ∧
      (disk.sources paths).flatMap Source.complaints = [] := by
  by_cases clean : disk.complaints paths = []
  · cases fits : (Desk.fresh limit).fits (fullText verbose disk paths options) with
    | false =>
      obtain ⟨e, refused, -⟩ :=
        run_assembleAs_of_refused verbose disk paths options limit clean fits
      exact nomatch ok.symm.trans refused
    | true =>
      obtain ⟨e, -, failed, -⟩ := run_assembleAs_of_fits verbose disk paths options limit clean fits
      refine ⟨clean, rfl, ?_⟩
      by_contra opened
      exact nomatch ok.symm.trans (failed opened)
  · have failed := run_assembleAs_of_complaints verbose disk paths options limit clean
    exact nomatch ok.symm.trans failed

/-- How a run ends. Failures of loading come before a refusal of the output, and that before
    the errors of the scans; without any of them the run gives the tables. -/
theorem assemble_outcome :
    let run := (assembleAs verbose disk paths options).run (Desk.fresh limit)
    let complaints := disk.complaints paths
    let sources := disk.sources paths
    let listing := Text.encode (inputListing sources options)
    let output := listing ++ Text.encode (tokeniseText verbose sources)
    (∃ loaded, (load disk paths).run (Desk.fresh none) = .ok sources loaded ∧
      loaded.log.messages = complaints) ∧
    (∃ done, (tokenise verbose sources).run (Desk.fresh none) = .ok (tablesOf sources) done ∧
      done.sink.accepted = Text.encode (tokeniseText verbose sources)) ∧
    (complaints ≠ [] → ∃ desk, run = .error (.combined ("\n".intercalate complaints)) desk ∧
      desk.sink.accepted = [] ∧ desk.Unscanned) ∧
    (complaints = [] →
      (∀ n ∈ limit, n < output.length → ∃ desk, run = .error (.output Sink.refusal) desk ∧
        desk.sink.accepted = output.take n ∧ (n < listing.length → desk.Unscanned)) ∧
      ((∀ n ∈ limit, output.length ≤ n) → ∃ desk, desk.sink.accepted = output ∧
        (∀ s ∈ sources, s.complaints.length = if s.endsInLiteral then 1 else 0) ∧
        ((∃ s ∈ sources, s.endsInLiteral = true) → run =
          .error (.combined ("\n".intercalate (sources.flatMap Source.complaints))) desk) ∧
        ((∀ s ∈ sources, s.endsInLiteral = false) → run = .ok (tablesOf sources) desk))) ∧
    (∀ tables desk, run = .ok tables desk → complaints = [] ∧
      (∀ n ∈ limit, output.length ≤ n) ∧ ∀ s ∈ sources, s.endsInLiteral = false) := by
  intro run complaints sources listing output
  have whole : Text.encode (fullText verbose disk paths options) = output := Text.encode_append _ _
  have fits_iff := Desk.fits_fresh limit (fullText verbose disk paths options)
  have accepted := Desk.accepted_fresh limit (fullText verbose disk paths options)
  rw [whole] at fits_iff accepted
  refine ⟨⟨_, run_load _ disk paths, Desk.messages_loaded _ disk paths⟩, ?_, fun h => ?_,
    fun clean => ⟨fun n hn exceeds => ?_, fun all => ?_⟩, fun tables desk ok => ?_⟩
  · obtain ⟨done, sink⟩ := (writes_tokenise verbose sources (Desk.fresh none)).ok rfl
    exact ⟨_, done, congrArg Sink.accepted sink⟩
  · exact ⟨_, run_assembleAs_of_complaints verbose disk paths options limit h,
      congrArg Sink.accepted (Desk.sink_loaded limit disk paths),
      Desk.unscanned_loaded limit disk paths⟩
  · have full := Desk.not_fits_fresh hn (whole.symm ▸ exceeds)
    obtain ⟨e, refused, sink, early⟩ :=
      run_assembleAs_of_refused verbose disk paths options limit clean full
    refine ⟨e, refused, ?_, fun inListing => early (Desk.not_fits_fresh hn inListing)⟩
    rw [sink, accepted, Option.mem_def.mp hn]
    rfl
  · obtain ⟨e, sink, failed, succeeded⟩ :=
      run_assembleAs_of_fits verbose disk paths options limit clean (fits_iff.mpr all)
    refine ⟨e, ?_, fun s _ => s.length_complaints, fun opened => failed ?_, fun closed =>
      succeeded (flatMap_complaints_eq_nil_iff.mpr closed)⟩
    · rw [sink, accepted, Text.upTo_of_fits all]
    · rw [Ne, flatMap_complaints_eq_nil_iff]
      simpa using opened
  · obtain ⟨clean, fits, none⟩ := clean_of_run_assembleAs verbose disk paths options limit ok
    exact ⟨clean, fits_iff.mp fits, flatMap_complaints_eq_nil_iff.mp none⟩

/-- Two files, the second with a literal that stays open. -/
def twoFiles : Disk := fun p =>
  if p = .ofString "a.asm" then .file (Text.encode "halt\n")
  else if p = .ofString "b.asm" then .file (Text.encode "ok\nx \x27y") else .absent

theorem le_length_inputListing (sources : List Source) :
    18 ≤ (Text.encode (inputListing sources options)).length := by
  obtain ⟨rest, starts⟩ : ∃ rest, inputListing sources options = "Dumping a list of " ++ rest := by
    unfold inputListing
    simp only [String.append_assoc]
    exact ⟨_, rfl⟩
  have first : (Text.encode "Dumping a list of ").length = 18 := by decide +kernel
  rw [starts, Text.encode_append, List.length_append, first]
  exact Nat.le_add_right 18 _

theorem assemble_outcome_twoFiles :
    let both := [Path.ofString "a.asm", Path.ofString "b.asm"]
    (∃ desk, (assembleAs true twoFiles (both ++ [.ofString "c.asm"]) {}).run (Desk.fresh none) =
      .error (.combined "Error: Input file \x27c.asm\x27 could not be found") desk) ∧
    (∃ desk, (assembleAs true twoFiles both {}).run (Desk.fresh (some 5)) =
      .error (.output Sink.refusal) desk ∧ desk.sink.accepted.length = 5 ∧ desk.Unscanned) ∧
    (∃ desk, (assembleAs true twoFiles both {}).run (Desk.fresh none) =
      .error (.combined "Error in file b.asm on line 2: Unterminated quoted string") desk) ∧
    ∃ desk, (assembleAs true twoFiles [.ofString "a.asm"] {}).run (Desk.fresh none) =
      .ok [{ source := "a.asm", lines := [⟨"a.asm", 1, ⟨"halt"⟩, #[]⟩] }] desk := by
  intro both
  have clean : twoFiles.complaints both = [] := by decide +kernel
  obtain ⟨-, -, missing, -, -⟩ :=
    assemble_outcome true twoFiles (both ++ [.ofString "c.asm"]) {} none
  obtain ⟨-, -, -, refused, -⟩ := assemble_outcome true twoFiles both {} (some 5)
  obtain ⟨-, -, -, opened, -⟩ := assemble_outcome true twoFiles both {} none
  obtain ⟨-, -, -, closed, -⟩ := assemble_outcome true twoFiles [.ofString "a.asm"] {} none
  refine ⟨?_, ?_, ?_, ?_⟩
  · obtain ⟨desk, run, -⟩ := missing (by decide +kernel)
    have report : "\n".intercalate (twoFiles.complaints (both ++ [.ofString "c.asm"])) =
        "Error: Input file \x27c.asm\x27 could not be found" := by decide +kernel
    exact ⟨desk, report ▸ run⟩
  · have short := le_length_inputListing {} (twoFiles.sources both)
    have exceeds : 5 < (Text.encode (inputListing (twoFiles.sources both) {}) ++
        Text.encode (tokeniseText true (twoFiles.sources both))).length := by
      rw [List.length_append]
      omega
    obtain ⟨desk, run, accepted, early⟩ := (refused clean).1 5 rfl exceeds
    refine ⟨desk, run, ?_, early (by omega)⟩
    rw [accepted, List.length_take]
    omega
  · obtain ⟨desk, -, -, failed, -⟩ := (opened clean).2 nofun
    have report : "\n".intercalate ((twoFiles.sources both).flatMap Source.complaints) =
        "Error in file b.asm on line 2: Unterminated quoted string" := by decide +kernel
    exact ⟨desk, report ▸ failed (by decide +kernel)⟩
  · obtain ⟨desk, -, -, -, succeeded⟩ := (closed (by decide +kernel)).2 nofun
    have tables : tablesOf (twoFiles.sources [.ofString "a.asm"]) =
        [{ source := "a.asm", lines := [⟨"a.asm", 1, ⟨"halt"⟩, #[]⟩] }] := by decide +kernel
    exact ⟨desk, tables ▸ succeeded (by decide +kernel)⟩

end Job

end AsmScan
