import AsmScan.Proofs.Jobs

/-!
Jobs that share one error log. They add to it, and only the check looks at what is in it.
-/

namespace AsmScan

def Desk.after (d : Desk) (earlier : List String) : Desk :=
  { d with log := ⟨earlier ++ d.log.messages⟩ }

theorem Desk.after_recorded (d : Desk) (earlier : List String) (message : String) :
    (d.after earlier).recorded message = (d.recorded message).after earlier := by
  simp only [after, recorded, ErrorLog.record, List.append_assoc]

namespace Job

variable {α β : Type}

def outcomeAfter (earlier : List String) :
    EStateM.Result Fault Desk α → EStateM.Result Fault Desk α
  | .ok a e => .ok a (e.after earlier)
  | .error fault e => .error fault (e.after earlier)

/-- Earlier messages stay in front, and nothing else of what the job does depends on them. -/
def Oblivious (job : Job α) : Prop :=
  ∀ (d : Desk) (earlier : List String),
    job.run (d.after earlier) = outcomeAfter earlier (job.run d)

theorem oblivious_pure (a : α) : Oblivious (pure a) := fun _ _ => rfl

theorem Oblivious.bind {job : Job α} {f : α → Job β} (h : Oblivious job)
    (next : ∀ a, Oblivious (f a)) : Oblivious (job >>= f) := by
  intro d earlier
  have moved := h d earlier
  cases first : job.run d with
  | ok a mid =>
    rw [first] at moved
    rw [run_bind_of_ok first, run_bind_of_ok moved]
    exact next a mid earlier
  | error fault mid =>
    rw [first] at moved
    rw [run_bind_of_error first, run_bind_of_error moved]
    rfl

theorem oblivious_emit (events : List Event) : Oblivious (emit events) := fun _ _ => rfl

theorem oblivious_notify (text : String) : Oblivious (notify text) := fun _ _ => rfl

theorem oblivious_record (message : String) : Oblivious (record message) := by
  intro d earlier
  rw [run_record, run_record, Desk.after_recorded]
  rfl

theorem oblivious_write (text : String) : Oblivious (write text) := by
  intro d earlier
  have fits : (d.after earlier).fits text = d.fits text := rfl
  rw [run_write, run_write, fits]
  split <;> rfl

theorem oblivious_forM {γ : Type} {act : γ → Job Unit} (h : ∀ c, Oblivious (act c))
    (cs : List γ) : Oblivious (cs.forM act) := by
  induction cs with
  | nil => exact oblivious_pure ()
  | cons c rest ih => exact (h c).bind fun _ => ih

theorem oblivious_scan (source : Source) : Oblivious (scan source) :=
  (oblivious_emit _).bind fun _ =>
    (oblivious_forM (fun _ => oblivious_record _) _).bind fun _ =>
      (oblivious_emit _).bind fun _ => oblivious_pure _

theorem oblivious_collect (outcomes : List (Except Fault Source)) :
    Oblivious (collect outcomes) := by
  induction outcomes with
  | nil => exact oblivious_pure []
  | cons outcome rest ih =>
    cases outcome with
    | ok source => exact (oblivious_emit _).bind fun _ => ih.bind fun _ => oblivious_pure _
    | error fault => exact (oblivious_record _).bind fun _ => ih

theorem oblivious_load (disk : Disk) (paths : List Path) : Oblivious (load disk paths) := by
  refine (oblivious_collect _).bind fun sources => ?_
  cases sources.isEmpty with
  | true => exact (oblivious_record _).bind fun _ => oblivious_pure _
  | false => exact oblivious_pure _

theorem oblivious_tables (verbose : Bool) (sources : List Source) :
    Oblivious (tables verbose sources) := by
  induction sources with
  | nil => exact oblivious_pure []
  | cons source rest ih =>
    have scanned : Oblivious (scan source >>= fun table =>
        if table.isEmpty then tables verbose rest
        else write (progress verbose table) >>= fun _ => tables verbose rest >>= fun ts =>
          pure (table :: ts)) := by
      refine (oblivious_scan source).bind fun table => ?_
      split
      · exact ih
      · exact (oblivious_write _).bind fun _ => ih.bind fun _ => oblivious_pure _
    rw [tables]
    cases verbose with
    | true => exact (oblivious_notify _).bind fun _ => scanned
    | false => exact (oblivious_pure ()).bind fun _ => scanned

theorem oblivious_tokenise (verbose : Bool) (sources : List Source) :
    Oblivious (tokenise verbose sources) :=
  (oblivious_write _).bind fun _ => (oblivious_tables verbose sources).bind fun _ =>
    (oblivious_write _).bind fun _ => (oblivious_emit _).bind fun _ => oblivious_pure _

end Job

/-- What can be done with a log that is kept from one step to the next. Each step has the
    disk, the sources and the output that it works with. -/
inductive Operation where
  | add (message : String)
  | report (error : UnclosedLiteral)
  | scan (source : Source)
  | load (disk : Disk) (paths : List Path)
  | tokenise (verbose : Bool) (sources : List Source) (limit : Option Nat)
  | check

inductive Answer where
  | done
  | table (table : Table)
  | sources (sources : List Source)
  | tables (tables : List Table)
  deriving DecidableEq

structure Reply where
  result : Except Fault Answer
  written : Text.Bytes := []
  notices : List String := []
  events : List Event := []

namespace Operation

def job : Operation → Job Answer
  | add message => do
    Job.record message
    return .done
  | report error => do
    Job.report error
    return .done
  | scan source => return .table (← Job.scan source)
  | load disk paths => return .sources (← Job.load disk paths)
  | tokenise verbose sources _ => return .tables (← Job.tokenise verbose sources)
  | check => do
    Job.check
    return .done

def limit : Operation → Option Nat
  | tokenise _ _ limit => limit
  | _ => none

def desk (op : Operation) (log : ErrorLog) : Desk := { log, sink := { limit := op.limit } }

def perform (op : Operation) (log : ErrorLog) : Reply × ErrorLog :=
  match op.job.run (op.desk log) with
  | .ok answer e => (⟨.ok answer, e.sink.accepted, e.notices, e.events⟩, e.log)
  | .error fault e => (⟨.error fault, e.sink.accepted, e.notices, e.events⟩, e.log)

/-- The messages that the step records on an empty log. -/
def messages (op : Operation) : List String := (op.perform {}).2.messages

theorem oblivious_job {op : Operation} (h : op ≠ check) : op.job.Oblivious := by
  cases op with
  | add message => exact (Job.oblivious_record message).bind fun _ => Job.oblivious_pure _
  | report error => exact (Job.oblivious_record _).bind fun _ => Job.oblivious_pure _
  | scan source => exact (Job.oblivious_scan source).bind fun _ => Job.oblivious_pure _
  | load disk paths => exact (Job.oblivious_load disk paths).bind fun _ => Job.oblivious_pure _
  | tokenise verbose sources limit =>
    exact (Job.oblivious_tokenise verbose sources).bind fun _ => Job.oblivious_pure _
  | check => exact absurd rfl h

theorem desk_eq (op : Operation) (log : ErrorLog) :
    op.desk log = (op.desk {}).after log.messages := by
  simp [desk, Desk.after]

theorem perform_eq {op : Operation} (h : op ≠ check) (log : ErrorLog) :
    op.perform log = ((op.perform {}).1, ⟨log.messages ++ op.messages⟩) := by
  have moved := oblivious_job h (op.desk {}) log.messages
  rw [messages, perform, perform, desk_eq op log, moved]
  cases op.job.run (op.desk {}) <;> rfl

def verdict (messages : List String) : Except Fault Answer :=
  if messages = [] then .ok .done else .error (.combined ("\n".intercalate messages))

theorem perform_check (log : ErrorLog) :
    check.perform log = ({ result := verdict log.messages }, log) := by
  by_cases clean : log.messages = []
  · have run : check.job.run (check.desk log) = .ok .done (check.desk log) :=
      Job.run_bind_of_ok (Job.run_check_of_clean clean)
    rw [perform, run, verdict, if_pos clean]
    rfl
  · have run : check.job.run (check.desk log) =
        .error (.combined ("\n".intercalate log.messages)) (check.desk log) :=
      Job.run_bind_of_error (Job.run_check_of_errors clean)
    rw [perform, run, verdict, if_neg clean]
    rfl

theorem messages_perform (op : Operation) (log : ErrorLog) :
    (op.perform log).2.messages = log.messages ++ op.messages := by
  by_cases h : op = check
  · subst h
    rw [messages, perform_check, perform_check]
    exact (List.append_nil _).symm
  · rw [perform_eq h]

end Operation

def session (log : ErrorLog) : List Operation → List Reply × ErrorLog
  | [] => ([], log)
  | op :: rest =>
    let step := op.perform log
    let later := session step.2 rest
    (step.1 :: later.1, later.2)

theorem messages_session (log : ErrorLog) (ops : List Operation) :
    (session log ops).2.messages = log.messages ++ ops.flatMap Operation.messages := by
  induction ops generalizing log with
  | nil => exact (List.append_nil _).symm
  | cons op rest ih =>
    rw [session, List.flatMap_cons, ← List.append_assoc, ← op.messages_perform log]
    exact ih (op.perform log).2

theorem length_session (log : ErrorLog) (ops : List Operation) :
    (session log ops).1.length = ops.length := by
  induction ops generalizing log with
  | nil => rfl
  | cons op rest ih => exact congrArg (· + 1) (ih (op.perform log).2)

theorem getElem?_session (log : ErrorLog) (ops : List Operation) (i : Nat) :
    (session log ops).1[i]? = ops[i]?.map fun op =>
      (op.perform ⟨log.messages ++ (ops.take i).flatMap Operation.messages⟩).1 := by
  induction ops generalizing log i with
  | nil => rfl
  | cons op rest ih =>
    cases i with
    | zero => simp [session]
    | succ i =>
      rw [session, List.take_succ_cons, List.flatMap_cons, ← List.append_assoc,
        ← op.messages_perform log]
      exact ih (op.perform log).2 i

theorem getElem?_scanAll (errors : List UnclosedLiteral) (sources : List Source) (i : Nat) :
    (scanAll errors sources)[i]? = sources[i]?.map fun s =>
      (s.scan, errors ++ (sources.take (i + 1)).flatMap fun s => s.scan.errors) := by
  induction sources generalizing errors i with
  | nil => rfl
  | cons s rest ih =>
    cases i with
    | zero => simp [scanAll]
    | succ i =>
      rw [scanAll, List.take_succ_cons, List.flatMap_cons, ← List.append_assoc]
      exact ih (errors ++ s.scan.errors) i

theorem map_fst_scanAll (errors : List UnclosedLiteral) (sources : List Source) :
    (scanAll errors sources).map Prod.fst = sources.map Source.scan := by
  induction sources generalizing errors with
  | nil => rfl
  | cons s rest ih => exact congrArg (s.scan :: ·) (ih (errors ++ s.scan.errors))

theorem getLast?_scanAll (errors : List UnclosedLiteral) (sources : List Source) :
    ((scanAll errors sources).getLast?.map Prod.snd).getD errors =
      errors ++ sources.flatMap fun s => s.scan.errors := by
  induction sources generalizing errors with
  | nil => exact (List.append_nil _).symm
  | cons s rest ih =>
    rw [List.flatMap_cons, ← List.append_assoc, ← ih (errors ++ s.scan.errors), scanAll,
      List.getLast?_cons]
    exact (Option.getD_map Prod.snd (s.scan, errors ++ s.scan.errors) _).symm

/-- A log only grows, and what it holds decides nothing but the check. Each step records and
    shows what it would on an empty log; a check fails with all messages so far. Scans that
    share one list of errors add theirs to it in order. -/
theorem session_accumulates (log : ErrorLog) (ops : List Operation)
    (errors : List UnclosedLiteral) (sources : List Source) :
    let earlier (i : Nat) := log.messages ++ (ops.take i).flatMap Operation.messages
    (session log ops).2.messages = log.messages ++ ops.flatMap Operation.messages ∧
    (session log ops).1.length = ops.length ∧
    (∀ (i : Nat) (op : Operation), ops[i]? = some op → op ≠ .check →
      (session log ops).1[i]? = some (op.perform {}).1) ∧
    (∀ i : Nat, ops[i]? = some .check → (session log ops).1[i]? =
      some { result := if earlier i = [] then .ok .done
        else .error (.combined ("\n".intercalate (earlier i))) }) ∧
    (scanAll errors sources).map Prod.fst = sources.map Source.scan ∧
    (∀ i < sources.length, (scanAll errors sources)[i]?.map Prod.snd =
      some (errors ++ (sources.take (i + 1)).flatMap fun s => s.scan.errors)) ∧
    ((scanAll errors sources).getLast?.map Prod.snd).getD errors =
      errors ++ sources.flatMap fun s => s.scan.errors := by
  intro earlier
  refine ⟨messages_session log ops, length_session log ops, fun i op at_i other => ?_,
    fun i at_i => ?_, map_fst_scanAll errors sources, fun i inside => ?_,
    getLast?_scanAll errors sources⟩
  · rw [getElem?_session, at_i, Option.map_some, Operation.perform_eq other]
  · rw [getElem?_session, at_i, Option.map_some, Operation.perform_check]
    rfl
  · rw [getElem?_scanAll, List.getElem?_eq_getElem inside]
    rfl

def troubled : List Operation :=
  [.add "first", .tokenise false [⟨"a.asm", "\x27x"⟩] (some 31), .check]

theorem session_accumulates_troubled :
    let report := "Error in file a.asm on line 1: Unterminated quoted string"
    (session {} troubled).2.messages = ["first", report] ∧
      (session {} troubled).1[1]?.map (fun r => (r.result.toOption, r.written.length)) =
        some (none, 31) ∧
      (session {} troubled).1[2]? = some { result := .error (.combined ("first\n" ++ report)) } ∧
      (scanAll [⟨"z.asm", 7⟩] [⟨"a.asm", "\x27x"⟩, ⟨"b.asm", "ok"⟩])[1]?.map Prod.snd =
        some [⟨"z.asm", 7⟩, ⟨"a.asm", 1⟩] := by
  intro report
  obtain ⟨messages, -, others, checks, -, shared, -⟩ :=
    session_accumulates {} troubled [⟨"z.asm", 7⟩] [⟨"a.asm", "\x27x"⟩, ⟨"b.asm", "ok"⟩]
  have recorded : troubled.flatMap Operation.messages = ["first", report] := by decide +kernel
  refine ⟨messages.trans recorded, ?_, ?_, (shared 1 (by decide)).trans (by decide +kernel)⟩
  · rw [others 1 _ rfl nofun]
    decide +kernel
  · have earlier : (troubled.take 2).flatMap Operation.messages = ["first", report] := by
      decide +kernel
    rw [checks 2 rfl]
    exact congrArg (fun ms => some (Reply.mk (Operation.verdict ms) [] [] [])) earlier

end AsmScan
