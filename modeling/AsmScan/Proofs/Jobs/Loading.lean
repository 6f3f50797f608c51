import AsmScan.Proofs.Jobs

/-!
What loading the inputs leaves on the desk: a message for each path that gave no source, and
no output, notice or scan.
-/

namespace AsmScan

def Event.ofScan : Event → Bool
  | .token .. | .unclosed .. | .scanned .. => true
  | _ => false

/-- The sources that can be read, in the order of their paths. -/
def Disk.sources (disk : Disk) (paths : List Path) : List Source :=
  (disk.loadAll [] paths).filterMap Except.toOption

def complaint? : Except Fault Source → Option String
  | .ok _ => none
  | .error fault => some fault.message

/-- The messages for the paths that give no source. Having no source has a message too. -/
def Disk.complaints (disk : Disk) (paths : List Path) : List String :=
  (disk.loadAll [] paths).filterMap complaint? ++
    if disk.sources paths = [] then [Fault.noInput.message] else []

namespace Desk

def received (d : Desk) : Except Fault Source → Desk
  | .ok source => d.emitted [.loaded source.name source.size]
  | .error fault => d.recorded fault.message

def loaded (d : Desk) (disk : Disk) (paths : List Path) : Desk :=
  let e := (disk.loadAll [] paths).foldl received d
  if disk.sources paths = [] then e.recorded Fault.noInput.message else e

def work (d : Desk) : Sink × List String × List Event :=
  (d.sink, d.notices, d.events.filter Event.ofScan)

theorem work_recorded (d : Desk) (message : String) :
    (d.recorded message).work = d.work := by
  simp [work, recorded, Event.ofScan]

theorem work_received (d : Desk) (outcome : Except Fault Source) :
    (d.received outcome).work = d.work := by
  cases outcome with
  | ok source => simp [work, received, emitted, Event.ofScan]
  | error fault => exact d.work_recorded fault.message

theorem messages_received (d : Desk) (outcome : Except Fault Source) :
    (d.received outcome).log.messages = d.log.messages ++ (complaint? outcome).toList := by
  cases outcome with
  | ok source => exact (List.append_nil _).symm
  | error fault => rfl

theorem work_loaded (d : Desk) (disk : Disk) (paths : List Path) :
    (d.loaded disk paths).work = d.work := by
  have kept : ((disk.loadAll [] paths).foldl received d).work = d.work := by
    generalize disk.loadAll [] paths = outcomes
    induction outcomes generalizing d with
    | nil => rfl
    | cons outcome rest ih => exact (ih _).trans (d.work_received outcome)
  rw [loaded]
  split
  · rw [work_recorded, kept]
  · exact kept

theorem messages_foldl_received (d : Desk) (outcomes : List (Except Fault Source)) :
    (outcomes.foldl received d).log.messages =
      d.log.messages ++ outcomes.filterMap complaint? := by
  induction outcomes generalizing d with
  | nil => simp
  | cons outcome rest ih =>
    rw [List.foldl_cons, ih, messages_received, List.append_assoc, List.filterMap_cons]
    cases complaint? outcome <;> rfl

theorem messages_loaded (d : Desk) (disk : Disk) (paths : List Path) :
    (d.loaded disk paths).log.messages = d.log.messages ++ disk.complaints paths := by
  rw [loaded, Disk.complaints, ← List.append_assoc, ← messages_foldl_received]
  split
  · rfl
  · rw [List.append_nil]

end Desk

namespace Job

theorem run_collect (d : Desk) (outcomes : List (Except Fault Source)) :
    (collect outcomes).run d =
      .ok (outcomes.filterMap Except.toOption) (outcomes.foldl Desk.received d) := by
  induction outcomes generalizing d with
  | nil => rfl
  | cons outcome rest ih =>
    cases outcome with
    | ok source =>
      rw [collect, run_bind_of_ok (run_emit d _), run_bind_of_ok (ih _)]
      rfl
    | error fault =>
      rw [collect, run_bind_of_ok (run_record d _), ih]
      rfl

theorem run_load (d : Desk) (disk : Disk) (paths : List Path) :
    (load disk paths).run d = .ok (disk.sources paths) (d.loaded disk paths) := by
  rw [load, run_bind_of_ok (run_collect d _), ← Disk.sources, Desk.loaded]
  simp only [List.isEmpty_iff]
  split
  · rw [run_bind_of_ok (run_record _ _)]
    rfl
  · rfl

end Job

end AsmScan
