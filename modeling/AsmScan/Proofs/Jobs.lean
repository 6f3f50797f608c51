import AsmScan.Job

/-!
What the steps of a job do to the desk, and how jobs that write are put together: they
either do all of their work, or stop at the first byte that the output refuses.
-/

namespace AsmScan

namespace Desk

def emitted (d : Desk) (events : List Event) : Desk := { d with events := d.events ++ events }

def notified (d : Desk) (text : String) : Desk := { d with notices := d.notices ++ [text] }

def recorded (d : Desk) (message : String) : Desk :=
  { d with log := d.log.record message, events := d.events ++ [.recorded message] }

def fits (d : Desk) (text : String) : Bool := d.sink.fits (Text.encode text)

def written (d : Desk) (text : String) : Desk :=
  { d with sink := d.sink.write (Text.encode text) }

theorem written_empty (d : Desk) : d.written "" = d := by
  have nothing : d.sink.write (Text.encode "") = d.sink := d.sink.write_nil
  rw [written, nothing]

theorem fits_empty (d : Desk) : d.fits "" = true := d.sink.fits_nil

theorem fits_append (d : Desk) (s t : String) :
    d.fits (s ++ t) = (d.fits s && (d.written s).fits t) := by
  rw [fits, Text.encode_append, Sink.fits_append]
  rfl

end Desk

namespace Job

variable {α β : Type} {job : Job α} {f : α → Job β} {d mid final : Desk} {a : α} {b : β}

theorem run_bind_of_ok (h : job.run d = .ok a mid) : (job >>= f).run d = (f a).run mid := by
  rw [EStateM.run_bind, h]

theorem run_bind_of_error {fault : Fault} (h : job.run d = .error fault mid) :
    (job >>= f).run d = .error fault mid := by
  rw [EStateM.run_bind, h]

theorem run_emit (d : Desk) (events : List Event) :
    (emit events).run d = .ok () (d.emitted events) := rfl

theorem run_record (d : Desk) (message : String) :
    (record message).run d = .ok () (d.recorded message) := rfl

theorem run_check_of_clean (h : d.log.messages = []) : check.run d = .ok () d := by
  have clean : d.log.check = .ok () := (ErrorLog.check_eq_ok_iff d.log).mpr h
  rw [check, run_bind_of_ok (EStateM.run_get d), clean]
  rfl

theorem run_check_of_errors (h : d.log.messages ≠ []) :
    check.run d = .error (.combined ("\n".intercalate d.log.messages)) d := by
  have failed : d.log.check = .error (.combined ("\n".intercalate d.log.messages)) := by
    rw [ErrorLog.check, ErrorLog.report?, if_neg (by simpa using h)]
  rw [check, run_bind_of_ok (EStateM.run_get d), failed]
  rfl

theorem run_write (d : Desk) (text : String) :
    (write text).run d =
      if d.fits text then .ok () (d.written text)
      else .error (.output Sink.refusal) (d.written text) := by
  rw [write, run_bind_of_ok (EStateM.run_get d), run_bind_of_ok (EStateM.run_set _ d)]
  cases h : d.fits text with
  | true =>
    rw [Desk.fits] at h
    rw [h]
    rfl
  | false =>
    rw [Desk.fits] at h
    rw [h]
    rfl

/-- The job writes the text and then leaves the desk `final`, or else stops at the first byte
    refused, on a desk of which `stopped` holds. -/
structure Writes (job : Job α) (d : Desk) (text : String) (a : α) (final : Desk)
    (stopped : Desk → Prop) : Prop where
  ok : d.fits text = true → job.run d = .ok a final ∧ final.sink = (d.written text).sink
  error : d.fits text = false → ∃ e, job.run d = .error (.output Sink.refusal) e ∧
    e.sink = (d.written text).sink ∧ stopped e

theorem writes_write (d : Desk) (text : String) :
    (write text).Writes d text () (d.written text) (· = d.written text) where
  ok h := ⟨by rw [run_write, if_pos h], rfl⟩
  error h := ⟨d.written text, by rw [run_write, h]; rfl, rfl, rfl⟩

variable {text more : String} {stopped later : Desk → Prop}

theorem Writes.imp (h : job.Writes d text a final stopped)
    (weaken : ∀ e, d.fits text = false → stopped e → later e) :
    job.Writes d text a final later where
  ok := h.ok
  error exceeds := by
    obtain ⟨e, run, sink, he⟩ := h.error exceeds
    exact ⟨e, run, sink, weaken e exceeds he⟩

theorem Writes.of_run_eq {job' : Job α} {d' : Desk} (h : job'.Writes d' text a final stopped)
    (run : job.run d = job'.run d') (sink : d'.sink = d.sink) :
    job.Writes d text a final stopped := by
  have fits : d.fits text = d'.fits text := by rw [Desk.fits, Desk.fits, sink]
  have written : (d.written text).sink = (d'.written text).sink := by
    simp only [Desk.written, sink]
  constructor
  · rw [fits, run, written]
    exact h.ok
  · rw [fits, run, written]
    exact h.error

theorem Writes.bind (h : job.Writes d text a mid stopped)
    (next : mid.sink = (d.written text).sink → (f a).Writes mid more b final later) :
    (job >>= f).Writes d (text ++ more) b final
      fun e => (d.fits text = false ∧ stopped e) ∨ (d.fits text = true ∧ later e) := by
  cases first : d.fits text with
  | false =>
    obtain ⟨e, run, sink, he⟩ := h.error first
    have full : (d.written (text ++ more)).sink = (d.written text).sink := by
      rw [Desk.written, Text.encode_append, Sink.write_append_of_full first, Desk.written]
    constructor
    · intro all
      rw [Desk.fits_append, first] at all
      exact absurd all Bool.false_ne_true
    · intro _
      exact ⟨e, run_bind_of_error run, sink.trans full.symm, .inl ⟨rfl, he⟩⟩
  | true =>
    obtain ⟨run, sink⟩ := h.ok first
    have rest := next sink
    have fits : d.fits (text ++ more) = mid.fits more := by
      rw [Desk.fits_append, first, Bool.true_and, Desk.fits, Desk.fits, sink]
    have joined : (mid.written more).sink = (d.written (text ++ more)).sink := by
      simp only [Desk.written, sink]
      rw [Sink.write_write first, Text.encode_append]
    constructor
    · rw [fits, ← joined, run_bind_of_ok run]
      exact rest.ok
    · rw [fits, ← joined, run_bind_of_ok run]
      intro exceeds
      obtain ⟨e, stop, accepted, he⟩ := rest.error exceeds
      exact ⟨e, stop, accepted, .inr ⟨rfl, he⟩⟩

theorem Writes.then_ok (h : job.Writes d text a mid stopped) (run : (f a).run mid = .ok b final)
    (sink : final.sink = mid.sink) : (job >>= f).Writes d text b final stopped where
  ok fits := by
    obtain ⟨first, written⟩ := h.ok fits
    exact ⟨(run_bind_of_ok first).trans run, sink.trans written⟩
  error exceeds := by
    obtain ⟨e, first, rest⟩ := h.error exceeds
    exact ⟨e, run_bind_of_error first, rest⟩

end Job

end AsmScan
