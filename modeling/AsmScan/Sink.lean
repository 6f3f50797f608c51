import AsmScan.Text.Utf8

/-!
An output that takes bytes up to a limit.
-/

namespace AsmScan

def Text.upTo (limit : Option Nat) (bytes : Text.Bytes) : Text.Bytes :=
  match limit with
  | none => bytes
  | some n => bytes.take n

theorem Text.upTo_of_fits {limit : Option Nat} {bytes : Text.Bytes}
    (h : ∀ n ∈ limit, bytes.length ≤ n) : Text.upTo limit bytes = bytes := by
  cases limit with
  | none => rfl
  | some n => exact List.take_of_length_le (h n rfl)

@[ext]
structure Sink where
  limit : Option Nat := none
  accepted : Text.Bytes := []
  within : ∀ n ∈ limit, accepted.length ≤ n := by simp
  deriving DecidableEq

namespace Sink

def refusal : String := "sink full"

def fits (s : Sink) (bytes : Text.Bytes) : Bool :=
  s.limit.all fun n => s.accepted.length + bytes.length ≤ n

def write (s : Sink) (bytes : Text.Bytes) : Sink :=
  { limit := s.limit
    accepted := Text.upTo s.limit (s.accepted ++ bytes)
    within := by
      rintro n hn
      rw [Option.mem_def.mp hn]
      exact List.length_take_le n _ }

/-- The accepted bytes as a text; a character cut off at the end shows as U+FFFD. -/
def shown (s : Sink) : String := Text.lossy s.accepted

variable {s : Sink} {a b : Text.Bytes}

theorem fits_iff : s.fits a = true ↔ ∀ n ∈ s.limit, s.accepted.length + a.length ≤ n := by
  cases h : s.limit <;> simp [fits, h]

theorem fits_nil (s : Sink) : s.fits [] = true := fits_iff.mpr s.within

theorem accepted_write_of_fits (h : s.fits a = true) :
    (s.write a).accepted = s.accepted ++ a := by
  refine Text.upTo_of_fits fun n hn => ?_
  rw [List.length_append]
  exact fits_iff.mp h n hn

theorem write_nil (s : Sink) : s.write [] = s :=
  Sink.ext rfl ((accepted_write_of_fits s.fits_nil).trans (List.append_nil _))

theorem fits_append : s.fits (a ++ b) = (s.fits a && (s.write a).fits b) := by
  rw [Bool.eq_iff_iff, Bool.and_eq_true, fits_iff, List.length_append]
  constructor
  · intro h
    have first : s.fits a = true := by
      refine fits_iff.mpr fun n hn => ?_
      have both := h n hn
      omega
    refine ⟨first, fits_iff.mpr fun n hn => ?_⟩
    rw [accepted_write_of_fits first, List.length_append, Nat.add_assoc]
    exact h n hn
  · rintro ⟨first, second⟩ n hn
    have both := fits_iff.mp second n hn
    rwa [accepted_write_of_fits first, List.length_append, Nat.add_assoc] at both

theorem write_write (h : s.fits a = true) (b : Text.Bytes) :
    (s.write a).write b = s.write (a ++ b) := by
  refine Sink.ext rfl ?_
  change Text.upTo s.limit ((s.write a).accepted ++ b) = Text.upTo s.limit (s.accepted ++ (a ++ b))
  rw [accepted_write_of_fits h, List.append_assoc]

theorem write_append_of_full (h : s.fits a = false) (b : Text.Bytes) :
    s.write (a ++ b) = s.write a := by
  refine Sink.ext rfl ?_
  cases hl : s.limit with
  | none => simp [fits, hl] at h
  | some n =>
    have full : n ≤ (s.accepted ++ a).length := by
      have exceeds : n < s.accepted.length + a.length := by simpa [fits, hl] using h
      rw [List.length_append]
      omega
    simp only [write, Text.upTo, hl]
    rw [← List.append_assoc, List.take_append_of_le_length full]

end Sink

end AsmScan
