import AsmScan.Fault

/-!
The errors of a run, in the order in which they were found. The log only grows.
-/

namespace AsmScan

structure ErrorLog where
  messages : List String := []
  deriving DecidableEq

namespace ErrorLog

def hasErrors (log : ErrorLog) : Bool := !log.messages.isEmpty

def record (log : ErrorLog) (message : String) : ErrorLog :=
  { messages := log.messages ++ [message] }

@[simp] theorem messages_record (log : ErrorLog) (message : String) :
    (log.record message).messages = log.messages ++ [message] := rfl

def report? (log : ErrorLog) : Option String :=
  if log.messages.isEmpty then none else some ("\n".intercalate log.messages)

def check (log : ErrorLog) : Except Fault Unit :=
  match log.report? with
  | none => .ok ()
  | some report => .error (.combined report)

theorem check_eq_ok_iff (log : ErrorLog) : log.check = .ok () ↔ log.messages = [] := by
  cases h : log.messages with
  | nil => simp [check, report?, h]
  | cons m ms => simp [check, report?, h]

end ErrorLog

end AsmScan
