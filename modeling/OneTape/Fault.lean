/-!
# Faults and halts

A machine halts when it executes the stop command, or by a fault: its step
limit is used up, or a bracket that has to jump has no partner.
-/

namespace OneTape

inductive Fault where
  | limitExceeded
  | unmatchedOpen
  | unmatchedClose
  deriving DecidableEq

namespace Fault

/-- All faults, in the order that numbers them on the wire. -/
def all : List Fault :=
  [limitExceeded, unmatchedOpen, unmatchedClose]

theorem mem_all (fault : Fault) : fault ∈ all := by
  cases fault <;> decide

def message : Fault → String
  | limitExceeded => "Limit exceeded"
  | unmatchedOpen => "Unmatched bracket ["
  | unmatchedClose => "Unmatched bracket ]"

/-- The line that a fault adds to the diagnostics of a machine. -/
def diagnostic (fault : Fault) : String :=
  fault.message ++ "\n"

end Fault

/-- Why a machine has come to a halt. -/
inductive Halt where
  | stopped
  | faulted (fault : Fault)
  deriving DecidableEq

end OneTape
