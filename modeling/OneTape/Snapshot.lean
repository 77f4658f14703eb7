import OneTape.Machine

/-!
# Snapshots

A snapshot is what can be seen of a machine at one moment: its pointers, its
step count, how it halted, the tracked part of its tape, and what its output
and diagnostic channels hold.
-/

namespace OneTape

structure Snapshot where
  programPointer : Int
  dataPointer : Int
  stepCount : Nat
  halt : Option Halt
  /-- Addresses with their bytes. -/
  entries : List (Int × UInt8)
  output : List UInt8
  diagnostics : List UInt8
  deriving DecidableEq

namespace Snapshot

def capture (machine : Machine) : Snapshot where
  programPointer := machine.programPointer
  dataPointer := machine.dataPointer
  stepCount := machine.stepCount
  halt := machine.halt
  entries := machine.tape.entries
  output := machine.output.unread
  diagnostics := machine.diagnostics.unread

/-- The address of the first entry. -/
def first? (snapshot : Snapshot) : Option Int :=
  snapshot.entries.head?.map Prod.fst

/-- The address of the last entry. -/
def last? (snapshot : Snapshot) : Option Int :=
  snapshot.entries.getLast?.map Prod.fst

end Snapshot
end OneTape
