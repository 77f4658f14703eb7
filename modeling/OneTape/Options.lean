/-!
# Options of a machine

A machine is loaded with or without decoding escapes, runs for a limited number
of steps, and has to store some byte when it asks for input and there is none.
-/

namespace OneTape

/-- The byte that the input command stores when the input is used up. -/
inductive EndByte where
  | zero
  | max
  deriving DecidableEq

namespace EndByte

/-- Both choices, in the order that numbers them on the wire. -/
def all : List EndByte :=
  [zero, max]

theorem mem_all (endByte : EndByte) : endByte ∈ all := by
  cases endByte <;> decide

def toByte : EndByte → UInt8
  | zero => 0
  | max => 255

def ofByte? (byte : UInt8) : Option EndByte :=
  all.find? fun endByte => endByte.toByte == byte

@[simp]
theorem ofByte?_toByte (endByte : EndByte) :
    ofByte? endByte.toByte = some endByte := by
  cases endByte <;> decide

end EndByte

/-- How a machine is loaded and run. -/
structure Options where
  /-- Whether escapes in the source are decoded before it is loaded. -/
  decodeEscapes : Bool := true
  /-- The number of steps allowed; the step after the last one faults. -/
  limit : Nat := 1000000
  endByte : EndByte := .zero
  deriving DecidableEq

/-- Limits are words of 64 bits. -/
def Options.limitBound : Nat := 0x10000000000000000

end OneTape
