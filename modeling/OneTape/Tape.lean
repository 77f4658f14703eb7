import OneTape.ByteRow

/-!
# Tapes

The tape is the one memory of a machine: a row of bytes together with two
watermarks, the lowest and the highest address that belong to the tracked
range.  The watermarks only ever move apart.  Storing a byte does not move
them, and tracking an address does not store it; touching an address does both.
-/

namespace OneTape

/-- A row of bytes and the bounds of its tracked range. -/
structure Tape where
  row : ByteRow := {}
  low : Int := 0
  high : Int := 0

namespace Tape

/-- The tape without program, which tracks address zero alone. -/
def blank : Tape := {}

/-- A tape with a program at the addresses from zero on. -/
def ofProgram (program : List UInt8) : Tape :=
  { row := .ofList program, high := (program.length - 1 : Nat) }

def get (tape : Tape) (address : Int) : UInt8 :=
  tape.row.read address

def set (tape : Tape) (address : Int) (value : UInt8) : Tape :=
  { tape with row := tape.row.write address value }

/-- Replace the byte at an address by a function of it. -/
def modify (tape : Tape) (address : Int) (change : UInt8 → UInt8) : Tape :=
  tape.set address (change (tape.get address))

/-- Let the tracked range include an address. -/
def widen (tape : Tape) (address : Int) : Tape :=
  { tape with low := min tape.low address, high := max tape.high address }

/-- Store an address and let the tracked range include it. -/
def touch (tape : Tape) (address : Int) : Tape :=
  { tape with row := tape.row.reserve address }.widen address

/-- The number of tracked addresses. -/
def span (tape : Tape) : Nat :=
  (tape.high + 1 - tape.low).toNat

/-- The tracked addresses with their bytes, lowest address first. -/
def entries (tape : Tape) : List (Int × UInt8) :=
  (List.range tape.span).map fun index : Nat =>
    (tape.low + index, tape.get (tape.low + index))

/-- Two tapes are the same if they store the same bytes at the same addresses
and track the same range; where storage began is of no account. -/
def same (left right : Tape) : Bool :=
  left.row.first == right.row.first && left.row.toList == right.row.toList &&
    left.low == right.low && left.high == right.high

instance : BEq Tape := ⟨same⟩

@[simp]
theorem get_set (tape : Tape) (address : Int) (value : UInt8) (other : Int) :
    (tape.set address value).get other =
      if other = address then value else tape.get other :=
  ByteRow.read_write tape.row address value other

@[simp]
theorem get_widen (tape : Tape) (address other : Int) :
    (tape.widen address).get other = tape.get other := rfl

@[simp]
theorem get_touch (tape : Tape) (address other : Int) :
    (tape.touch address).get other = tape.get other :=
  ByteRow.read_reserve tape.row address other

@[simp]
theorem low_set (tape : Tape) (address : Int) (value : UInt8) :
    (tape.set address value).low = tape.low := rfl

@[simp]
theorem high_set (tape : Tape) (address : Int) (value : UInt8) :
    (tape.set address value).high = tape.high := rfl

@[simp]
theorem low_touch (tape : Tape) (address : Int) :
    (tape.touch address).low = min tape.low address := rfl

@[simp]
theorem high_touch (tape : Tape) (address : Int) :
    (tape.touch address).high = max tape.high address := rfl

@[simp]
theorem length_entries (tape : Tape) : tape.entries.length = tape.span := by
  simp [entries]

end Tape
end OneTape
