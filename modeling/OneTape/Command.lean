/-!
# Commands

A tape holds program and data in the same bytes.  Nine byte values are
commands; the program pointer passes over every other byte.  The byte zero is
the command that stops the machine, so a program needs no explicit end: the
blank tape after its last byte stops it.
-/

namespace OneTape

/-- The nine things that a tape byte can ask for. -/
inductive Command where
  | right
  | left
  | increment
  | decrement
  | openLoop
  | closeLoop
  | input
  | output
  | stop
  deriving DecidableEq

namespace Command

/-- All commands, in the order that numbers them on the wire. -/
def all : List Command :=
  [right, left, increment, decrement, openLoop, closeLoop, input, output, stop]

theorem mem_all (command : Command) : command ∈ all := by
  cases command <;> decide

/-- The tape byte that asks for a command. -/
def toByte : Command → UInt8
  | right => '>'.toUInt8
  | left => '<'.toUInt8
  | increment => '+'.toUInt8
  | decrement => '-'.toUInt8
  | openLoop => '['.toUInt8
  | closeLoop => ']'.toUInt8
  | input => ','.toUInt8
  | output => '.'.toUInt8
  | stop => 0

/-- The command that a tape byte asks for, if it is one of the nine. -/
def ofByte? (byte : UInt8) : Option Command :=
  all.find? fun command => command.toByte == byte

@[simp]
theorem ofByte?_toByte (command : Command) :
    ofByte? command.toByte = some command := by
  cases command <;> decide

theorem toByte_injective {first second : Command}
    (equal : first.toByte = second.toByte) : first = second := by
  simpa using congrArg ofByte? equal

theorem ofByte?_eq_some_iff {byte : UInt8} {command : Command} :
    ofByte? byte = some command ↔ byte = command.toByte := by
  constructor
  · intro found
    have := List.find?_some found
    simpa using (beq_iff_eq.mp this).symm
  · rintro rfl
    exact ofByte?_toByte command

@[simp]
theorem ofByte?_zero : ofByte? 0 = some stop := by
  decide

/-- The name of a command in a tape table. -/
def mnemonic : Command → String
  | right => "FWD"
  | left => "BWD"
  | increment => "INC"
  | decrement => "DEC"
  | openLoop => "OPEN"
  | closeLoop => "CLOSE"
  | input => "GET"
  | output => "PUT"
  | stop => "END"

/-- The printable form of a command: its character, or backslash zero for the
byte that has none. -/
def symbol : Command → String
  | right => ">"
  | left => "<"
  | increment => "+"
  | decrement => "-"
  | openLoop => "["
  | closeLoop => "]"
  | input => ","
  | output => "."
  | stop => "\\0"

end Command
end OneTape
