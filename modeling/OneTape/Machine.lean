import OneTape.ByteQueue
import OneTape.Fault
import OneTape.Options
import OneTape.SourceEscape
import OneTape.TapeSearch

/-!
# Machines

A machine has one tape with two pointers into it.  A step moves the program
pointer to the next command and executes it on the cell under the data
pointer.  The two pointers share the tape, so that a program can read and
change itself.

A step first counts itself against the limit, then fetches a command, then
executes it.  Once a machine has halted, its steps are idle.
-/

namespace OneTape

structure Machine where
  options : Options
  tape : Tape
  /-- Starts before the program, so that the first step looks at address zero. -/
  programPointer : Int := -1
  dataPointer : Int := 0
  input : ByteQueue := {}
  output : ByteQueue := {}
  /-- Messages about the source and about the fault that ended the run. -/
  diagnostics : ByteQueue := {}
  stepCount : Nat := 0
  halt : Option Halt := none
  loadError : Option EscapeError := none

/-- What one step amounts to. -/
inductive Outcome where
  | executed (command : Command)
  | halted (halt : Halt)
  | idle
  deriving DecidableEq

namespace Machine

/-- A machine for a source text.  A malformed escape leaves the tape blank and
is reported in the diagnostics. -/
def load (source : List UInt8) (options : Options) : Machine :=
  if options.decodeEscapes then
    match SourceEscape.decode source with
    | .ok program => { options, tape := .ofProgram program }
    | .error error =>
        { options
          tape := .blank
          diagnostics := ByteQueue.empty.appendText (error.message ++ "\n")
          loadError := some error }
  else
    { options, tape := .ofProgram source }

/-- Give the machine more input. -/
def feed (machine : Machine) (bytes : List UInt8) : Machine :=
  { machine with input := machine.input.append bytes }

def isHalted (machine : Machine) : Bool :=
  machine.halt.isSome

/-- The byte under the data pointer. -/
def dataByte (machine : Machine) : UInt8 :=
  machine.tape.get machine.dataPointer

/-- The command under the program pointer, if its byte is one. -/
def currentCommand? (machine : Machine) : Option Command :=
  machine.tape.commandAt? machine.programPointer

/-- End the run. -/
def finish (machine : Machine) (halt : Halt) : Outcome × Machine :=
  (.halted halt, { machine with halt := some halt })

/-- End the run by a fault, with a line in the diagnostics. -/
def fail (machine : Machine) (fault : Fault) : Outcome × Machine :=
  { machine with
    diagnostics := machine.diagnostics.appendText fault.diagnostic }.finish
      (.faulted fault)

/-- End a step that goes on: the data pointer's cell joins the tracked range. -/
def complete (machine : Machine) (command : Command) : Outcome × Machine :=
  (.executed command,
    { machine with tape := machine.tape.touch machine.dataPointer })

/-- Move the program pointer to the next command.  An address past the tracked
range joins it. -/
def fetch (machine : Machine) : Command × Machine :=
  let (address, command) := machine.tape.nextCommand machine.programPointer
  let tape :=
    if machine.tape.high < address then machine.tape.touch address
    else machine.tape
  (command, { machine with programPointer := address, tape })

/-- The fault of a bracket without partner. -/
def unmatched : Tape.Direction → Fault
  | .rightward => .unmatchedOpen
  | .leftward => .unmatchedClose

/-- Move the program pointer to the partner of the bracket under it. -/
def jump (machine : Machine) (direction : Tape.Direction) : Outcome × Machine :=
  match machine.tape.partner? direction machine.programPointer with
  | some address =>
      { machine with programPointer := address }.complete direction.bracket
  | none =>
      { machine with
        programPointer := direction.pastRange machine.tape }.fail (unmatched direction)

/-- Take the next input byte, or the end byte if there is none. -/
def takeInput (machine : Machine) : UInt8 × Machine :=
  let (byte, input) := machine.input.shift
  (byte.getD machine.options.endByte.toByte, { machine with input })

/-- Execute a command that has been fetched. -/
def execute (machine : Machine) (command : Command) : Outcome × Machine :=
  match command with
  | .right =>
      { machine with dataPointer := machine.dataPointer + 1 }.complete .right
  | .left =>
      { machine with dataPointer := machine.dataPointer - 1 }.complete .left
  | .increment =>
      { machine with
        tape := machine.tape.modify machine.dataPointer (· + 1) }.complete .increment
  | .decrement =>
      { machine with
        tape := machine.tape.modify machine.dataPointer (· - 1) }.complete .decrement
  | .openLoop =>
      if machine.dataByte = 0 then machine.jump .rightward
      else machine.complete .openLoop
  | .closeLoop =>
      if machine.dataByte = 0 then machine.complete .closeLoop
      else machine.jump .leftward
  | .input =>
      let (byte, machine) := machine.takeInput
      { machine with
        tape := machine.tape.set machine.dataPointer byte }.complete .input
  | .output =>
      { machine with
        output := machine.output.push machine.dataByte }.complete .output
  | .stop => machine.finish .stopped

/-- Count a step, and fault if the limit does not allow it. -/
def step (machine : Machine) : Outcome × Machine :=
  if machine.isHalted then
    (.idle, machine)
  else
    let machine := { machine with stepCount := machine.stepCount + 1 }
    if machine.options.limit < machine.stepCount then
      machine.fail .limitExceeded
    else
      let (command, machine) := machine.fetch
      machine.execute command

end Machine
end OneTape
