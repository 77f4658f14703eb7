import OneTape.Program

/-!
# The log of the program

Standard error has a second writer.  While the program runs a source, it tells a logger
that escapes could not be decoded, which command a step is about to execute, and how a
machine halts.  What the logger writes about this stands between the texts that the
program writes itself.

The logger is not part of the program.  Its lines tell the time, and what it leaves out
is set from outside.  So it may be any function of an event and of the number of events
before, which stands for the moment and for whatever has happened until then.
-/

namespace OneTape

/-- How much is logged. -/
inductive LogLevel where
  | off
  | warning
  | debug
  | trace
  deriving DecidableEq

/-- A level includes those of a lower rank. -/
def LogLevel.rank : LogLevel → Nat
  | off => 0
  | warning => 1
  | debug => 2
  | trace => 3

/-- What a logger is told. -/
inductive LogEvent where
  /-- Escapes could not be decoded, and the tape is left blank. -/
  | malformedEscape (error : EscapeError)
  /-- A command has been fetched and is executed next. -/
  | step (stepCount : Nat) (programPointer dataPointer : Int) (command : Command)
  | halted (halt : Halt) (stepCount : Nat)
  /-- A machine is run from here on until it has halted. -/
  | runBegins
  | runEnds
  deriving DecidableEq

/-- The level from which on an event is logged. -/
def LogEvent.level : LogEvent → LogLevel
  | malformedEscape _ => .warning
  | step .. => .trace
  | halted .. | runBegins | runEnds => .debug

/-- A logger writes some text about an event, given the number of events before. -/
structure Logger where
  write : Nat → LogEvent → List Char

/-- A logger that leaves out what is above a level. -/
def Logger.upTo (level : LogLevel) (logger : Logger) : Logger where
  write number event := if event.level.rank ≤ level.rank then logger.write number event else []

/-- A piece of standard error: a text that the program shows, or an event that it logs. -/
inductive ErrorPiece where
  | shown (text : List Char)
  | logged (event : LogEvent)
  deriving DecidableEq

/-- All that is written to standard error, from an event with the given number on. -/
def Logger.text (logger : Logger) : Nat → List ErrorPiece → List Char
  | _, [] => []
  | number, .shown text :: pieces => text ++ logger.text number pieces
  | number, .logged event :: pieces =>
      logger.write number event ++ logger.text (number + 1) pieces

namespace Machine

/-- What is logged when a source is loaded. -/
def loadEvents (source : List UInt8) (options : Options) : List LogEvent :=
  (load source options).loadError.toList.map .malformedEscape

/-- What is logged of the end of a step. -/
def outcomeEvents : Outcome × Machine → List LogEvent
  | (.halted halt, machine) => [.halted halt machine.stepCount]
  | _ => []

/-- What is logged of a step.  It fetches no command if the limit does not allow it. -/
def stepEvents (machine : Machine) : List LogEvent :=
  if machine.isHalted then []
  else if machine.options.limit < machine.counted.stepCount then outcomeEvents machine.step
  else
    let (command, fetched) := machine.counted.fetch
    .step fetched.stepCount fetched.programPointer fetched.dataPointer command ::
      outcomeEvents machine.step

/-- Take up to a number of steps and tell about each machine that takes one. -/
def narrate (about : Machine → List ErrorPiece) : Nat → Machine → List ErrorPiece × Machine
  | 0, machine => ([], machine)
  | count + 1, machine =>
      if machine.isHalted then
        ([], machine)
      else
        let (pieces, final) := narrate about count machine.step.2
        (about machine ++ pieces, final)

end Machine

namespace Program

/-- The line of a trace that shows a machine. -/
def traceRow (colored : Bool) (machine : Machine) : List Char :=
  renderSpans colored (TapeView.traceLine machine) ++ ['\n']

def loggedStep (machine : Machine) : List ErrorPiece :=
  machine.stepEvents.map .logged

/-- A step of a trace is logged while it is taken, and shown after it. -/
def tracedStep (colored : Bool) (machine : Machine) : List ErrorPiece :=
  loggedStep machine ++ [.shown (traceRow colored machine.step.2)]

/-- Step a machine until it has halted, if there is to be a trace. -/
def traceInTurn (invocation : Invocation) (machine : Machine) : List ErrorPiece × Machine :=
  if invocation.trace then
    machine.narrate (tracedStep !invocation.plain) machine.remainingSteps
  else
    ([], machine)

/-- Run a machine, after a trace or without it, and show what has become of it. -/
def runInTurn (invocation : Invocation) (machine : Machine) : List ErrorPiece × Machine :=
  let (traced, machine) := traceInTurn invocation machine
  let (ran, final) := machine.narrate loggedStep machine.remainingSteps
  let table :=
    if invocation.table then renderSpans (!invocation.plain) (TapeView.table .full final)
    else []
  (traced ++ .logged .runBegins :: ran ++
    [.logged .runEnds, .shown table, .shown (Utf8.decodeLossy final.diagnostics.unread)], final)

/-- Run a source and report, with a log. -/
def executeInTurn (logger : Logger) (invocation : Invocation)
    (source standardInput : List UInt8) : Report :=
  let loading := (Machine.loadEvents source invocation.options).map ErrorPiece.logged
  let (running, final) := runInTurn invocation (start invocation source standardInput)
  { status := exitStatus final
    standardOutput := final.output.unread
    standardError := logger.text 0 (loading ++ running) }

end Program
end OneTape
