import OneTape.CommandLine
import OneTape.Run
import OneTape.TapeView

/-!
# The program

The program reads its arguments and a source file, runs a machine on the source
and reports.  What it does is a function of the arguments, of the contents of
files and of standard input; the result says what goes to the two output
channels and how the program exits.

Standard output receives the machine's output and nothing else, unless there is
no run at all; all that is shown about a run goes to standard error.

This is the program with its log switched off.  A log goes to standard error too.
How much it says, and in which words, is up to a logger, which is a parameter of the
runs in `OneTape.ProgramLog`.
-/

namespace OneTape

inductive ExitStatus where
  | success
  | misuse
  | failure
  deriving DecidableEq

def ExitStatus.code : ExitStatus → UInt32
  | success => 0
  | misuse => 1
  | failure => 2

/-- Why a file cannot be read, in the words and with the number of the
operating system. -/
structure ReadFailure where
  reason : String
  code : Nat
  deriving DecidableEq

namespace ReadFailure

def missing : ReadFailure := ⟨"No such file or directory", 2⟩

def denied : ReadFailure := ⟨"Permission denied", 13⟩

def notDirectory : ReadFailure := ⟨"Not a directory", 20⟩

def directory : ReadFailure := ⟨"Is a directory", 21⟩

def message (failure : ReadFailure) : String :=
  failure.reason ++ " (os error " ++ String.ofList (Numeral.ofNat failure.code) ++ ")"

end ReadFailure

/-- The effects of a run of the program. -/
structure Report where
  status : ExitStatus
  standardOutput : List UInt8 := []
  standardError : List Char := []
  deriving DecidableEq

namespace Program

def usage : String :=
  "BFMETA - Brainfuck with program and data on one tape\n" ++
  "\n" ++
  "Usage:\n" ++
  "  bfmeta <file>             Run a program\n" ++
  "  bfmeta --raw <file>       Load source bytes without decoding escapes\n" ++
  "  bfmeta --limit=N <file>   Stop after N steps (default 1000000)\n" ++
  "  bfmeta --eof=0|255 <file> Byte read by ',' at end of input\n" ++
  "  bfmeta --input=TEXT       Use TEXT as program input\n" ++
  "  bfmeta --stdin            Read program input from stdin\n" ++
  "  bfmeta --trace <file>     Print the tape after every step\n" ++
  "  bfmeta --tape <file>      Print the final tape\n" ++
  "  bfmeta --no-color         Disable ANSI colors in tape output\n" ++
  "  bfmeta --help, -h         Show this help\n"

/-- A report that consists of the usage text. -/
def usageReport (status : ExitStatus) : Report :=
  { status, standardOutput := Utf8.encode usage.toList }

/-- The bytes that an invocation gives to the machine as input. -/
def inputBytes (invocation : Invocation) (standardInput : List UInt8) : List UInt8 :=
  match invocation.input with
  | .none => []
  | .text text => Utf8.encode text.toList
  | .standardInput => standardInput

/-- The machine of an invocation before its first step. -/
def start (invocation : Invocation) (source standardInput : List UInt8) : Machine :=
  (Machine.load source invocation.options).feed (inputBytes invocation standardInput)

/-- The trace of a whole run: one line for each step. -/
def traceText (colored : Bool) (machine : Machine) : List Char :=
  let view (machine : Machine) :=
    renderSpans colored (TapeView.traceLine machine) ++ ['\n']
  (machine.observe view machine.remainingSteps #[]).1.toList.flatten

/-- A run succeeds if the source was well formed and the machine stopped by
itself. -/
def exitStatus (machine : Machine) : ExitStatus :=
  if machine.halt = some .stopped ∧ machine.loadError = none then .success
  else .failure

/-- Run a source and report, without a log. -/
def execute (invocation : Invocation) (source standardInput : List UInt8) : Report :=
  let colored := !invocation.plain
  let machine := start invocation source standardInput
  let final := machine.run
  { status := exitStatus final
    standardOutput := final.output.unread
    standardError :=
      (if invocation.trace then traceText colored machine else []) ++
      (if invocation.table then renderSpans colored (TapeView.table .full final) else []) ++
      Utf8.decodeLossy final.diagnostics.unread }

/-- What is left to do once the arguments are known. -/
inductive Plan where
  | report (report : Report)
  | runFile (name : String) (invocation : Invocation)

/-- Read the arguments.  Without a file to run, the report is already known. -/
def plan (arguments : List String) : Plan :=
  match Invocation.parse arguments with
  | .error error =>
      .report { usageReport .misuse with
        standardError := ("Error: " ++ error.message ++ "\n").toList }
  | .ok invocation =>
      if invocation.help then .report (usageReport .success)
      else
        match invocation.file with
        | none => .report (usageReport .misuse)
        | some name => .runFile name invocation

/-- Run a file, given what reading it has led to. -/
def runFile (name : String) (invocation : Invocation)
    (source : Except ReadFailure (List UInt8)) (standardInput : List UInt8) : Report :=
  match source with
  | .ok source => execute invocation source standardInput
  | .error failure =>
      { status := .misuse
        standardError :=
          ("Failed to read '" ++ name ++ "': " ++ failure.message ++ "\n").toList }

/-- The program as a function of its surroundings, without a log. -/
def run (arguments : List String)
    (readFile : String → Except ReadFailure (List UInt8))
    (standardInput : List UInt8) : Report :=
  match plan arguments with
  | .report report => report
  | .runFile name invocation => runFile name invocation (readFile name) standardInput

end Program
end OneTape
