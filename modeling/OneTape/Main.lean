import OneTape.Program

/-!
# Entry point

Reads the file and, if asked to, standard input; everything else is decided by
the program's plan and report.  Nothing is logged.
-/

namespace OneTape
namespace Terminal

/-- All bytes that a stream still has, after those already read. -/
partial def readToEnd (stream : IO.FS.Stream) (bytes : ByteArray) : IO ByteArray := do
  let chunk ← stream.read 65536
  if chunk.isEmpty then return bytes
  readToEnd stream (bytes ++ chunk)

def readFailure : IO.Error → ReadFailure
  | .noFileOrDirectory .. => .missing
  | .permissionDenied .. => .denied
  | .inappropriateType _ code _ => if code = 20 then .notDirectory else .directory
  | error => ⟨toString error, 0⟩

def readSource (name : String) : IO (Except ReadFailure (List UInt8)) := do
  try
    return .ok (← IO.FS.readBinFile name).toList
  catch error =>
    return .error (readFailure error)

/-- Carry out a report. -/
def perform (report : Report) : IO UInt32 := do
  let stdout ← IO.getStdout
  stdout.write ⟨report.standardOutput.toArray⟩
  stdout.flush
  IO.eprint (String.ofList report.standardError)
  return report.status.code

/-- Carry out what a command line asks for. -/
def runCommandLine (arguments : List String) : IO UInt32 := do
  match Program.plan arguments with
  | .report report => perform report
  | .runFile name invocation =>
      let source ← readSource name
      let standardInput ←
        if invocation.input = .standardInput then
          readToEnd (← IO.getStdin) .empty
        else
          pure .empty
      perform (Program.runFile name invocation source standardInput.toList)

end Terminal
end OneTape

def main (arguments : List String) : IO UInt32 :=
  OneTape.Terminal.runCommandLine arguments
