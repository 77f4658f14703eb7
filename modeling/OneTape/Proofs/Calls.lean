import OneTape.Run

/-!
# Calls

From outside, a machine is used by three calls: it is given input, it takes a
step, or it runs until it halts.  A user sees the response to each call and
the machine after it.  A run consists of steps too, so behind the calls there
is the trail of all steps that were taken.

What holds of a loaded machine and is kept by feeding and by stepping holds
after every sequence of calls.
-/

namespace OneTape

/-- What can be asked of a machine. -/
inductive Call where
  | feed (bytes : List UInt8)
  | step
  | run
  deriving DecidableEq

/-- What a call gives back. -/
inductive Response where
  | fed
  | stepped (outcome : Outcome)
  | completed (halt : Halt)
  deriving DecidableEq

/-- What a call adds to the input. -/
def Call.fed : Call → List UInt8
  | feed bytes => bytes
  | step | run => []

/-- All that a sequence of calls adds to the input. -/
def fedBytes (calls : List Call) : List UInt8 :=
  calls.flatMap Call.fed

/-- The bytes that loading a source puts on the tape.  A malformed escape
leaves none of them. -/
def loadedProgram (source : List UInt8) (options : Options) : List UInt8 :=
  if options.decodeEscapes then
    match SourceEscape.decode source with
    | .ok program => program
    | .error _ => []
  else
    source

def loadDiagnostics (source : List UInt8) (options : Options) : List UInt8 :=
  if options.decodeEscapes then
    match SourceEscape.decode source with
    | .ok _ => []
    | .error error => Utf8.encode (error.message ++ "\n").toList
  else
    []

theorem SourceEscape.decodeFrom_plain {source : List UInt8} (plain : backslash ∉ source)
    (offset : Nat) (decoded : Array UInt8) :
    decodeFrom offset decoded source = .ok (decoded.toList ++ source) := by
  induction source generalizing offset decoded with
  | nil => simp [decodeFrom]
  | cons byte rest ih =>
      rw [List.mem_cons, not_or] at plain
      obtain ⟨differs, restPlain⟩ := plain
      unfold decodeFrom
      rw [if_pos (Ne.symm differs), ih restPlain]
      simp

section Plain

variable {source : List UInt8} {options : Options}

theorem SourceEscape.decode_plain (plain : backslash ∉ source) : decode source = .ok source :=
  decodeFrom_plain plain 0 #[]

theorem loadedProgram_plain
    (plain : options.decodeEscapes = false ∨ SourceEscape.backslash ∉ source) :
    loadedProgram source options = source := by
  unfold loadedProgram
  rcases plain with raw | plain
  · rw [raw]
    rfl
  · rw [SourceEscape.decode_plain plain]
    exact ite_self source

theorem loadDiagnostics_plain
    (plain : options.decodeEscapes = false ∨ SourceEscape.backslash ∉ source) :
    loadDiagnostics source options = [] := by
  unfold loadDiagnostics
  rcases plain with raw | plain
  · rw [raw]
    rfl
  · rw [SourceEscape.decode_plain plain]
    exact ite_self []

end Plain

namespace Machine

/-- A loaded machine is a fresh one, up to what it says about its source. -/
theorem load_fresh (source : List UInt8) (options : Options) :
    ∃ diagnostics loadError, load source options =
      { options, tape := .ofProgram (loadedProgram source options), diagnostics, loadError } := by
  unfold load loadedProgram
  split
  · cases SourceEscape.decode source <;> exact ⟨_, _, rfl⟩
  · exact ⟨_, _, rfl⟩

theorem tape_load (source : List UInt8) (options : Options) :
    (load source options).tape = .ofProgram (loadedProgram source options) := by
  obtain ⟨_, _, fresh⟩ := load_fresh source options
  rw [fresh]

theorem diagnostics_load (source : List UInt8) (options : Options) :
    (load source options).diagnostics.unread = loadDiagnostics source options := by
  unfold load loadDiagnostics
  split
  · cases SourceEscape.decode source with
    | ok program => rfl
    | error error => simp [ByteQueue.unread, ByteQueue.empty, ByteQueue.appendText]
  · rfl

def finalHalt (machine : Machine) : Halt :=
  machine.run.halt.get machine.isHalted_run

theorem halt_run (machine : Machine) : machine.run.halt = some machine.finalHalt :=
  (Option.some_get machine.isHalted_run).symm

def call (machine : Machine) : Call → Response × Machine
  | .feed bytes => (.fed, machine.feed bytes)
  | .step => (.stepped machine.step.1, machine.step.2)
  | .run => (.completed machine.finalHalt, machine.run)

def after (machine : Machine) (calls : List Call) : Machine :=
  calls.foldl (fun machine call => (machine.call call).2) machine

/-- Take a number of steps one by one.  They are idle once the machine has
halted. -/
def steps (count : Nat) (machine : Machine) : Machine :=
  Nat.repeat (fun machine => machine.step.2) count machine

/-- Some calls lead to this machine from some source. -/
def Reachable (machine : Machine) : Prop :=
  ∃ source options calls, (load source options).after calls = machine

def history (machine : Machine) : List Call → List (Response × Machine)
  | [] => []
  | call :: calls => machine.call call :: (machine.call call).2.history calls

/-- The steps that `advance` takes: what each amounts to, and the machine
after it. -/
def advanceTrail : Nat → Machine → List (Outcome × Machine)
  | 0, _ => []
  | count + 1, machine =>
      if machine.isHalted then [] else machine.step :: advanceTrail count machine.step.2

def callTrail (machine : Machine) : Call → List (Outcome × Machine)
  | .feed _ => []
  | .step => [machine.step]
  | .run => machine.advanceTrail machine.remainingSteps

/-- All steps that a sequence of calls takes. -/
def trail (machine : Machine) : List Call → List (Outcome × Machine)
  | [] => []
  | call :: calls => machine.callTrail call ++ (machine.call call).2.trail calls

@[simp]
theorem after_nil (machine : Machine) : machine.after [] = machine := rfl

@[simp]
theorem after_cons (machine : Machine) (call : Call) (calls : List Call) :
    machine.after (call :: calls) = (machine.call call).2.after calls := rfl

theorem steps_succ (machine : Machine) (count : Nat) :
    machine.steps (count + 1) = (machine.steps count).step.2 := rfl

/-- What each step keeps is kept by any number of them. -/
theorem steps_invariant {invariant : Machine → Prop} {machine : Machine}
    (step : ∀ machine, invariant machine → invariant machine.step.2) (holds : invariant machine)
    (count : Nat) : invariant (machine.steps count) := by
  induction count with
  | zero => exact holds
  | succ count ih => exact step _ ih

/-- What every step keeps, with the trail up to it, is kept by any number of
steps. -/
theorem advance_induction (invariant : List (Outcome × Machine) → Machine → Prop)
    (step : ∀ trail machine, invariant trail machine →
      invariant (trail ++ [machine.step]) machine.step.2)
    (count : Nat) (trail : List (Outcome × Machine)) {machine : Machine}
    (holds : invariant trail machine) :
    invariant (trail ++ machine.advanceTrail count) (machine.advance count) := by
  induction count generalizing trail machine with
  | zero => simpa [advanceTrail, advance] using holds
  | succ count ih =>
      unfold advanceTrail advance
      split
      · simpa using holds
      · have stepped := ih (trail ++ [machine.step]) (step trail machine holds)
        simpa using stepped

/-- What feeding and stepping keep, with the trail of steps so far, is kept by
every sequence of calls. -/
theorem calls_induction (invariant : List (Outcome × Machine) → Machine → Prop)
    (feed : ∀ trail machine bytes, invariant trail machine →
      invariant trail (machine.feed bytes))
    (step : ∀ trail machine, invariant trail machine →
      invariant (trail ++ [machine.step]) machine.step.2)
    (calls : List Call) (trail : List (Outcome × Machine)) {machine : Machine}
    (holds : invariant trail machine) :
    invariant (trail ++ machine.trail calls) (machine.after calls) := by
  induction calls generalizing trail machine with
  | nil => simpa [Machine.trail] using holds
  | cons call calls ih =>
      have called : invariant (trail ++ machine.callTrail call) (machine.call call).2 := by
        cases call with
        | feed bytes => simpa [callTrail, Machine.call] using feed trail machine bytes holds
        | step => exact step trail machine holds
        | run => exact advance_induction invariant step machine.remainingSteps trail holds
      simpa [Machine.trail] using ih (trail ++ machine.callTrail call) called

theorem calls_invariant {invariant : Machine → Prop} {machine : Machine}
    (feed : ∀ machine bytes, invariant machine → invariant (machine.feed bytes))
    (step : ∀ machine, invariant machine → invariant machine.step.2)
    (calls : List Call) (holds : invariant machine) : invariant (machine.after calls) :=
  calls_induction (fun _ machine => invariant machine) (fun _ => feed) (fun _ => step)
    calls [] holds

theorem Reachable.invariant {invariant : Machine → Prop} {machine : Machine}
    (reachable : machine.Reachable)
    (load : ∀ source options, invariant (load source options))
    (feed : ∀ machine bytes, invariant machine → invariant (machine.feed bytes))
    (step : ∀ machine, invariant machine → invariant machine.step.2) : invariant machine := by
  obtain ⟨source, options, calls, rfl⟩ := reachable
  exact calls_invariant feed step calls (load source options)

end Machine
end OneTape
