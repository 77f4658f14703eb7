import Mathlib.Logic.Function.Basic
import OneTape.Proofs.BracketDepth
import OneTape.Proofs.Calls

/-!
# The machine on an unbounded tape

Seen from the language, a tape is a byte at every integer address and nothing
else: there is no storage and no tracked range.  The next command is the first
one to the right of the program pointer, however far away it is, and a bracket
jumps to its partner wherever that is.

This file says what a machine on such a tape does, as a relation: a search that
never ends is a step that is never taken.  A machine takes each step in one way
only.
-/

namespace OneTape

/-- The byte at every address when a program stands on a blank tape. -/
def programCells (program : List UInt8) : Int → UInt8
  | .ofNat index => program[index]?.getD 0
  | .negSucc _ => 0

/-- What holds of the end of a program, and passes from each byte to the one
before it, holds from every address of the program on. -/
theorem suffix_induction {program : List UInt8} {motive : Int → List UInt8 → Prop}
    (nil : motive program.length [])
    (cons : ∀ (address : Int) byte rest, address < program.length →
      programCells program address = byte → motive (address + 1) rest →
      motive address (byte :: rest))
    (start : Nat) (within : start ≤ program.length) : motive start (program.drop start) := by
  induction remaining : program.length - start generalizing start with
  | zero =>
      have ended : start = program.length := by omega
      rw [ended, List.drop_length]
      exact nil
  | succ remaining ih =>
      have inside : start < program.length := by omega
      have here : programCells program start = program[start] := by
        change program[start]?.getD 0 = program[start]
        simp [inside]
      rw [List.drop_eq_getElem_cons inside]
      exact cons start _ _ (by omega) here (ih (start + 1) inside (by omega))

theorem programCells_of_length_le {program : List UInt8} {address : Int}
    (behind : program.length ≤ address) : programCells program address = 0 := by
  cases address with
  | ofNat index =>
      simp only [Int.ofNat_eq_natCast] at behind
      simp [programCells, Int.ofNat_le.mp behind]
  | negSucc index => omega

/-- Commands other than the stop command stand in the program. -/
theorem inside_of_command {program : List UInt8} {address : Int} {command : Command}
    (found : Command.ofByte? (programCells program address) = some command)
    (goesOn : command ≠ .stop) : 0 ≤ address ∧ address < program.length := by
  have nonzero : programCells program address ≠ 0 := by
    intro zero
    simp [zero, goesOn.symm] at found
  constructor
  · cases address with
    | ofNat index => exact Int.natCast_nonneg index
    | negSucc index => contradiction
  · by_cases inside : address < program.length
    · exact inside
    · exact absurd (programCells_of_length_le (by omega)) nonzero

structure UnboundedMachine where
  options : Options
  cells : Int → UInt8
  programPointer : Int := -1
  dataPointer : Int := 0
  input : List UInt8 := []
  output : List UInt8 := []
  diagnostics : List UInt8 := []
  stepCount : Nat := 0
  halt : Option Halt := none

/-- A command stands at an address, and none stands between a pointer and it. -/
structure IsNextCommand (cells : Int → UInt8) (pointer address : Int)
    (command : Command) : Prop where
  behind : pointer < address
  least : ∀ between, pointer < between → between < address →
    Command.ofByte? (cells between) = none
  command : Command.ofByte? (cells address) = some command

namespace UnboundedMachine

def load (source : List UInt8) (options : Options) : UnboundedMachine where
  options := options
  cells := programCells (loadedProgram source options)
  diagnostics := loadDiagnostics source options

def feed (machine : UnboundedMachine) (bytes : List UInt8) : UnboundedMachine :=
  { machine with input := machine.input ++ bytes }

def dataByte (machine : UnboundedMachine) : UInt8 :=
  machine.cells machine.dataPointer

def store (machine : UnboundedMachine) (value : UInt8) : UnboundedMachine :=
  { machine with cells := Function.update machine.cells machine.dataPointer value }

def fail (machine : UnboundedMachine) (fault : Fault) : UnboundedMachine :=
  { machine with
    diagnostics := machine.diagnostics ++ Utf8.encode fault.diagnostic.toList
    halt := some (.faulted fault) }

def reach (machine : UnboundedMachine) (address : Int) : UnboundedMachine :=
  { machine with programPointer := address, stepCount := machine.stepCount + 1 }

/-- What executing the command under the program pointer amounts to. -/
inductive Executes (machine : UnboundedMachine) :
    Command → Outcome → UnboundedMachine → Prop where
  | right :
      Executes machine .right (.executed .right)
        { machine with dataPointer := machine.dataPointer + 1 }
  | left :
      Executes machine .left (.executed .left)
        { machine with dataPointer := machine.dataPointer - 1 }
  | increment :
      Executes machine .increment (.executed .increment) (machine.store (machine.dataByte + 1))
  | decrement :
      Executes machine .decrement (.executed .decrement) (machine.store (machine.dataByte - 1))
  | enterLoop (nonzero : machine.dataByte ≠ 0) :
      Executes machine .openLoop (.executed .openLoop) machine
  | skipLoop {partner : Int} (zero : machine.dataByte = 0)
      (isPartner : IsPartner machine.cells .rightward machine.programPointer partner) :
      Executes machine .openLoop (.executed .openLoop) { machine with programPointer := partner }
  | unmatchedOpen (zero : machine.dataByte = 0)
      (alone : ∀ partner, ¬ IsPartner machine.cells .rightward machine.programPointer partner) :
      Executes machine .openLoop (.halted (.faulted .unmatchedOpen)) (machine.fail .unmatchedOpen)
  | leaveLoop (zero : machine.dataByte = 0) :
      Executes machine .closeLoop (.executed .closeLoop) machine
  | repeatLoop {partner : Int} (nonzero : machine.dataByte ≠ 0)
      (isPartner : IsPartner machine.cells .leftward machine.programPointer partner) :
      Executes machine .closeLoop (.executed .closeLoop) { machine with programPointer := partner }
  | unmatchedClose (nonzero : machine.dataByte ≠ 0)
      (alone : ∀ partner, ¬ IsPartner machine.cells .leftward machine.programPointer partner) :
      Executes machine .closeLoop (.halted (.faulted .unmatchedClose))
        (machine.fail .unmatchedClose)
  | input {byte : UInt8} {rest : List UInt8} (available : machine.input = byte :: rest) :
      Executes machine .input (.executed .input) ({ machine with input := rest }.store byte)
  | inputEnd (exhausted : machine.input = []) :
      Executes machine .input (.executed .input) (machine.store machine.options.endByte.toByte)
  | output :
      Executes machine .output (.executed .output)
        { machine with output := machine.output ++ [machine.dataByte] }
  | stop :
      Executes machine .stop (.halted .stopped) { machine with halt := some .stopped }

/-- A bracket that looks in a direction has to jump, given the byte under the data
pointer. -/
def Jumps (byte : UInt8) : Tape.Direction → Prop
  | .rightward => byte = 0
  | .leftward => byte ≠ 0

theorem Executes.jump {machine : UnboundedMachine} {direction : Tape.Direction} {partner : Int}
    (jumps : Jumps machine.dataByte direction)
    (isPartner : IsPartner machine.cells direction machine.programPointer partner) :
    machine.Executes direction.bracket (.executed direction.bracket)
      { machine with programPointer := partner } := by
  cases direction with
  | rightward => exact .skipLoop jumps isPartner
  | leftward => exact .repeatLoop jumps isPartner

theorem Executes.unmatched {machine : UnboundedMachine} {direction : Tape.Direction}
    (jumps : Jumps machine.dataByte direction)
    (alone : ∀ partner, ¬ IsPartner machine.cells direction machine.programPointer partner) :
    machine.Executes direction.bracket (.halted (.faulted (Machine.unmatched direction)))
      (machine.fail (Machine.unmatched direction)) := by
  cases direction with
  | rightward => exact .unmatchedOpen jumps alone
  | leftward => exact .unmatchedClose jumps alone

inductive Step (machine : UnboundedMachine) : Outcome → UnboundedMachine → Prop where
  | idle {reason : Halt} (halted : machine.halt = some reason) : Step machine .idle machine
  | limitExceeded (running : machine.halt = none)
      (exceeded : machine.options.limit < machine.stepCount + 1) :
      Step machine (.halted (.faulted .limitExceeded))
        ({ machine with stepCount := machine.stepCount + 1 }.fail .limitExceeded)
  | command {address : Int} {command : Command} {outcome : Outcome} {next : UnboundedMachine}
      (running : machine.halt = none)
      (allowed : machine.stepCount + 1 ≤ machine.options.limit)
      (found : IsNextCommand machine.cells machine.programPointer address command)
      (executes : Executes (machine.reach address) command outcome next) :
      Step machine outcome next

/-- Taking steps until the machine halts, for some reason. -/
inductive Completes : UnboundedMachine → Halt → UnboundedMachine → Prop where
  | halted {machine : UnboundedMachine} {reason : Halt} (halted : machine.halt = some reason) :
      Completes machine reason machine
  | step {machine next final : UnboundedMachine} {outcome : Outcome} {reason : Halt}
      (running : machine.halt = none) (step : Step machine outcome next)
      (rest : Completes next reason final) : Completes machine reason final

/-- The response to a call, and the machine after it. -/
inductive Answers (machine : UnboundedMachine) : Call → Response → UnboundedMachine → Prop where
  | feed (bytes : List UInt8) : Answers machine (.feed bytes) .fed (machine.feed bytes)
  | step {outcome : Outcome} {next : UnboundedMachine} (step : Step machine outcome next) :
      Answers machine .step (.stepped outcome) next
  | run {reason : Halt} {final : UnboundedMachine} (completes : Completes machine reason final) :
      Answers machine .run (.completed reason) final

/-- The responses to a sequence of calls, and the machine after each of them. -/
inductive History :
    UnboundedMachine → List Call → List (Response × UnboundedMachine) → Prop where
  | nil {machine : UnboundedMachine} : History machine [] []
  | cons {machine next : UnboundedMachine} {call : Call} {response : Response}
      {calls : List Call} {history : List (Response × UnboundedMachine)}
      (answers : Answers machine call response next) (rest : History next calls history) :
      History machine (call :: calls) ((response, next) :: history)

end UnboundedMachine

theorem IsNextCommand.unique {cells : Int → UInt8} {pointer first second : Int}
    {firstCommand secondCommand : Command}
    (isFirst : IsNextCommand cells pointer first firstCommand)
    (isSecond : IsNextCommand cells pointer second secondCommand) :
    first = second ∧ firstCommand = secondCommand := by
  rcases Int.lt_trichotomy first second with before | rfl | behind
  · have none := isSecond.least first isFirst.behind before
    simp [isFirst.command] at none
  · exact ⟨rfl, Option.some.inj (isFirst.command.symm.trans isSecond.command)⟩
  · have none := isFirst.least second isSecond.behind behind
    simp [isSecond.command] at none

namespace UnboundedMachine

variable {machine firstNext secondNext : UnboundedMachine}
  {firstOutcome secondOutcome : Outcome}

theorem Executes.deterministic {command : Command}
    (first : Executes machine command firstOutcome firstNext)
    (second : Executes machine command secondOutcome secondNext) :
    firstOutcome = secondOutcome ∧ firstNext = secondNext := by
  cases first with
  | right | left | increment | decrement | output | stop =>
      cases second
      exact ⟨rfl, rfl⟩
  | enterLoop nonzero =>
      cases second with
      | enterLoop => exact ⟨rfl, rfl⟩
      | skipLoop zero | unmatchedOpen zero => contradiction
  | skipLoop zero isPartner =>
      cases second with
      | enterLoop nonzero => contradiction
      | skipLoop _ isOther => exact ⟨rfl, by rw [isPartner.unique isOther]⟩
      | unmatchedOpen _ alone => exact absurd isPartner (alone _)
  | unmatchedOpen zero alone =>
      cases second with
      | enterLoop nonzero => contradiction
      | skipLoop _ isPartner => exact absurd isPartner (alone _)
      | unmatchedOpen => exact ⟨rfl, rfl⟩
  | leaveLoop zero =>
      cases second with
      | leaveLoop => exact ⟨rfl, rfl⟩
      | repeatLoop nonzero | unmatchedClose nonzero => contradiction
  | repeatLoop nonzero isPartner =>
      cases second with
      | leaveLoop zero => contradiction
      | repeatLoop _ isOther => exact ⟨rfl, by rw [isPartner.unique isOther]⟩
      | unmatchedClose _ alone => exact absurd isPartner (alone _)
  | unmatchedClose nonzero alone =>
      cases second with
      | leaveLoop zero => contradiction
      | repeatLoop _ isPartner => exact absurd isPartner (alone _)
      | unmatchedClose => exact ⟨rfl, rfl⟩
  | input available =>
      cases second with
      | input alsoAvailable =>
          obtain ⟨rfl, rfl⟩ := List.cons.inj (available.symm.trans alsoAvailable)
          exact ⟨rfl, rfl⟩
      | inputEnd exhausted => simp [available] at exhausted
  | inputEnd exhausted =>
      cases second with
      | input available => simp [available] at exhausted
      | inputEnd => exact ⟨rfl, rfl⟩

theorem Step.deterministic (first : Step machine firstOutcome firstNext)
    (second : Step machine secondOutcome secondNext) :
    firstOutcome = secondOutcome ∧ firstNext = secondNext := by
  cases first with
  | idle halted =>
      cases second with
      | idle => exact ⟨rfl, rfl⟩
      | limitExceeded running | command running => simp [halted] at running
  | limitExceeded running exceeded =>
      cases second with
      | idle halted => simp [halted] at running
      | limitExceeded => exact ⟨rfl, rfl⟩
      | command _ allowed => omega
  | command running allowed found executes =>
      cases second with
      | idle halted => simp [halted] at running
      | limitExceeded _ exceeded => omega
      | command _ _ alsoFound alsoExecutes =>
          obtain ⟨rfl, rfl⟩ := found.unique alsoFound
          exact executes.deterministic alsoExecutes

theorem Completes.deterministic {firstReason secondReason : Halt}
    (first : Completes machine firstReason firstNext)
    (second : Completes machine secondReason secondNext) :
    firstReason = secondReason ∧ firstNext = secondNext := by
  induction first with
  | halted halted =>
      cases second with
      | halted alsoHalted => exact ⟨Option.some.inj (halted.symm.trans alsoHalted), rfl⟩
      | step running => simp [halted] at running
  | step running step rest ih =>
      cases second with
      | halted halted => simp [halted] at running
      | step _ alsoStep alsoRest =>
          obtain ⟨-, rfl⟩ := step.deterministic alsoStep
          exact ih alsoRest

theorem Answers.deterministic {call : Call} {firstResponse secondResponse : Response}
    (first : Answers machine call firstResponse firstNext)
    (second : Answers machine call secondResponse secondNext) :
    firstResponse = secondResponse ∧ firstNext = secondNext := by
  cases first with
  | feed bytes =>
      cases second
      exact ⟨rfl, rfl⟩
  | step step =>
      cases second with
      | step alsoStep =>
          obtain ⟨rfl, rfl⟩ := step.deterministic alsoStep
          exact ⟨rfl, rfl⟩
  | run completes =>
      cases second with
      | run alsoCompletes =>
          obtain ⟨rfl, rfl⟩ := completes.deterministic alsoCompletes
          exact ⟨rfl, rfl⟩

theorem History.deterministic {calls : List Call}
    {firstHistory secondHistory : List (Response × UnboundedMachine)}
    (first : History machine calls firstHistory)
    (second : History machine calls secondHistory) : firstHistory = secondHistory := by
  induction first generalizing secondHistory with
  | nil =>
      cases second
      rfl
  | cons answers rest ih =>
      cases second with
      | cons alsoAnswers alsoRest =>
          obtain ⟨rfl, rfl⟩ := answers.deterministic alsoAnswers
          rw [ih alsoRest]

end UnboundedMachine
end OneTape
