import OneTape.Proofs.RunsAsSteps

/-!
# Refitted machines

A machine is refitted by giving it other options and another input.  Few things
depend on these: the limit is looked at before a step is taken, and the end byte
and the input are looked at by the input command.  So refitting before a step
comes to the same as refitting after it, as long as the limit allows the step
either way and an input command takes the same byte.
-/

namespace OneTape
namespace Machine

def refit (options : Options → Options) (input : ByteQueue → ByteQueue) (machine : Machine) :
    Machine :=
  { machine with options := options machine.options, input := input machine.input }

theorem load_refit (source : List UInt8) (change : Options → Options) {options : Options}
    (escapes : (change options).decodeEscapes = options.decodeEscapes) :
    load source (change options) = (load source options).refit change id := by
  unfold load
  rw [escapes]
  split
  · cases SourceEscape.decode source <;> rfl
  · rfl

section Refit

variable (options : Options → Options) (input : ByteQueue → ByteQueue) (machine : Machine)

theorem counted_refit :
    (machine.refit options input).counted = machine.counted.refit options input := rfl

theorem fetch_refit :
    (machine.refit options input).fetch =
      (machine.fetch.1, machine.fetch.2.refit options input) := rfl

theorem fail_refit (fault : Fault) :
    (machine.refit options input).fail fault =
      ((machine.fail fault).1, (machine.fail fault).2.refit options input) := rfl

theorem jump_refit (direction : Tape.Direction) :
    (machine.refit options input).jump direction =
      ((machine.jump direction).1, (machine.jump direction).2.refit options input) := by
  unfold jump
  simp only [refit]
  split <;> rfl

/-- The input command takes the same byte after refitting as before. -/
structure SameTake : Prop where
  byte : (input machine.input).shift.1.getD (options machine.options).endByte.toByte =
    machine.input.shift.1.getD machine.options.endByte.toByte
  rest : (input machine.input).shift.2 = input machine.input.shift.2

variable {options input machine}

theorem takeInput_refit (taken : SameTake options input machine) :
    (machine.refit options input).takeInput =
      (machine.takeInput.1, machine.takeInput.2.refit options input) := by
  simp only [takeInput, refit, taken.byte, taken.rest]

theorem execute_refit (command : Command)
    (taken : command = .input → SameTake options input machine) :
    (machine.refit options input).execute command =
      ((machine.execute command).1, (machine.execute command).2.refit options input) := by
  have sameByte : (machine.refit options input).dataByte = machine.dataByte := rfl
  cases command with
  | openLoop | closeLoop =>
      unfold execute
      simp only [sameByte, jump_refit]
      split <;> rfl
  | input =>
      simp only [execute, takeInput_refit (taken rfl)]
      rfl
  | _ => rfl

theorem step_refit
    (allows : machine.halt = none → ((options machine.options).limit ≤ machine.stepCount ↔
      machine.options.limit ≤ machine.stepCount))
    (taken : machine.step.1 = .executed .input → SameTake options input machine) :
    (machine.refit options input).step =
      (machine.step.1, machine.step.2.refit options input) := by
  cases status : machine.halt with
  | some reason =>
      have halted := isHalted_of_halt status
      rw [step_of_halted halted]
      exact step_of_halted halted
  | none =>
      have refitStatus : (machine.refit options input).halt = none := status
      by_cases exceeded : machine.options.limit ≤ machine.stepCount
      · rw [step_of_exceeded status exceeded,
          step_of_exceeded refitStatus ((allows status).mpr exceeded)]
        rw [counted_refit, fail_refit]
      · have allowed := Nat.not_le.mp exceeded
        have refitAllowed := Nat.not_le.mp (mt (allows status).mp exceeded)
        rw [step_of_allowed status allowed] at taken
        have sameTake : machine.fetch.1 = .input →
            SameTake options input machine.counted.fetch.2 := by
          intro isInput
          rw [isInput] at taken
          exact ⟨(taken rfl).byte, (taken rfl).rest⟩
        rw [step_of_allowed status allowed, step_of_allowed refitStatus refitAllowed]
        simp only [counted_refit, fetch_refit]
        exact execute_refit machine.fetch.1 sameTake

end Refit
end Machine
end OneTape
