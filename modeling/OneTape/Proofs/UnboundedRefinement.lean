import Mathlib.Data.List.Forall2
import OneTape.Proofs.SoundMachine
import OneTape.Proofs.UnboundedMachine

/-!
# Machines behave as on an unbounded tape

Forgetting storage and watermarks turns a machine into one on an unbounded
tape.  Every step of the machine is then a step on the unbounded tape: the
search for the next command stops where the first command is, and the search
for a partner misses none, although it is bounded by the watermarks.  So a user
who makes any calls gets the responses of the unbounded machine and sees its
state, except that a bracket without partner takes the program pointer out of
the tracked range.
-/

namespace OneTape

theorem get_ofProgram (program : List UInt8) :
    (Tape.ofProgram program).get = programCells program := by
  funext address
  unfold Tape.get ByteRow.read
  simp only [Tape.ofProgram, ByteRow.ofList, Int.sub_zero]
  cases address <;> simp [ByteRow.cell, programCells]

namespace Machine

/-- A machine without its storage and its tracked range. -/
def idealize (machine : Machine) : UnboundedMachine where
  options := machine.options
  cells := machine.tape.get
  programPointer := machine.programPointer
  dataPointer := machine.dataPointer
  input := machine.input.unread
  output := machine.output.unread
  diagnostics := machine.diagnostics.unread
  stepCount := machine.stepCount
  halt := machine.halt

/-- A machine is in the state of an unbounded one, as far as both have a state.
The program pointer is left out once a bracket without partner has been met. -/
structure Agrees (machine : Machine) (ideal : UnboundedMachine) : Prop where
  options : machine.options = ideal.options
  cells : ∀ address, machine.tape.get address = ideal.cells address
  dataPointer : machine.dataPointer = ideal.dataPointer
  input : machine.input.unread = ideal.input
  output : machine.output.unread = ideal.output
  diagnostics : machine.diagnostics.unread = ideal.diagnostics
  stepCount : machine.stepCount = ideal.stepCount
  halt : machine.halt = ideal.halt
  programPointer : machine.halt ≠ some (.faulted .unmatchedOpen) →
    machine.halt ≠ some (.faulted .unmatchedClose) →
      machine.programPointer = ideal.programPointer

theorem agrees_idealize (machine : Machine) : machine.Agrees machine.idealize := by
  constructor <;> intros <;> rfl

theorem Agrees.eq_idealize {machine : Machine} {ideal : UnboundedMachine}
    (agrees : machine.Agrees ideal)
    (notOpen : machine.halt ≠ some (.faulted .unmatchedOpen))
    (notClose : machine.halt ≠ some (.faulted .unmatchedClose)) :
    ideal = machine.idealize := by
  have cells : ideal.cells = machine.tape.get := (funext agrees.cells).symm
  cases ideal
  simp only [idealize, UnboundedMachine.mk.injEq]
  exact ⟨agrees.options.symm, cells, (agrees.programPointer notOpen notClose).symm,
    agrees.dataPointer.symm, agrees.input.symm, agrees.output.symm,
    agrees.diagnostics.symm, agrees.stepCount.symm, agrees.halt.symm⟩

theorem agrees_load (source : List UInt8) (options : Options) :
    (load source options).Agrees (UnboundedMachine.load source options) := by
  have tape := tape_load source options
  have diagnostics := diagnostics_load source options
  constructor
  case cells =>
    intro address
    rw [tape, get_ofProgram]
    rfl
  case diagnostics => exact diagnostics
  all_goals
    obtain ⟨_, _, fresh⟩ := load_fresh source options
    rw [fresh]
    intros
    rfl

section Idealize

variable (machine : Machine)

@[simp]
theorem dataByte_idealize : machine.idealize.dataByte = machine.dataByte := rfl

@[simp]
theorem idealize_complete (command : Command) :
    (machine.complete command).2.idealize = machine.idealize := by
  have cells : (machine.tape.touch machine.dataPointer).get = machine.tape.get :=
    funext fun address => Tape.get_touch machine.tape machine.dataPointer address
  simp only [complete, idealize, cells]

theorem agrees_complete (command : Command) :
    (machine.complete command).2.Agrees machine.idealize := by
  rw [← idealize_complete machine command]
  exact agrees_idealize _

theorem idealize_store (value : UInt8) :
    { machine with tape := machine.tape.set machine.dataPointer value }.idealize =
      machine.idealize.store value := by
  have cells : (machine.tape.set machine.dataPointer value).get =
      Function.update machine.tape.get machine.dataPointer value := by
    funext address
    rw [Tape.get_set, Function.update_apply]
  simp only [idealize, UnboundedMachine.store, cells]

theorem idealize_fetch :
    machine.fetch.2.idealize =
      { machine.idealize with programPointer := machine.fetch.2.programPointer } := by
  have cells : machine.fetch.2.tape.get = machine.tape.get := funext machine.get_fetch
  simp only [idealize, cells]
  rfl

theorem isNextCommand_fetch :
    IsNextCommand machine.tape.get machine.programPointer machine.fetch.2.programPointer
      machine.fetch.1 := by
  refine ⟨machine.tape.lt_nextCommand machine.programPointer, ?_,
    machine.tape.commandAt?_nextCommand machine.programPointer⟩
  intro between behind before
  exact machine.tape.commandAt?_eq_none_of_lt_firstCommand _ (by omega) before

end Idealize

theorem idealize_fail {machine : Machine} (sound : machine.Sound) (fault : Fault) :
    (machine.fail fault).2.idealize = machine.idealize.fail fault := by
  have diagnostics := ByteQueue.unread_append sound.diagnostics
    (Utf8.encode fault.diagnostic.toList)
  simp only [fail, finish, idealize, UnboundedMachine.fail, ByteQueue.appendText, diagnostics]

theorem idealize_push {machine : Machine} (sound : machine.Sound) (byte : UInt8) :
    { machine with output := machine.output.push byte }.idealize =
      { machine.idealize with output := machine.idealize.output ++ [byte] } := by
  simp only [idealize, ByteQueue.unread_push sound.output]

theorem agrees_fail {machine : Machine} (sound : machine.Sound) (address : Int)
    (direction : Tape.Direction) :
    ({ machine with programPointer := address }.fail (unmatched direction)).2.Agrees
      (machine.idealize.fail (unmatched direction)) := by
  rw [← idealize_fail sound]
  constructor
  case programPointer =>
    intro notOpen notClose
    cases direction with
    | rightward => exact absurd rfl notOpen
    | leftward => exact absurd rfl notClose
  all_goals
    intros
    rfl

section Execute

variable {machine : Machine}

theorem jump_refines (sound : machine.Sound) (direction : Tape.Direction)
    (current : machine.currentCommand? = some direction.bracket)
    (jumps : UnboundedMachine.Jumps machine.dataByte direction) :
    ∃ next, machine.idealize.Executes direction.bracket (machine.jump direction).1 next ∧
      (machine.jump direction).2.Agrees next := by
  unfold jump
  split
  · rename_i partner found
    have isPartner := Tape.isPartner_of_partner?_eq_some found current
    exact ⟨_, .jump jumps isPartner,
      agrees_complete { machine with programPointer := partner } _⟩
  · rename_i missing
    have alone := Tape.not_isPartner_of_partner?_eq_none missing current sound.blank
    exact ⟨_, .unmatched jumps alone, agrees_fail sound _ direction⟩

theorem input_refines :
    ∃ next, machine.idealize.Executes .input (machine.execute .input).1 next ∧
      (machine.execute .input).2.Agrees next := by
  cases unread : machine.input.unread with
  | nil =>
      refine ⟨_, .inputEnd unread, ?_⟩
      rw [← idealize_store]
      have exhausted := ByteQueue.shift_of_unread_nil unread
      simp only [execute, takeInput, exhausted, Option.getD_none]
      exact agrees_complete _ _
  | cons byte rest =>
      refine ⟨_, .input unread, ?_⟩
      obtain ⟨taken, remaining, -⟩ := ByteQueue.shift_of_unread_cons unread
      have ideal : { machine with input := machine.input.shift.2 }.idealize =
          { machine.idealize with input := rest } := by
        simp only [idealize, remaining]
      rw [← ideal, ← idealize_store]
      simp only [execute, takeInput, taken, Option.getD_some]
      exact agrees_complete _ _

theorem execute_refines (sound : machine.Sound) {command : Command}
    (current : machine.currentCommand? = some command) :
    ∃ next, machine.idealize.Executes command (machine.execute command).1 next ∧
      (machine.execute command).2.Agrees next := by
  cases command with
  | right => exact ⟨_, .right, agrees_complete { machine with dataPointer := _ } _⟩
  | left => exact ⟨_, .left, agrees_complete { machine with dataPointer := _ } _⟩
  | increment =>
      refine ⟨_, .increment, ?_⟩
      rw [← idealize_store]
      exact agrees_complete _ _
  | decrement =>
      refine ⟨_, .decrement, ?_⟩
      rw [← idealize_store]
      exact agrees_complete _ _
  | openLoop =>
      by_cases zero : machine.dataByte = 0
      · rw [execute, if_pos zero]
        exact jump_refines sound .rightward current zero
      · rw [execute, if_neg zero]
        exact ⟨machine.idealize, .enterLoop zero, agrees_complete _ _⟩
  | closeLoop =>
      by_cases zero : machine.dataByte = 0
      · rw [execute, if_pos zero]
        exact ⟨machine.idealize, .leaveLoop zero, agrees_complete _ _⟩
      · rw [execute, if_neg zero]
        exact jump_refines sound .leftward current zero
  | input => exact input_refines
  | output =>
      refine ⟨_, .output, ?_⟩
      rw [dataByte_idealize, ← idealize_push sound]
      exact agrees_complete _ _
  | stop => exact ⟨_, .stop, agrees_idealize _⟩

end Execute

theorem step_refines {machine : Machine} (sound : machine.Sound) :
    ∃ next, machine.idealize.Step machine.step.1 next ∧ machine.step.2.Agrees next := by
  cases status : machine.halt with
  | some reason =>
      refine ⟨machine.idealize, ?_⟩
      rw [step_of_halted (isHalted_of_halt status)]
      exact ⟨.idle status, machine.agrees_idealize⟩
  | none =>
      have counted : { machine with stepCount := machine.stepCount + 1 }.Sound :=
        ⟨sound.blank, sound.input, sound.output, sound.diagnostics⟩
      rw [step, if_neg (by simp [isHalted, status])]
      dsimp only
      split
      · rename_i exceeded
        refine ⟨_, .limitExceeded status exceeded, ?_⟩
        have failed := agrees_idealize
          ({ machine with stepCount := machine.stepCount + 1 }.fail .limitExceeded).2
        rwa [idealize_fail counted] at failed
      · rename_i allowed
        have found := isNextCommand_fetch { machine with stepCount := machine.stepCount + 1 }
        have current :=
          currentCommand?_fetch { machine with stepCount := machine.stepCount + 1 }
        obtain ⟨next, executes, agrees⟩ := execute_refines counted.fetch current
        rw [idealize_fetch] at executes
        exact ⟨next, .command status (Nat.le_of_not_lt allowed) found executes, agrees⟩

section Agreement

variable {machine : Machine} {ideal : UnboundedMachine}

theorem Agrees.eq_of_running (agrees : machine.Agrees ideal) (running : machine.halt = none) :
    ideal = machine.idealize :=
  agrees.eq_idealize (by simp [running]) (by simp [running])

theorem Agrees.feed (agrees : machine.Agrees ideal) (sound : machine.Sound)
    (bytes : List UInt8) : (machine.feed bytes).Agrees (ideal.feed bytes) := by
  have appended := ByteQueue.unread_append sound.input bytes
  refine { agrees with input := ?_ }
  rw [agrees.input] at appended
  exact appended

theorem Agrees.step (agrees : machine.Agrees ideal) (sound : machine.Sound) :
    ∃ next, ideal.Step machine.step.1 next ∧ machine.step.2.Agrees next := by
  cases status : machine.halt with
  | some reason =>
      rw [step_of_halted (isHalted_of_halt status)]
      exact ⟨ideal, .idle (agrees.halt ▸ status), agrees⟩
  | none =>
      rw [agrees.eq_of_running status]
      exact step_refines sound

/-- Steps up to a halt are a complete run on the unbounded tape. -/
theorem Agrees.advance (agrees : machine.Agrees ideal) (sound : machine.Sound) (count : Nat)
    {reason : Halt} (halted : (machine.advance count).halt = some reason) :
    ∃ final, ideal.Completes reason final ∧ (machine.advance count).Agrees final := by
  induction count generalizing machine ideal with
  | zero =>
      rw [Machine.advance] at halted ⊢
      exact ⟨ideal, .halted (agrees.halt ▸ halted), agrees⟩
  | succ count ih =>
      cases status : machine.halt with
      | some other =>
          rw [advance_of_halted (isHalted_of_halt status)] at halted ⊢
          exact ⟨ideal, .halted (agrees.halt ▸ halted), agrees⟩
      | none =>
          have running : ¬ machine.isHalted := by simp [isHalted, status]
          rw [Machine.advance, if_neg running] at halted ⊢
          obtain ⟨next, stepped, stepAgrees⟩ := agrees.step sound
          obtain ⟨final, completes, finalAgrees⟩ := ih stepAgrees sound.step halted
          exact ⟨final, .step (agrees.halt ▸ status) stepped completes, finalAgrees⟩

/-- A run ends where the complete run on the unbounded tape does. -/
theorem Agrees.run (agrees : machine.Agrees ideal) (sound : machine.Sound) {reason : Halt}
    {final : UnboundedMachine} (completes : ideal.Completes reason final) :
    machine.run.Agrees final := by
  obtain ⟨actual, actually, same⟩ :=
    agrees.advance sound machine.remainingSteps machine.halt_run
  obtain ⟨-, rfl⟩ := completes.deterministic actually
  exact same

theorem Agrees.call (agrees : machine.Agrees ideal) (sound : machine.Sound) (call : Call) :
    ∃ next, ideal.Answers call (machine.call call).1 next ∧
      (machine.call call).2.Agrees next := by
  cases call with
  | feed bytes => exact ⟨ideal.feed bytes, .feed bytes, agrees.feed sound bytes⟩
  | step =>
      obtain ⟨next, stepped, stepAgrees⟩ := agrees.step sound
      exact ⟨next, .step stepped, stepAgrees⟩
  | run =>
      obtain ⟨final, completes, finalAgrees⟩ :=
        agrees.advance sound machine.remainingSteps machine.halt_run
      exact ⟨final, .run completes, finalAgrees⟩

/-- A response and the machine after it are the same on both tapes. -/
def SameAnswer (actual : Response × Machine) (ideal : Response × UnboundedMachine) : Prop :=
  actual.1 = ideal.1 ∧ actual.2.Agrees ideal.2

theorem Agrees.history (agrees : machine.Agrees ideal) (sound : machine.Sound)
    (calls : List Call) :
    ∃ history, ideal.History calls history ∧
      List.Forall₂ SameAnswer (machine.history calls) history := by
  induction calls generalizing machine ideal with
  | nil => exact ⟨[], .nil, .nil⟩
  | cons call calls ih =>
      obtain ⟨next, answers, nextAgrees⟩ := agrees.call sound call
      obtain ⟨history, rest, same⟩ := ih nextAgrees (sound.after [call])
      exact ⟨_, .cons answers rest, .cons ⟨rfl, nextAgrees⟩ same⟩

end Agreement

/-- Whatever calls are made, an unbounded machine for the same source can answer
them, and all that it can answer, call by call, is what the machine answers. -/
theorem history_agrees_unbounded (source : List UInt8) (options : Options)
    (calls : List Call) :
    (load source options).Agrees (UnboundedMachine.load source options) ∧
      (∃ history, (UnboundedMachine.load source options).History calls history) ∧
      ∀ history, (UnboundedMachine.load source options).History calls history →
        List.Forall₂ SameAnswer ((load source options).history calls) history := by
  have agrees := agrees_load source options
  obtain ⟨expected, possible, same⟩ := agrees.history (sound_load source options) calls
  refine ⟨agrees, ⟨expected, possible⟩, ?_⟩
  intro history answered
  rw [answered.deterministic possible]
  exact same

end Machine
end OneTape
