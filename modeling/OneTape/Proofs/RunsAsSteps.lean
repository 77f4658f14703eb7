import Mathlib.Data.Nat.Find
import OneTape.Proofs.Calls

/-!
# Runs as steps

A run takes the steps that could also be taken one by one.  It may be broken off
after any number of steps and taken up again, and ends in the same state.  How
many steps it takes is told by the step count, which goes past the limit only if
the limit is what ends the run.

A machine that has halted stays as it is.  It still accepts input, and never
uses it.
-/

namespace OneTape
namespace ByteQueue

@[simp]
theorem append_nil (queue : ByteQueue) : queue.append [] = queue := by
  simp [append]

@[simp]
theorem append_append (queue : ByteQueue) (first second : List UInt8) :
    (queue.append first).append second = queue.append (first ++ second) := by
  have buffers : queue.buffer ++ first ++ second = queue.buffer ++ (first ++ second) := by
    apply Array.toList_inj.mp
    simp
  simp only [append, buffers]

end ByteQueue

namespace Machine

section Step

variable {machine : Machine}

/-- The outcome of a command tells how the machine is left: running, or halted
for a reason other than the limit. -/
inductive Announces : Outcome × Machine → Prop where
  | running {command : Command} {next : Machine} (running : next.halt = none) :
      Announces (.executed command, next)
  | halted {reason : Halt} {next : Machine} (halted : next.halt = some reason)
      (notLimit : reason ≠ .faulted .limitExceeded) : Announces (.halted reason, next)

theorem announces_jump (running : machine.halt = none) (direction : Tape.Direction) :
    Announces (machine.jump direction) := by
  unfold jump
  split
  · exact .running running
  · exact .halted rfl (by cases direction <;> decide)

theorem announces_execute (running : machine.halt = none) (command : Command) :
    Announces (machine.execute command) := by
  cases command with
  | openLoop =>
      unfold execute
      dsimp only
      split
      · exact announces_jump running _
      · exact .running running
  | closeLoop =>
      unfold execute
      dsimp only
      split
      · exact .running running
      · exact announces_jump running _
  | stop => exact .halted rfl (by decide)
  | _ => exact .running running

theorem Announces.outcome {result : Outcome × Machine} (announces : Announces result) :
    (∃ command, result.1 = .executed command ∧ result.2.halt = none) ∨
      ∃ reason, result.1 = .halted reason ∧ result.2.halt = some reason := by
  cases announces with
  | running running => exact .inl ⟨_, rfl, running⟩
  | halted halted => exact .inr ⟨_, rfl, halted⟩

theorem Announces.notLimit {result : Outcome × Machine} (announces : Announces result) :
    result.2.halt ≠ some (.faulted .limitExceeded) := by
  cases announces with
  | running running => simp [running]
  | halted halted notLimit => simpa [halted] using notLimit

theorem announces_step (running : machine.halt = none)
    (allowed : machine.stepCount < machine.options.limit) : Announces machine.step := by
  have fetched : machine.counted.fetch.2.halt = none := running
  rw [step_of_allowed running allowed]
  exact announces_execute fetched machine.fetch.1

theorem step_outcome (running : machine.halt = none) :
    (∃ command, machine.step.1 = .executed command ∧ machine.step.2.halt = none) ∨
      ∃ reason, machine.step.1 = .halted reason ∧ machine.step.2.halt = some reason := by
  by_cases allowed : machine.stepCount < machine.options.limit
  · exact (announces_step running allowed).outcome
  · rw [step_of_exceeded running (Nat.le_of_not_lt allowed)]
    exact .inr ⟨_, rfl, rfl⟩

theorem limitExceeded_step_iff (running : machine.halt = none) :
    machine.step.2.halt = some (.faulted .limitExceeded) ↔
      machine.options.limit ≤ machine.stepCount := by
  by_cases allowed : machine.stepCount < machine.options.limit
  · exact iff_of_false (announces_step running allowed).notLimit (Nat.not_le.mpr allowed)
  · have exceeded := Nat.le_of_not_lt allowed
    rw [step_of_exceeded running exceeded]
    exact iff_of_true rfl exceeded

end Step

section Limit

/-- The step count exceeds the limit by one if the limit has ended the run, and
not at all otherwise. -/
structure WithinLimit (machine : Machine) : Prop where
  bound : machine.stepCount ≤ machine.options.limit + 1
  exceeds : machine.stepCount = machine.options.limit + 1 ↔
    machine.halt = some (.faulted .limitExceeded)

theorem withinLimit_load (source : List UInt8) (options : Options) :
    (load source options).WithinLimit := by
  obtain ⟨_, _, fresh⟩ := load_fresh source options
  rw [fresh]
  exact ⟨Nat.zero_le _, by simp⟩

theorem WithinLimit.feed {machine : Machine} (within : machine.WithinLimit)
    (bytes : List UInt8) : (machine.feed bytes).WithinLimit :=
  ⟨within.bound, within.exceeds⟩

theorem WithinLimit.le_of_running {machine : Machine} (within : machine.WithinLimit)
    (running : machine.halt = none) : machine.stepCount ≤ machine.options.limit := by
  have notYet : machine.stepCount ≠ machine.options.limit + 1 := by
    rw [Ne, within.exceeds, running]
    simp
  have bound := within.bound
  omega

theorem WithinLimit.step {machine : Machine} (within : machine.WithinLimit) :
    machine.step.2.WithinLimit := by
  cases status : machine.halt with
  | some reason =>
      rw [step_of_halted (isHalted_of_halt status)]
      exact within
  | none =>
      have allowed := within.le_of_running status
      have count : machine.step.2.stepCount = machine.stepCount + 1 :=
        stepCount_step (isHalted_eq_false status)
      constructor
      · rw [options_step, count]
        omega
      · rw [options_step, count, limitExceeded_step_iff status]
        omega

theorem Reachable.withinLimit {machine : Machine} (reachable : machine.Reachable) :
    machine.WithinLimit :=
  reachable.invariant withinLimit_load (fun _ bytes within => within.feed bytes)
    fun _ within => within.step

end Limit

section Steps

variable {machine : Machine}

theorem steps_add (machine : Machine) (first second : Nat) :
    machine.steps (first + second) = (machine.steps first).steps second := by
  induction second with
  | zero => rfl
  | succ second ih => rw [← Nat.add_assoc, steps_succ, ih, ← steps_succ]

theorem options_steps (machine : Machine) (count : Nat) :
    (machine.steps count).options = machine.options := by
  induction count with
  | zero => rfl
  | succ count ih => rw [steps_succ, options_step, ih]

theorem WithinLimit.steps (within : machine.WithinLimit) (count : Nat) :
    (machine.steps count).WithinLimit :=
  steps_invariant (fun _ within => within.step) within count

theorem steps_of_halted (halted : machine.isHalted) (count : Nat) :
    machine.steps count = machine := by
  induction count with
  | zero => rfl
  | succ count ih => rw [steps_succ, ih, step_of_halted halted]

theorem advance_eq_steps (machine : Machine) (count : Nat) :
    machine.advance count = machine.steps count := by
  induction count generalizing machine with
  | zero => rfl
  | succ count ih =>
      unfold advance
      split
      · rename_i halted
        exact (steps_of_halted halted _).symm
      · rw [ih, Nat.add_comm, steps_add]
        rfl

theorem stepCount_steps {count : Nat}
    (running : ∀ index < count, (machine.steps index).halt = none) :
    (machine.steps count).stepCount = machine.stepCount + count := by
  induction count with
  | zero => rfl
  | succ count ih =>
      have last := running count (Nat.lt_succ_self count)
      rw [steps_succ, stepCount_step (isHalted_eq_false last)]
      rw [ih fun index before => running index (by omega)]
      omega

/-- Two numbers of steps that both lead to a halt lead to the same machine. -/
theorem steps_eq_steps {first second : Nat} (firstHalted : (machine.steps first).isHalted)
    (secondHalted : (machine.steps second).isHalted) :
    machine.steps first = machine.steps second := by
  rcases Nat.le_total first second with shorter | longer
  · obtain ⟨more, rfl⟩ := Nat.exists_eq_add_of_le shorter
    rw [steps_add, steps_of_halted firstHalted]
  · obtain ⟨more, rfl⟩ := Nat.exists_eq_add_of_le longer
    rw [steps_add, steps_of_halted secondHalted]

theorem run_eq_steps {count : Nat} (halted : (machine.steps count).isHalted) :
    machine.run = machine.steps count := by
  have ended := machine.isHalted_run
  rw [run, advance_eq_steps] at ended ⊢
  exact steps_eq_steps ended halted

theorem run_of_halted (halted : machine.isHalted) : machine.run = machine := by
  have already : (machine.steps 0).isHalted := halted
  exact run_eq_steps already

theorem options_run (machine : Machine) : machine.run.options = machine.options := by
  rw [run, advance_eq_steps, options_steps]

theorem WithinLimit.run (within : machine.WithinLimit) : machine.run.WithinLimit := by
  rw [Machine.run, advance_eq_steps]
  exact within.steps machine.remainingSteps

/-- A run may be broken off and taken up again. -/
theorem run_steps (machine : Machine) (count : Nat) :
    (machine.steps count).run = machine.run := by
  have ended := (machine.steps count).isHalted_run
  have split : (machine.steps count).run =
      machine.steps (count + (machine.steps count).remainingSteps) := by
    rw [steps_add, run, advance_eq_steps]
  rw [split] at ended ⊢
  exact (run_eq_steps ended).symm

theorem finalHalt_eq_iff {reason : Halt} :
    machine.finalHalt = reason ↔ machine.run.halt = some reason := by
  rw [halt_run, Option.some.injEq]

/-- A run ends at the first step after which the machine has halted. -/
theorem exists_steps_eq_run (machine : Machine) :
    ∃ count, machine.steps count = machine.run ∧
      ∀ index < count, (machine.steps index).halt = none := by
  have ends : ∃ count, (machine.steps count).isHalted := by
    refine ⟨machine.remainingSteps, ?_⟩
    rw [← advance_eq_steps]
    exact machine.isHalted_run
  refine ⟨Nat.find ends, (run_eq_steps (Nat.find_spec ends)).symm, ?_⟩
  intro index before
  have running := Nat.find_min ends before
  simpa [isHalted] using running

/-- The outcomes of the steps of a run: commands up to the last step, which
halts. -/
theorem outcome_before_halt {count index : Nat}
    (running : ∀ index < count, (machine.steps index).halt = none) (before : index + 1 < count) :
    ∃ command, (machine.steps index).step.1 = .executed command := by
  have next : (machine.steps index).step.2.halt = none := running (index + 1) before
  rcases step_outcome (running index (by omega)) with ⟨command, executed, -⟩ | ⟨_, -, halted⟩
  · exact ⟨command, executed⟩
  · simp [next] at halted

theorem outcome_at_halt {index : Nat} (running : (machine.steps index).halt = none)
    (ends : machine.steps (index + 1) = machine.run) :
    (machine.steps index).step.1 = .halted machine.finalHalt := by
  have ended : (machine.steps index).step.2.halt = some machine.finalHalt := by
    rw [← steps_succ, ends, halt_run]
  rcases step_outcome running with ⟨_, -, runs⟩ | ⟨reason, outcome, halted⟩
  · simp [runs] at ended
  · rw [outcome, ← Option.some.inj (ended.symm.trans halted)]

end Steps

section Halted

/-- Calls to a halted machine do no more than add to its input. -/
theorem after_of_halted {machine : Machine} (halted : machine.isHalted) (calls : List Call) :
    machine.after calls = { machine with input := machine.input.append (fedBytes calls) } := by
  induction calls generalizing machine with
  | nil => simp [fedBytes]
  | cons call calls ih =>
      rw [after_cons]
      cases call with
      | feed bytes =>
          have fed : (machine.feed bytes).isHalted := halted
          have bytesFed : fedBytes (.feed bytes :: calls) = bytes ++ fedBytes calls := rfl
          rw [bytesFed, ← ByteQueue.append_append]
          exact ih fed
      | step =>
          rw [call, step_of_halted halted]
          exact ih halted
      | run =>
          rw [call, run_of_halted halted]
          exact ih halted

end Halted

/-- A run ends, and is the same as taking its steps one by one, with any number
of them taken beforehand.  It goes past the limit by one step if the limit ends
it, and not at all otherwise.  After it, steps are idle and runs change nothing,
and input is only stored. -/
theorem run_by_steps {machine : Machine} (reachable : machine.Reachable) :
    machine.run.halt = some machine.finalHalt ∧
      machine.run.stepCount ≤ machine.options.limit + 1 ∧
      (machine.run.stepCount = machine.options.limit + 1 ↔
        machine.finalHalt = .faulted .limitExceeded) ∧
      (∀ taken, (machine.steps taken).run = machine.run ∧
        (machine.steps taken).finalHalt = machine.finalHalt) ∧
      (∃ count, machine.run.stepCount = machine.stepCount + count ∧
        machine.steps count = machine.run ∧
        (∀ index, index + 1 < count →
          ∃ command, (machine.steps index).step.1 = .executed command) ∧
        ∀ index, index + 1 = count →
          (machine.steps index).step.1 = .halted machine.finalHalt) ∧
      ∀ calls,
        let later := machine.run.after calls
        later = { machine.run with input := machine.run.input.append (fedBytes calls) } ∧
          later.step = (.idle, later) ∧ later.run = later ∧
          later.finalHalt = machine.finalHalt := by
  have within := reachable.withinLimit.run
  refine ⟨machine.halt_run, machine.options_run ▸ within.bound, ?_, ?_, ?_, ?_⟩
  · rw [← machine.options_run, within.exceeds, finalHalt_eq_iff]
  · intro taken
    refine ⟨machine.run_steps taken, ?_⟩
    rw [finalHalt_eq_iff, run_steps, halt_run]
  · obtain ⟨count, ends, running⟩ := machine.exists_steps_eq_run
    refine ⟨count, ?_, ends, fun index => outcome_before_halt running, ?_⟩
    · rw [← ends, stepCount_steps running]
    · rintro index rfl
      exact outcome_at_halt (running index (Nat.lt_succ_self index)) ends
  · intro calls later
    have changed : later = _ := after_of_halted machine.isHalted_run calls
    have halt : later.halt = some machine.finalHalt := by
      rw [changed]
      exact machine.halt_run
    have halted : later.isHalted := by simp [isHalted, halt]
    refine ⟨changed, step_of_halted halted, run_of_halted halted, ?_⟩
    rw [finalHalt_eq_iff, run_of_halted halted, halt]

/-- A loop that nothing but the limit ends. -/
def endlessLoop : List UInt8 :=
  ['<', '+', '[', ']'].map Char.toUInt8

theorem run_endlessLoop :
    let machine := (load endlessLoop { limit := 6 }).after [.step, .feed [1]]
    machine.Reachable ∧ machine.run.stepCount = 7 ∧ machine.steps 6 = machine.run := by
  intro machine
  have reachable : machine.Reachable := ⟨_, _, _, rfl⟩
  have cut : machine.finalHalt = .faulted .limitExceeded := by decide
  obtain ⟨-, -, exceeds, -, ⟨count, counts, ends, -⟩, -⟩ := run_by_steps reachable
  have total : machine.run.stepCount = 7 := exceeds.mpr cut
  have started : machine.stepCount = 1 := rfl
  obtain rfl : count = 6 := by omega
  exact ⟨reachable, total, ends⟩

end Machine
end OneTape
