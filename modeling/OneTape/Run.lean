import OneTape.Machine

/-!
# Runs

A run takes steps until the machine halts.  Every step counts against the
limit, and the step after the last allowed one halts the machine, so a run ends
after at most that many steps.
-/

namespace OneTape
namespace Machine

@[simp]
theorem stepCount_complete (machine : Machine) (command : Command) :
    (machine.complete command).2.stepCount = machine.stepCount := rfl

@[simp]
theorem options_complete (machine : Machine) (command : Command) :
    (machine.complete command).2.options = machine.options := rfl

@[simp]
theorem stepCount_fail (machine : Machine) (fault : Fault) :
    (machine.fail fault).2.stepCount = machine.stepCount := rfl

@[simp]
theorem options_fail (machine : Machine) (fault : Fault) :
    (machine.fail fault).2.options = machine.options := rfl

@[simp]
theorem isHalted_fail (machine : Machine) (fault : Fault) :
    (machine.fail fault).2.isHalted = true := rfl

@[simp]
theorem stepCount_jump (machine : Machine) (direction : Tape.Direction) :
    (machine.jump direction).2.stepCount = machine.stepCount := by
  unfold jump
  split <;> rfl

@[simp]
theorem options_jump (machine : Machine) (direction : Tape.Direction) :
    (machine.jump direction).2.options = machine.options := by
  unfold jump
  split <;> rfl

@[simp]
theorem stepCount_execute (machine : Machine) (command : Command) :
    (machine.execute command).2.stepCount = machine.stepCount := by
  cases command with
  | openLoop | closeLoop =>
      unfold execute
      dsimp only
      split <;> simp
  | _ => rfl

@[simp]
theorem options_execute (machine : Machine) (command : Command) :
    (machine.execute command).2.options = machine.options := by
  cases command with
  | openLoop | closeLoop =>
      unfold execute
      dsimp only
      split <;> simp
  | _ => rfl

theorem isHalted_of_halt {machine : Machine} {reason : Halt}
    (status : machine.halt = some reason) : machine.isHalted := by
  simp [isHalted, status]

theorem isHalted_eq_false {machine : Machine} (running : machine.halt = none) :
    machine.isHalted = false := by
  simp [isHalted, running]

theorem step_of_halted {machine : Machine} (halted : machine.isHalted) :
    machine.step = (.idle, machine) := by
  simp [step, halted]

/-- A machine that has counted a step which it is about to take. -/
def counted (machine : Machine) : Machine :=
  { machine with stepCount := machine.stepCount + 1 }

theorem step_of_exceeded {machine : Machine} (running : machine.halt = none)
    (exceeded : machine.options.limit ≤ machine.stepCount) :
    machine.step = machine.counted.fail .limitExceeded := by
  rw [step, if_neg (by simp [isHalted, running])]
  exact if_pos (Nat.lt_succ_of_le exceeded)

theorem step_of_allowed {machine : Machine} (running : machine.halt = none)
    (allowed : machine.stepCount < machine.options.limit) :
    machine.step = machine.counted.fetch.2.execute machine.fetch.1 := by
  rw [step, if_neg (by simp [isHalted, running])]
  exact if_neg (Nat.not_lt.mpr allowed)

/-- A step is idle, or is refused by the limit, or executes the next command. -/
theorem step_cases {machine : Machine} {motive : Outcome × Machine → Prop}
    (idle : motive (.idle, machine)) (exceeded : motive (machine.counted.fail .limitExceeded))
    (allowed : motive (machine.counted.fetch.2.execute machine.fetch.1)) :
    motive machine.step := by
  cases status : machine.halt with
  | some reason =>
      rw [step_of_halted (isHalted_of_halt status)]
      exact idle
  | none =>
      rcases Nat.lt_or_ge machine.stepCount machine.options.limit with within | beyond
      · rw [step_of_allowed status within]
        exact allowed
      · rw [step_of_exceeded status beyond]
        exact exceeded

theorem stepCount_step {machine : Machine} (running : machine.isHalted = false) :
    machine.step.2.stepCount = machine.stepCount + 1 := by
  rw [step, if_neg (by simp [running])]
  dsimp only
  split
  · exact stepCount_fail _ _
  · exact stepCount_execute _ _

@[simp]
theorem options_step (machine : Machine) :
    machine.step.2.options = machine.options := by
  refine step_cases (motive := fun result => result.2.options = machine.options) rfl ?_ ?_
  · exact options_fail machine.counted _
  · exact options_execute machine.counted.fetch.2 _

/-- A step beyond the limit halts the machine. -/
theorem isHalted_step_of_limit_le {machine : Machine}
    (used : machine.options.limit ≤ machine.stepCount) :
    machine.step.2.isHalted := by
  unfold step
  split
  · assumption
  · dsimp only
    rw [if_pos (by omega)]
    exact isHalted_fail _ _

/-- Take a number of steps, or fewer if the machine halts before. -/
def advance : Nat → Machine → Machine
  | 0, machine => machine
  | count + 1, machine =>
      if machine.isHalted then machine else advance count machine.step.2

/-- The number of steps after which a machine has certainly halted. -/
def remainingSteps (machine : Machine) : Nat :=
  machine.options.limit - machine.stepCount + 1

/-- Take steps until the machine halts. -/
def run (machine : Machine) : Machine :=
  machine.advance machine.remainingSteps

theorem advance_of_halted {machine : Machine} (halted : machine.isHalted)
    (count : Nat) : advance count machine = machine := by
  cases count <;> simp [advance, halted]

theorem isHalted_advance {machine : Machine} {count : Nat}
    (enough : machine.remainingSteps ≤ count) :
    (advance count machine).isHalted := by
  induction count generalizing machine with
  | zero => simp [remainingSteps] at enough
  | succ count ih =>
      cases status : machine.isHalted with
      | true => simp [advance, status]
      | false =>
          rw [advance, if_neg (by simp [status])]
          by_cases used : machine.options.limit ≤ machine.stepCount
          · have halted := isHalted_step_of_limit_le used
            rwa [advance_of_halted halted]
          · apply ih
            unfold remainingSteps at enough ⊢
            rw [options_step, stepCount_step status]
            omega

/-- Every run comes to a halt. -/
theorem isHalted_run (machine : Machine) : machine.run.isHalted :=
  isHalted_advance (Nat.le_refl _)

/-- Take up to a number of steps and look at the machine after each of them. -/
def observe {α : Type} (view : Machine → α) :
    Nat → Machine → Array α → Array α × Machine
  | 0, machine, views => (views, machine)
  | count + 1, machine, views =>
      if machine.isHalted then
        (views, machine)
      else
        let machine := machine.step.2
        observe view count machine (views.push (view machine))

/-- Looking at a machine does not change what it does. -/
theorem observe_snd {α : Type} (view : Machine → α) (count : Nat)
    (machine : Machine) (views : Array α) :
    (observe view count machine views).2 = advance count machine := by
  induction count generalizing machine views with
  | zero => rfl
  | succ count ih =>
      unfold observe advance
      split
      · rfl
      · exact ih _ _

end Machine
end OneTape
