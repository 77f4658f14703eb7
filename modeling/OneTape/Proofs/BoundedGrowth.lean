import Mathlib.Data.List.Induction
import OneTape.Proofs.HaltingStep
import OneTape.Proofs.StepArithmetic

/-!
# Bounded growth

The data pointer moves by one address at a time, and does not move in the step that
halts.  So the addresses it has visited are no more than the steps that were taken, and
in all the tape grows by at most one cell with each step, even if it is the stop command
behind the tape that makes it grow.

As long as the program and the steps are not too many, all arithmetic of the next step
is then arithmetic of words of 64 bits.
-/

namespace OneTape

/-- A number is of the width in which it is kept. -/
def Quantity.Fits : Quantity → Prop
  | programPointer value | dataPointer value | depth value | offset value => IsSignedWord value
  | size value | stepCount value => IsWord value

namespace Machine

/-- The number of steps in a trail that were not idle. -/
def taken (trail : List (Outcome × Machine)) : Nat :=
  trail.countP fun entry => entry.1 ≠ .idle

theorem taken_concat (trail : List (Outcome × Machine)) (entry : Outcome × Machine) :
    taken (trail ++ [entry]) = taken trail + if entry.1 = .idle then 0 else 1 := by
  by_cases idle : entry.1 = .idle <;> simp [taken, idle]

theorem leastVisited_nonpos (trail : List (Outcome × Machine)) : leastVisited trail ≤ 0 := by
  induction trail using List.reverseRecOn with
  | nil => exact Int.le_refl 0
  | append_singleton trail entry ih =>
      rw [leastVisited_concat]
      omega

theorem greatestVisited_nonneg (trail : List (Outcome × Machine)) : 0 ≤ greatestVisited trail := by
  induction trail using List.reverseRecOn with
  | nil => exact Int.le_refl 0
  | append_singleton trail entry ih =>
      rw [greatestVisited_concat]
      omega

section Moves

variable {machine : Machine}

theorem dataPointer_jump (machine : Machine) (direction : Tape.Direction) :
    (machine.jump direction).2.dataPointer = machine.dataPointer := by
  unfold jump
  split <;> rfl

/-- A command moves the data pointer by one address at most. -/
theorem dataPointer_execute (machine : Machine) (command : Command) :
    machine.dataPointer - 1 ≤ (machine.execute command).2.dataPointer ∧
      (machine.execute command).2.dataPointer ≤ machine.dataPointer + 1 := by
  have still : machine.dataPointer - 1 ≤ machine.dataPointer ∧
      machine.dataPointer ≤ machine.dataPointer + 1 := by omega
  cases command with
  | right =>
      simp only [execute, complete]
      omega
  | left =>
      simp only [execute, complete]
      omega
  | openLoop | closeLoop =>
      unfold execute
      dsimp only
      split <;> simp only [dataPointer_jump, complete] <;> exact still
  | _ => exact still

theorem dataPointer_step (machine : Machine) :
    machine.dataPointer - 1 ≤ machine.step.2.dataPointer ∧
      machine.step.2.dataPointer ≤ machine.dataPointer + 1 := by
  have still : machine.dataPointer - 1 ≤ machine.dataPointer ∧
      machine.dataPointer ≤ machine.dataPointer + 1 := by omega
  refine step_cases (motive := fun result => machine.dataPointer - 1 ≤ result.2.dataPointer ∧
    result.2.dataPointer ≤ machine.dataPointer + 1) still ?_ ?_
  · simp only [fail, finish, Machine.counted]
    exact still
  · exact machine.counted.fetch.2.dataPointer_execute machine.fetch.1

theorem Ends.dataPointer {next : Machine} {reason : Halt} (ends : machine.Ends next reason) :
    next.dataPointer = machine.dataPointer := by
  cases ends with
  | counting _ next_eq | jumping _ _ _ next_eq | stopping _ next_eq =>
      rw [next_eq]
      rfl

end Moves

/-- The places of the data pointer are no farther apart than the steps allow, of which
the one that halts is not used. -/
def Paced (trail : List (Outcome × Machine)) (machine : Machine) : Prop :=
  greatestVisited trail - leastVisited trail + (if machine.halt = none then 0 else 1) ≤ taken trail

theorem Paced.step {program : List UInt8} {trail : List (Outcome × Machine)} {machine : Machine}
    (paced : Paced trail machine) (tracked : Tracked program trail machine) :
    Paced (trail ++ [machine.step]) machine.step.2 := by
  have fromLeast := tracked.fromLeast
  have toGreatest := tracked.toGreatest
  unfold Paced at paced ⊢
  rw [leastVisited_concat, greatestVisited_concat, taken_concat]
  cases status : machine.halt with
  | some reason =>
      rw [step_of_halted (isHalted_of_halt status)]
      simp only [status, reduceCtorEq, if_true, if_false] at paced ⊢
      omega
  | none =>
      rw [if_pos status] at paced
      rcases step_outcome status with ⟨command, executed, running⟩ | ⟨reason, halts, halted⟩
      · have moves := machine.dataPointer_step
        simp only [executed, running, reduceCtorEq, if_true, if_false]
        omega
      · have stays := (ends_of_halted halts).2.dataPointer
        simp only [halts, halted, reduceCtorEq, if_false]
        omega

theorem paced_after (source : List UInt8) (options : Options) (calls : List Call) :
    Paced ((load source options).trail calls) ((load source options).after calls) := by
  have both := calls_induction
    (fun trail machine => Tracked (loadedProgram source options) trail machine ∧
      Paced trail machine)
    (fun _ _ bytes kept => ⟨kept.1.feed bytes, kept.2⟩)
    (fun _ _ kept => ⟨kept.1.step, kept.2.step kept.1⟩) calls []
    ⟨tracked_load source options, ?_⟩
  · exact both.2
  · obtain ⟨_, _, fresh⟩ := load_fresh source options
    rw [fresh]
    exact Int.le_refl 0

theorem options_after (source : List UInt8) (options : Options) (calls : List Call) :
    ((load source options).after calls).options = options := by
  have loaded : (load source options).options = options := by
    obtain ⟨_, _, fresh⟩ := load_fresh source options
    rw [fresh]
  exact calls_induction (fun _ machine => machine.options = options)
    (fun _ _ _ kept => kept) (fun _ machine kept => machine.options_step.trans kept) calls []
    loaded

/-- The bounds of the ranges and of the pointers after some steps. -/
structure Grown (length taken : Nat) (machine : Machine) : Prop where
  dataPointer : machine.dataPointer.natAbs ≤ taken
  fromLow : -(taken : Int) ≤ machine.tape.low
  low : machine.tape.low ≤ 0
  high : 0 ≤ machine.tape.high
  toHigh : machine.tape.high ≤ max length taken
  programFromLow : machine.tape.low - 1 ≤ machine.programPointer
  programToHigh : machine.programPointer ≤ machine.tape.high + 1
  entries : machine.tape.entries.length ≤ max length 1 + taken

theorem Points.near {tape : Tape} {halt : Option Halt} {pointer : Int} {begun : Bool}
    (points : Points tape halt pointer begun) (ordered : tape.low ≤ tape.high) :
    tape.low - 1 ≤ pointer ∧ pointer ≤ tape.high + 1 := by
  cases points with
  | ahead atStart fromZero => omega
  | inside => omega
  | past direction _ past =>
      cases direction <;> simp only [Tape.Direction.pastRange] at past <;> omega

theorem Paced.grown {program : List UInt8} {trail : List (Outcome × Machine)} {machine : Machine}
    (paced : Paced trail machine) (tracked : Tracked program trail machine) :
    machine.Grown program.length (taken trail) := by
  have least := leastVisited_nonpos trail
  have greatest := greatestVisited_nonneg trail
  have fromLeast := tracked.fromLeast
  have toGreatest := tracked.toGreatest
  have low := tracked.low
  obtain ⟨programFromLow, programToHigh⟩ := tracked.points.near tracked.low_le_high
  -- Only a machine that has stopped tracks one address more than it has visited.
  have high : machine.tape.high = extent trail program ∨
      machine.halt ≠ none ∧ machine.tape.high = extent trail program + 1 := by
    rw [tracked.high, highest]
    split
    · rename_i stopped
      exact .inr ⟨by simp [stopped.1], rfl⟩
    · exact .inl rfl
  have span := machine.tape.length_entries
  unfold Tape.span at span
  unfold extent at high
  unfold Paced at paced
  constructor
  case programFromLow => exact programFromLow
  case programToHigh => exact programToHigh
  all_goals
    rcases high with high | ⟨halted, high⟩
    · split at paced <;> omega
    · rw [if_neg halted] at paced
      omega

/-- What a step computes fits into words, if the program and the steps before are not
too many. -/
theorem Grown.fits {length taken : Nat} {machine : Machine} (grown : machine.Grown length taken)
    (few : length + taken < 0x7FFFFFFFFFFFFFFE) {limit : Nat} {quantity : Quantity}
    (within : quantity.Within machine.tape.low machine.tape.high limit)
    (uncounted : ∀ count, quantity ≠ .stepCount count) : quantity.Fits := by
  have fromLow := grown.fromLow
  have low := grown.low
  have high := grown.high
  have toHigh := grown.toHigh
  have entries := grown.entries
  have span := machine.tape.length_entries
  unfold Tape.span at span
  cases quantity with
  | programPointer value | dataPointer value | depth value | offset value =>
      simp only [Quantity.Within] at within
      simp only [Quantity.Fits, IsSignedWord]
      omega
  | size value =>
      simp only [Quantity.Within] at within
      simp only [Quantity.Fits, IsWord]
      omega
  | stepCount count => exact absurd rfl (uncounted count)

/-- After some steps, the pointers and the watermarks are no farther away than the
program is long and the steps are many, and the tape has no more cells than both
together.  The next step is the one with notes, and the depth that it notes is bounded
by the cells.  The other notes fit into words as long as the program and the steps are
not too many, and the step count does so under every limit but the greatest. -/
theorem growth_bounded (source : List UInt8) (options : Options) (calls : List Call) :
    let length := (loadedProgram source options).length
    let steps := taken ((load source options).trail calls)
    let machine := (load source options).after calls
    let noted := machine.notedStep
    machine.Grown length steps ∧
      noted.value = machine.step ∧
      (∀ depth, .depth depth ∈ noted.notes →
        depth.natAbs ≤ machine.tape.entries.length + 1) ∧
      (length + steps < 0x7FFFFFFFFFFFFFFE → ∀ quantity ∈ noted.notes,
        (∀ count, quantity ≠ .stepCount count) → quantity.Fits) ∧
      (options.limit < 0xFFFFFFFFFFFFFFFF → ∀ count, .stepCount count ∈ noted.notes →
        (Quantity.stepCount count).Fits) := by
  intro length steps machine noted
  have tracked := tracked_after source options calls
  have grown : machine.Grown length steps := (paced_after source options calls).grown tracked
  have within : machine.WithinLimit := Reachable.withinLimit ⟨source, options, calls, rfl⟩
  have limit : machine.options = options := options_after source options calls
  have yields := tracked.yields_step within
  refine ⟨grown, yields.value, ?_, ?_, ?_⟩
  · intro depth member
    have bound : (depth.natAbs : Int) ≤ machine.tape.high + 1 - machine.tape.low + 1 :=
      yields.notes _ member
    have span := machine.tape.length_entries
    unfold Tape.span at span
    omega
  · intro few quantity member uncounted
    exact grown.fits few (yields.notes _ member) uncounted
  · intro finite count member
    have bound : count ≤ machine.options.limit + 1 := yields.notes _ member
    rw [limit] at bound
    show IsWord count
    unfold IsWord
    omega

end Machine
end OneTape
