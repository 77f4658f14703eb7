import OneTape.Proofs.Refitting
import OneTape.Proofs.SoundMachine

/-!
# The step limit

The limit of a machine only decides where its run is cut short.  Up to a limit,
a machine takes the steps that it takes under any higher limit.  If it halts by
itself, it does so under the higher limit too, in the same state.  If the limit
halts it, nothing has happened at the last step but a line in the diagnostics.
-/

namespace OneTape
namespace Machine

/-- A machine with another limit. -/
def withLimit (limit : Nat) : Machine → Machine :=
  refit (fun options => { options with limit }) id

theorem load_withLimit (source : List UInt8) (options : Options) (limit : Nat) :
    load source { options with limit } = (load source options).withLimit limit :=
  load_refit source (fun options => { options with limit }) rfl

@[simp]
theorem output_withLimit (limit : Nat) (machine : Machine) :
    (machine.withLimit limit).output = machine.output := rfl

section WithLimit

variable {machine : Machine} {limit : Nat}

theorem step_withLimit (allowed : machine.stepCount < machine.options.limit)
    (alsoAllowed : machine.stepCount < limit) :
    (machine.withLimit limit).step = (machine.step.1, machine.step.2.withLimit limit) :=
  step_refit (fun _ => iff_of_false (Nat.not_le.mpr alsoAllowed) (Nat.not_le.mpr allowed))
    fun _ => ⟨rfl, rfl⟩

theorem stepCount_steps_le (machine : Machine) (count : Nat) :
    (machine.steps count).stepCount ≤ machine.stepCount + count := by
  induction count with
  | zero => exact Nat.le_refl _
  | succ count ih =>
      cases status : (machine.steps count).isHalted with
      | true =>
          have idle : machine.steps (count + 1) = machine.steps count := by
            rw [steps_succ, step_of_halted status]
          rw [idle]
          exact Nat.le_succ_of_le ih
      | false =>
          rw [steps_succ, stepCount_step status]
          exact Nat.succ_le_succ ih

/-- Steps within both limits are the same under either. -/
theorem steps_withLimit {count : Nat}
    (allowed : machine.stepCount + count ≤ machine.options.limit)
    (alsoAllowed : machine.stepCount + count ≤ limit) :
    (machine.withLimit limit).steps count = (machine.steps count).withLimit limit := by
  induction count with
  | zero => rfl
  | succ count ih =>
      have used := machine.stepCount_steps_le count
      rw [steps_succ, ih (by omega) (by omega), step_withLimit]
      · rw [steps_succ]
      · rw [options_steps]
        omega
      · omega

/-- A run that neither limit cuts short ends in the same state under both. -/
theorem run_withLimit (bound : machine.run.stepCount ≤ machine.options.limit)
    (alsoBound : machine.run.stepCount ≤ limit) :
    (machine.withLimit limit).run = machine.run.withLimit limit := by
  obtain ⟨count, ends, running⟩ := machine.exists_steps_eq_run
  have total := stepCount_steps running
  rw [ends] at total
  have same : (machine.withLimit limit).steps count = (machine.steps count).withLimit limit :=
    steps_withLimit (by omega) (by omega)
  rw [ends] at same
  rw [← same]
  apply run_eq_steps
  rw [same]
  exact machine.isHalted_run

/-- A run that the limit cuts short is there at the limit, and changes nothing
but the count and the diagnostics when it is cut. -/
theorem WithinLimit.run_of_limitExceeded (within : machine.WithinLimit)
    (running : machine.halt = none)
    (cut : machine.run.halt = some (.faulted .limitExceeded)) :
    ∃ count, machine.stepCount + count = machine.options.limit ∧
      (machine.steps count).stepCount = machine.options.limit ∧
      machine.run = ((machine.steps count).counted.fail .limitExceeded).2 := by
  obtain ⟨count, ends, runs⟩ := machine.exists_steps_eq_run
  cases count with
  | zero =>
      have unchanged : machine.run = machine := ends.symm
      simp [unchanged, running] at cut
  | succ count =>
      have last := runs count (Nat.lt_succ_self count)
      have counts := stepCount_steps fun index before => runs index (Nat.lt_succ_of_lt before)
      have allowed := (within.steps count).le_of_running last
      rw [steps_succ] at ends
      have exceeded := (limitExceeded_step_iff last).mp (ends ▸ cut)
      refine ⟨count, ?_, ?_, by rw [← ends, step_of_exceeded last exceeded]⟩
      all_goals
        rw [options_steps] at allowed exceeded
        omega

end WithLimit

section Output

variable {machine : Machine}

@[simp]
theorem output_fail (machine : Machine) (fault : Fault) :
    (machine.fail fault).2.output = machine.output := rfl

@[simp]
theorem output_jump (machine : Machine) (direction : Tape.Direction) :
    (machine.jump direction).2.output = machine.output := by
  unfold jump
  split <;> rfl

/-- A command may add to the output, and takes nothing from it. -/
theorem Sound.output_execute (sound : machine.Sound) (command : Command) :
    machine.output.unread <+: (machine.execute command).2.output.unread := by
  cases command with
  | openLoop | closeLoop =>
      unfold Machine.execute
      dsimp only
      split <;> simp [Machine.complete]
  | output =>
      change machine.output.unread <+: (machine.output.push machine.dataByte).unread
      rw [ByteQueue.unread_push sound.output]
      exact List.prefix_append _ _
  | _ => exact List.prefix_rfl

theorem Sound.output_step (sound : machine.Sound) :
    machine.output.unread <+: machine.step.2.output.unread := by
  refine step_cases (motive := fun result => machine.output.unread <+: result.2.output.unread)
    List.prefix_rfl ?_ ?_
  · simp [Machine.counted]
  · exact sound.counted.fetch.output_execute machine.fetch.1

theorem Sound.output_steps (sound : machine.Sound) (count : Nat) :
    machine.output.unread <+: (machine.steps count).output.unread := by
  induction count with
  | zero => exact List.prefix_rfl
  | succ count ih => exact ih.trans (sound.steps count).output_step

theorem Sound.output_run (sound : machine.Sound) :
    machine.output.unread <+: machine.run.output.unread := by
  rw [run, advance_eq_steps]
  exact sound.output_steps machine.remainingSteps

end Output

section Cut

variable {machine : Machine} {limit : Nat}

/-- A run that its limit does not cut short ends in the same state under every
higher limit. -/
theorem WithinLimit.run_withLimit (within : machine.WithinLimit)
    (ordered : machine.options.limit ≤ limit)
    (uncut : machine.run.halt ≠ some (.faulted .limitExceeded)) :
    (machine.withLimit limit).run = machine.run.withLimit limit := by
  have ended := within.run
  have notExceeded := mt ended.exceeds.mp uncut
  have bound := ended.bound
  rw [options_run] at notExceeded bound
  exact Machine.run_withLimit (by omega) (by omega)

/-- A run that its limit cuts short has written a part of what it would write
under a higher limit. -/
theorem WithinLimit.output_run_withLimit (within : machine.WithinLimit)
    (sound : machine.Sound) (running : machine.halt = none)
    (ordered : machine.options.limit ≤ limit) :
    machine.run.output.unread <+: (machine.withLimit limit).run.output.unread := by
  by_cases cut : machine.run.halt = some (.faulted .limitExceeded)
  · obtain ⟨count, reaches, -, ends⟩ := within.run_of_limitExceeded running cut
    have same : (machine.withLimit limit).steps count = (machine.steps count).withLimit limit :=
      steps_withLimit (by omega) (by omega)
    have refitted : ((machine.steps count).withLimit limit).Sound :=
      let kept := sound.steps count
      ⟨kept.blank, kept.input, kept.output, kept.diagnostics⟩
    rw [ends, output_fail, ← run_steps _ count, same]
    exact refitted.output_run
  · simp [within.run_withLimit ordered cut]

end Cut

/-- The lower of two limits only cuts a run short.  Up to it there is no
difference.  A run that it does not end is the same under the higher limit.  A
run that it ends is where the other run has come by then, with one more step
counted and one more line of diagnostics. -/
theorem limit_cuts_run (source input : List UInt8) (options : Options) {lower upper : Nat}
    (ordered : lower ≤ upper) :
    let short := (load source { options with limit := lower }).feed input
    let long := (load source { options with limit := upper }).feed input
    (∀ count ≤ lower, long.steps count = (short.steps count).withLimit upper) ∧
      (short.run.halt ≠ some (.faulted .limitExceeded) →
        long.run = short.run.withLimit upper) ∧
      (short.run.halt = some (.faulted .limitExceeded) →
        short.run =
          { long.steps lower with
            options := { options with limit := lower }
            stepCount := lower + 1
            diagnostics :=
              (long.steps lower).diagnostics.appendText Fault.limitExceeded.diagnostic
            halt := some (.faulted .limitExceeded) }) ∧
      short.run.output.unread <+: long.run.output.unread := by
  intro short long
  have higher : long = short.withLimit upper :=
    congrArg (·.feed input) (load_withLimit source { options with limit := lower } upper)
  obtain ⟨running, uncounted, fitted⟩ : short.halt = none ∧ short.stepCount = 0 ∧
      short.options = { options with limit := lower } := by
    obtain ⟨_, _, fresh⟩ := load_fresh source { options with limit := lower }
    simp only [short, fresh]
    exact ⟨rfl, rfl, rfl⟩
  have allowed : short.options.limit = lower := congrArg Options.limit fitted
  have within : short.WithinLimit := (withinLimit_load _ _).feed input
  have agree : ∀ count ≤ lower, long.steps count = (short.steps count).withLimit upper := by
    intro count below
    rw [higher]
    exact steps_withLimit (by omega) (by omega)
  refine ⟨agree, ?_, ?_, ?_⟩
  · intro uncut
    rw [higher]
    exact within.run_withLimit (by omega) uncut
  · intro cut
    obtain ⟨count, reaches, counted, ends⟩ := within.run_of_limitExceeded running cut
    obtain rfl : count = lower := by omega
    rw [ends, agree count (Nat.le_refl count)]
    simp only [fail, finish, Machine.counted, counted, options_steps, fitted, withLimit, refit, id]
  · rw [higher]
    exact within.output_run_withLimit ((sound_load _ _).feed input) running (by omega)

/-- Read a byte and write it for ever. -/
def repeatByte : List UInt8 :=
  ['<', ',', '[', '.', ']'].map Char.toUInt8

theorem limit_cuts_repeatByte :
    let short := (load repeatByte { limit := 5 }).feed [7]
    let long := (load repeatByte { limit := 9 }).feed [7]
    short.run.tape = (long.steps 5).tape ∧ short.run.stepCount = 6 ∧
      short.run.output.unread = [7] ∧ [7] <+: long.run.output.unread := by
  intro short long
  have cut : short.run.halt = some (.faulted .limitExceeded) := by decide
  have written : short.run.output.unread = [7] := by decide
  obtain ⟨-, -, reaches, part⟩ := limit_cuts_run repeatByte [7] {} (show 5 ≤ 9 by decide)
  have ends : short.run = _ := reaches cut
  refine ⟨?_, ?_, written, ?_⟩
  · rw [ends]
  · rw [ends]
  · rw [← written]
    exact part

end Machine
end OneTape
