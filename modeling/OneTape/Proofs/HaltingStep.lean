import OneTape.Proofs.RunsAsSteps
import OneTape.Proofs.Watermarks

/-!
# The step that halts

A step counts, then fetches a command, then executes it, and may have to halt at any
of these points.  When it does, nothing has happened to the data yet.  No byte has
changed, no input is used and nothing is written but the line about a fault.

Only fetching may have touched the tape.  It does so when no command is left in the
tracked range, and then the command that it finds is the stop command.  So a fault
leaves the tape as it was, and a machine that stops behind its tape has stored one
zero more.
-/

namespace OneTape

/-- The address behind the stored cells is stored by one more cell. -/
theorem ByteRow.toList_reserve_afterLast {row : ByteRow} (stored : row.size ≠ 0) :
    (row.reserve row.afterLast).toList = row.toList ++ [0] := by
  have offset : row.afterLast - row.origin = Int.ofNat row.above.size := by
    unfold afterLast
    simp only [Int.ofNat_eq_natCast]
    omega
  unfold reserve
  simp only [anchor_of_stored stored, offset]
  simp [toList, extend]

/-- One cell more is stored, and tracked, behind a tape that stores what it tracks. -/
theorem Tape.Exact.touch_next {tape : Tape} (exact : tape.Exact) :
    (tape.touch (tape.high + 1)).low = tape.low ∧
      (tape.touch (tape.high + 1)).high = tape.high + 1 ∧
      (tape.touch (tape.high + 1)).row.first = tape.row.first ∧
      (tape.touch (tape.high + 1)).row.toList = tape.row.toList ++ [0] := by
  have ordered := exact.ordered
  refine ⟨?_, ?_, ?_, ?_⟩
  · rw [low_touch]
    omega
  · rw [high_touch]
    omega
  · have start := ByteRow.first_reserve exact.size_ne_zero (tape.high + 1)
    rw [exact.first] at start ⊢
    exact start.trans (by omega)
  · rw [← exact.afterLast]
    exact ByteRow.toList_reserve_afterLast exact.size_ne_zero

namespace Machine

/-- The tracked range has no command to the right of the program pointer. -/
def NoneAhead (machine : Machine) : Prop :=
  ∀ address, machine.programPointer < address → address ≤ machine.tape.high →
    machine.tape.commandAt? address = none

/-- What a fetch does to the tape. -/
inductive Fetches (machine : Machine) : Prop where
  | inside (ahead : ¬ machine.NoneAhead) (tape : machine.fetch.2.tape = machine.tape)
  | next (noneAhead : machine.NoneAhead) (exact : machine.tape.Exact)
      (stop : machine.fetch.1 = .stop)
      (pointer : machine.fetch.2.programPointer = machine.tape.high + 1)
      (tape : machine.fetch.2.tape = machine.tape.touch (machine.tape.high + 1))

theorem Reachable.fetches {machine : Machine} (reachable : machine.Reachable)
    (running : machine.halt = none) : machine.Fetches := by
  have blankOutside := reachable.sound.blank
  obtain ⟨source, options, calls, rfl⟩ := reachable
  have tracked := tracked_after source options calls
  generalize (load source options).after calls = machine at *
  obtain ⟨-, toHigh⟩ := (running ▸ tracked.points).bounds tracked.low_le_high
  rcases fetch_cases blankOutside toHigh with ⟨inside, tape⟩ | ⟨pointer, stop, tape⟩
  · refine .inside ?_ tape
    intro noneAhead
    have behind : machine.programPointer < machine.fetch.2.programPointer :=
      machine.tape.lt_nextCommand machine.programPointer
    have command : machine.tape.commandAt? machine.fetch.2.programPointer =
        some machine.fetch.1 := machine.tape.commandAt?_nextCommand machine.programPointer
    rw [noneAhead _ behind inside] at command
    cases command
  · have exact : machine.tape.Exact := by
      rcases tracked.stored with exact | ⟨-, blank, atStart⟩
      · exact exact
      · -- The empty program stops at address zero, inside the tracked range.
        rw [fetch_blank blank (atStart running), blank] at pointer
        cases pointer
    refine .next ?_ exact stop pointer tape
    intro address behind inside
    have passed : address < machine.fetch.2.programPointer := by omega
    exact machine.tape.commandAt?_eq_none_of_lt_firstCommand _ (by omega) passed

/-- How a step has halted a machine, after counting, fetching or executing. -/
inductive Ends (machine next : Machine) : Halt → Prop where
  | counting {fault : Fault} (limit : fault = .limitExceeded)
      (next_eq : next = (machine.counted.fail fault).2) : Ends machine next (.faulted fault)
  | jumping {fault : Fault} (direction : Tape.Direction) (alone : fault = unmatched direction)
      (bracket : machine.fetch.1 = direction.bracket)
      (next_eq : next =
        ({ machine.counted.fetch.2 with
          programPointer := direction.pastRange machine.fetch.2.tape }.fail fault).2) :
      Ends machine next (.faulted fault)
  | stopping (fetched : machine.fetch.1 = .stop)
      (next_eq : next = (machine.counted.fetch.2.finish .stopped).2) : Ends machine next .stopped

section Ends

variable {machine : Machine} {reason : Halt}

theorem jump_of_halted {direction : Tape.Direction}
    (halts : (machine.jump direction).1 = .halted reason) :
    reason = .faulted (unmatched direction) ∧
      machine.jump direction =
        { machine with programPointer := direction.pastRange machine.tape }.fail
          (unmatched direction) := by
  unfold jump at halts ⊢
  split at halts
  · cases halts
  · cases halts
    exact ⟨rfl, rfl⟩

/-- Only the stop command and a bracket that has to jump can halt a machine. -/
theorem execute_of_halted {command : Command}
    (halts : (machine.execute command).1 = .halted reason) :
    (command = .stop ∧ reason = .stopped) ∨
      ∃ direction : Tape.Direction, command = direction.bracket ∧
        reason = .faulted (unmatched direction) ∧
        machine.execute command =
          { machine with programPointer := direction.pastRange machine.tape }.fail
            (unmatched direction) := by
  cases command with
  | openLoop =>
      unfold execute at halts ⊢
      dsimp only at halts ⊢
      split at halts
      · rename_i zero
        obtain ⟨fault, jumps⟩ := jump_of_halted halts
        rw [if_pos zero]
        exact .inr ⟨.rightward, rfl, fault, jumps⟩
      · cases halts
  | closeLoop =>
      unfold execute at halts ⊢
      dsimp only at halts ⊢
      split at halts
      · cases halts
      · rename_i nonzero
        obtain ⟨fault, jumps⟩ := jump_of_halted halts
        rw [if_neg nonzero]
        exact .inr ⟨.leftward, rfl, fault, jumps⟩
  | stop =>
      cases halts
      exact .inl ⟨rfl, rfl⟩
  | _ => cases halts

theorem ends_of_halted (halts : machine.step.1 = .halted reason) :
    machine.halt = none ∧ machine.Ends machine.step.2 reason := by
  cases status : machine.halt with
  | some earlier =>
      rw [step_of_halted (isHalted_of_halt status)] at halts
      cases halts
  | none =>
      refine ⟨rfl, ?_⟩
      rcases Nat.lt_or_ge machine.stepCount machine.options.limit with allowed | exceeded
      · rw [step_of_allowed status allowed] at halts ⊢
        rcases execute_of_halted halts with ⟨fetched, rfl⟩ | ⟨direction, bracket, rfl, executed⟩
        · rw [fetched]
          exact .stopping fetched rfl
        · rw [executed]
          exact .jumping direction rfl bracket rfl
      · rw [step_of_exceeded status exceeded] at halts ⊢
        cases halts
        exact .counting rfl rfl

end Ends

/-- What every step that halts leaves as it was. -/
structure SameData (machine next : Machine) : Prop where
  options : next.options = machine.options
  dataPointer : next.dataPointer = machine.dataPointer
  input : next.input = machine.input
  output : next.output = machine.output
  low : next.tape.low = machine.tape.low
  get : ∀ address, next.tape.get address = machine.tape.get address
  loadError : next.loadError = machine.loadError

/-- Where a fault leaves the program pointer. -/
def faultPointer (machine : Machine) : Fault → Int
  | .limitExceeded => machine.programPointer
  | .unmatchedOpen => machine.tape.high + 1
  | .unmatchedClose => machine.tape.low - 1

/-- All that a fault changes besides the step count. -/
structure Faults (machine next : Machine) (fault : Fault) : Prop where
  tape : next.tape = machine.tape
  programPointer : next.programPointer = machine.faultPointer fault
  diagnostics : next.diagnostics = machine.diagnostics.appendText fault.diagnostic

/-- All that the stop command changes besides the step count. -/
structure Stops (machine next : Machine) : Prop where
  diagnostics : next.diagnostics = machine.diagnostics
  tape : ¬ machine.NoneAhead → next.tape = machine.tape
  /-- The address behind the tracked range is stored and tracked. -/
  grows : machine.NoneAhead →
    next.programPointer = machine.tape.high + 1 ∧ next.tape.high = machine.tape.high + 1 ∧
      machine.tape.row.afterLast = machine.tape.high + 1 ∧
      next.tape.row.first = machine.tape.row.first ∧
      next.tape.row.toList = machine.tape.row.toList ++ [0]

section Halted

variable {machine next : Machine}

theorem Fetches.low (fetches : machine.Fetches) :
    machine.fetch.2.tape.low = machine.tape.low := by
  cases fetches with
  | inside _ tape => rw [tape]
  | next _ exact _ _ tape => rw [tape, exact.touch_next.1]

/-- A bracket is fetched from the tracked range. -/
theorem Fetches.tape_of_bracket (fetches : machine.Fetches) {direction : Tape.Direction}
    (bracket : machine.fetch.1 = direction.bracket) : machine.fetch.2.tape = machine.tape := by
  cases fetches with
  | inside _ tape => exact tape
  | next _ _ stop =>
      rw [stop] at bracket
      cases direction <;> cases bracket

theorem Ends.halt {reason : Halt} (ends : machine.Ends next reason) : next.halt = some reason := by
  cases ends with
  | counting _ next_eq | jumping _ _ _ next_eq | stopping _ next_eq =>
      rw [next_eq]
      rfl

theorem Ends.sameData {reason : Halt} (ends : machine.Ends next reason)
    (fetches : machine.Fetches) : machine.SameData next := by
  cases ends with
  | counting _ next_eq =>
      rw [next_eq]
      exact ⟨rfl, rfl, rfl, rfl, rfl, fun _ => rfl, rfl⟩
  | jumping _ _ _ next_eq | stopping _ next_eq =>
      rw [next_eq]
      exact ⟨rfl, rfl, rfl, rfl, fetches.low, machine.get_fetch, rfl⟩

theorem Ends.faults {fault : Fault} (ends : machine.Ends next (.faulted fault))
    (fetches : machine.Fetches) : machine.Faults next fault := by
  cases ends with
  | counting limit next_eq =>
      rw [next_eq]
      refine ⟨rfl, ?_, rfl⟩
      change machine.programPointer = machine.faultPointer fault
      rw [limit]
      rfl
  | jumping direction alone bracket next_eq =>
      have tape := fetches.tape_of_bracket bracket
      rw [next_eq]
      refine ⟨tape, ?_, rfl⟩
      change direction.pastRange machine.fetch.2.tape = machine.faultPointer fault
      rw [alone, tape]
      cases direction <;> rfl

theorem Ends.stops (ends : machine.Ends next .stopped) (fetches : machine.Fetches) :
    machine.Stops next := by
  cases ends with
  | stopping fetched next_eq =>
      rw [next_eq]
      cases fetches with
      | inside ahead tape => exact ⟨rfl, fun _ => tape, fun noneAhead => absurd noneAhead ahead⟩
      | next noneAhead exact _ pointer tape =>
          obtain ⟨-, high, first, cells⟩ := exact.touch_next
          rw [← tape] at high first cells
          exact ⟨rfl, fun ahead => absurd noneAhead ahead,
            fun _ => ⟨pointer, high, exact.afterLast, first, cells⟩⟩

end Halted

/-- A step that halts changes nothing but what tells that it halted.  A fault adds
its line to the diagnostics, and a bracket without partner takes the program pointer
out of the tracked range.  The stop command says nothing.  The tape gets one zero
more if no command was left in the tracked range, and is the same otherwise. -/
theorem halting_step {machine : Machine} (reachable : machine.Reachable) {reason : Halt}
    (halts : machine.step.1 = .halted reason) :
    let next := machine.step.2
    machine.halt = none ∧ next.halt = some reason ∧
      next.stepCount = machine.stepCount + 1 ∧ machine.SameData next ∧
      match reason with
      | .faulted fault => machine.Faults next fault
      | .stopped => machine.Stops next := by
  intro next
  obtain ⟨running, ends⟩ := ends_of_halted halts
  have fetches := reachable.fetches running
  have counts : next.stepCount = machine.stepCount + 1 :=
    stepCount_step (isHalted_eq_false running)
  refine ⟨running, ends.halt, counts, ends.sameData fetches, ?_⟩
  cases reason with
  | stopped => exact ends.stops fetches
  | faulted fault => exact ends.faults fetches

/-- A program of one command, which it changes, stops behind its tape. -/
theorem halting_step_behind :
    let machine := (load [43] {}).after [.step]
    machine.step.1 = .halted .stopped ∧ machine.step.2.tape.high = 1 ∧
      machine.step.2.tape.row.toList = [44, 0] := by
  intro machine
  have reachable : machine.Reachable := ⟨_, _, _, rfl⟩
  have halts : machine.step.1 = .halted .stopped := by decide
  have noneAhead : machine.NoneAhead := by
    intro address behind inside
    change (0 : Int) < address at behind
    change address ≤ 0 at inside
    omega
  have stops : machine.Stops machine.step.2 := (halting_step reachable halts).2.2.2.2
  obtain ⟨-, high, -, -, cells⟩ := stops.grows noneAhead
  exact ⟨halts, high, cells⟩

end Machine
end OneTape
