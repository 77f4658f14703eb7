import OneTape.Proofs.BracketTable
import OneTape.Proofs.CodeBesideData
import OneTape.Proofs.UnboundedRefinement

/-!
# Code and data apart

An ordinary interpreter keeps the code of a program apart from its data, and
knows beforehand where each bracket jumps to.  A machine that has both on one
tape does the same, step by step, as long as each command that uses the data
does so at a negative address: then the code on the tape never changes, and the
brackets among the data are never taken for brackets of the code.
-/

namespace OneTape

/-- Whether a command reads or writes the byte under the data pointer. -/
def Command.usesData : Command → Bool
  | right | left | stop => false
  | increment | decrement | openLoop | closeLoop | input | output => true

structure HarvardMachine where
  options : Options
  code : List UInt8
  table : List (Int × Int)
  data : Int → UInt8 := fun _ => 0
  programPointer : Int := -1
  dataPointer : Int := 0
  input : List UInt8 := []
  output : List UInt8 := []
  diagnostics : List UInt8 := []
  stepCount : Nat := 0
  halt : Option Halt := none

namespace HarvardMachine

def load (code : List UInt8) (options : Options) : HarvardMachine :=
  { options, code, table := bracketTable code }

def feed (machine : HarvardMachine) (bytes : List UInt8) : HarvardMachine :=
  { machine with input := machine.input ++ bytes }

def dataByte (machine : HarvardMachine) : UInt8 :=
  machine.data machine.dataPointer

def store (machine : HarvardMachine) (value : UInt8) : HarvardMachine :=
  { machine with data := Function.update machine.data machine.dataPointer value }

def fail (machine : HarvardMachine) (fault : Fault) : Outcome × HarvardMachine :=
  (.halted (.faulted fault),
    { machine with
      diagnostics := machine.diagnostics ++ Utf8.encode fault.diagnostic.toList
      halt := some (.faulted fault) })

/-- The first command in the code from an address on, or the end behind it. -/
def firstCommand (address : Int) : List UInt8 → Int × Command
  | [] => (address, .stop)
  | byte :: rest =>
      match Command.ofByte? byte with
      | some command => (address, command)
      | none => firstCommand (address + 1) rest

def nextCommand (machine : HarvardMachine) : Int × Command :=
  firstCommand (machine.programPointer + 1)
    (machine.code.drop (machine.programPointer + 1).toNat)

def jump (machine : HarvardMachine) (direction : Tape.Direction) : Outcome × HarvardMachine :=
  match machine.table.lookup machine.programPointer with
  | some partner => (.executed direction.bracket, { machine with programPointer := partner })
  | none => machine.fail (Machine.unmatched direction)

def execute (machine : HarvardMachine) (command : Command) : Outcome × HarvardMachine :=
  match command with
  | .right => (.executed .right, { machine with dataPointer := machine.dataPointer + 1 })
  | .left => (.executed .left, { machine with dataPointer := machine.dataPointer - 1 })
  | .increment => (.executed .increment, machine.store (machine.dataByte + 1))
  | .decrement => (.executed .decrement, machine.store (machine.dataByte - 1))
  | .openLoop =>
      if machine.dataByte = 0 then machine.jump .rightward
      else (.executed .openLoop, machine)
  | .closeLoop =>
      if machine.dataByte = 0 then (.executed .closeLoop, machine)
      else machine.jump .leftward
  | .input =>
      match machine.input with
      | [] => (.executed .input, machine.store machine.options.endByte.toByte)
      | byte :: rest => (.executed .input, { machine with input := rest }.store byte)
  | .output =>
      (.executed .output, { machine with output := machine.output ++ [machine.dataByte] })
  | .stop => (.halted .stopped, { machine with halt := some .stopped })

def reach (machine : HarvardMachine) (address : Int) : HarvardMachine :=
  { machine with programPointer := address, stepCount := machine.stepCount + 1 }

def step (machine : HarvardMachine) : Outcome × HarvardMachine :=
  if machine.halt.isSome then
    (.idle, machine)
  else if machine.options.limit < machine.stepCount + 1 then
    { machine with stepCount := machine.stepCount + 1 }.fail .limitExceeded
  else
    (machine.reach machine.nextCommand.1).execute machine.nextCommand.2

/-- The code and the data of an interpreter on one tape. -/
def join (machine : HarvardMachine) : UnboundedMachine where
  options := machine.options
  cells := codeAndData machine.code machine.data
  programPointer := machine.programPointer
  dataPointer := machine.dataPointer
  input := machine.input
  output := machine.output
  diagnostics := machine.diagnostics
  stepCount := machine.stepCount
  halt := machine.halt

/-- What stays true of an interpreter for a program. -/
structure Runs (program : List UInt8) (machine : HarvardMachine) : Prop where
  code : machine.code = program
  table : machine.table = bracketTable program
  fromStart : -1 ≤ machine.programPointer
  toEnd : machine.programPointer ≤ program.length
  inside : machine.halt = none → machine.programPointer < program.length
  matched : ∀ direction, machine.halt ≠ some (.faulted (Machine.unmatched direction))

theorem Runs.of_eq {program : List UInt8} {machine next : HarvardMachine}
    (runs : Runs program machine) (code : next.code = machine.code)
    (table : next.table = machine.table)
    (programPointer : next.programPointer = machine.programPointer)
    (halt : next.halt = machine.halt) : Runs program next := by
  constructor <;> simp only [code, table, programPointer, halt]
  · exact runs.code
  · exact runs.table
  · exact runs.fromStart
  · exact runs.toEnd
  · exact runs.inside
  · exact runs.matched

section Fetch

variable {program : List UInt8}

structure Finds (program : List UInt8) (start : Int) (found : Int × Command) : Prop where
  behind : start ≤ found.1
  inside : found.1 ≤ program.length
  none : NoCommands (programCells program) start found.1
  command : Command.ofByte? (programCells program found.1) = some found.2

theorem finds_firstCommand {start : Nat} (within : start ≤ program.length) :
    Finds program start (firstCommand start (program.drop start)) := by
  refine suffix_induction (motive := fun address rest =>
    Finds program address (firstCommand address rest)) ?_ ?_ start within
  · refine ⟨Int.le_refl _, Int.le_refl _, ?_, ?_⟩
    · intro address behind before
      simp only [firstCommand] at before
      omega
    · simp [firstCommand, programCells_of_length_le (Int.le_refl _)]
  · intro address byte rest inside here later
    unfold firstCommand
    split
    · rename_i command found
      refine ⟨Int.le_refl _, Int.le_of_lt inside, ?_, by rw [here, found]⟩
      intro between behind before
      dsimp only at before
      omega
    · rename_i noCommand
      have behind := later.behind
      refine ⟨by omega, later.inside, ?_, later.command⟩
      intro between fromHere before
      by_cases atHere : between = address
      · rw [atHere, here, noCommand]
      · exact later.none between (by omega) before

theorem Runs.finds {machine : HarvardMachine} (runs : Runs program machine)
    (running : machine.halt = none) :
    Finds program (machine.programPointer + 1) machine.nextCommand := by
  have fromStart := runs.fromStart
  have inside := runs.inside running
  have start : ((machine.programPointer + 1).toNat : Int) = machine.programPointer + 1 := by omega
  have found : Finds program (machine.programPointer + 1).toNat _ :=
    finds_firstCommand (by omega)
  rw [start] at found
  rw [nextCommand, runs.code]
  exact found

end Fetch

section Execute

variable {program : List UInt8} {machine : HarvardMachine}

theorem dataByte_join (negative : machine.dataPointer < 0) :
    machine.join.dataByte = machine.dataByte :=
  codeAndData_of_neg negative

theorem join_store (negative : machine.dataPointer < 0) (value : UInt8) :
    (machine.store value).join = machine.join.store value := by
  simp only [join, store, UnboundedMachine.store, codeAndData_update negative]

theorem partner_join (partnered : Partnered program) (data : Int → UInt8)
    {direction : Tape.Direction} {address : Int}
    (bracket : Command.ofByte? (programCells program address) = some direction.bracket) :
    ∃ partner, (bracketTable program).lookup address = some partner ∧
      IsPartner (codeAndData program data) direction address partner ∧
      0 ≤ partner ∧ partner < program.length := by
  obtain ⟨partner, found, isPartner⟩ := partnered.lookup bracket
  cases direction with
  | rightward =>
      have matched := isPartner.matched_rightward bracket
      obtain ⟨nonneg, -⟩ := inside_of_command matched.opens (by decide)
      exact ⟨partner, found, (matched.codeAndData data nonneg).isPartner_rightward,
        inside_of_command matched.closes (by decide)⟩
  | leftward =>
      have matched := isPartner.matched_leftward bracket
      have inside := inside_of_command matched.opens (by decide)
      exact ⟨partner, found, (matched.codeAndData data inside.1).isPartner_leftward, inside⟩

/-- The table takes a bracket where its partner is. -/
theorem jump_eq (partnered : Partnered program) (runs : Runs program machine)
    (direction : Tape.Direction)
    (bracket : Command.ofByte? (programCells program machine.programPointer) =
      some direction.bracket) :
    ∃ partner, IsPartner machine.join.cells direction machine.programPointer partner ∧
      machine.jump direction =
        (.executed direction.bracket, { machine with programPointer := partner }) ∧
      Runs program { machine with programPointer := partner } := by
  obtain ⟨partner, found, isPartner, nonneg, inside⟩ :=
    partner_join partnered machine.data bracket
  refine ⟨partner, ?_, ?_, ?_⟩
  · rw [join, runs.code]
    exact isPartner
  · rw [jump, runs.table, found]
  · exact ⟨runs.code, runs.table, by dsimp only; omega, by dsimp only; omega, fun _ => inside,
      runs.matched⟩

/-- A command does the same on one tape as it does to code and data apart, if it
uses the data at a negative address. -/
theorem execute_eq (partnered : Partnered program) (runs : Runs program machine)
    {command : Command}
    (found : Command.ofByte? (programCells program machine.programPointer) = some command)
    (goesOn : command ≠ .stop) {outcome : Outcome} {next : UnboundedMachine}
    (executes : machine.join.Executes command outcome next)
    (beside : outcome = .executed command → command.usesData → machine.dataPointer < 0) :
    outcome = (machine.execute command).1 ∧ next = (machine.execute command).2.join ∧
      Runs program (machine.execute command).2 := by
  cases executes with
  | right | left =>
      exact ⟨rfl, rfl, runs.of_eq rfl rfl rfl rfl⟩
  | increment | decrement =>
      have negative := beside rfl rfl
      rw [execute, join_store negative, dataByte_join negative]
      exact ⟨rfl, rfl, runs.of_eq rfl rfl rfl rfl⟩
  | enterLoop nonzero =>
      rw [dataByte_join (beside rfl rfl)] at nonzero
      rw [execute, if_neg nonzero]
      exact ⟨rfl, rfl, runs⟩
  | skipLoop zero isPartner =>
      rw [dataByte_join (beside rfl rfl)] at zero
      obtain ⟨partner, isOther, jumps, runsOn⟩ := jump_eq partnered runs .rightward found
      rw [execute, if_pos zero, jumps, isPartner.unique isOther]
      exact ⟨rfl, rfl, runsOn⟩
  | unmatchedOpen zero alone =>
      -- This does not depend on the data, so the data pointer may be anywhere.
      obtain ⟨partner, isPartner, -⟩ := jump_eq partnered runs .rightward found
      exact absurd isPartner (alone partner)
  | leaveLoop zero =>
      rw [dataByte_join (beside rfl rfl)] at zero
      rw [execute, if_pos zero]
      exact ⟨rfl, rfl, runs⟩
  | repeatLoop nonzero isPartner =>
      rw [dataByte_join (beside rfl rfl)] at nonzero
      obtain ⟨partner, isOther, jumps, runsOn⟩ := jump_eq partnered runs .leftward found
      rw [execute, if_neg nonzero, jumps, isPartner.unique isOther]
      exact ⟨rfl, rfl, runsOn⟩
  | unmatchedClose nonzero alone =>
      obtain ⟨partner, isPartner, -⟩ := jump_eq partnered runs .leftward found
      exact absurd isPartner (alone partner)
  | @input byte rest available =>
      have negative : { machine with input := rest }.dataPointer < 0 := beside rfl rfl
      have unread : machine.input = byte :: rest := available
      rw [execute, unread]
      dsimp only
      rw [join_store negative]
      exact ⟨rfl, rfl, runs.of_eq rfl rfl rfl rfl⟩
  | inputEnd exhausted =>
      have unread : machine.input = [] := exhausted
      rw [execute, unread]
      dsimp only
      rw [join_store (beside rfl rfl)]
      exact ⟨rfl, rfl, runs.of_eq rfl rfl rfl rfl⟩
  | output =>
      rw [dataByte_join (beside rfl rfl)]
      exact ⟨rfl, rfl, runs.of_eq rfl rfl rfl rfl⟩
  | stop => contradiction

end Execute

section Step

variable {program : List UInt8} {machine : HarvardMachine}

theorem Runs.reach (runs : Runs program machine) {address : Int} (behind : -1 ≤ address)
    (inside : address < program.length) : Runs program (machine.reach address) :=
  ⟨runs.code, runs.table, behind, Int.le_of_lt inside, fun _ => inside, runs.matched⟩

theorem Runs.isNextCommand (runs : Runs program machine) (running : machine.halt = none) :
    IsNextCommand machine.join.cells machine.programPointer machine.nextCommand.1
      machine.nextCommand.2 := by
  have finds := runs.finds running
  have behind := finds.behind
  rw [join, runs.code]
  exact isNextCommand_codeAndData runs.fromStart (by omega) finds.none finds.command

theorem step_idle {reason : Halt} (halted : machine.halt = some reason) :
    machine.step = (.idle, machine) :=
  if_pos (by simp [halted])

theorem step_limitExceeded (running : machine.halt = none)
    (exceeded : machine.options.limit < machine.stepCount + 1) :
    machine.step =
      { machine with stepCount := machine.stepCount + 1 }.fail .limitExceeded := by
  rw [step, if_neg (by simp [running]), if_pos exceeded]

theorem step_command (running : machine.halt = none)
    (allowed : machine.stepCount + 1 ≤ machine.options.limit) :
    machine.step = (machine.reach machine.nextCommand.1).execute machine.nextCommand.2 := by
  rw [step, if_neg (by simp [running]), if_neg (Nat.not_lt.mpr allowed)]

theorem Runs.limitExceeded (runs : Runs program machine) :
    Runs program (machine.fail .limitExceeded).2 := by
  refine ⟨runs.code, runs.table, runs.fromStart, runs.toEnd, by simp [fail], ?_⟩
  intro direction
  cases direction <;> simp [fail, Machine.unmatched]

theorem Runs.stop (runs : Runs program machine) {address : Int} (behind : -1 ≤ address)
    (inside : address ≤ program.length) :
    Runs program ((machine.reach address).execute .stop).2 :=
  ⟨runs.code, runs.table, behind, inside, by simp [execute], by simp [execute]⟩

theorem step_eq (partnered : Partnered program) (runs : Runs program machine)
    {outcome : Outcome} {next : UnboundedMachine} (step : machine.join.Step outcome next)
    (beside : ∀ command, outcome = .executed command → command.usesData →
      machine.dataPointer < 0) :
    outcome = machine.step.1 ∧ next = machine.step.2.join ∧ Runs program machine.step.2 := by
  cases step with
  | idle halted =>
      rw [step_idle halted]
      exact ⟨rfl, rfl, runs⟩
  | limitExceeded running exceeded =>
      rw [step_limitExceeded running exceeded]
      exact ⟨rfl, rfl, Runs.limitExceeded (runs.of_eq rfl rfl rfl rfl)⟩
  | command running allowed found executes =>
      have fromStart := runs.fromStart
      have finds := runs.finds running
      have behind := finds.behind
      obtain ⟨rfl, rfl⟩ := found.unique (runs.isNextCommand running)
      rw [step_command running allowed]
      by_cases stops : machine.nextCommand.2 = .stop
      · rw [stops] at executes ⊢
        cases executes
        exact ⟨rfl, rfl, runs.stop (by omega) finds.inside⟩
      · have inside := inside_of_command finds.command stops
        exact execute_eq partnered (runs.reach (by omega) inside.2) finds.command stops executes
          (beside machine.nextCommand.2)

end Step

def steps (count : Nat) (machine : HarvardMachine) : HarvardMachine :=
  Nat.repeat (fun machine => machine.step.2) count machine

end HarvardMachine

namespace Machine

/-- A machine is in the state of an interpreter, with the data at the negative
addresses. -/
structure Mirrors (machine : Machine) (reference : HarvardMachine) : Prop where
  programPointer : machine.programPointer = reference.programPointer
  dataPointer : machine.dataPointer = reference.dataPointer
  data : ∀ address < 0, machine.tape.get address = reference.data address
  input : machine.input.unread = reference.input
  output : machine.output.unread = reference.output
  diagnostics : machine.diagnostics.unread = reference.diagnostics
  stepCount : machine.stepCount = reference.stepCount
  halt : machine.halt = reference.halt

/-- A machine and an interpreter have come as far as each other. -/
structure Lockstep (program : List UInt8) (machine : Machine)
    (reference : HarvardMachine) : Prop where
  sound : machine.Sound
  same : machine.idealize = reference.join
  runs : reference.Runs program

section Lockstep

variable {program : List UInt8} {machine : Machine} {reference : HarvardMachine}

theorem lockstep_load {options : Options} (raw : options.decodeEscapes = false)
    (input : List UInt8) :
    Lockstep program ((load program options).feed input)
      ((HarvardMachine.load program options).feed input) := by
  have sound := sound_load program options
  have agrees := (agrees_load program options).feed sound input
  have running : ((load program options).feed input).halt = none := by
    obtain ⟨_, _, fresh⟩ := load_fresh program options
    rw [fresh]
    rfl
  refine ⟨sound.feed input, ?_, ?_⟩
  · rw [← agrees.eq_of_running running]
    simp only [UnboundedMachine.load, UnboundedMachine.feed, HarvardMachine.join,
      HarvardMachine.load, HarvardMachine.feed, loadedProgram_plain (.inl raw),
      loadDiagnostics_plain (.inl raw), codeAndData_blank]
  · refine ⟨rfl, rfl, Int.le_refl (-1), ?_, ?_, ?_⟩
    all_goals
      simp only [HarvardMachine.feed, HarvardMachine.load]
    · omega
    · omega
    · simp

theorem Lockstep.step (lockstep : Lockstep program machine reference)
    (partnered : Partnered program)
    (beside : ∀ command, machine.step.1 = .executed command → command.usesData →
      machine.dataPointer < 0) :
    machine.step.1 = reference.step.1 ∧ Lockstep program machine.step.2 reference.step.2 := by
  have samePointer : machine.dataPointer = reference.dataPointer :=
    congrArg UnboundedMachine.dataPointer lockstep.same
  obtain ⟨next, stepped, agrees⟩ := step_refines lockstep.sound
  rw [lockstep.same] at stepped
  rw [samePointer] at beside
  obtain ⟨outcome, rfl, runs⟩ := HarvardMachine.step_eq partnered lockstep.runs stepped beside
  have halt : machine.step.2.halt = reference.step.2.halt := agrees.halt
  have same := agrees.eq_idealize (halt ▸ runs.matched .rightward) (halt ▸ runs.matched .leftward)
  exact ⟨outcome, lockstep.sound.step, same.symm, runs⟩

theorem Lockstep.mirrors (lockstep : Lockstep program machine reference) :
    machine.Mirrors reference := by
  have same := lockstep.same
  refine ⟨congrArg (·.programPointer) same, congrArg (·.dataPointer) same, ?_,
    congrArg (·.input) same, congrArg (·.output) same, congrArg (·.diagnostics) same,
    congrArg (·.stepCount) same, congrArg (·.halt) same⟩
  intro address negative
  have cell : machine.tape.get address = codeAndData reference.code reference.data address :=
    congrArg (·.cells address) same
  rw [cell, codeAndData_of_neg negative]

theorem Lockstep.get_program (lockstep : Lockstep program machine reference) {position : Nat}
    (bound : position < program.length) : machine.tape.get position = program[position] := by
  have cell : machine.tape.get position = codeAndData reference.code reference.data position :=
    congrArg (·.cells position) lockstep.same
  rw [cell, lockstep.runs.code]
  change program[position]?.getD 0 = program[position]
  simp [bound]

theorem lockstep_steps (partnered : Partnered program)
    (lockstep : Lockstep program machine reference) {count : Nat}
    (beside : ∀ index < count, ∀ command, (machine.steps index).step.1 = .executed command →
      command.usesData → (machine.steps index).dataPointer < 0)
    (index : Nat) (within : index ≤ count) :
    Lockstep program (machine.steps index) (reference.steps index) := by
  induction index with
  | zero => exact lockstep
  | succ index ih => exact ((ih (by omega)).step partnered (beside index (by omega))).2

end Lockstep

/-- A machine whose program uses the data at negative addresses only takes the
steps of an interpreter that keeps its code apart and has a table of the
brackets, for as long as that holds. -/
theorem lockstep_harvard {program : List UInt8} (partnered : Partnered program)
    (input : List UInt8) {options : Options} (raw : options.decodeEscapes = false) (count : Nat)
    (beside : ∀ index < count, ∀ command,
      (((load program options).feed input).steps index).step.1 = .executed command →
      command.usesData → (((load program options).feed input).steps index).dataPointer < 0)
    (index : Nat) (within : index ≤ count) :
    let machine := ((load program options).feed input).steps index
    let reference := ((HarvardMachine.load program options).feed input).steps index
    machine.Mirrors reference ∧ (index < count → machine.step.1 = reference.step.1) ∧
      (∀ position, (bound : position < program.length) →
        machine.tape.get position = program[position]) ∧
      (-1 ≤ machine.programPointer ∧ machine.programPointer ≤ program.length) ∧
      machine.halt ≠ some (.faulted .unmatchedOpen) ∧
      machine.halt ≠ some (.faulted .unmatchedClose) := by
  have lockstep := lockstep_steps partnered (lockstep_load raw input) beside index within
  have mirrors := lockstep.mirrors
  have runs := lockstep.runs
  refine ⟨mirrors, ?_, fun position bound => lockstep.get_program bound, ?_, ?_, ?_⟩
  · intro before
    exact (lockstep.step partnered (beside index before)).1
  · rw [mirrors.programPointer]
    exact ⟨runs.fromStart, runs.toEnd⟩
  · rw [mirrors.halt]
    exact runs.matched .rightward
  · rw [mirrors.halt]
    exact runs.matched .leftward

/-- Read a byte and count it down. -/
def countdown : List UInt8 :=
  ['<', ',', '[', '-', ']'].map Char.toUInt8

theorem matched_countdown : Matched (programCells countdown) 2 4 := by
  refine ⟨by decide, by decide, ?_⟩
  intro address behind before
  obtain rfl | rfl : address = 2 ∨ address = 3 := by omega
  · decide
  · decide

theorem partnered_countdown : Partnered countdown := by
  intro direction address bracket
  have inside := inside_of_command bracket (by cases direction <;> decide)
  have length : countdown.length = 5 := rfl
  obtain rfl | rfl | rfl | rfl | rfl : address = 0 ∨ address = 1 ∨ address = 2 ∨ address = 3 ∨
    address = 4 := by omega
  all_goals cases direction
  case inr.inr.inl.rightward => exact ⟨4, matched_countdown.isPartner_rightward⟩
  case inr.inr.inr.inr.leftward => exact ⟨2, matched_countdown.isPartner_leftward⟩
  all_goals exact absurd bracket (by decide)

/-- The byte that is read stands next to the code and is a bracket. -/
theorem lockstep_countdown :
    Partnered countdown ∧
      (((load countdown { decodeEscapes := false }).feed [93]).steps 6).Mirrors
        (((HarvardMachine.load countdown { decodeEscapes := false }).feed [93]).steps 6) := by
  have places : ∀ index < 6,
      (((load countdown { decodeEscapes := false }).feed [93]).steps index).step.1 =
        .executed .left ∨
      (((load countdown { decodeEscapes := false }).feed [93]).steps index).dataPointer < 0 := by
    decide
  refine ⟨partnered_countdown, (lockstep_harvard partnered_countdown [93] rfl 6 ?_ 6 ?_).1⟩
  · intro index within command executed uses
    rcases places index within with left | negative
    · obtain rfl := Outcome.executed.inj (left.symm.trans executed)
      contradiction
    · exact negative
  · exact Nat.le_refl 6

end Machine
end OneTape
