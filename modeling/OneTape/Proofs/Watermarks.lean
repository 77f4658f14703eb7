import OneTape.Proofs.BracketDepth
import OneTape.Proofs.SoundMachine

/-!
# Watermarks

A machine stores exactly the addresses that it tracks, and its watermarks are
exact: they enclose the program and every place where the data pointer has been,
and no more.  Only the stop command may be fetched from beyond them, which tracks
one address more and ends the run.

The empty program is a case of its own.  Its first step finds the stop command at
address zero, which is tracked from the beginning, so nothing is ever stored.
-/

namespace OneTape

/-- A step came to a command, and either executed it or halted at it. -/
def Outcome.isCommand : Outcome → Bool
  | executed _ => true
  | halted (.faulted .limitExceeded) => false
  | halted _ => true
  | idle => false

namespace Machine

section Trail

/-- The lowest place of the data pointer, which starts at zero, along some steps. -/
def leastVisited (trail : List (Outcome × Machine)) : Int :=
  trail.foldl (fun least entry => min least entry.2.dataPointer) 0

def greatestVisited (trail : List (Outcome × Machine)) : Int :=
  trail.foldl (fun greatest entry => max greatest entry.2.dataPointer) 0

def started (trail : List (Outcome × Machine)) : Bool :=
  trail.any fun entry => entry.1.isCommand

variable (trail : List (Outcome × Machine)) (entry : Outcome × Machine)

@[simp]
theorem leastVisited_concat :
    leastVisited (trail ++ [entry]) = min (leastVisited trail) entry.2.dataPointer := by
  simp [leastVisited]

@[simp]
theorem greatestVisited_concat :
    greatestVisited (trail ++ [entry]) = max (greatestVisited trail) entry.2.dataPointer := by
  simp [greatestVisited]

@[simp]
theorem started_concat : started (trail ++ [entry]) = (started trail || entry.1.isCommand) := by
  simp [started]

/-- The highest address of a program and of all places of the data pointer. -/
def extent (program : List UInt8) : Int :=
  max ((program.length : Int) - 1) (greatestVisited trail)

theorem extent_concat (program : List UInt8) :
    extent (trail ++ [entry]) program = max (extent trail program) entry.2.dataPointer := by
  simp only [extent, greatestVisited_concat]
  omega

end Trail

section Fetch

variable {machine : Machine}

/-- Outside the tracked range only the stop command can be fetched, and only from
the address next to it. -/
theorem fetch_cases (blank : machine.tape.BlankOutside)
    (toHigh : machine.programPointer ≤ machine.tape.high) :
    (machine.fetch.2.programPointer ≤ machine.tape.high ∧
        machine.fetch.2.tape = machine.tape) ∨
      (machine.fetch.2.programPointer = machine.tape.high + 1 ∧ machine.fetch.1 = .stop ∧
        machine.fetch.2.tape = machine.tape.touch (machine.tape.high + 1)) := by
  have ends : machine.tape.commandAt? (machine.tape.high + 1) = some .stop := by
    rw [Tape.commandAt?, blank _ (by omega), Command.ofByte?_zero]
  have found := machine.tape.commandAt?_nextCommand machine.programPointer
  have noneBefore : ¬ machine.tape.high + 1 < machine.fetch.2.programPointer := by
    intro passed
    have none := machine.tape.commandAt?_eq_none_of_lt_firstCommand _
      (by omega : machine.programPointer + 1 ≤ machine.tape.high + 1) passed
    simp [ends] at none
  by_cases inside : machine.fetch.2.programPointer ≤ machine.tape.high
  · exact .inl ⟨inside, if_neg (Int.not_lt.mpr inside)⟩
  · have next : machine.fetch.2.programPointer = machine.tape.high + 1 := by omega
    refine .inr ⟨next, ?_, ?_⟩
    · change machine.tape.commandAt? machine.fetch.2.programPointer = some machine.fetch.1 at found
      rw [next, ends] at found
      exact (Option.some.inj found).symm
    · rw [← next]
      exact if_pos (Int.not_le.mp inside)

theorem fetch_blank (blank : machine.tape = .blank) (atStart : machine.programPointer = -1) :
    machine.fetch = (.stop, { machine with programPointer := 0 }) := by
  have found : Tape.blank.nextCommand (-1) = (0, .stop) := by decide
  unfold fetch
  rw [blank, atStart, found]
  rfl

end Fetch

/-- A tape stores what it tracks, both pointers included. -/
structure Ranged (machine : Machine) : Prop where
  exact : machine.tape.Exact
  fromLow : machine.tape.low ≤ machine.programPointer
  toHigh : machine.programPointer ≤ machine.tape.high
  dataFromLow : machine.tape.low ≤ machine.dataPointer
  dataToHigh : machine.dataPointer ≤ machine.tape.high

/-- What a command does to the ranges when the run goes on. -/
structure Settles (before after : Machine) : Prop where
  ranged : after.Ranged
  low : after.tape.low = min before.tape.low after.dataPointer
  high : after.tape.high = max before.tape.high after.dataPointer
  halt : after.halt = before.halt

structure StopsUnmatched (direction : Tape.Direction) (before after : Machine) : Prop where
  tape : after.tape = before.tape
  dataPointer : after.dataPointer = before.dataPointer
  past : after.programPointer = direction.pastRange before.tape
  halt : after.halt = some (.faulted (unmatched direction))

/-- What a fetched command, other than the stop command, can do to the ranges. -/
inductive Effect (before : Machine) : Outcome × Machine → Prop where
  | settles {command : Command} {after : Machine} (settles : Settles before after) :
      Effect before (.executed command, after)
  | unmatched {direction : Tape.Direction} {after : Machine}
      (stops : StopsUnmatched direction before after) :
      Effect before (.halted (.faulted (unmatched direction)), after)

section Execute

variable {machine : Machine}

/-- The end of a step settles the ranges, whatever the step has done to the
pointers and the bytes. -/
theorem effect_complete {before : Machine} (exact : machine.tape.Exact)
    (low : machine.tape.low = before.tape.low) (high : machine.tape.high = before.tape.high)
    (fromLow : before.tape.low ≤ machine.programPointer)
    (toHigh : machine.programPointer ≤ before.tape.high) (halt : machine.halt = before.halt)
    (command : Command) : Effect before (machine.complete command) := by
  have touchedLow := machine.tape.low_touch machine.dataPointer
  have touchedHigh := machine.tape.high_touch machine.dataPointer
  rw [low] at touchedLow
  rw [high] at touchedHigh
  refine .settles ⟨⟨exact.touch machine.dataPointer, ?_, ?_, ?_, ?_⟩, touchedLow, touchedHigh,
    halt⟩
  all_goals
    dsimp only
    omega

theorem Ranged.jump (ranged : machine.Ranged) {direction : Tape.Direction}
    (bracket : machine.currentCommand? = some direction.bracket) :
    Effect machine (machine.jump direction) := by
  unfold Machine.jump
  split
  · rename_i partner found
    obtain ⟨partnerFromLow, partnerToHigh⟩ :=
      Tape.tracked_of_partner?_eq_some found bracket ranged.fromLow ranged.toHigh
    apply effect_complete
    case exact => exact ranged.exact
    case fromLow => exact partnerFromLow
    case toHigh => exact partnerToHigh
    all_goals rfl
  · exact .unmatched ⟨rfl, rfl, rfl, rfl⟩

theorem Ranged.execute (ranged : machine.Ranged) {command : Command}
    (current : machine.currentCommand? = some command) (goesOn : command ≠ .stop) :
    Effect machine (machine.execute command) := by
  have completes : ∀ command, Effect machine (machine.complete command) :=
    effect_complete ranged.exact rfl rfl ranged.fromLow ranged.toHigh rfl
  cases command with
  | right | left | output =>
      apply effect_complete
      case exact => exact ranged.exact
      case fromLow => exact ranged.fromLow
      case toHigh => exact ranged.toHigh
      all_goals rfl
  | increment | decrement | input =>
      apply effect_complete
      case exact => exact ranged.exact.set ranged.dataFromLow ranged.dataToHigh _
      case fromLow => exact ranged.fromLow
      case toHigh => exact ranged.toHigh
      all_goals rfl
  | openLoop =>
      unfold Machine.execute
      dsimp only
      split
      · exact ranged.jump current
      · exact completes _
  | closeLoop =>
      unfold Machine.execute
      dsimp only
      split
      · exact completes _
      · exact ranged.jump current
  | stop => contradiction

end Execute

/-- Where the program pointer is, before and after the first command. -/
inductive Points (tape : Tape) (halt : Option Halt) (pointer : Int) : Bool → Prop where
  | ahead (atStart : pointer = -1) (fromZero : tape.low = 0)
      (unhalted : halt = none ∨ halt = some (.faulted .limitExceeded)) :
      Points tape halt pointer false
  | inside (fromLow : tape.low ≤ pointer) (toHigh : pointer ≤ tape.high)
      (matched : ∀ direction, halt ≠ some (.faulted (unmatched direction))) :
      Points tape halt pointer true
  | past (direction : Tape.Direction) (halted : halt = some (.faulted (unmatched direction)))
      (past : pointer = direction.pastRange tape) : Points tape halt pointer true

section Points

variable {tape : Tape} {pointer : Int} {begun : Bool}

theorem Points.limitExceeded (points : Points tape none pointer begun) :
    Points tape (some (.faulted .limitExceeded)) pointer begun := by
  cases points with
  | ahead atStart fromZero => exact .ahead atStart fromZero (.inr rfl)
  | inside fromLow toHigh =>
      refine .inside fromLow toHigh ?_
      intro direction
      cases direction <;> simp [unmatched]
  | past _ halted => contradiction

theorem Points.bounds (points : Points tape none pointer begun) (ordered : tape.low ≤ tape.high) :
    tape.low - 1 ≤ pointer ∧ pointer ≤ tape.high := by
  cases points with
  | ahead => omega
  | inside => omega
  | past _ halted => contradiction

theorem Points.exceptions {halt : Option Halt} (points : Points tape halt pointer begun) :
    (begun = false → pointer = -1) ∧
      (halt = some (.faulted .unmatchedOpen) → pointer = tape.high + 1) ∧
      (halt = some (.faulted .unmatchedClose) → pointer = tape.low - 1) ∧
      ((tape.low ≤ pointer ∧ pointer ≤ tape.high) ↔
        begun = true ∧ halt ≠ some (.faulted .unmatchedOpen) ∧
          halt ≠ some (.faulted .unmatchedClose)) := by
  cases points with
  | ahead atStart fromZero unhalted =>
      rcases unhalted with rfl | rfl <;> simp [atStart, fromZero]
  | inside fromLow toHigh matched =>
      have notOpen : halt ≠ some (.faulted .unmatchedOpen) := matched .rightward
      have notClose : halt ≠ some (.faulted .unmatchedClose) := matched .leftward
      simp [fromLow, toHigh, notOpen, notClose]
  | past direction halted past =>
      cases direction with
      | rightward =>
          have beyond : pointer = tape.high + 1 := past
          refine ⟨by simp, fun _ => beyond, by simp [halted, unmatched], ?_⟩
          exact iff_of_false (by omega) (by simp [halted, unmatched])
      | leftward =>
          have below : pointer = tape.low - 1 := past
          refine ⟨by simp, by simp [halted, unmatched], fun _ => below, ?_⟩
          exact iff_of_false (by omega) (by simp [halted, unmatched])

end Points

/-- What a machine has stored: the tracked range, or nothing for an empty program. -/
def Stored (program : List UInt8) (machine : Machine) : Prop :=
  machine.tape.Exact ∨
    program = [] ∧ machine.tape = .blank ∧ (machine.halt = none → machine.programPointer = -1)

theorem Stored.of_halted {program : List UInt8} {machine final : Machine}
    (stored : machine.Stored program) (tape : final.tape = machine.tape)
    (halted : final.halt ≠ none) : final.Stored program := by
  rcases stored with exact | ⟨empty, blank, -⟩
  · exact .inl (tape ▸ exact)
  · exact .inr ⟨empty, tape.trans blank, fun running => absurd running halted⟩

/-- The highest tracked address.  A stop command right behind the extent is
tracked when it is fetched. -/
def highest (trail : List (Outcome × Machine)) (program : List UInt8) (machine : Machine) : Int :=
  if machine.halt = some .stopped ∧ machine.programPointer = extent trail program + 1 then
    extent trail program + 1
  else
    extent trail program

/-- The ranges of a machine are what the steps behind it make them. -/
structure Tracked (program : List UInt8) (trail : List (Outcome × Machine))
    (machine : Machine) : Prop where
  stored : machine.Stored program
  low : machine.tape.low = leastVisited trail
  high : machine.tape.high = highest trail program machine
  fromLeast : leastVisited trail ≤ machine.dataPointer
  toGreatest : machine.dataPointer ≤ greatestVisited trail
  points : Points machine.tape machine.halt machine.programPointer (started trail)

theorem tracked_load (source : List UInt8) (options : Options) :
    Tracked (loadedProgram source options) [] (load source options) := by
  obtain ⟨_, _, fresh⟩ := load_fresh source options
  rw [fresh]
  refine ⟨?_, rfl, ?_, Int.le_refl 0, Int.le_refl 0, .ahead rfl rfl (.inl rfl)⟩
  · by_cases nonempty : loadedProgram source options = []
    · exact .inr ⟨nonempty, by rw [nonempty]; rfl, fun _ => rfl⟩
    · exact .inl (Tape.exact_ofProgram nonempty)
  · simp [highest, extent, greatestVisited, Tape.ofProgram]
    omega

namespace Tracked

variable {program : List UInt8} {trail : List (Outcome × Machine)} {machine : Machine}

theorem feed (tracked : Tracked program trail machine) (bytes : List UInt8) :
    Tracked program trail (machine.feed bytes) :=
  ⟨tracked.stored, tracked.low, tracked.high, tracked.fromLeast, tracked.toGreatest,
    tracked.points⟩

theorem high_of_running (tracked : Tracked program trail machine)
    (running : machine.halt = none) : machine.tape.high = extent trail program := by
  rw [tracked.high, highest, if_neg (by simp [running])]

theorem low_le_dataPointer (tracked : Tracked program trail machine) :
    machine.tape.low ≤ machine.dataPointer :=
  tracked.low ▸ tracked.fromLeast

theorem dataPointer_le_extent (tracked : Tracked program trail machine) :
    machine.dataPointer ≤ extent trail program :=
  Int.le_trans tracked.toGreatest (Int.le_max_right _ _)

theorem dataPointer_le_high (tracked : Tracked program trail machine) :
    machine.dataPointer ≤ machine.tape.high := by
  have inside := tracked.dataPointer_le_extent
  rw [tracked.high, highest]
  split <;> omega

theorem low_le_high (tracked : Tracked program trail machine) :
    machine.tape.low ≤ machine.tape.high :=
  Int.le_trans tracked.low_le_dataPointer tracked.dataPointer_le_high

/-- A step that leaves the data pointer where it was. -/
theorem still (tracked : Tracked program trail machine) {outcome : Outcome} {final : Machine}
    (dataPointer : final.dataPointer = machine.dataPointer) (stored : final.Stored program)
    (low : final.tape.low = machine.tape.low)
    (high : final.tape.high = highest trail program final)
    (points : Points final.tape final.halt final.programPointer
      (started trail || outcome.isCommand)) :
    Tracked program (trail ++ [(outcome, final)]) final := by
  have least := tracked.fromLeast
  have greatest := tracked.toGreatest
  have sameLeast : leastVisited (trail ++ [(outcome, final)]) = leastVisited trail := by
    rw [leastVisited_concat, dataPointer]
    omega
  have sameGreatest : greatestVisited (trail ++ [(outcome, final)]) = greatestVisited trail := by
    rw [greatestVisited_concat, dataPointer]
    omega
  refine ⟨stored, ?_, ?_, ?_, ?_, ?_⟩
  · rw [sameLeast, low, tracked.low]
  · simp only [highest, extent, sameGreatest]
    exact high
  · rw [sameLeast, dataPointer]
    exact least
  · rw [sameGreatest, dataPointer]
    exact greatest
  · rw [started_concat]
    exact points

theorem settles (tracked : Tracked program trail machine) (running : machine.halt = none)
    {final : Machine} (settles : Settles machine final) (command : Command) :
    Tracked program (trail ++ [(.executed command, final)]) final := by
  have runs : final.halt = none := settles.halt.trans running
  refine ⟨.inl settles.ranged.exact, ?_, ?_, ?_, ?_, ?_⟩
  · rw [leastVisited_concat, settles.low, tracked.low]
  · rw [highest, if_neg (by simp [runs]), extent_concat, settles.high,
      tracked.high_of_running running]
  · rw [leastVisited_concat]
    exact Int.min_le_right _ _
  · rw [greatestVisited_concat]
    exact Int.le_max_right _ _
  · rw [started_concat]
    simp only [Outcome.isCommand, Bool.or_true]
    exact .inside settles.ranged.fromLow settles.ranged.toHigh (by simp [runs])

theorem stopsUnmatched (tracked : Tracked program trail machine)
    (running : machine.halt = none) (exact : machine.tape.Exact) {final : Machine}
    {direction : Tape.Direction} (stops : StopsUnmatched direction machine final) :
    Tracked program (trail ++ [(.halted (.faulted (unmatched direction)), final)]) final := by
  apply tracked.still stops.dataPointer
  · exact .inl (stops.tape ▸ exact)
  · rw [stops.tape]
  · rw [stops.tape, highest, if_neg (by simp [stops.halt]), tracked.high_of_running running]
  · have isCommand : (Outcome.halted (.faulted (unmatched direction))).isCommand = true := by
      cases direction <;> rfl
    rw [isCommand, Bool.or_true]
    exact .past direction stops.halt (stops.tape ▸ stops.past)

theorem limitExceeded (tracked : Tracked program trail machine) (running : machine.halt = none)
    {final : Machine} (tape : final.tape = machine.tape)
    (dataPointer : final.dataPointer = machine.dataPointer)
    (programPointer : final.programPointer = machine.programPointer)
    (halted : final.halt = some (.faulted .limitExceeded)) :
    Tracked program (trail ++ [(.halted (.faulted .limitExceeded), final)]) final := by
  apply tracked.still dataPointer (tracked.stored.of_halted tape (by simp [halted]))
  · rw [tape]
  · rw [tape, highest, if_neg (by simp [halted]), tracked.high_of_running running]
  · simp only [Outcome.isCommand, Bool.or_false]
    rw [tape, halted, programPointer]
    exact (running ▸ tracked.points).limitExceeded

theorem stopsInside (tracked : Tracked program trail machine) (running : machine.halt = none)
    {final : Machine} (tape : final.tape = machine.tape)
    (dataPointer : final.dataPointer = machine.dataPointer) (halted : final.halt = some .stopped)
    (fromLow : machine.tape.low ≤ final.programPointer)
    (toHigh : final.programPointer ≤ machine.tape.high) :
    Tracked program (trail ++ [(.halted .stopped, final)]) final := by
  have high := tracked.high_of_running running
  apply tracked.still dataPointer (tracked.stored.of_halted tape (by simp [halted]))
  · rw [tape]
  · rw [tape, highest, if_neg (by omega), high]
  · simp only [Outcome.isCommand, Bool.or_true]
    exact .inside (tape ▸ fromLow) (tape ▸ toHigh) (by simp [halted])

theorem stopsOutside (tracked : Tracked program trail machine) (running : machine.halt = none)
    (exact : machine.tape.Exact) {final : Machine}
    (tape : final.tape = machine.tape.touch (machine.tape.high + 1))
    (dataPointer : final.dataPointer = machine.dataPointer) (halted : final.halt = some .stopped)
    (next : final.programPointer = machine.tape.high + 1) :
    Tracked program (trail ++ [(.halted .stopped, final)]) final := by
  have high := tracked.high_of_running running
  have ordered := exact.ordered
  have touchedLow : final.tape.low = machine.tape.low := by
    rw [tape, Tape.low_touch]
    omega
  have touchedHigh : final.tape.high = machine.tape.high + 1 := by
    rw [tape, Tape.high_touch]
    omega
  apply tracked.still dataPointer
  · exact .inl (tape ▸ exact.touch _)
  · exact touchedLow
  · rw [highest, if_pos ⟨halted, by omega⟩, touchedHigh, high]
  · simp only [Outcome.isCommand, Bool.or_true]
    exact .inside (by omega) (by omega) (by simp [halted])

theorem effect (tracked : Tracked program trail machine) (running : machine.halt = none)
    (exact : machine.tape.Exact) {before : Machine} (tape : before.tape = machine.tape)
    (dataPointer : before.dataPointer = machine.dataPointer) (halt : before.halt = machine.halt)
    {result : Outcome × Machine} (effect : Effect before result) :
    Tracked program (trail ++ [result]) result.2 := by
  cases effect with
  | settles settles =>
      exact tracked.settles running ⟨settles.ranged, tape ▸ settles.low, tape ▸ settles.high,
        settles.halt.trans halt⟩ _
  | unmatched stops =>
      exact tracked.stopsUnmatched running exact ⟨stops.tape.trans tape,
        stops.dataPointer.trans dataPointer, tape ▸ stops.past, stops.halt⟩

theorem command (tracked : Tracked program trail machine) (running : machine.halt = none) :
    Tracked program (trail ++ [machine.fetch.2.execute machine.fetch.1])
      (machine.fetch.2.execute machine.fetch.1).2 := by
  rcases tracked.stored with exact | ⟨-, blank, atStart⟩
  · obtain ⟨fromLow, toHigh⟩ := (running ▸ tracked.points).bounds exact.ordered
    have behind : machine.programPointer < machine.fetch.2.programPointer :=
      machine.tape.lt_nextCommand machine.programPointer
    have fetchedFromLow : machine.tape.low ≤ machine.fetch.2.programPointer := by omega
    -- Only a stop command is fetched from outside, so every other command finds
    -- both pointers tracked.
    rcases fetch_cases exact.blankOutside toHigh with ⟨inside, tape⟩ | ⟨next, stop, tape⟩
    · by_cases stop : machine.fetch.1 = .stop
      · rw [stop]
        exact tracked.stopsInside running tape rfl rfl fetchedFromLow inside
      · have ranged : machine.fetch.2.Ranged := by
          constructor <;> rw [tape]
          · exact exact
          · exact fetchedFromLow
          · exact inside
          · exact tracked.low_le_dataPointer
          · exact tracked.dataPointer_le_high
        exact tracked.effect running exact tape rfl rfl
          (ranged.execute machine.currentCommand?_fetch stop)
    · rw [stop]
      exact tracked.stopsOutside running exact tape rfl rfl next
  · -- The empty program stops at address zero, which is tracked already.
    rw [fetch_blank blank (atStart running)]
    refine tracked.stopsInside running rfl rfl rfl ?_ ?_ <;> rw [blank] <;> exact Int.le_refl 0

theorem step (tracked : Tracked program trail machine) :
    Tracked program (trail ++ [machine.step]) machine.step.2 := by
  cases status : machine.halt with
  | some reason =>
      rw [step_of_halted (isHalted_of_halt status)]
      apply tracked.still rfl tracked.stored rfl tracked.high
      simpa [Outcome.isCommand] using tracked.points
  | none =>
      have counted : Tracked program trail { machine with stepCount := machine.stepCount + 1 } :=
        ⟨tracked.stored, tracked.low, tracked.high, tracked.fromLeast, tracked.toGreatest,
          tracked.points⟩
      rw [Machine.step, if_neg (by simp [isHalted, status])]
      dsimp only
      split
      · exact counted.limitExceeded status rfl rfl rfl rfl
      · exact counted.command status

end Tracked

theorem tracked_after (source : List UInt8) (options : Options) (calls : List Call) :
    Tracked (loadedProgram source options) ((load source options).trail calls)
      ((load source options).after calls) :=
  calls_induction (Tracked (loadedProgram source options))
    (fun _ _ bytes tracked => tracked.feed bytes) (fun _ _ tracked => tracked.step) calls []
    (tracked_load source options)

/-- After any calls, a machine stores what it tracks, its watermarks are exact,
and its pointers are tracked.  The program pointer leaves the tracked range in
three cases only: before the first command, and at a bracket without partner, to
the right or to the left. -/
theorem ranges_exact (source : List UInt8) (options : Options) (calls : List Call) :
    let program := loadedProgram source options
    let trail := (load source options).trail calls
    let machine := (load source options).after calls
    let tape := machine.tape
    ((tape.row.size ≠ 0 ∧ tape.row.first = tape.low ∧ tape.row.afterLast = tape.high + 1) ∨
        (tape.row.size = 0 ∧ program = [] ∧ tape.low = 0 ∧ tape.high = 0)) ∧
      (∀ address, address < tape.low ∨ tape.high < address → tape.get address = 0) ∧
      tape.low = leastVisited trail ∧
      tape.high = highest trail program machine ∧
      (tape.low ≤ machine.dataPointer ∧ machine.dataPointer ≤ tape.high) ∧
      (started trail = false → machine.programPointer = -1) ∧
      (machine.halt = some (.faulted .unmatchedOpen) → machine.programPointer = tape.high + 1) ∧
      (machine.halt = some (.faulted .unmatchedClose) → machine.programPointer = tape.low - 1) ∧
      ((tape.low ≤ machine.programPointer ∧ machine.programPointer ≤ tape.high) ↔
        started trail = true ∧ machine.halt ≠ some (.faulted .unmatchedOpen) ∧
          machine.halt ≠ some (.faulted .unmatchedClose)) := by
  have tracked := tracked_after source options calls
  have sound := (sound_load source options).after calls
  intro program trail machine tape
  have points : Points tape machine.halt machine.programPointer (started trail) := tracked.points
  refine ⟨?_, sound.blank, tracked.low, tracked.high,
    ⟨tracked.low_le_dataPointer, tracked.dataPointer_le_high⟩, ?_⟩
  · rcases tracked.stored with exact | ⟨empty, blank, -⟩
    · exact .inl ⟨exact.size_ne_zero, exact.first, exact.afterLast⟩
    · exact .inr ⟨congrArg (·.row.size) blank, empty, congrArg Tape.low blank,
        congrArg Tape.high blank⟩
  · exact points.exceptions

end Machine
end OneTape
