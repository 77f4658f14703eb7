import OneTape.Proofs.RunsAsSteps
import OneTape.Proofs.UnboundedRefinement
import OneTape.Proofs.Watermarks
import OneTape.Snapshot

/-!
# Snapshots as observations

A snapshot shows the tracked part of the tape, and the unread part of the output
and the diagnostics.  It does not show where the bytes are stored, what stands
outside the tracked range, or what has been read.  None of this matters for what
a machine does later: two machines with the same snapshot, the same unread input,
and the same limit and end byte cannot be told apart by any calls.

Two such machines need not be equal, so the proof goes through a relation that
every call keeps.  On tapes it says that the same bytes are read everywhere and
the same range is tracked.
-/

namespace OneTape
namespace Tape

/-- Two tapes have the same bytes and track the same addresses, whatever they
store. -/
structure Alike (first second : Tape) : Prop where
  get : first.get = second.get
  low : first.low = second.low
  high : first.high = second.high

section Entries

variable {first second : Tape}

theorem Alike.entries (alike : first.Alike second) : first.entries = second.entries := by
  simp only [Tape.entries, span, alike.get, alike.low, alike.high]

theorem getElem?_entries {tape : Tape} {address : Int} (fromLow : tape.low ≤ address)
    (toHigh : address ≤ tape.high) :
    tape.entries[(address - tape.low).toNat]? = some (address, tape.get address) := by
  have index : tape.low + ((address - tape.low).toNat : Int) = address := by omega
  have bound : (address - tape.low).toNat < tape.span := by
    unfold span
    omega
  rw [entries, List.getElem?_map, List.getElem?_range bound, Option.map_some, index]

/-- The entries of a tape that is blank outside them tell all of its bytes. -/
theorem alike_of_entries_eq (same : first.entries = second.entries)
    (firstOrdered : first.low ≤ first.high) (secondOrdered : second.low ≤ second.high)
    (firstBlank : first.BlankOutside) (secondBlank : second.BlankOutside) :
    first.Alike second := by
  have low : first.low = second.low := by
    have start := getElem?_entries (Int.le_refl first.low) firstOrdered
    have alsoStart := getElem?_entries (Int.le_refl second.low) secondOrdered
    rw [Int.sub_self, ← same] at alsoStart
    rw [Int.sub_self, alsoStart] at start
    exact (congrArg Prod.fst (Option.some.inj start)).symm
  have high : first.high = second.high := by
    have lengths := congrArg List.length same
    rw [length_entries, length_entries] at lengths
    unfold span at lengths
    omega
  refine ⟨funext fun address => ?_, low, high⟩
  by_cases inside : first.low ≤ address ∧ address ≤ first.high
  · have here := getElem?_entries inside.1 inside.2
    have alsoHere := getElem?_entries (low ▸ inside.1) (high ▸ inside.2)
    rw [← same, ← low, here] at alsoHere
    exact congrArg Prod.snd (Option.some.inj alsoHere)
  · rw [firstBlank address (by omega), secondBlank address (by omega)]

end Entries

namespace Alike

variable {first second : Tape}

theorem set (alike : first.Alike second) (address : Int) (value : UInt8) :
    (first.set address value).Alike (second.set address value) := by
  refine ⟨funext fun other => ?_, alike.low, alike.high⟩
  rw [get_set, get_set, alike.get]

theorem modify (alike : first.Alike second) (address : Int) (change : UInt8 → UInt8) :
    (first.modify address change).Alike (second.modify address change) := by
  rw [Tape.modify, Tape.modify, alike.get]
  exact alike.set address _

theorem touch (alike : first.Alike second) (address : Int) :
    (first.touch address).Alike (second.touch address) := by
  refine ⟨funext fun other => ?_, ?_, ?_⟩
  · rw [get_touch, get_touch, alike.get]
  · rw [low_touch, low_touch, alike.low]
  · rw [high_touch, high_touch, alike.high]

theorem seekPartner (alike : first.Alike second) (direction : Direction) (remaining depth : Nat)
    (address : Int) :
    first.seekPartner direction remaining depth address =
      second.seekPartner direction remaining depth address := by
  have command : first.commandAt? = second.commandAt? := by
    funext other
    rw [commandAt?, commandAt?, alike.get]
  induction remaining generalizing depth address with
  | zero => rfl
  | succ remaining ih =>
      unfold Tape.seekPartner
      simp only [command, ih]

theorem partner? (alike : first.Alike second) (direction : Direction) (address : Int) :
    first.partner? direction address = second.partner? direction address := by
  have ahead : direction.ahead first address = direction.ahead second address := by
    cases direction with
    | rightward => simp only [Direction.ahead, alike.high]
    | leftward => simp only [Direction.ahead, alike.low]
  rw [Tape.partner?, Tape.partner?, ahead, alike.seekPartner]

theorem pastRange (alike : first.Alike second) (direction : Direction) :
    direction.pastRange first = direction.pastRange second := by
  cases direction with
  | rightward => simp only [Direction.pastRange, alike.high]
  | leftward => simp only [Direction.pastRange, alike.low]

end Alike
end Tape

namespace Machine

/-- Two machines that cannot be told apart. -/
structure Alike (first second : Machine) : Prop where
  tape : first.tape.Alike second.tape
  programPointer : first.programPointer = second.programPointer
  dataPointer : first.dataPointer = second.dataPointer
  input : first.input.unread = second.input.unread
  output : first.output.unread = second.output.unread
  diagnostics : first.diagnostics.unread = second.diagnostics.unread
  stepCount : first.stepCount = second.stepCount
  halt : first.halt = second.halt
  limit : first.options.limit = second.options.limit
  endByte : first.options.endByte = second.options.endByte

/-- Two steps amount to the same, and leave machines that cannot be told apart. -/
def SameResult (first second : Outcome × Machine) : Prop :=
  first.1 = second.1 ∧ first.2.Alike second.2

theorem execute_input (machine : Machine) :
    machine.execute .input =
      { machine.takeInput.2 with
        tape := machine.takeInput.2.tape.set machine.takeInput.2.dataPointer
          machine.takeInput.1 }.complete .input := rfl

namespace Alike

variable {first second : Machine}

theorem capture (alike : first.Alike second) :
    Snapshot.capture first = Snapshot.capture second := by
  simp only [Snapshot.capture, alike.programPointer, alike.dataPointer, alike.stepCount,
    alike.halt, alike.tape.entries, alike.output, alike.diagnostics]

theorem dataByte (alike : first.Alike second) : first.dataByte = second.dataByte := by
  rw [Machine.dataByte, Machine.dataByte, alike.tape.get, alike.dataPointer]

theorem feed (alike : first.Alike second) (firstBounds : first.input.InBounds)
    (secondBounds : second.input.InBounds) (bytes : List UInt8) :
    (first.feed bytes).Alike (second.feed bytes) := by
  refine { alike with input := ?_ }
  simp only [Machine.feed]
  rw [ByteQueue.unread_append firstBounds, ByteQueue.unread_append secondBounds, alike.input]

theorem fail (alike : first.Alike second) (firstBounds : first.diagnostics.InBounds)
    (secondBounds : second.diagnostics.InBounds) (fault : Fault) :
    SameResult (first.fail fault) (second.fail fault) := by
  refine ⟨rfl, { alike with diagnostics := ?_, halt := rfl }⟩
  simp only [Machine.fail, finish, ByteQueue.appendText]
  rw [ByteQueue.unread_append firstBounds, ByteQueue.unread_append secondBounds,
    alike.diagnostics]

theorem complete (alike : first.Alike second) (command : Command) :
    SameResult (first.complete command) (second.complete command) := by
  refine ⟨rfl, { alike with tape := ?_ }⟩
  simp only [Machine.complete, alike.dataPointer]
  exact alike.tape.touch second.dataPointer

theorem goTo (alike : first.Alike second) (address : Int) :
    { first with programPointer := address }.Alike { second with programPointer := address } :=
  { alike with programPointer := rfl }

theorem jump (alike : first.Alike second) (firstSound : first.Sound)
    (secondSound : second.Sound) (direction : Tape.Direction) :
    SameResult (first.jump direction) (second.jump direction) := by
  unfold Machine.jump
  rw [alike.tape.partner?, alike.tape.pastRange, alike.programPointer]
  split
  · exact (alike.goTo _).complete _
  · have gone := alike.goTo (direction.pastRange second.tape)
    exact gone.fail firstSound.diagnostics secondSound.diagnostics _

/-- The end byte is the same, and so is the next byte, whatever has been read
before it. -/
theorem takeInput (alike : first.Alike second) :
    first.takeInput.1 = second.takeInput.1 ∧ first.takeInput.2.Alike second.takeInput.2 := by
  unfold Machine.takeInput
  cases next : second.input.unread with
  | nil =>
      rw [ByteQueue.shift_of_unread_nil next,
        ByteQueue.shift_of_unread_nil (alike.input.trans next)]
      exact ⟨congrArg EndByte.toByte alike.endByte, { alike with }⟩
  | cons byte rest =>
      obtain ⟨found, left, -⟩ := ByteQueue.shift_of_unread_cons (alike.input.trans next)
      obtain ⟨alsoFound, alsoLeft, -⟩ := ByteQueue.shift_of_unread_cons next
      refine ⟨?_, { alike with input := left.trans alsoLeft.symm }⟩
      dsimp only
      rw [found, alsoFound]
      rfl

theorem execute (alike : first.Alike second) (firstSound : first.Sound)
    (secondSound : second.Sound) (command : Command) :
    SameResult (first.execute command) (second.execute command) := by
  cases command with
  | right =>
      apply complete
      exact { alike with dataPointer := congrArg (· + 1) alike.dataPointer }
  | left =>
      apply complete
      exact { alike with dataPointer := congrArg (· - 1) alike.dataPointer }
  | increment | decrement =>
      apply complete
      refine { alike with tape := ?_ }
      simp only [alike.dataPointer]
      exact alike.tape.modify second.dataPointer _
  | openLoop =>
      unfold Machine.execute
      dsimp only
      rw [alike.dataByte]
      split
      · exact alike.jump firstSound secondSound _
      · exact alike.complete _
  | closeLoop =>
      unfold Machine.execute
      dsimp only
      rw [alike.dataByte]
      split
      · exact alike.complete _
      · exact alike.jump firstSound secondSound _
  | input =>
      obtain ⟨byte, taken⟩ := alike.takeInput
      rw [execute_input, execute_input, byte, taken.dataPointer]
      apply complete
      exact { taken with tape := taken.tape.set second.takeInput.2.dataPointer _ }
  | output =>
      apply complete
      refine { alike with output := ?_ }
      simp only
      rw [ByteQueue.unread_push firstSound.output, ByteQueue.unread_push secondSound.output,
        alike.output, alike.dataByte]
  | stop => exact ⟨rfl, { alike with halt := rfl }⟩

theorem fetch (alike : first.Alike second) :
    first.fetch.1 = second.fetch.1 ∧ first.fetch.2.Alike second.fetch.2 := by
  have found := isNextCommand_fetch first
  rw [alike.tape.get, alike.programPointer] at found
  obtain ⟨pointer, command⟩ := found.unique (isNextCommand_fetch second)
  refine ⟨command, { alike with programPointer := pointer, tape := ?_ }⟩
  unfold Machine.fetch at pointer ⊢
  dsimp only at pointer ⊢
  rw [pointer, alike.tape.high]
  split
  · exact alike.tape.touch _
  · exact alike.tape

theorem step (alike : first.Alike second) (firstSound : first.Sound)
    (secondSound : second.Sound) : SameResult first.step second.step := by
  cases status : second.halt with
  | some reason =>
      have alsoStatus := alike.halt.trans status
      rw [step_of_halted (isHalted_of_halt alsoStatus),
        step_of_halted (isHalted_of_halt status)]
      exact ⟨rfl, alike⟩
  | none =>
      have alsoStatus := alike.halt.trans status
      have counted : first.counted.Alike second.counted :=
        { alike with stepCount := congrArg (· + 1) alike.stepCount }
      by_cases allowed : second.stepCount < second.options.limit
      · have alsoAllowed : first.stepCount < first.options.limit := by
          rwa [alike.stepCount, alike.limit]
        have command : first.fetch.1 = second.fetch.1 := alike.fetch.1
        rw [step_of_allowed alsoStatus alsoAllowed, step_of_allowed status allowed, command]
        exact counted.fetch.2.execute firstSound.counted.fetch secondSound.counted.fetch _
      · have exceeded := Nat.le_of_not_lt allowed
        have alsoExceeded : first.options.limit ≤ first.stepCount := by
          rwa [alike.stepCount, alike.limit]
        rw [step_of_exceeded alsoStatus alsoExceeded, step_of_exceeded status exceeded]
        exact counted.fail firstSound.diagnostics secondSound.diagnostics _

theorem steps (alike : first.Alike second) (firstSound : first.Sound)
    (secondSound : second.Sound) (count : Nat) :
    (first.steps count).Alike (second.steps count) := by
  induction count with
  | zero => exact alike
  | succ count ih => exact (ih.step (firstSound.steps count) (secondSound.steps count)).2

theorem run (alike : first.Alike second) (firstSound : first.Sound)
    (secondSound : second.Sound) : first.run.Alike second.run := by
  have remaining : first.remainingSteps = second.remainingSteps := by
    rw [remainingSteps, remainingSteps, alike.limit, alike.stepCount]
  rw [Machine.run, Machine.run, advance_eq_steps, advance_eq_steps, remaining]
  exact alike.steps firstSound secondSound second.remainingSteps

theorem call (alike : first.Alike second) (firstSound : first.Sound)
    (secondSound : second.Sound) (call : Call) :
    (first.call call).1 = (second.call call).1 ∧
      (first.call call).2.Alike (second.call call).2 := by
  cases call with
  | feed bytes => exact ⟨rfl, alike.feed firstSound.input secondSound.input bytes⟩
  | step =>
      obtain ⟨outcome, stepped⟩ := alike.step firstSound secondSound
      exact ⟨congrArg Response.stepped outcome, stepped⟩
  | run =>
      have ended := alike.run firstSound secondSound
      have reason : first.finalHalt = second.finalHalt := by
        rw [finalHalt_eq_iff, ended.halt, halt_run]
      exact ⟨congrArg Response.completed reason, ended⟩

end Alike

/-- What a user sees after a call is the same: the response, the snapshot, and the
input that is left. -/
def SameObservation (first second : Response × Machine) : Prop :=
  first.1 = second.1 ∧ Snapshot.capture first.2 = Snapshot.capture second.2 ∧
    first.2.input.unread = second.2.input.unread

theorem Alike.history {first second : Machine} (alike : first.Alike second)
    (firstSound : first.Sound) (secondSound : second.Sound) (calls : List Call) :
    List.Forall₂ SameObservation (first.history calls) (second.history calls) := by
  induction calls generalizing first second with
  | nil => exact .nil
  | cons call calls ih =>
      obtain ⟨response, called⟩ := alike.call firstSound secondSound call
      exact .cons ⟨response, called.capture, called.input⟩
        (ih called (firstSound.after [call]) (secondSound.after [call]))

theorem Reachable.low_le_high {machine : Machine} (reachable : machine.Reachable) :
    machine.tape.low ≤ machine.tape.high := by
  obtain ⟨source, options, calls, rfl⟩ := reachable
  exact (tracked_after source options calls).low_le_high

theorem alike_of_capture_eq {first second : Machine} (firstReachable : first.Reachable)
    (secondReachable : second.Reachable)
    (snapshot : Snapshot.capture first = Snapshot.capture second)
    (input : first.input.unread = second.input.unread)
    (limit : first.options.limit = second.options.limit)
    (endByte : first.options.endByte = second.options.endByte) : first.Alike second where
  tape := Tape.alike_of_entries_eq (congrArg Snapshot.entries snapshot)
    firstReachable.low_le_high secondReachable.low_le_high firstReachable.sound.blank
    secondReachable.sound.blank
  programPointer := congrArg Snapshot.programPointer snapshot
  dataPointer := congrArg Snapshot.dataPointer snapshot
  input := input
  output := congrArg Snapshot.output snapshot
  diagnostics := congrArg Snapshot.diagnostics snapshot
  stepCount := congrArg Snapshot.stepCount snapshot
  halt := congrArg Snapshot.halt snapshot
  limit := limit
  endByte := endByte

/-- Two machines with the same snapshot, the same input to come, and the same
limit and end byte are the same to a user from then on, whatever led to them. -/
theorem history_of_capture_eq {first second : Machine} (firstReachable : first.Reachable)
    (secondReachable : second.Reachable)
    (snapshot : Snapshot.capture first = Snapshot.capture second)
    (input : first.input.unread = second.input.unread)
    (limit : first.options.limit = second.options.limit)
    (endByte : first.options.endByte = second.options.endByte) (calls : List Call) :
    List.Forall₂ SameObservation (first.history calls) (second.history calls) := by
  have alike := alike_of_capture_eq firstReachable secondReachable snapshot input limit endByte
  exact alike.history firstReachable.sound secondReachable.sound calls

/-- One machine has read its first byte over its first command, the other one has
counted its first command up to the same byte. -/
theorem history_of_overwritten :
    let first := (load [44, 46] { decodeEscapes := false }).after [.feed [44, 9], .step]
    let second := (load [43, 46] {}).after [.step, .feed [9]]
    first.input ≠ second.input ∧ Snapshot.capture first = Snapshot.capture second ∧
      List.Forall₂ SameObservation (first.history [.step, .feed [7], .run])
        (second.history [.step, .feed [7], .run]) := by
  intro first second
  have snapshot : Snapshot.capture first = Snapshot.capture second := by
    decide +kernel
  have input : first.input.unread = second.input.unread := by decide
  have different : first.input ≠ second.input := by decide
  have firstReachable : first.Reachable := ⟨_, _, _, rfl⟩
  have secondReachable : second.Reachable := ⟨_, _, _, rfl⟩
  exact ⟨different, snapshot,
    history_of_capture_eq firstReachable secondReachable snapshot input rfl rfl _⟩

end Machine
end OneTape
