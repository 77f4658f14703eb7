import OneTape.Proofs.RunsAsSteps
import OneTape.Proofs.Watermarks
import OneTape.Proofs.Words

/-!
# The arithmetic of a step

Pointers and counts have no bounds here, but a machine may be made to keep them in
words.  It then matters which numbers a step computes on the way.  So a step is taken
a second time, with a note of every number: the program pointer at each address that a
search comes to, the depth of brackets after each byte, the place of an address among
the stored cells, the number of cells to be stored, the data pointer after a move, and
the step count.

Taking notes changes nothing.  All notes are bounded by the tracked range before the
step, and by the limit.
-/

namespace OneTape

/-- The numbers that a step computes. -/
inductive Quantity where
  | programPointer (value : Int)
  | dataPointer (value : Int)
  | depth (value : Int)
  /-- An address, counted from the first stored cell. -/
  | offset (value : Int)
  /-- A number of cells that storage has to have. -/
  | size (value : Nat)
  | stepCount (value : Nat)
  deriving DecidableEq

/-- The bounds of the numbers in terms of the tracked range and the limit. -/
def Quantity.Within (low high : Int) (limit : Nat) : Quantity → Prop
  | programPointer value | dataPointer value => low - 1 ≤ value ∧ value ≤ high + 1
  | depth value => (value.natAbs : Int) ≤ high + 1 - low + 1
  | offset value => 0 ≤ value ∧ value ≤ high + 1 - low
  | size value => (value : Int) ≤ high + 1 - low + 1
  | stepCount value => value ≤ limit + 1

/-- A value together with the numbers that were computed on the way to it. -/
structure Noted (α : Type) where
  value : α
  notes : List Quantity

namespace Noted

instance : Monad Noted where
  pure value := ⟨value, []⟩
  bind first next := ⟨(next first.value).value, first.notes ++ (next first.value).notes⟩

def note (quantity : Quantity) : Noted Unit :=
  ⟨(), [quantity]⟩

def noteIf (condition : Prop) [Decidable condition] (quantity : Quantity) : Noted Unit :=
  if condition then note quantity else pure ()

/-- A certain value, with nothing but allowed numbers on the way to it. -/
structure Yields {α : Type} (noted : Noted α) (allowed : Quantity → Prop) (result : α) : Prop where
  value : noted.value = result
  notes : ∀ quantity ∈ noted.notes, allowed quantity

variable {α β : Type} {allowed : Quantity → Prop}

theorem yields_pure (value : α) : (pure value : Noted α).Yields allowed value :=
  ⟨rfl, fun _ member => absurd member List.not_mem_nil⟩

theorem yields_note {quantity : Quantity} (isAllowed : allowed quantity) :
    (note quantity).Yields allowed () := by
  refine ⟨rfl, fun other member => ?_⟩
  obtain rfl := List.mem_singleton.mp member
  exact isAllowed

theorem yields_noteIf {condition : Prop} [Decidable condition] {quantity : Quantity}
    (isAllowed : condition → allowed quantity) : (noteIf condition quantity).Yields allowed () := by
  unfold noteIf
  split
  · rename_i holds
    exact yields_note (isAllowed holds)
  · exact yields_pure ()

theorem Yields.bind {first : Noted α} {next : α → Noted β} {value : α} {result : β}
    (isFirst : first.Yields allowed value) (isNext : (next value).Yields allowed result) :
    (first >>= next).Yields allowed result := by
  obtain ⟨rfl, firstNotes⟩ := isFirst
  refine ⟨isNext.value, fun quantity member => ?_⟩
  rcases List.mem_append.mp member with inFirst | inNext
  · exact firstNotes quantity inFirst
  · exact isNext.notes quantity inNext

end Noted

open Noted

/-- Grow storage as far as an address.  Cells are counted from the first one, and cells
are added behind the last one only if it is passed. -/
def ByteRow.notedReserve (row : ByteRow) (address : Int) : Noted ByteRow := do
  let offset := address - (row.reserve address).first
  note (.offset offset)
  noteIf ((row.anchor address).afterLast ≤ address) (.size (offset.toNat + 1))
  return row.reserve address

namespace Tape

def notedGet (tape : Tape) (address : Int) : Noted UInt8 := do
  note (.offset (address - tape.row.first))
  return tape.get address

def notedSet (tape : Tape) (address : Int) (value : UInt8) : Noted Tape := do
  let row ← tape.row.notedReserve address
  return { tape with row := row.replace address value }

def notedTouch (tape : Tape) (address : Int) : Noted Tape := do
  let row ← tape.row.notedReserve address
  return { tape with row }.widen address

/-- Come to an address in the search for the next command. -/
def notedPass (tape : Tape) (address : Int) : Noted (UInt8 × Tape) := do
  note (.programPointer address)
  let tape ← if tape.high < address then tape.notedTouch address else pure tape
  let byte ← tape.notedGet address
  return (byte, tape)

/-- Search for the first command among a number of addresses. -/
def notedScan (tape : Tape) : Nat → Int → Noted (Int × Command × Tape)
  | 0, address => do
      let passed ← tape.notedPass address
      return (address, .stop, passed.2)
  | remaining + 1, address => do
      let passed ← tape.notedPass address
      match Command.ofByte? passed.1 with
      | some command => return (address, command, passed.2)
      | none => passed.2.notedScan remaining (address + 1)

namespace Direction

/-- The sign with which brackets are counted in a direction. -/
def orient : Direction → Int → Int
  | rightward, value => value
  | leftward, value => -value

variable (direction : Direction) (value : Int)

theorem orient_add_nesting (byte : UInt8) :
    direction.orient value + nesting byte = direction.orient (value + direction.turn byte) := by
  cases direction with
  | rightward => rfl
  | leftward =>
      simp only [orient, turn]
      omega

theorem orient_eq_zero_iff : direction.orient value = 0 ↔ value = 0 := by
  cases direction with
  | rightward => rfl
  | leftward => exact Int.neg_eq_zero

theorem natAbs_orient : (direction.orient value).natAbs = value.natAbs := by
  cases direction with
  | rightward => rfl
  | leftward => exact Int.natAbs_neg value

end Direction

/-- Search for a partner among a number of addresses.  The depth counts opening brackets
up and closing brackets down, in either direction. -/
def notedSeek (tape : Tape) (direction : Direction) : Nat → Int → Int → Noted (Option Int)
  | 0, _, address => do
      note (.programPointer address)
      return none
  | remaining + 1, depth, address => do
      note (.programPointer address)
      let byte ← tape.notedGet address
      note (.depth (depth + nesting byte))
      if depth + nesting byte = 0 then
        return some address
      else
        tape.notedSeek direction remaining (depth + nesting byte) (direction.next address)

end Tape

namespace Machine

def notedFetch (machine : Machine) : Noted (Command × Machine) := do
  let start := machine.programPointer + 1
  let found ← machine.tape.notedScan (machine.tape.blankFrom - start).toNat start
  return (found.2.1, { machine with programPointer := found.1, tape := found.2.2 })

def notedComplete (machine : Machine) (command : Command) : Noted (Outcome × Machine) := do
  let tape ← machine.tape.notedTouch machine.dataPointer
  return (.executed command, { machine with tape })

def notedJump (machine : Machine) (direction : Tape.Direction) : Noted (Outcome × Machine) := do
  let pointer := machine.programPointer
  let found ← machine.tape.notedSeek direction (direction.ahead machine.tape pointer)
    (direction.orient 1) (direction.next pointer)
  match found with
  | some address => notedComplete { machine with programPointer := address } direction.bracket
  | none =>
      return fail { machine with programPointer := direction.pastRange machine.tape }
        (unmatched direction)

def notedMove (machine : Machine) (pointer : Int) (command : Command) :
    Noted (Outcome × Machine) := do
  note (.dataPointer pointer)
  notedComplete { machine with dataPointer := pointer } command

def notedStore (machine : Machine) (value : UInt8) (command : Command) :
    Noted (Outcome × Machine) := do
  let tape ← machine.tape.notedSet machine.dataPointer value
  notedComplete { machine with tape } command

def notedExecute (machine : Machine) (command : Command) : Noted (Outcome × Machine) :=
  match command with
  | .right => machine.notedMove (machine.dataPointer + 1) .right
  | .left => machine.notedMove (machine.dataPointer - 1) .left
  | .increment => machine.notedStore (machine.dataByte + 1) .increment
  | .decrement => machine.notedStore (machine.dataByte - 1) .decrement
  | .openLoop => do
      let byte ← machine.tape.notedGet machine.dataPointer
      if byte = 0 then machine.notedJump .rightward else machine.notedComplete .openLoop
  | .closeLoop => do
      let byte ← machine.tape.notedGet machine.dataPointer
      if byte = 0 then machine.notedComplete .closeLoop else machine.notedJump .leftward
  | .input => machine.takeInput.2.notedStore machine.takeInput.1 .input
  | .output => do
      let byte ← machine.tape.notedGet machine.dataPointer
      notedComplete { machine with output := machine.output.push byte } .output
  | .stop => return machine.finish .stopped

/-- Take a step, and note what is computed. -/
def notedStep (machine : Machine) : Noted (Outcome × Machine) :=
  if machine.isHalted then
    return (.idle, machine)
  else do
    note (.stepCount (machine.stepCount + 1))
    if machine.options.limit < machine.stepCount + 1 then
      return machine.counted.fail .limitExceeded
    else
      let fetched ← machine.counted.notedFetch
      fetched.2.notedExecute fetched.1

end Machine

namespace Tape

section Storage

variable {tape : Tape} {address : Int} {limit : Nat}

theorem yields_get {low high : Int} (first : tape.row.first = low) (fromLow : low ≤ address)
    (toNext : address ≤ high + 1) :
    (tape.notedGet address).Yields (Quantity.Within low high limit) (tape.get address) := by
  have inside : 0 ≤ address - tape.row.first ∧ address - tape.row.first ≤ high + 1 - low := by
    omega
  exact (yields_note inside).bind (yields_pure _)

theorem Exact.yields_reserve (exact : tape.Exact) (fromLow : tape.low - 1 ≤ address)
    (toNext : address ≤ tape.high + 1) :
    (tape.row.notedReserve address).Yields (Quantity.Within tape.low tape.high limit)
      (tape.row.reserve address) := by
  have ordered := exact.ordered
  have first := ByteRow.first_reserve exact.size_ne_zero address
  rw [exact.first] at first
  have inside : 0 ≤ address - (tape.row.reserve address).first ∧
      address - (tape.row.reserve address).first ≤ tape.high + 1 - tape.low := by omega
  refine (yields_note inside).bind ((yields_noteIf fun _ => ?_).bind (yields_pure _))
  show (((address - (tape.row.reserve address).first).toNat + 1 : Nat) : Int) ≤ _
  omega

theorem Exact.yields_touch (exact : tape.Exact) (fromLow : tape.low - 1 ≤ address)
    (toNext : address ≤ tape.high + 1) :
    (tape.notedTouch address).Yields (Quantity.Within tape.low tape.high limit)
      (tape.touch address) :=
  (exact.yields_reserve fromLow toNext).bind (yields_pure _)

theorem Exact.yields_set (exact : tape.Exact) (fromLow : tape.low ≤ address)
    (toHigh : address ≤ tape.high) (value : UInt8) :
    (tape.notedSet address value).Yields (Quantity.Within tape.low tape.high limit)
      (tape.set address value) :=
  (exact.yields_reserve (by omega) (by omega)).bind (yields_pure _)

end Storage

section Scan

variable {tape : Tape} {limit : Nat}

theorem Exact.yields_pass (exact : tape.Exact) {address : Int} (fromLow : tape.low ≤ address)
    (toNext : address ≤ tape.high + 1) :
    (tape.notedPass address).Yields (Quantity.Within tape.low tape.high limit)
      (tape.get address, if tape.high < address then tape.touch address else tape) := by
  have ordered := exact.ordered
  refine (yields_note ⟨by omega, toNext⟩).bind ?_
  split
  · have first := (exact.touch address).first
    rw [low_touch] at first
    refine (exact.yields_touch (by omega) toNext).bind ?_
    refine (yields_get (first.trans (by omega)) fromLow toNext).bind ?_
    rw [get_touch]
    exact yields_pure _
  · refine (yields_pure tape).bind ?_
    exact (yields_get exact.first fromLow toNext).bind (yields_pure _)

/-- The search ends inside the tracked range, or right behind it. -/
theorem Exact.yields_scan (exact : tape.Exact) {remaining : Nat} {address : Int}
    (fromLow : tape.low ≤ address) (toEnd : address + remaining = tape.high + 1) :
    let found := tape.firstCommand remaining address
    (tape.notedScan remaining address).Yields (Quantity.Within tape.low tape.high limit)
      (found.1, found.2, if tape.high < found.1 then tape.touch found.1 else tape) := by
  induction remaining generalizing address with
  | zero => exact (exact.yields_pass fromLow (by omega)).bind (yields_pure _)
  | succ remaining ih =>
      have inside : ¬ tape.high < address := by omega
      unfold notedScan firstCommand
      refine (exact.yields_pass fromLow (by omega)).bind ?_
      rw [if_neg inside]
      change (match tape.commandAt? address with
        | some command => pure (address, command, tape)
        | none => tape.notedScan remaining (address + 1)).Yields _ _
      cases tape.commandAt? address with
      | some command =>
          dsimp only
          rw [if_neg inside]
          exact yields_pure _
      | none => exact @ih (address + 1) (by omega) (by omega)

end Scan

section Seek

open Direction

variable {tape : Tape} {limit : Nat}

/-- The depth is the number of waiting brackets and one more, with the sign of the
direction.  Every address adds at most one to it. -/
theorem Exact.yields_seek (exact : tape.Exact) (direction : Direction) {remaining waiting : Nat}
    {address : Int} (toEnd : direction.travel address remaining = direction.pastRange tape)
    (enough : (remaining + waiting : Int) ≤ tape.high + 1 - tape.low) :
    (tape.notedSeek direction remaining (direction.orient (waiting + 1)) address).Yields
      (Quantity.Within tape.low tape.high limit)
      (tape.seekPartner direction remaining waiting address) := by
  induction remaining generalizing waiting address with
  | zero =>
      have ordered := exact.ordered
      have near : tape.low - 1 ≤ address ∧ address ≤ tape.high + 1 := by
        rw [travel_zero] at toEnd
        cases direction <;> simp only [pastRange] at toEnd <;> omega
      exact (yields_note near).bind (yields_pure _)
  | succ remaining ih =>
      obtain ⟨fromLow, toHigh⟩ : tape.low ≤ address ∧ address ≤ tape.high := by
        cases direction <;> simp only [travel, pastRange] at toEnd <;> omega
      have toEndNext : direction.travel (direction.next address) remaining =
          direction.pastRange tape := by
        rw [← toEnd]
        cases direction <;> simp only [travel, next] <;> omega
      have change := direction.orient_add_nesting (waiting + 1) (tape.get address)
      have bounds := direction.turn_bounds (tape.get address)
      unfold notedSeek
      refine (yields_note ⟨by omega, by omega⟩).bind ?_
      refine (yields_get exact.first fromLow (by omega)).bind ?_
      rw [change]
      refine (yields_note ?_).bind ?_
      · show ((direction.orient _).natAbs : Int) ≤ _
        rw [natAbs_orient]
        omega
      · have goesOn : ∀ later : Nat,
            (waiting : Int) + 1 + direction.turn (tape.get address) = later + 1 →
            (if direction.orient (waiting + 1 + direction.turn (tape.get address)) = 0 then
              return some address
            else
              tape.notedSeek direction remaining
                (direction.orient (waiting + 1 + direction.turn (tape.get address)))
                (direction.next address)).Yields (Quantity.Within tape.low tape.high limit)
              (tape.seekPartner direction remaining later (direction.next address)) := by
          intro later depth
          rw [depth, if_neg ((direction.orient_eq_zero_iff _).not.mpr (by omega))]
          exact ih toEndNext (by omega)
        unfold seekPartner
        by_cases isPartner : tape.commandAt? address = some direction.partner
        · have falls := turn_of_partner isPartner
          rw [if_pos isPartner]
          cases waiting with
          | zero =>
              rw [if_pos ((direction.orient_eq_zero_iff _).mpr (by omega))]
              exact yields_pure _
          | succ waiting => exact goesOn waiting (by omega)
        · rw [if_neg isPartner]
          by_cases isBracket : tape.commandAt? address = some direction.bracket
          · have rises := turn_of_bracket isBracket
            rw [if_pos isBracket]
            exact goesOn (waiting + 1) (by omega)
          · have stays := turn_of_other isBracket isPartner
            rw [if_neg isBracket]
            exact goesOn waiting (by omega)

end Seek

end Tape

namespace Machine

variable {machine : Machine} {limit : Nat}

section Execute

theorem yields_complete (exact : machine.tape.Exact)
    (near : machine.tape.low - 1 ≤ machine.dataPointer ∧
      machine.dataPointer ≤ machine.tape.high + 1) (command : Command) :
    (machine.notedComplete command).Yields
      (Quantity.Within machine.tape.low machine.tape.high limit) (machine.complete command) :=
  (exact.yields_touch near.1 near.2).bind (yields_pure _)

namespace Ranged

theorem near (ranged : machine.Ranged) :
    machine.tape.low - 1 ≤ machine.dataPointer ∧
      machine.dataPointer ≤ machine.tape.high + 1 := by
  have fromLow := ranged.dataFromLow
  have toHigh := ranged.dataToHigh
  omega

theorem yields_move (ranged : machine.Ranged) {pointer : Int}
    (near : machine.tape.low - 1 ≤ pointer ∧ pointer ≤ machine.tape.high + 1)
    (command : Command) :
    (machine.notedMove pointer command).Yields
      (Quantity.Within machine.tape.low machine.tape.high limit)
      ({ machine with dataPointer := pointer }.complete command) := by
  refine (yields_note near).bind ?_
  apply yields_complete
  case exact => exact ranged.exact
  case near => exact near

theorem yields_store (ranged : machine.Ranged) (value : UInt8) (command : Command) :
    (machine.notedStore value command).Yields
      (Quantity.Within machine.tape.low machine.tape.high limit)
      ({ machine with tape := machine.tape.set machine.dataPointer value }.complete command) := by
  refine (ranged.exact.yields_set ranged.dataFromLow ranged.dataToHigh value).bind ?_
  apply yields_complete
  case exact => exact ranged.exact.set ranged.dataFromLow ranged.dataToHigh value
  case near => exact ranged.near

theorem yields_partner (ranged : machine.Ranged) (direction : Tape.Direction) :
    (machine.tape.notedSeek direction (direction.ahead machine.tape machine.programPointer)
        (direction.orient 1) (direction.next machine.programPointer)).Yields
      (Quantity.Within machine.tape.low machine.tape.high limit)
      (machine.tape.partner? direction machine.programPointer) := by
  have fromLow := ranged.fromLow
  have toHigh := ranged.toHigh
  have toEnd : direction.travel (direction.next machine.programPointer)
      (direction.ahead machine.tape machine.programPointer) =
        direction.pastRange machine.tape := by
    cases direction <;>
      simp only [Tape.Direction.travel, Tape.Direction.next, Tape.Direction.ahead,
        Tape.Direction.pastRange] <;> omega
  have enough : (direction.ahead machine.tape machine.programPointer + (0 : Nat) : Int) ≤
      machine.tape.high + 1 - machine.tape.low := by
    cases direction <;> simp only [Tape.Direction.ahead] <;> omega
  exact ranged.exact.yields_seek direction toEnd enough

theorem yields_jump (ranged : machine.Ranged) (direction : Tape.Direction) :
    (machine.notedJump direction).Yields
      (Quantity.Within machine.tape.low machine.tape.high limit) (machine.jump direction) := by
  refine (ranged.yields_partner direction).bind ?_
  unfold Machine.jump
  cases machine.tape.partner? direction machine.programPointer with
  | some address =>
      apply yields_complete
      case exact => exact ranged.exact
      case near => exact ranged.near
  | none => exact yields_pure _

theorem yields_get (ranged : machine.Ranged) :
    (machine.tape.notedGet machine.dataPointer).Yields
      (Quantity.Within machine.tape.low machine.tape.high limit) machine.dataByte := by
  have toHigh := ranged.dataToHigh
  exact Tape.yields_get ranged.exact.first ranged.dataFromLow (by omega)

theorem yields_execute (ranged : machine.Ranged) (limit : Nat) (command : Command) :
    (machine.notedExecute command).Yields
      (Quantity.Within machine.tape.low machine.tape.high limit) (machine.execute command) := by
  have fromLow := ranged.dataFromLow
  have toHigh := ranged.dataToHigh
  have completes : ∀ command, (machine.notedComplete command).Yields
      (Quantity.Within machine.tape.low machine.tape.high limit) (machine.complete command) :=
    yields_complete ranged.exact ranged.near
  cases command with
  | right => exact ranged.yields_move ⟨by omega, by omega⟩ .right
  | left => exact ranged.yields_move ⟨by omega, by omega⟩ .left
  | increment => exact ranged.yields_store _ .increment
  | decrement => exact ranged.yields_store _ .decrement
  | openLoop =>
      refine ranged.yields_get.bind ?_
      unfold Machine.execute
      dsimp only
      split
      · exact ranged.yields_jump .rightward
      · exact completes .openLoop
  | closeLoop =>
      refine ranged.yields_get.bind ?_
      unfold Machine.execute
      dsimp only
      split
      · exact completes .closeLoop
      · exact ranged.yields_jump .leftward
  | input =>
      have taken : machine.takeInput.2.Ranged :=
        ⟨ranged.exact, ranged.fromLow, ranged.toHigh, fromLow, toHigh⟩
      exact taken.yields_store machine.takeInput.1 .input
  | output =>
      refine ranged.yields_get.bind ?_
      apply yields_complete
      case exact => exact ranged.exact
      case near => exact ranged.near
  | stop => exact yields_pure _

end Ranged

end Execute

section Step

theorem yields_fetch (exact : machine.tape.Exact)
    (fromLow : machine.tape.low - 1 ≤ machine.programPointer)
    (toHigh : machine.programPointer ≤ machine.tape.high) :
    machine.notedFetch.Yields (Quantity.Within machine.tape.low machine.tape.high limit)
      machine.fetch := by
  have afterLast := exact.afterLast
  refine (exact.yields_scan ?_ ?_).bind (yields_pure _)
  · omega
  · unfold Tape.blankFrom
    omega

/-- The empty program has its stop command at address zero. -/
theorem yields_fetch_blank (blank : machine.tape = .blank) (atStart : machine.programPointer = -1) :
    machine.notedFetch.Yields (Quantity.Within 0 0 limit) machine.fetch := by
  have found : (Tape.blank.notedScan 1 0).Yields (Quantity.Within 0 0 limit)
      (0, .stop, .blank) := by
    refine ⟨rfl, ?_⟩
    intro quantity member
    have noted : quantity ∈ [Quantity.programPointer 0, .offset 0] := member
    rw [List.mem_cons, List.mem_singleton] at noted
    rcases noted with rfl | rfl
    · exact ⟨by decide, by decide⟩
    · exact ⟨by decide, by decide⟩
  rw [fetch_blank blank atStart]
  unfold notedFetch
  rw [blank, atStart]
  refine Yields.bind found ?_
  rw [← blank]
  exact yields_pure _

/-- A command is fetched with the pointers inside the tracked range, or is the stop
command. -/
theorem Tracked.fetch_ranged {program : List UInt8} {trail : List (Outcome × Machine)}
    (tracked : Tracked program trail machine) (running : machine.halt = none) :
    machine.notedFetch.Yields (Quantity.Within machine.tape.low machine.tape.high limit)
        machine.fetch ∧
      (machine.fetch.1 = .stop ∨
        machine.fetch.2.Ranged ∧ machine.fetch.2.tape = machine.tape) := by
  rcases tracked.stored with exact | ⟨-, blank, atStart⟩
  · obtain ⟨fromLow, toHigh⟩ := (running ▸ tracked.points).bounds exact.ordered
    refine ⟨yields_fetch exact fromLow toHigh, ?_⟩
    have behind : machine.programPointer < machine.fetch.2.programPointer :=
      machine.tape.lt_nextCommand machine.programPointer
    rcases fetch_cases exact.blankOutside toHigh with ⟨inside, tape⟩ | ⟨-, stop, -⟩
    · refine .inr ⟨?_, tape⟩
      constructor <;> rw [tape]
      · exact exact
      · omega
      · exact inside
      · exact tracked.low_le_dataPointer
      · exact tracked.dataPointer_le_high
    · exact .inl stop
  · refine ⟨?_, .inl ?_⟩
    · rw [blank]
      exact yields_fetch_blank blank (atStart running)
    · rw [fetch_blank blank (atStart running)]

/-- A step with notes is the step, and its notes are bounded. -/
theorem Tracked.yields_step {program : List UInt8} {trail : List (Outcome × Machine)}
    (tracked : Tracked program trail machine) (within : machine.WithinLimit) :
    machine.notedStep.Yields
      (Quantity.Within machine.tape.low machine.tape.high machine.options.limit) machine.step := by
  unfold notedStep Machine.step
  split
  · exact yields_pure _
  · rename_i unhalted
    have running : machine.halt = none := by simpa [isHalted] using unhalted
    have counts := within.le_of_running running
    refine (yields_note (Nat.succ_le_succ counts)).bind ?_
    dsimp only
    split
    · exact yields_pure _
    · have counted : Tracked program trail machine.counted :=
        ⟨tracked.stored, tracked.low, tracked.high, tracked.fromLeast, tracked.toGreatest,
          tracked.points⟩
      obtain ⟨fetched, stop | ⟨ranged, tape⟩⟩ := counted.fetch_ranged running
      all_goals
        refine fetched.bind ?_
        change (machine.counted.fetch.2.notedExecute machine.counted.fetch.1).Yields _
          (machine.counted.fetch.2.execute machine.counted.fetch.1)
      · rw [stop]
        exact yields_pure _
      · have executed := ranged.yields_execute machine.options.limit machine.counted.fetch.1
        rw [tape] at executed
        exact executed

/-- A loop is passed over, with data to the left of the program. -/
example : ((load [60, 91, 93] {}).after [.step]).notedStep.notes =
    [.stepCount 2, .programPointer 1, .offset 2, .offset 0, .programPointer 2, .offset 3, .depth 0,
      .offset 0] := by decide

end Step

end Machine
end OneTape
