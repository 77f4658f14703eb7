import OneTape.Proofs.UnboundedRefinement

/-!
# The ledger of a machine

Whoever writes down what a machine is fed and what its steps amount to can
account for its memory without looking into it.  Moves give the place of the
data pointer.  A byte of the tape is what was last put there, by loading or by
an input command, changed by the increments and decrements since then.  Brackets
and halts change no byte, and neither do the searches behind them.

The ledger is written in terms of this record alone: it knows neither the
program pointer nor the tape.
-/

namespace OneTape

/-- What the record of a machine is made of. -/
inductive Event where
  | fed (bytes : List UInt8)
  | stepped (outcome : Outcome)
  deriving DecidableEq

namespace Event

/-- The machine was not idle. -/
def counts : Event → Bool
  | fed _ | stepped .idle => false
  | stepped _ => true

def move : Event → Int
  | stepped (.executed .right) => 1
  | stepped (.executed .left) => -1
  | _ => 0

/-- What happens to the unread input. -/
def supply (event : Event) (unread : List UInt8) : List UInt8 :=
  match event with
  | fed bytes => unread ++ bytes
  | stepped (.executed .input) => unread.tail
  | stepped _ => unread

/-- What happens to the byte under the data pointer. -/
def change (event : Event) (incoming byte : UInt8) : UInt8 :=
  match event with
  | stepped (.executed .input) => incoming
  | stepped (.executed .increment) => byte + 1
  | stepped (.executed .decrement) => byte - 1
  | _ => byte

/-- What is written when there is a given byte under the data pointer. -/
def emit (event : Event) (byte : UInt8) : List UInt8 :=
  match event with
  | stepped (.executed .output) => [byte]
  | _ => []

theorem move_of_other {event : Event} (notRight : event ≠ .stepped (.executed .right))
    (notLeft : event ≠ .stepped (.executed .left)) : event.move = 0 := by
  unfold move
  split <;> simp_all

theorem change_of_other {event : Event} (notInput : event ≠ .stepped (.executed .input))
    (notIncrement : event ≠ .stepped (.executed .increment))
    (notDecrement : event ≠ .stepped (.executed .decrement)) (incoming byte : UInt8) :
    event.change incoming byte = byte := by
  unfold change
  split <;> simp_all

end Event

namespace Ledger

def executed (command : Command) (record : List Event) : Nat :=
  record.count (.stepped (.executed command))

/-- The place of the data pointer. -/
def position (record : List Event) : Int :=
  executed .right record - executed .left record

/-- The number of steps that were not idle. -/
def counted (record : List Event) : Nat :=
  record.countP Event.counts

/-- The input that has been fed and not been taken. -/
def pending (record : List Event) : List UInt8 :=
  record.foldl (fun unread event => event.supply unread) []

/-- The byte that an input command stores: the oldest pending one, if any. -/
def incoming (endByte : UInt8) (record : List Event) : UInt8 :=
  (pending record).headD endByte

/-- Every event of a record together with the record before it. -/
def momentsAfter (earlier : List Event) : List Event → List (List Event × Event)
  | [] => []
  | event :: later => (earlier, event) :: momentsAfter (earlier ++ [event]) later

def moments (record : List Event) : List (List Event × Event) :=
  momentsAfter [] record

/-- The moments that found the data pointer at an address, latest first. -/
def visits (record : List Event) (address : Int) : List (List Event × Event) :=
  ((moments record).filter fun moment => position moment.1 = address).reverse

def isInput (moment : List Event × Event) : Bool :=
  moment.2 = .stepped (.executed .input)

/-- The byte that was last put at an address: by an input command, or else by
loading the program. -/
def stored (program : List UInt8) (endByte : UInt8) (record : List Event) (address : Int) :
    UInt8 :=
  match (visits record address).find? isInput with
  | some moment => incoming endByte moment.1
  | none => programCells program address

/-- What has happened at an address since a byte was last put there. -/
def since (record : List Event) (address : Int) : List Event :=
  ((visits record address).takeWhile fun moment => !isInput moment).map Prod.snd

/-- The byte at an address. -/
def balance (program : List UInt8) (endByte : UInt8) (record : List Event) (address : Int) :
    UInt8 :=
  stored program endByte record address +
    UInt8.ofNat (executed .increment (since record address)) -
    UInt8.ofNat (executed .decrement (since record address))

/-- The bytes that the output commands found under the data pointer. -/
def written (program : List UInt8) (endByte : UInt8) (record : List Event) : List UInt8 :=
  ((moments record).filter fun moment => moment.2 = .stepped (.executed .output)).map
    fun moment => balance program endByte moment.1 (position moment.1)

section Concat

variable (program : List UInt8) (endByte : UInt8) (record : List Event) (event : Event)

theorem executed_concat (command : Command) :
    executed command (record ++ [event]) =
      executed command record + if event = .stepped (.executed command) then 1 else 0 := by
  simp [executed, List.count_singleton]

theorem counted_concat :
    counted (record ++ [event]) = counted record + event.counts.toNat := by
  cases counts : event.counts <;> simp [counted, counts]

theorem pending_concat : pending (record ++ [event]) = event.supply (pending record) := by
  simp [pending]

theorem momentsAfter_concat (earlier : List Event) :
    momentsAfter earlier (record ++ [event]) =
      momentsAfter earlier record ++ [(earlier ++ record, event)] := by
  induction record generalizing earlier with
  | nil => simp [momentsAfter]
  | cons first record ih => simp [momentsAfter, ih]

theorem moments_concat : moments (record ++ [event]) = moments record ++ [(record, event)] :=
  momentsAfter_concat record event []

theorem visits_concat (address : Int) :
    visits (record ++ [event]) address =
      if position record = address then (record, event) :: visits record address
      else visits record address := by
  simp only [visits, moments_concat, List.filter_append, List.reverse_append,
    List.filter_singleton]
  by_cases here : position record = address <;> simp [here]

theorem stored_concat (address : Int) :
    stored program endByte (record ++ [event]) address =
      if position record = address ∧ event = .stepped (.executed .input) then
        incoming endByte record
      else stored program endByte record address := by
  unfold stored
  rw [visits_concat]
  by_cases here : position record = address
  · by_cases isInput : event = .stepped (.executed .input) <;>
      simp [here, Ledger.isInput, isInput]
  · simp [here]

theorem since_concat (address : Int) :
    since (record ++ [event]) address =
      if position record = address then
        if event = .stepped (.executed .input) then [] else event :: since record address
      else since record address := by
  unfold since
  rw [visits_concat]
  by_cases here : position record = address
  · by_cases isInput : event = .stepped (.executed .input) <;>
      simp [here, Ledger.isInput, isInput]
  · simp [here]

theorem executed_cons (command : Command) :
    executed command (event :: record) =
      executed command record + if event = .stepped (.executed command) then 1 else 0 := by
  simp [executed, List.count_cons]

theorem balance_concat_position :
    balance program endByte (record ++ [event]) (position record) =
      event.change (incoming endByte record)
        (balance program endByte record (position record)) := by
  unfold balance
  rw [stored_concat, since_concat, if_pos rfl]
  by_cases isInput : event = .stepped (.executed .input)
  · subst isInput
    simp [executed, Event.change]
  · rw [if_neg (by simp [isInput]), if_neg isInput, executed_cons, executed_cons]
    by_cases isIncrement : event = .stepped (.executed .increment)
    · subst isIncrement
      simp only [reduceCtorEq, Event.stepped.injEq, Outcome.executed.injEq, if_true, if_false,
        UInt8.ofNat_add, Event.change]
      grind
    · by_cases isDecrement : event = .stepped (.executed .decrement)
      · subst isDecrement
        simp only [reduceCtorEq, Event.stepped.injEq, Outcome.executed.injEq, if_true, if_false,
          UInt8.ofNat_add, Event.change]
        grind
      · simp [isIncrement, isDecrement, Event.change_of_other isInput]

/-- An event changes the byte under the data pointer, and no other byte. -/
theorem balance_concat :
    balance program endByte (record ++ [event]) =
      Function.update (balance program endByte record) (position record)
        (event.change (incoming endByte record)
          (balance program endByte record (position record))) := by
  funext address
  by_cases here : address = position record
  · subst here
    rw [Function.update_self, balance_concat_position]
  · have elsewhere : position record ≠ address := Ne.symm here
    rw [Function.update_of_ne here]
    simp [balance, stored_concat, since_concat, elsewhere]

theorem position_concat : position (record ++ [event]) = position record + event.move := by
  rw [position, executed_concat, executed_concat, position]
  by_cases isRight : event = .stepped (.executed .right)
  · subst isRight
    simp only [reduceCtorEq, Event.stepped.injEq, Outcome.executed.injEq, if_true, if_false,
      Event.move]
    omega
  · by_cases isLeft : event = .stepped (.executed .left)
    · subst isLeft
      simp only [reduceCtorEq, Event.stepped.injEq, Outcome.executed.injEq, if_true, if_false,
        Event.move]
      omega
    · simp [isRight, isLeft, Event.move_of_other isRight isLeft]

theorem written_concat :
    written program endByte (record ++ [event]) =
      written program endByte record ++
        event.emit (balance program endByte record (position record)) := by
  simp only [written, moments_concat, List.filter_append, List.map_append]
  unfold Event.emit
  split <;> simp_all

end Concat

example : written [] 0 [.fed [5], .stepped (.executed .input), .stepped (.executed .increment),
    .stepped (.executed .output)] = [6] := by
  decide

/-- The data pointer was never at an address when a byte was stored or changed. -/
def Untouched (record : List Event) (address : Int) : Prop :=
  ∀ moment ∈ visits record address, ∀ command ∈ [Command.input, .increment, .decrement],
    moment.2 ≠ .stepped (.executed command)

theorem balance_of_untouched {record : List Event} {address : Int}
    (untouched : Untouched record address) (program : List UInt8) (endByte : UInt8) :
    balance program endByte record address = programCells program address := by
  have loaded : stored program endByte record address = programCells program address := by
    have none : (visits record address).find? isInput = none := by
      rw [List.find?_eq_none]
      intro moment visit
      simpa [isInput] using untouched moment visit .input (by simp)
    rw [stored, none]
  have unchanged : ∀ command ∈ [Command.input, .increment, .decrement],
      executed command (since record address) = 0 := by
    intro command changes
    rw [executed, List.count_eq_zero, since, List.mem_map]
    rintro ⟨moment, recent, event⟩
    have visit := (List.takeWhile_sublist _).subset recent
    exact untouched moment visit command changes event
  rw [balance, loaded, unchanged .increment (by simp), unchanged .decrement (by simp)]
  simp

end Ledger

namespace UnboundedMachine

open Ledger

variable {program : List UInt8} {endByte : UInt8} {record : List Event}
  {machine next : UnboundedMachine} {outcome : Outcome}

/-- An event does to a machine what it says. -/
structure Undergoes (machine : UnboundedMachine) (event : Event) (next : UnboundedMachine) :
    Prop where
  options : next.options = machine.options
  dataPointer : next.dataPointer = machine.dataPointer + event.move
  cells : next.cells = Function.update machine.cells machine.dataPointer
    (event.change (machine.input.headD machine.options.endByte.toByte) machine.dataByte)
  input : next.input = event.supply machine.input
  output : next.output = machine.output ++ event.emit machine.dataByte
  stepCount : next.stepCount = machine.stepCount + event.counts.toNat

theorem undergoes_feed (machine : UnboundedMachine) (bytes : List UInt8) :
    machine.Undergoes (.fed bytes) (machine.feed bytes) :=
  ⟨rfl, (Int.add_zero _).symm, (Function.update_eq_self _ _).symm, rfl,
    (List.append_nil _).symm, rfl⟩

theorem Executes.undergoes {address : Int} {command : Command}
    (executes : (machine.reach address).Executes command outcome next) :
    machine.Undergoes (.stepped outcome) next := by
  have stays : machine.dataPointer = machine.dataPointer + 0 := (Int.add_zero _).symm
  have keeps : machine.cells =
      Function.update machine.cells machine.dataPointer machine.dataByte :=
    (Function.update_eq_self _ _).symm
  have quiet : machine.output = machine.output ++ [] := (List.append_nil _).symm
  cases executes with
  | right | left => exact ⟨rfl, rfl, keeps, rfl, quiet, rfl⟩
  | increment | decrement => exact ⟨rfl, stays, rfl, rfl, quiet, rfl⟩
  | enterLoop | skipLoop | leaveLoop | repeatLoop | unmatchedOpen | unmatchedClose | stop =>
      exact ⟨rfl, stays, keeps, rfl, quiet, rfl⟩
  | input available =>
      have unread : machine.input = _ := available
      refine ⟨rfl, stays, ?_, ?_, quiet, rfl⟩ <;> rw [unread] <;> rfl
  | inputEnd exhausted =>
      have unread : machine.input = [] := exhausted
      refine ⟨rfl, stays, ?_, ?_, quiet, rfl⟩
      · rw [unread]
        rfl
      · change machine.input = machine.input.tail
        rw [unread]
        rfl
  | output => exact ⟨rfl, stays, keeps, rfl, rfl, rfl⟩

theorem Step.undergoes (step : machine.Step outcome next) :
    machine.Undergoes (.stepped outcome) next := by
  cases step with
  | idle | limitExceeded =>
      exact ⟨rfl, (Int.add_zero _).symm, (Function.update_eq_self _ _).symm, rfl,
        (List.append_nil _).symm, rfl⟩
  | command _ _ _ executes => exact executes.undergoes

/-- A machine is in the state that its record accounts for. -/
structure Accounted (program : List UInt8) (endByte : UInt8) (record : List Event)
    (machine : UnboundedMachine) : Prop where
  dataPointer : machine.dataPointer = position record
  cells : machine.cells = balance program endByte record
  input : machine.input = pending record
  output : machine.output = written program endByte record
  stepCount : machine.stepCount = counted record
  endByte : machine.options.endByte.toByte = endByte

theorem accounted_load (source : List UInt8) (options : Options) :
    (load source options).Accounted (loadedProgram source options) options.endByte.toByte [] := by
  refine ⟨rfl, ?_, rfl, rfl, rfl, rfl⟩
  funext address
  simp [load, balance, stored, since, visits, moments, momentsAfter, executed]

theorem Accounted.undergoes {event : Event}
    (accounted : machine.Accounted program endByte record)
    (undergoes : machine.Undergoes event next) :
    next.Accounted program endByte (record ++ [event]) := by
  have byte : machine.dataByte = balance program endByte record (position record) := by
    rw [dataByte, accounted.cells, accounted.dataPointer]
  constructor
  · rw [undergoes.dataPointer, accounted.dataPointer, position_concat]
  · rw [undergoes.cells, byte, accounted.cells, accounted.dataPointer, accounted.input,
      accounted.endByte, balance_concat]
    rfl
  · rw [undergoes.input, accounted.input, pending_concat]
  · rw [undergoes.output, byte, accounted.output, written_concat]
  · rw [undergoes.stepCount, accounted.stepCount, counted_concat]
  · rw [undergoes.options, accounted.endByte]

end UnboundedMachine

namespace Machine

open Ledger

/-- What the record of a call says. -/
def callRecord (machine : Machine) : Call → List Event
  | .feed bytes => [.fed bytes]
  | call => (machine.callTrail call).map fun entry => .stepped entry.1

/-- The record of a sequence of calls: what was fed, and the outcome of every
step, in this order. -/
def record (machine : Machine) : List Call → List Event
  | [] => []
  | call :: calls => machine.callRecord call ++ (machine.call call).2.record calls

section Record

variable {machine : Machine} {program : List UInt8} {endByte : UInt8} {record : List Event}

/-- The ledger does not mention the program pointer, on which alone the two
machines may disagree. -/
theorem Agrees.accounted {ideal : UnboundedMachine} (agrees : machine.Agrees ideal)
    (accounted : ideal.Accounted program endByte record) :
    machine.idealize.Accounted program endByte record :=
  ⟨agrees.dataPointer.trans accounted.dataPointer, (funext agrees.cells).trans accounted.cells,
    agrees.input.trans accounted.input, agrees.output.trans accounted.output,
    agrees.stepCount.trans accounted.stepCount, by
      rw [← accounted.endByte, ← agrees.options]
      rfl⟩

theorem Sound.accounted_feed (sound : machine.Sound)
    (accounted : machine.idealize.Accounted program endByte record) (bytes : List UInt8) :
    (machine.feed bytes).idealize.Accounted program endByte (record ++ [.fed bytes]) :=
  (machine.agrees_idealize.feed sound bytes).accounted
    (accounted.undergoes (machine.idealize.undergoes_feed bytes))

theorem Sound.accounted_step (sound : machine.Sound)
    (accounted : machine.idealize.Accounted program endByte record) :
    machine.step.2.idealize.Accounted program endByte
      (record ++ [.stepped machine.step.1]) := by
  obtain ⟨next, step, agrees⟩ := step_refines sound
  exact agrees.accounted (accounted.undergoes step.undergoes)

theorem Sound.accounted_advance (sound : machine.Sound)
    (accounted : machine.idealize.Accounted program endByte record) (count : Nat) :
    (machine.advance count).idealize.Accounted program endByte
      (record ++ (machine.advanceTrail count).map fun entry => .stepped entry.1) := by
  have kept := advance_induction
    (fun trail machine => machine.Sound ∧ machine.idealize.Accounted program endByte
      (record ++ trail.map fun entry => .stepped entry.1))
    (fun trail machine ⟨sound, accounted⟩ => ⟨sound.step, by
      have stepped := sound.accounted_step accounted
      simpa using stepped⟩)
    count [] ⟨sound, by simpa using accounted⟩
  simpa using kept.2

theorem Sound.accounted_call (sound : machine.Sound)
    (accounted : machine.idealize.Accounted program endByte record) (call : Call) :
    (machine.call call).2.idealize.Accounted program endByte
      (record ++ machine.callRecord call) := by
  cases call with
  | feed bytes => exact sound.accounted_feed accounted bytes
  | step => exact sound.accounted_step accounted
  | run => exact sound.accounted_advance accounted machine.remainingSteps

theorem Sound.accounted_after (sound : machine.Sound)
    (accounted : machine.idealize.Accounted program endByte record) (calls : List Call) :
    (machine.after calls).idealize.Accounted program endByte
      (record ++ machine.record calls) := by
  induction calls generalizing machine record with
  | nil => simpa [Machine.record] using accounted
  | cons call calls ih =>
      have later := ih (sound.after [call]) (sound.accounted_call accounted call)
      rwa [List.append_assoc] at later

end Record

/-- The memory of a machine is what the record of its calls accounts for: the
place of its data pointer, every byte of its tape, its input and output, and the
number of its steps. -/
theorem memory_of_record (source : List UInt8) (options : Options) (calls : List Call) :
    let program := loadedProgram source options
    let endByte := options.endByte.toByte
    let record := (load source options).record calls
    let machine := (load source options).after calls
    machine.dataPointer = executed .right record - executed .left record ∧
      (∀ address, machine.tape.get address = balance program endByte record address) ∧
      machine.input.unread = pending record ∧
      machine.output.unread = written program endByte record ∧
      machine.stepCount = record.countP Event.counts ∧
      ∀ address, Untouched record address →
        machine.tape.get address = programCells program address := by
  intro program endByte record machine
  have opened : (load source options).idealize.Accounted program endByte [] :=
    (agrees_load source options).accounted (UnboundedMachine.accounted_load source options)
  have accounted : machine.idealize.Accounted program endByte record :=
    (sound_load source options).accounted_after opened calls
  have cells : ∀ address, machine.tape.get address = balance program endByte record address :=
    congrFun accounted.cells
  refine ⟨accounted.dataPointer, cells, accounted.input, accounted.output, accounted.stepCount,
    ?_⟩
  intro address untouched
  rw [cells, balance_of_untouched untouched]

end Machine
end OneTape
