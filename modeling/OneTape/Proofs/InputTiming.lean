import Mathlib.Data.List.Forall2
import OneTape.Proofs.Refitting
import OneTape.Proofs.SoundMachine

/-!
# When input arrives

A machine does not notice when its input was given to it, nor how much more there
is, as long as every input command finds a byte.  Then a machine that is fed now
and then keeps pace with one that has had all of the input, and more, from the
beginning.  The end byte makes no difference either, because it is never used.
-/

namespace OneTape
namespace ByteQueue

/-- The bytes that have been taken. -/
def taken (queue : ByteQueue) : List UInt8 :=
  queue.buffer.toList.take queue.cursor

theorem taken_append {queue : ByteQueue} (inBounds : queue.InBounds) (bytes : List UInt8) :
    (queue.append bytes).taken = queue.taken := by
  unfold InBounds at inBounds
  rw [taken, buffer_append, cursor_append]
  exact List.take_append_of_le_length (by simpa using inBounds)

theorem taken_prefix_buffer (queue : ByteQueue) : queue.taken <+: queue.buffer.toList :=
  List.take_prefix _ _

@[simp]
theorem buffer_shift (queue : ByteQueue) : queue.shift.2.buffer = queue.buffer := by
  unfold shift
  split <;> rfl

section Shift

variable {queue : ByteQueue} {byte : UInt8} {rest : List UInt8}

theorem inBounds_of_unread_cons (next : queue.unread = byte :: rest) : queue.InBounds := by
  have length := congrArg List.length next
  simp only [unread, List.length_drop, Array.length_toList, List.length_cons] at length
  unfold InBounds
  omega

theorem shift_eq_of_unread_cons (next : queue.unread = byte :: rest) :
    queue.shift = (some byte, { queue with cursor := queue.cursor + 1 }) := by
  obtain ⟨first, -⟩ := shift_of_unread_cons next
  unfold shift at first ⊢
  split at first
  · rw [Option.some.inj first]
  · contradiction

/-- Taking a byte that is there does not depend on the bytes behind it. -/
theorem shift_append (next : queue.unread = byte :: rest) (bytes : List UInt8) :
    (queue.append bytes).shift = (some byte, queue.shift.2.append bytes) := by
  have appended : (queue.append bytes).unread = byte :: (rest ++ bytes) := by
    rw [unread_append (inBounds_of_unread_cons next), next, List.cons_append]
  rw [shift_eq_of_unread_cons appended, shift_eq_of_unread_cons next]
  rfl

end Shift

end ByteQueue

namespace Machine

theorem buffer_jump (machine : Machine) (direction : Tape.Direction) :
    (machine.jump direction).2.input.buffer = machine.input.buffer := by
  unfold jump
  split <;> rfl

theorem buffer_execute (machine : Machine) (command : Command) :
    (machine.execute command).2.input.buffer = machine.input.buffer := by
  cases command with
  | openLoop | closeLoop =>
      unfold execute
      dsimp only
      split <;> simp [buffer_jump, complete]
  | input => exact machine.input.buffer_shift
  | _ => rfl

/-- Steps move the cursor of the input and keep its bytes. -/
theorem buffer_step (machine : Machine) :
    machine.step.2.input.buffer = machine.input.buffer :=
  step_cases (motive := fun result => result.2.input.buffer = machine.input.buffer) rfl rfl
    (machine.counted.fetch.2.buffer_execute machine.fetch.1)

/-- A machine with more input, and with another end byte. -/
def supply (endByte : EndByte) (bytes : List UInt8) : Machine → Machine :=
  refit (fun options => { options with endByte }) (·.append bytes)

theorem step_supply {machine : Machine}
    (supplied : machine.step.1 = .executed .input → machine.input.unread ≠ [])
    (endByte : EndByte) (bytes : List UInt8) :
    (machine.supply endByte bytes).step =
      (machine.step.1, machine.step.2.supply endByte bytes) := by
  refine step_refit (fun _ => Iff.rfl) ?_
  intro isInput
  obtain ⟨byte, rest, next⟩ := List.exists_cons_of_ne_nil (supplied isInput)
  obtain ⟨found, -⟩ := ByteQueue.shift_of_unread_cons next
  have appended := ByteQueue.shift_append next bytes
  exact ⟨by rw [appended, found]; rfl, by rw [appended]⟩

/-- Two machines have come equally far, and have taken the same part of a supply
of input.  Their options may differ, and what is left of their input. -/
structure KeepsPace (supply : List UInt8) (first second : Machine) : Prop where
  programPointer : first.programPointer = second.programPointer
  dataPointer : first.dataPointer = second.dataPointer
  tape : first.tape = second.tape
  output : first.output = second.output
  diagnostics : first.diagnostics = second.diagnostics
  halt : first.halt = second.halt
  stepCount : first.stepCount = second.stepCount
  taken : first.input.taken = second.input.taken
  ofSupply : first.input.taken <+: supply

/-- Two steps amount to the same, and lead equally far. -/
def SameStep (supply : List UInt8) (first second : Outcome × Machine) : Prop :=
  first.1 = second.1 ∧ first.2.KeepsPace supply second.2

theorem keepsPace_supply {machine : Machine} (inBounds : machine.input.InBounds)
    {whole : List UInt8} (given : machine.input.buffer.toList <+: whole) (endByte : EndByte)
    (bytes : List UInt8) : machine.KeepsPace whole (machine.supply endByte bytes) :=
  ⟨rfl, rfl, rfl, rfl, rfl, rfl, rfl, (ByteQueue.taken_append inBounds bytes).symm,
    machine.input.taken_prefix_buffer.trans given⟩

section Schedule

/-- Every input command among the steps of a schedule finds a byte. -/
def Supplied (machine : Machine) (schedule : List Call) : Prop :=
  ∀ earlier later, schedule = earlier ++ .step :: later →
    (machine.after earlier).step.1 = .executed .input →
      (machine.after earlier).input.unread ≠ []

/-- The steps of a schedule without anything in between. -/
def onlySteps (schedule : List Call) : List Call :=
  schedule.filter (· = .step)

variable {machine : Machine} {schedule : List Call}

theorem supplied_nil (machine : Machine) : machine.Supplied [] := by
  intro earlier later split
  simp at split

theorem supplied_cons_iff {call : Call} :
    machine.Supplied (call :: schedule) ↔
      (call = .step → machine.step.1 = .executed .input → machine.input.unread ≠ []) ∧
        (machine.call call).2.Supplied schedule := by
  constructor
  · intro supplied
    refine ⟨fun isStep => supplied [] schedule (by rw [isStep]; rfl), ?_⟩
    intro earlier later split
    have found := supplied (call :: earlier) later (by rw [split, List.cons_append])
    rwa [after_cons] at found
  · rintro ⟨here, rest⟩ earlier later split
    cases earlier with
    | nil => exact here (List.cons.inj split).1
    | cons first earlier =>
        obtain ⟨rfl, restSplit⟩ := List.cons.inj split
        exact rest earlier later restSplit

instance decidableSupplied :
    (schedule : List Call) → (machine : Machine) → Decidable (machine.Supplied schedule)
  | [], machine => .isTrue machine.supplied_nil
  | call :: schedule, machine =>
      have := decidableSupplied schedule (machine.call call).2
      decidable_of_iff _ supplied_cons_iff.symm

theorem supply_feed (machine : Machine) (endByte : EndByte) (first second : List UInt8) :
    (machine.feed first).supply endByte second = machine.supply endByte (first ++ second) := by
  simp only [supply, refit, feed, ByteQueue.append_append]

/-- A machine that is fed along a schedule keeps pace with one that has been fed
everything before the first step. -/
theorem Supplied.keepsPace (supplied : machine.Supplied schedule)
    (steady : .run ∉ schedule) (sound : machine.Sound) {whole : List UInt8}
    (given : machine.input.buffer.toList ++ fedBytes schedule = whole) (endByte : EndByte)
    (extra : List UInt8) :
    List.Forall₂ (SameStep whole) (machine.trail schedule)
        ((machine.supply endByte (fedBytes schedule ++ extra)).trail (onlySteps schedule)) ∧
      (machine.supply endByte (fedBytes schedule ++ extra)).after (onlySteps schedule) =
        (machine.after schedule).supply endByte extra := by
  induction schedule generalizing machine with
  | nil => exact ⟨.nil, rfl⟩
  | cons call schedule ih =>
      obtain ⟨here, rest⟩ := supplied_cons_iff.mp supplied
      have steadyRest : .run ∉ schedule := fun member => steady (List.mem_cons_of_mem _ member)
      cases call with
      | feed bytes =>
          have fed : (machine.feed bytes).input.buffer.toList ++ fedBytes schedule = whole := by
            rw [← given, feed, ByteQueue.buffer_append, List.append_assoc]
            rfl
          have later := ih rest steadyRest (sound.feed bytes) fed
          rw [call, supply_feed, ← List.append_assoc] at later
          exact later
      | step =>
          have kept : machine.step.2.input.buffer.toList ++ fedBytes schedule = whole := by
            rw [← given, buffer_step]
            rfl
          have later := ih rest steadyRest sound.step kept
          have stepped := step_supply (here rfl) endByte (fedBytes schedule ++ extra)
          have head : SameStep whole machine.step
              (machine.supply endByte (fedBytes schedule ++ extra)).step := by
            rw [stepped]
            exact ⟨rfl, keepsPace_supply sound.step.input ⟨_, kept⟩ endByte _⟩
          have next : (machine.supply endByte (fedBytes schedule ++ extra)).step.2 =
              (machine.call .step).2.supply endByte (fedBytes schedule ++ extra) :=
            congrArg Prod.snd stepped
          rw [← next] at later
          exact ⟨.cons head later.1, later.2⟩
      | run => exact absurd List.mem_cons_self steady

end Schedule

/-- It makes no difference when a machine is given its input, how much more it is
given, and which end byte it has, if no input command finds the input used up. -/
theorem input_timing (source : List UInt8) (options : Options) {schedule : List Call}
    (steady : .run ∉ schedule) (supplied : (load source options).Supplied schedule)
    (endByte : EndByte) (extra : List UInt8) :
    let whole := fedBytes schedule
    let timely := load source options
    let prompt := (load source { options with endByte }).feed (whole ++ extra)
    timely.KeepsPace whole prompt ∧
      List.Forall₂ (SameStep whole) (timely.trail schedule)
        (prompt.trail (onlySteps schedule)) ∧
      (prompt.after (onlySteps schedule)).input.unread =
        (timely.after schedule).input.unread ++ extra := by
  intro whole timely prompt
  have sound := sound_load source options
  have early : prompt = timely.supply endByte (whole ++ extra) :=
    congrArg (·.feed (whole ++ extra))
      (load_refit source (fun options => { options with endByte }) rfl)
  have empty : timely.input.buffer.toList = [] := by
    obtain ⟨_, _, fresh⟩ := load_fresh source options
    simp only [timely, fresh]
  have given : timely.input.buffer.toList ++ fedBytes schedule = whole := by
    rw [empty, List.nil_append]
  obtain ⟨steps, ends⟩ := supplied.keepsPace steady sound given endByte extra
  rw [early]
  refine ⟨keepsPace_supply sound.input ⟨_, given⟩ endByte _, steps, ?_⟩
  rw [ends]
  exact ByteQueue.unread_append (sound.after schedule).input extra

/-- Read two bytes and write them. -/
def copyTwo : List UInt8 :=
  ['<', ',', '.', ',', '.'].map Char.toUInt8

/-- Each of the two bytes arrives just before it is read. -/
theorem input_timing_copyTwo :
    let schedule : List Call := [.step, .feed [5], .step, .step, .feed [6, 7], .step, .step]
    let prompt := (load copyTwo { endByte := .max }).feed [5, 6, 7, 8]
    (load copyTwo {}).Supplied schedule ∧
      List.Forall₂ (SameStep [5, 6, 7]) ((load copyTwo {}).trail schedule)
        (prompt.trail [.step, .step, .step, .step, .step]) := by
  intro schedule prompt
  have supplied : (load copyTwo {}).Supplied schedule := by decide
  have steady : .run ∉ schedule := by decide
  exact ⟨supplied, (input_timing copyTwo {} steady supplied .max [8]).2.1⟩

end Machine
end OneTape
