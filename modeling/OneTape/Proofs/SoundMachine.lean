import OneTape.Proofs.Calls
import OneTape.Proofs.TrackedRange

/-!
# Sound machines

Whatever is asked of a loaded machine, its tape stays blank outside the tracked
range, and the cursors of its three queues stay within their buffers.  This is
what the other properties of machines rest on: a blank tape outside lets the
searches of a machine stop where they do, and a queue in bounds receives new
bytes behind the unread ones.

The order of events inside a step matters here.  A byte may be stored at an
address that is not tracked, and is tracked before the step ends.
-/

namespace OneTape
namespace ByteQueue

theorem inBounds_append {queue : ByteQueue} (inBounds : queue.InBounds)
    (bytes : List UInt8) : (queue.append bytes).InBounds := by
  unfold InBounds at inBounds ⊢
  rw [cursor_append, ← Array.length_toList, buffer_append, List.length_append]
  exact Nat.le_add_right_of_le inBounds

theorem inBounds_push {queue : ByteQueue} (inBounds : queue.InBounds) (byte : UInt8) :
    (queue.push byte).InBounds := by
  rw [push_eq_append]
  exact inBounds_append inBounds [byte]

theorem inBounds_shift {queue : ByteQueue} (inBounds : queue.InBounds) :
    queue.shift.2.InBounds := by
  unfold shift
  split
  · rename_i byte found
    obtain ⟨bound, -⟩ := Array.getElem?_eq_some_iff.mp found
    exact bound
  · exact inBounds

end ByteQueue

namespace Machine

theorem get_fetch (machine : Machine) (address : Int) :
    machine.fetch.2.tape.get address = machine.tape.get address := by
  unfold fetch
  dsimp only
  split
  · exact Tape.get_touch _ _ _
  · rfl

theorem currentCommand?_fetch (machine : Machine) :
    machine.fetch.2.currentCommand? = some machine.fetch.1 := by
  rw [currentCommand?, Tape.commandAt?, get_fetch]
  exact machine.tape.commandAt?_nextCommand machine.programPointer

structure Sound (machine : Machine) : Prop where
  blank : machine.tape.BlankOutside
  input : machine.input.InBounds
  output : machine.output.InBounds
  diagnostics : machine.diagnostics.InBounds

theorem sound_load (source : List UInt8) (options : Options) :
    (load source options).Sound := by
  refine ⟨?_, ?_, ?_, ?_⟩
  · rw [tape_load]
    exact Tape.blankOutside_ofProgram _
  all_goals
    unfold load
    split
    · split <;> simp [ByteQueue.InBounds, ByteQueue.empty, ByteQueue.appendText,
        ByteQueue.append]
    · simp [ByteQueue.InBounds]

namespace Sound

variable {machine : Machine}

theorem feed (sound : machine.Sound) (bytes : List UInt8) : (machine.feed bytes).Sound :=
  { sound with input := ByteQueue.inBounds_append sound.input bytes }

theorem counted (sound : machine.Sound) : machine.counted.Sound :=
  ⟨sound.blank, sound.input, sound.output, sound.diagnostics⟩

theorem fail (sound : machine.Sound) (fault : Fault) : (machine.fail fault).2.Sound :=
  { sound with diagnostics := ByteQueue.inBounds_append sound.diagnostics _ }

theorem complete (sound : machine.Sound) (command : Command) :
    (machine.complete command).2.Sound :=
  { sound with blank := sound.blank.touch machine.dataPointer }

theorem store (sound : machine.Sound) (value : UInt8) (command : Command) :
    ({ machine with tape := machine.tape.set machine.dataPointer value }.complete
      command).2.Sound :=
  { sound with blank := sound.blank.set_touch machine.dataPointer value }

theorem fetch (sound : machine.Sound) : machine.fetch.2.Sound := by
  refine { sound with blank := ?_ }
  unfold Machine.fetch
  dsimp only
  split
  · exact sound.blank.touch _
  · exact sound.blank

theorem jump (sound : machine.Sound) (direction : Tape.Direction) :
    (machine.jump direction).2.Sound := by
  unfold Machine.jump
  split
  · apply complete
    exact ⟨sound.blank, sound.input, sound.output, sound.diagnostics⟩
  · apply fail
    exact ⟨sound.blank, sound.input, sound.output, sound.diagnostics⟩

theorem execute (sound : machine.Sound) (command : Command) :
    (machine.execute command).2.Sound := by
  cases command with
  | right | left =>
      apply complete
      exact ⟨sound.blank, sound.input, sound.output, sound.diagnostics⟩
  | increment => exact sound.store _ _
  | decrement => exact sound.store _ _
  | openLoop =>
      unfold Machine.execute
      dsimp only
      split
      · exact sound.jump _
      · exact sound.complete _
  | closeLoop =>
      unfold Machine.execute
      dsimp only
      split
      · exact sound.complete _
      · exact sound.jump _
  | input =>
      have taken : machine.takeInput.2.Sound :=
        { sound with input := ByteQueue.inBounds_shift sound.input }
      exact taken.store _ _
  | output =>
      apply complete
      exact ⟨sound.blank, sound.input, ByteQueue.inBounds_push sound.output _,
        sound.diagnostics⟩
  | stop => exact ⟨sound.blank, sound.input, sound.output, sound.diagnostics⟩

theorem step (sound : machine.Sound) : machine.step.2.Sound :=
  step_cases (motive := fun result => result.2.Sound) sound (sound.counted.fail _)
    (sound.counted.fetch.execute _)

theorem steps (sound : machine.Sound) (count : Nat) : (machine.steps count).Sound :=
  steps_invariant (fun _ sound => sound.step) sound count

theorem after (sound : machine.Sound) (calls : List Call) : (machine.after calls).Sound :=
  calls_invariant (fun _ bytes sound => sound.feed bytes) (fun _ sound => sound.step) calls sound

end Sound

theorem Reachable.sound {machine : Machine} (reachable : machine.Reachable) : machine.Sound :=
  reachable.invariant sound_load (fun _ bytes sound => sound.feed bytes) fun _ sound => sound.step

end Machine
end OneTape
