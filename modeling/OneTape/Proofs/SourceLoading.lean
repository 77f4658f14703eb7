import OneTape.Proofs.Diagnostics
import OneTape.Proofs.Refitting
import OneTape.Proofs.Watermarks

/-!
# Loading a source

Escapes are a matter of loading alone.  A machine with an escaped source and a
machine with the bytes that this source denotes answer all calls in the same way,
and differ only in the option that says how they were loaded.

A malformed source is loaded as the empty one.  Nothing of what stands before the
malformed escape reaches the tape, and all that is left of the source is the error
and a line in front of the other diagnostics.

Both are instances of one fact.  A change of machines that feeding and stepping do
not notice is not noticed by any calls.
-/

namespace OneTape

/-- Bytes are put at the beginning of the buffer. -/
def ByteQueue.prepend (bytes : List UInt8) (queue : ByteQueue) : ByteQueue :=
  { queue with buffer := bytes.toArray ++ queue.buffer }

theorem ByteQueue.append_prepend (first second : List UInt8) (queue : ByteQueue) :
    (queue.prepend first).append second = (queue.append second).prepend first := by
  have buffers : first.toArray ++ queue.buffer ++ second =
      first.toArray ++ (queue.buffer ++ second) := by
    apply Array.toList_inj.mp
    simp
  simp only [prepend, append, buffers]

theorem ByteQueue.unread_prepend {queue : ByteQueue} (untaken : queue.cursor = 0)
    (bytes : List UInt8) : (queue.prepend bytes).unread = bytes ++ queue.unread := by
  simp [prepend, unread, untaken]

namespace Machine

/-- Feeding and stepping do not notice a change of the machine. -/
structure Unnoticed (change : Machine → Machine) : Prop where
  halt : ∀ machine, (change machine).halt = machine.halt
  feed : ∀ machine bytes, (change machine).feed bytes = change (machine.feed bytes)
  step : ∀ machine, (change machine).step = Prod.map id change machine.step

namespace Unnoticed

variable {change : Machine → Machine}

theorem comp {other : Machine → Machine} (unnoticed : Unnoticed change)
    (alsoUnnoticed : Unnoticed other) : Unnoticed (change ∘ other) where
  halt machine := by
    rw [Function.comp_apply, unnoticed.halt, alsoUnnoticed.halt]
  feed machine bytes := by
    simp only [Function.comp_apply, unnoticed.feed, alsoUnnoticed.feed]
  step machine := by
    rw [Function.comp_apply, unnoticed.step, alsoUnnoticed.step]
    rfl

theorem steps (unnoticed : Unnoticed change) (machine : Machine) (count : Nat) :
    (change machine).steps count = change (machine.steps count) := by
  induction count with
  | zero => rfl
  | succ count ih =>
      rw [steps_succ, ih, unnoticed.step]
      rfl

theorem run (unnoticed : Unnoticed change) (machine : Machine) :
    (change machine).run = change machine.run := by
  obtain ⟨count, ends, -⟩ := machine.exists_steps_eq_run
  have changed : (change machine).steps count = change machine.run := by
    rw [unnoticed.steps, ends]
  rw [← changed]
  apply run_eq_steps
  rw [changed, isHalted, unnoticed.halt]
  exact machine.isHalted_run

theorem call (unnoticed : Unnoticed change) (machine : Machine) (call : Call) :
    (change machine).call call = Prod.map id change (machine.call call) := by
  cases call with
  | feed bytes => exact congrArg (Prod.mk Response.fed) (unnoticed.feed machine bytes)
  | step =>
      rw [Machine.call, unnoticed.step]
      rfl
  | run =>
      have reason : (change machine).finalHalt = machine.finalHalt := by
        rw [finalHalt_eq_iff, unnoticed.run, unnoticed.halt, halt_run]
      rw [Machine.call, reason, unnoticed.run]
      rfl

theorem after (unnoticed : Unnoticed change) (machine : Machine) (calls : List Call) :
    (change machine).after calls = change (machine.after calls) := by
  induction calls generalizing machine with
  | nil => rfl
  | cons call calls ih =>
      rw [after_cons, unnoticed.call]
      exact ih (machine.call call).2

theorem history (unnoticed : Unnoticed change) (machine : Machine) (calls : List Call) :
    (change machine).history calls = (machine.history calls).map (Prod.map id change) := by
  induction calls generalizing machine with
  | nil => rfl
  | cons call calls ih =>
      rw [Machine.history, unnoticed.call]
      exact congrArg (List.cons _) (ih (machine.call call).2)

end Unnoticed

/-- A machine as if it had been loaded with or without decoding escapes. -/
def withEscapes (decodeEscapes : Bool) : Machine → Machine :=
  refit (fun options => { options with decodeEscapes }) id

theorem unnoticed_withEscapes (decodeEscapes : Bool) : Unnoticed (withEscapes decodeEscapes) where
  halt _ := rfl
  feed _ _ := rfl
  step _ := step_refit (fun _ => Iff.rfl) fun _ => ⟨rfl, rfl⟩

/-- A machine with an error of its source, and the line about it in front of the
other diagnostics. -/
def blame (error : EscapeError) (machine : Machine) : Machine :=
  { machine with
    diagnostics := machine.diagnostics.prepend (Utf8.encode (error.message ++ "\n").toList)
    loadError := some error }

section Blame

variable (error : EscapeError) (machine : Machine)

theorem fail_blame (fault : Fault) :
    (machine.blame error).fail fault = Prod.map id (blame error) (machine.fail fault) := by
  simp [fail, finish, blame, ByteQueue.appendText, ByteQueue.append_prepend]

theorem jump_blame (direction : Tape.Direction) :
    (machine.blame error).jump direction = Prod.map id (blame error) (machine.jump direction) := by
  cases found : machine.tape.partner? direction machine.programPointer with
  | some address =>
      simp only [jump, blame, found]
      rfl
  | none =>
      have failed := fail_blame error
        { machine with programPointer := direction.pastRange machine.tape } (unmatched direction)
      simp only [jump, blame, found] at failed ⊢
      exact failed

theorem execute_blame (command : Command) :
    (machine.blame error).execute command =
      Prod.map id (blame error) (machine.execute command) := by
  have sameByte : (machine.blame error).dataByte = machine.dataByte := rfl
  cases command with
  | openLoop | closeLoop =>
      unfold execute
      simp only [sameByte, jump_blame]
      split <;> rfl
  | _ => rfl

theorem step_blame : (machine.blame error).step = Prod.map id (blame error) machine.step := by
  cases status : machine.halt with
  | some reason =>
      have halted := isHalted_of_halt status
      have alsoHalted : (machine.blame error).isHalted := halted
      rw [step_of_halted halted, step_of_halted alsoHalted]
      rfl
  | none =>
      have alsoStatus : (machine.blame error).halt = none := status
      rcases Nat.lt_or_ge machine.stepCount machine.options.limit with allowed | exceeded
      · rw [step_of_allowed status allowed, step_of_allowed alsoStatus allowed]
        exact execute_blame error machine.counted.fetch.2 machine.fetch.1
      · rw [step_of_exceeded status exceeded, step_of_exceeded alsoStatus exceeded]
        exact fail_blame error machine.counted .limitExceeded

theorem unnoticed_blame : Unnoticed (blame error) where
  halt _ := rfl
  feed _ _ := rfl
  step := step_blame error

end Blame

/-- Nothing reads the diagnostics. -/
theorem cursor_diagnostics_step (machine : Machine) :
    machine.step.2.diagnostics.cursor = machine.diagnostics.cursor := by
  cases status : machine.halt with
  | some reason => rw [step_of_halted (isHalted_of_halt status)]
  | none =>
      cases tells_step status with
      | nothing diagnostics => rw [diagnostics]
      | fault fault diagnostics =>
          rw [diagnostics]
          rfl

theorem cursor_diagnostics_after (machine : Machine) (calls : List Call) :
    (machine.after calls).diagnostics.cursor = machine.diagnostics.cursor :=
  @calls_invariant (fun next => next.diagnostics.cursor = machine.diagnostics.cursor) machine
    (fun _ _ same => same) (fun next same => next.cursor_diagnostics_step.trans same) calls rfl

section Load

variable {source : List UInt8} {options : Options}

theorem load_of_decode_eq_ok {program : List UInt8}
    (denotes : SourceEscape.decode source = .ok program) :
    load source { options with decodeEscapes := true } =
      (load program { options with decodeEscapes := false }).withEscapes true := by
  simp only [load, denotes]
  rfl

variable {error : EscapeError}

theorem load_of_decode_eq_error (malformed : SourceEscape.decode source = .error error)
    (decodeEscapes : Bool) :
    load source { options with decodeEscapes := true } =
      (blame error ∘ withEscapes true) (load [] { options with decodeEscapes }) := by
  have line : ByteQueue.empty.appendText (error.message ++ "\n") =
      ByteQueue.empty.prepend (Utf8.encode (error.message ++ "\n").toList) := by
    simp [ByteQueue.empty, ByteQueue.appendText, ByteQueue.append, ByteQueue.prepend]
  simp only [load, malformed, line]
  cases decodeEscapes <;> rfl

end Load

section Blank

variable {machine : Machine} (blank : machine.tape = .blank)
  (atStart : machine.programPointer = -1) (running : machine.halt = none)
  (allowed : machine.stepCount < machine.options.limit)

include blank atStart running allowed

/-- The first step on a blank tape finds the stop command. -/
theorem step_blank :
    machine.step =
      (.halted .stopped,
        { machine with
          programPointer := 0
          stepCount := machine.stepCount + 1
          halt := some .stopped }) := by
  have fetched : machine.counted.fetch = _ := fetch_blank blank atStart
  have command : machine.fetch.1 = .stop := congrArg Prod.fst fetched
  rw [step_of_allowed running allowed, command, fetched]
  rfl

theorem run_blank : machine.run = machine.step.2 := by
  have stepped := step_blank blank atStart running allowed
  have halted : (machine.steps 1).isHalted := congrArg (·.2.isHalted) stepped
  exact run_eq_steps halted

end Blank

/-- A machine with an escaped source is the same to a user as one with the bytes that
the source denotes.  If the source is malformed, it is the same as one with the empty
source, but for the error and its line in the diagnostics, and stops at its first
step. -/
theorem load_transparent (source : List UInt8) (options : Options) :
    let escaped := load source { options with decodeEscapes := true }
    match SourceEscape.decode source with
    | .ok program =>
        let plain := load program { options with decodeEscapes := false }
        escaped = plain.withEscapes true ∧
          ∀ calls, escaped.history calls =
            (plain.history calls).map (Prod.map id (withEscapes true))
    | .error error =>
        (∀ decodeEscapes,
          let empty := load [] { options with decodeEscapes }
          escaped = (empty.withEscapes true).blame error ∧
            ∀ calls,
              escaped.history calls =
                (empty.history calls).map (Prod.map id (blame error ∘ withEscapes true)) ∧
              (escaped.after calls).diagnostics.unread =
                Utf8.encode (error.message ++ "\n").toList ++
                  (empty.after calls).diagnostics.unread) ∧
          (1 ≤ options.limit → ∀ input,
            let machine := escaped.feed input
            machine.step = (.halted .stopped, machine.run) ∧
              machine.run =
                { machine with programPointer := 0, stepCount := 1, halt := some .stopped } ∧
              machine.run.input = ByteQueue.empty.append input ∧
              machine.run.output = .empty ∧
              machine.run.tape.entries = [(0, 0)]) := by
  cases decoded : SourceEscape.decode source with
  | ok program =>
      dsimp only
      rw [load_of_decode_eq_ok decoded]
      refine ⟨rfl, ?_⟩
      apply (unnoticed_withEscapes true).history
  | error error =>
      have unnoticed := (unnoticed_blame error).comp (unnoticed_withEscapes true)
      constructor
      · intro decodeEscapes empty
        have same : load source { options with decodeEscapes := true } =
          (blame error ∘ withEscapes true) empty := load_of_decode_eq_error decoded decodeEscapes
        have untaken : empty.diagnostics.cursor = 0 := by cases decodeEscapes <;> rfl
        refine ⟨same, ?_⟩
        intro calls
        rw [same]
        refine ⟨unnoticed.history empty calls, ?_⟩
        rw [unnoticed.after]
        apply ByteQueue.unread_prepend
        exact (cursor_diagnostics_after empty calls).trans untaken
      · intro positive input
        rw [load_of_decode_eq_error decoded false]
        intro machine
        have stepped : machine.step = _ := step_blank rfl rfl rfl positive
        have ended : machine.run = machine.step.2 := run_blank rfl rfl rfl positive
        have entry : Tape.blank.entries = [(0, 0)] := by decide
        rw [ended, stepped]
        exact ⟨rfl, rfl, rfl, rfl, entry⟩

end Machine
end OneTape
