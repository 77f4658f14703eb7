import Mathlib.Logic.Relation
import OneTape.Proofs.StructuredProgram
import OneTape.Proofs.UnboundedRefinement

/-!
# Running structured programs

A machine runs a structured program as its evaluation says, if the program
first moves the data pointer to the left of the code and never takes it back.
Every command of the evaluation is one step.

The machine has no stack of loops.  It comes to the test of a loop in two ways,
in front of the opening bracket or, after a body, in front of the closing one,
and in both cases it goes on behind the same bracket.  So the induction over the
evaluation allows a loop to start at either of its brackets.
-/

namespace OneTape
namespace UnboundedMachine

def Continues (first second : UnboundedMachine) : Prop :=
  first.halt = none ∧ ∃ outcome, first.Step outcome second

theorem Completes.of_reaches {first second final : UnboundedMachine} {reason : Halt}
    (reaches : Relation.ReflTransGen Continues first second)
    (completes : Completes second reason final) : Completes first reason final := by
  induction reaches using Relation.ReflTransGen.head_induction_on with
  | refl => exact completes
  | head continues _ ih =>
      obtain ⟨running, outcome, step⟩ := continues
      exact .step running step ih

end UnboundedMachine

open UnboundedMachine

def Memory.toMachine (memory : Memory) (options : Options) (source : List UInt8)
    (pointer : Int) (count : Nat) : UnboundedMachine where
  options := options
  cells := codeAndData source memory.cells
  programPointer := pointer
  dataPointer := memory.head
  input := memory.input
  output := memory.output
  stepCount := count

section Step

variable {options : Options} {source : List UInt8} {memory : Memory} {pointer address : Int}
  {count : Nat}

theorem Memory.dataByte_toMachine (negative : memory.head < 0) :
    (memory.toMachine options source pointer count).dataByte = memory.current :=
  codeAndData_of_neg negative

theorem Memory.toMachine_store (memory : Memory) (negative : memory.head < 0) (value : UInt8) :
    (memory.store value).toMachine options source pointer count =
      (memory.toMachine options source pointer count).store value := by
  simp only [toMachine, Memory.store, UnboundedMachine.store, codeAndData_update negative]

theorem executes_perform (negative : memory.head < 0) (operation : Operation) :
    (memory.toMachine options source pointer count).Executes operation.command
      (.executed operation.command)
      ((memory.perform options.endByte.toByte operation).toMachine options source pointer
        count) := by
  have current : (memory.toMachine options source pointer count).dataByte = memory.current :=
    Memory.dataByte_toMachine negative
  cases operation with
  | right => exact .right
  | left => exact .left
  | increment =>
      rw [Memory.perform, memory.toMachine_store negative, ← current]
      exact .increment
  | decrement =>
      rw [Memory.perform, memory.toMachine_store negative, ← current]
      exact .decrement
  | input =>
      rw [Memory.perform]
      cases available : memory.input with
      | nil =>
          rw [memory.toMachine_store negative]
          exact .inputEnd available
      | cons byte rest =>
          have stillNegative : { memory with input := rest }.head < 0 := negative
          dsimp only
          rw [Memory.toMachine_store _ stillNegative]
          exact .input available
  | output =>
      rw [Memory.perform, ← current]
      exact .output

theorem continues_perform (negative : memory.head < 0) (operation : Operation)
    (found : IsNextCommand (codeAndData source memory.cells) pointer address operation.command)
    (allowed : count + 1 ≤ options.limit) :
    Continues (memory.toMachine options source pointer count)
      ((memory.perform options.endByte.toByte operation).toMachine options source address
        (count + 1)) :=
  ⟨rfl, _, .command rfl allowed found (executes_perform negative operation)⟩

end Step

/-- The program pointer is in front of a structured program, or in front of the
closing bracket of the loop that it starts with. -/
inductive Ready (cells : Int → UInt8) (finish : Int) : Block → Int → Prop where
  | ahead {block : Block} {pointer : Int}
      (spells : Spells cells finish (pointer + 1) block.flatten) : Ready cells finish block pointer
  | closing {body rest : Block} {pointer opening closing : Int} (nonneg : 0 ≤ opening)
      (loopAt : LoopAt cells finish body rest opening closing) (before : pointer < closing)
      (none : NoCommands cells (pointer + 1) closing) :
      Ready cells finish (.loop body rest) pointer

/-- From either of its brackets, the test of a loop leads behind the opening one
or behind the closing one. -/
theorem Ready.test {options : Options} {source : List UInt8} {finish pointer : Int}
    {body rest : Block} (ready : Ready (programCells source) finish (.loop body rest) pointer)
    (fromStart : -1 ≤ pointer) {memory : Memory} (negative : memory.head < 0) {count : Nat}
    (allowed : count + 1 ≤ options.limit) :
    ∃ opening closing, 0 ≤ opening ∧
      LoopAt (programCells source) finish body rest opening closing ∧
      Continues (memory.toMachine options source pointer count)
        (memory.toMachine options source (if memory.current = 0 then closing else opening)
          (count + 1)) := by
  cases ready with
  | ahead spells =>
      obtain ⟨opening, closing, ordered, none, loopAt⟩ := spells.loop
      have found : IsNextCommand (codeAndData source memory.cells) pointer opening .openLoop :=
        isNextCommand_codeAndData fromStart (by omega) none loopAt.opens
      have matched := loopAt.matched.codeAndData memory.cells (by omega)
      refine ⟨opening, closing, by omega, loopAt, rfl, .executed .openLoop,
        .command rfl allowed found ?_⟩
      split
      · rename_i zero
        exact .skipLoop (by rwa [← memory.dataByte_toMachine negative] at zero)
          matched.isPartner_rightward
      · rename_i nonzero
        exact .enterLoop (by rwa [← memory.dataByte_toMachine negative] at nonzero)
  | @closing _ _ _ opening closing nonneg loopAt before none =>
      have found : IsNextCommand (codeAndData source memory.cells) pointer closing .closeLoop :=
        isNextCommand_codeAndData fromStart before none loopAt.closes
      have matched := loopAt.matched.codeAndData memory.cells nonneg
      refine ⟨opening, closing, nonneg, loopAt, rfl, .executed .closeLoop,
        .command rfl allowed found ?_⟩
      split
      · rename_i zero
        exact .leaveLoop (by rwa [← memory.dataByte_toMachine negative] at zero)
      · rename_i nonzero
        exact .repeatLoop (by rwa [← memory.dataByte_toMachine negative] at nonzero)
          matched.isPartner_leftward

theorem Evaluates.head_negative {endByte : UInt8} {block : Block} {before after : Memory}
    {heads : List Int} (evaluates : Evaluates endByte block before heads after)
    (negative : before.head < 0) (beside : ∀ head ∈ heads, head < 0) : after.head < 0 := by
  induction evaluates with
  | empty => exact negative
  | simple _ ih =>
      obtain ⟨nextNegative, restBeside⟩ := List.forall_mem_cons.mp beside
      exact ih nextNegative restBeside
  | loopDone _ _ ih => exact ih negative (List.forall_mem_cons.mp beside).2
  | loopAgain _ _ _ turnIH againIH =>
      obtain ⟨-, bothBeside⟩ := List.forall_mem_cons.mp beside
      obtain ⟨innerBeside, outerBeside⟩ := List.forall_mem_append.mp bothBeside
      exact againIH (turnIH negative innerBeside) outerBeside

/-- The program pointer comes behind an evaluated program, with nothing but
other bytes up to its end. -/
theorem Evaluates.reaches {options : Options} {source : List UInt8} {block : Block}
    {before after : Memory} {heads : List Int}
    (evaluates : Evaluates options.endByte.toByte block before heads after)
    (negative : before.head < 0) (beside : ∀ head ∈ heads, head < 0)
    {finish pointer : Int} (fromStart : -1 ≤ pointer)
    (ready : Ready (programCells source) finish block pointer) (count : Nat)
    (allowed : count + heads.length ≤ options.limit) :
    ∃ final, -1 ≤ final ∧ final < finish ∧
      NoCommands (programCells source) (final + 1) finish ∧
      Relation.ReflTransGen Continues (before.toMachine options source pointer count)
        (after.toMachine options source final (count + heads.length)) := by
  induction evaluates generalizing finish pointer count with
  | empty =>
      cases ready with
      | ahead spells =>
          cases spells with
          | nil ordered none => exact ⟨pointer, fromStart, by omega, none, .refl⟩
  | @simple operation rest before after heads _ ih =>
      obtain ⟨nextNegative, restBeside⟩ := List.forall_mem_cons.mp beside
      rw [List.length_cons, Nat.add_comm heads.length, ← Nat.add_assoc] at allowed ⊢
      cases ready with
      | ahead spells =>
          cases spells with
          | @cons _ address _ _ ordered none found continues =>
              have next : IsNextCommand (codeAndData source before.cells) pointer address
                  operation.command :=
                isNextCommand_codeAndData fromStart (by omega) none found
              have room : count + 1 ≤ options.limit := by omega
              have step := continues_perform negative operation next room
              obtain ⟨final, finalFrom, finalBefore, finalNone, reaches⟩ :=
                ih nextNegative restBeside (by omega) (.ahead continues) (count + 1) allowed
              exact ⟨final, finalFrom, finalBefore, finalNone, .head step reaches⟩
  | @loopDone body rest before after heads zero _ ih =>
      obtain ⟨-, restBeside⟩ := List.forall_mem_cons.mp beside
      rw [List.length_cons, Nat.add_comm heads.length, ← Nat.add_assoc] at allowed ⊢
      have room : count + 1 ≤ options.limit := by omega
      obtain ⟨opening, closing, nonneg, loopAt, step⟩ := ready.test fromStart negative room
      have ordered := loopAt.inner.ordered
      rw [if_pos zero] at step
      obtain ⟨final, finalFrom, finalBefore, finalNone, reaches⟩ :=
        ih negative restBeside (by omega) (.ahead loopAt.outer) (count + 1) allowed
      exact ⟨final, finalFrom, finalBefore, finalNone, .head step reaches⟩
  | @loopAgain body rest before middle after inner outer nonzero turn _ turnIH againIH =>
      obtain ⟨-, bothBeside⟩ := List.forall_mem_cons.mp beside
      obtain ⟨innerBeside, outerBeside⟩ := List.forall_mem_append.mp bothBeside
      rw [List.length_cons, List.length_append, Nat.add_comm (inner.length + outer.length),
        ← Nat.add_assoc, ← Nat.add_assoc] at allowed ⊢
      have room : count + 1 ≤ options.limit := by omega
      obtain ⟨opening, closing, nonneg, loopAt, step⟩ := ready.test fromStart negative room
      rw [if_neg nonzero] at step
      obtain ⟨paused, pausedFrom, pausedBefore, pausedNone, turns⟩ :=
        turnIH negative innerBeside (by omega) (.ahead loopAt.inner) (count + 1) (by omega)
      -- Behind the body stands the closing bracket, which makes the next test.
      obtain ⟨final, finalFrom, finalBefore, finalNone, repeats⟩ :=
        againIH (turn.head_negative negative innerBeside) outerBeside pausedFrom
          (.closing nonneg loopAt pausedBefore pausedNone) (count + 1 + inner.length) allowed
      exact ⟨final, finalFrom, finalBefore, finalNone, .head step (turns.trans repeats)⟩

section Program

variable {options : Options} {source : List UInt8} {block : Block} {memory : Memory}
  {input : List UInt8} {heads : List Int}

/-- The first command of a program takes the data pointer beside the code. -/
theorem continues_left {address : Int}
    (found : IsNextCommand (programCells source) (-1) address .left)
    (allowed : 1 ≤ options.limit) :
    Continues { options, cells := programCells source, input }
      (Memory.toMachine { input } options source address 1) := by
  have cells := codeAndData_blank source
  refine ⟨rfl, .executed .left, .command rfl allowed found ?_⟩
  simp only [Memory.toMachine, cells]
  exact .left

/-- The blank tape behind a program stops the machine. -/
theorem completes_stop {pointer : Int} {count : Nat} (fromStart : -1 ≤ pointer)
    (inside : pointer < source.length)
    (none : NoCommands (programCells source) (pointer + 1) source.length)
    (allowed : count + 1 ≤ options.limit) :
    Completes (memory.toMachine options source pointer count) .stopped
      { memory.toMachine options source source.length (count + 1) with
        halt := some .stopped } := by
  have blank : programCells source source.length = 0 :=
    programCells_of_length_le (Int.le_refl _)
  have found : IsNextCommand (codeAndData source memory.cells) pointer source.length .stop :=
    isNextCommand_codeAndData fromStart inside none (by rw [blank, Command.ofByte?_zero])
  exact .step rfl (.command rfl allowed found .stop) (.halted rfl)

/-- On an unbounded tape, a program that moves to the left and then spells a
structured program runs as that evaluates. -/
theorem Evaluates.completes
    (evaluates : Evaluates options.endByte.toByte block { input } heads memory)
    (beside : ∀ head ∈ heads, head < 0)
    (spells : Spells (programCells source) source.length 0 (.left :: block.flatten))
    (allowed : heads.length + 2 ≤ options.limit) :
    Completes { options, cells := programCells source, input } .stopped
      { memory.toMachine options source source.length (heads.length + 2) with
        halt := some .stopped } := by
  cases spells with
  | @cons _ address _ _ ordered none found rest =>
      have next : IsNextCommand (programCells source) (-1) address .left :=
        ⟨by omega, fun between behind before => none between (by omega) before, found⟩
      have negative : (-1 : Int) < 0 := by decide
      obtain ⟨final, finalFrom, finalBefore, finalNone, reaches⟩ :=
        evaluates.reaches negative beside (by omega) (.ahead rest) 1 (by omega)
      rw [Nat.add_comm 1] at reaches
      exact (completes_stop finalFrom finalBefore finalNone allowed).of_reaches
        (.head (continues_left next (by omega)) reaches)

end Program

/-- A program that takes the data pointer beside the code and then spells a
structured program has the meaning of that program, if its evaluation never
comes back to the code.  Other bytes may stand anywhere, except for a zero,
which would be a command to stop. -/
theorem Machine.run_structured (options : Options) {source input : List UInt8} {block : Block}
    {memory : Memory} {heads : List Int}
    (commands : source.filterMap Command.ofByte? = .left :: block.flatten)
    (plain : options.decodeEscapes = false ∨ SourceEscape.backslash ∉ source)
    (evaluates : Evaluates options.endByte.toByte block { input } heads memory)
    (beside : ∀ head ∈ heads, head ≤ -1) (allowed : heads.length + 2 ≤ options.limit) :
    let final := ((load source options).feed input).run
    final.halt = some .stopped ∧ final.stepCount = heads.length + 2 ∧
      final.programPointer = source.length ∧ final.diagnostics.unread = [] ∧
      (∀ index, (bound : index < source.length) → final.tape.get index = source[index]) ∧
      (∀ address < 0, final.tape.get address = memory.cells address) ∧
      final.dataPointer = memory.head ∧ final.output.unread = memory.output ∧
      final.input.unread = memory.input := by
  have spells := commands ▸ spells_program source
  have completes := evaluates.completes
    (fun head member => Int.lt_of_le_sub_one (beside head member)) spells allowed
  have sound := sound_load source options
  have loaded := (agrees_load source options).feed sound input
  simp only [UnboundedMachine.load, UnboundedMachine.feed, loadedProgram_plain plain,
    loadDiagnostics_plain plain, List.nil_append] at loaded
  have agrees := loaded.run (sound.feed input) completes
  have stopped := agrees.halt
  refine ⟨stopped, agrees.stepCount, ?_, agrees.diagnostics, ?_, ?_, agrees.dataPointer,
    agrees.output, agrees.input⟩
  · exact agrees.programPointer (by simp [stopped]) (by simp [stopped])
  · intro index bound
    rw [agrees.cells]
    change source[index]?.getD 0 = source[index]
    simp [bound]
  · intro address negative
    rw [agrees.cells]
    exact codeAndData_of_neg negative

/-- Read up to a zero byte, and write what is read. -/
def copyLoop : Block :=
  .simple .input (.loop (.simple .output (.simple .input .empty)) .empty)

def copySource : List UInt8 :=
  ['a', '<', ',', ' ', '[', '.', ',', ']', 'z'].map Char.toUInt8

/-- The byte that is copied is a bracket, which does not disturb the brackets of
the program. -/
theorem evaluates_copyLoop :
    Evaluates 255 copyLoop { input := [93, 0, 1] } [-1, -1, -1, -1, -1]
      { cells := Function.update (Function.update (fun _ => 0) (-1) 93) (-1) 0
        input := [1]
        output := [93] } := by
  have turn : Evaluates 255 (.simple .output (.simple .input .empty))
      { cells := Function.update (fun _ => 0) (-1) 93, input := [0, 1] } [-1, -1]
      { cells := Function.update (Function.update (fun _ => 0) (-1) 93) (-1) 0
        input := [1]
        output := [93] } :=
    .simple (.simple .empty)
  exact .simple (.loopAgain (by decide) turn (.loopDone (by decide) .empty))

theorem Machine.run_copySource :
    copySource.filterMap Command.ofByte? = .left :: copyLoop.flatten ∧
      let final := ((load copySource { endByte := .max }).feed [93, 0, 1]).run
      final.halt = some .stopped ∧ final.stepCount = 7 ∧ final.programPointer = 9 ∧
        final.output.unread = [93] ∧ final.input.unread = [1] := by
  have commands : copySource.filterMap Command.ofByte? = .left :: copyLoop.flatten := by decide
  have plain : SourceEscape.backslash ∉ copySource := by decide
  obtain ⟨halt, stepCount, programPointer, -, -, -, -, output, input⟩ :=
    run_structured { endByte := .max } commands (.inr plain) evaluates_copyLoop (by decide)
      (by decide)
  exact ⟨commands, halt, stepCount, programPointer, output, input⟩

end OneTape
