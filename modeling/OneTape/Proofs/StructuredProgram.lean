import OneTape.Proofs.CodeBesideData

/-!
# Structured programs

A structured program is a list of operations and loops, where a loop holds a
structured program of its own.  Its meaning is given by evaluation on data
alone: there is no program pointer, and the loops are ordinary while-loops.

Flattening a structured program gives its commands.  A stretch of tape may
spell these commands with any other bytes in between.  In such a stretch the two
brackets of every loop are partners.
-/

namespace OneTape

/-- A command that does not steer the program. -/
inductive Operation where
  | right
  | left
  | increment
  | decrement
  | input
  | output
  deriving DecidableEq

def Operation.command : Operation → Command
  | right => .right
  | left => .left
  | increment => .increment
  | decrement => .decrement
  | input => .input
  | output => .output

inductive Block where
  | empty
  | simple (operation : Operation) (rest : Block)
  | loop (body rest : Block)
  deriving DecidableEq

/-- The commands of a structured program, with its loops in brackets. -/
def Block.flatten : Block → List Command
  | empty => []
  | simple operation rest => operation.command :: rest.flatten
  | loop body rest => .openLoop :: (body.flatten ++ .closeLoop :: rest.flatten)

structure Memory where
  cells : Int → UInt8 := fun _ => 0
  head : Int := -1
  input : List UInt8 := []
  output : List UInt8 := []

namespace Memory

def current (memory : Memory) : UInt8 :=
  memory.cells memory.head

def store (memory : Memory) (value : UInt8) : Memory :=
  { memory with cells := Function.update memory.cells memory.head value }

/-- Carry out an operation.  At the end of the input there is always an end
byte to read. -/
def perform (endByte : UInt8) (memory : Memory) : Operation → Memory
  | .right => { memory with head := memory.head + 1 }
  | .left => { memory with head := memory.head - 1 }
  | .increment => memory.store (memory.current + 1)
  | .decrement => memory.store (memory.current - 1)
  | .input =>
      match memory.input with
      | [] => memory.store endByte
      | byte :: rest => { memory with input := rest }.store byte
  | .output => { memory with output := memory.output ++ [memory.current] }

end Memory

/-- Evaluation of a structured program, with the place of the head after each
command.  A loop tests its cell on entry and after each finished body, and every
test is one command: the opening bracket makes the first one, the closing
bracket all others. -/
inductive Evaluates (endByte : UInt8) : Block → Memory → List Int → Memory → Prop where
  | empty {memory : Memory} : Evaluates endByte .empty memory [] memory
  | simple {operation : Operation} {rest : Block} {before after : Memory} {heads : List Int}
      (continues : Evaluates endByte rest (before.perform endByte operation) heads after) :
      Evaluates endByte (.simple operation rest) before
        ((before.perform endByte operation).head :: heads) after
  | loopDone {body rest : Block} {before after : Memory} {heads : List Int}
      (zero : before.current = 0) (continues : Evaluates endByte rest before heads after) :
      Evaluates endByte (.loop body rest) before (before.head :: heads) after
  | loopAgain {body rest : Block} {before middle after : Memory} {inner outer : List Int}
      (nonzero : before.current ≠ 0) (turn : Evaluates endByte body before inner middle)
      (again : Evaluates endByte (.loop body rest) middle outer after) :
      Evaluates endByte (.loop body rest) before (before.head :: (inner ++ outer)) after

/-- The commands at the addresses from a first one up to an end. -/
inductive Spells (cells : Int → UInt8) (finish : Int) : Int → List Command → Prop where
  | nil {first : Int} (ordered : first ≤ finish) (none : NoCommands cells first finish) :
      Spells cells finish first []
  | cons {first address : Int} {command : Command} {commands : List Command}
      (ordered : first ≤ address) (none : NoCommands cells first address)
      (found : Command.ofByte? (cells address) = some command)
      (rest : Spells cells finish (address + 1) commands) :
      Spells cells finish first (command :: commands)

/-- A loop stands on the tape with its brackets at two addresses and its code
up to an end. -/
structure LoopAt (cells : Int → UInt8) (finish : Int) (body rest : Block)
    (opening closing : Int) : Prop where
  opens : Command.ofByte? (cells opening) = some .openLoop
  inner : Spells cells closing (opening + 1) body.flatten
  closes : Command.ofByte? (cells closing) = some .closeLoop
  outer : Spells cells finish (closing + 1) rest.flatten

namespace Spells

variable {cells : Int → UInt8} {finish first : Int}

theorem ordered {commands : List Command} (spells : Spells cells finish first commands) :
    first ≤ finish := by
  induction spells with
  | nil ordered => exact ordered
  | cons ordered _ _ _ ih => omega

theorem append {left right : List Command}
    (spells : Spells cells finish first (left ++ right)) :
    ∃ middle, Spells cells middle first left ∧ Spells cells finish middle right := by
  induction left generalizing first with
  | nil =>
      refine ⟨first, .nil (Int.le_refl first) ?_, spells⟩
      intro address fromFirst before
      omega
  | cons command left ih =>
      cases spells with
      | cons ordered none found rest =>
          obtain ⟨middle, leftSpells, rightSpells⟩ := ih rest
          exact ⟨middle, .cons ordered none found leftSpells, rightSpells⟩

theorem extend {commands : List Command} {middle : Int}
    (spells : Spells cells middle first commands) (ordered : middle ≤ finish)
    (none : NoCommands cells middle finish) : Spells cells finish first commands := by
  induction spells with
  | nil fromFirst noneBefore =>
      refine .nil (by omega) ?_
      intro address behind before
      by_cases inside : address < middle
      · exact noneBefore address behind inside
      · exact none address (by omega) before
  | cons fromFirst noneBefore found _ ih => exact .cons fromFirst noneBefore found ih

theorem skip {commands : List Command} (none : Command.ofByte? (cells first) = none)
    (spells : Spells cells finish (first + 1) commands) :
    Spells cells finish first commands := by
  have noneFrom : ∀ {stop : Int}, NoCommands cells (first + 1) stop →
      NoCommands cells first stop := by
    intro stop noneBehind address behind before
    by_cases atFirst : address = first
    · exact atFirst ▸ none
    · exact noneBehind address (by omega) before
  cases spells with
  | nil ordered noneBehind => exact .nil (by omega) (noneFrom noneBehind)
  | cons ordered noneBehind found rest => exact .cons (by omega) (noneFrom noneBehind) found rest

theorem loop {body rest : Block}
    (spells : Spells cells finish first (Block.loop body rest).flatten) :
    ∃ opening closing, first ≤ opening ∧ NoCommands cells first opening ∧
      LoopAt cells finish body rest opening closing := by
  cases spells with
  | @cons _ opening _ _ ordered none opens afterOpening =>
      obtain ⟨middle, inner, fromClosing⟩ := afterOpening.append
      cases fromClosing with
      | @cons _ closing _ _ behind noneBetween closes outer =>
          exact ⟨opening, closing, ordered, none, opens, inner.extend behind noneBetween,
            closes, outer⟩

end Spells

section Balance

variable {cells : Int → UInt8} {first finish : Int}

theorem NoCommands.depth_eq_zero (none : NoCommands cells first finish) {last : Int}
    (before : last < finish) : depth cells first last = 0 := by
  apply depthOf_eq_zero
  intro index bound
  rw [nesting, none (first + index) (by omega) (by omega)]

theorem NoCommands.depth_command (none : NoCommands cells first finish)
    (ordered : first ≤ finish) : depth cells first finish = nesting (cells finish) := by
  rw [depth_right cells ordered, none.depth_eq_zero (by omega), Int.zero_add]

/-- The depth over the code of a structured program is never negative, and is
zero at its end. -/
structure Balanced (cells : Int → UInt8) (first finish : Int) : Prop where
  closed : depth cells first (finish - 1) = 0
  nonneg : ∀ last, last < finish → 0 ≤ depth cells first last

theorem Balanced.of_noCommands (none : NoCommands cells first finish) :
    Balanced cells first finish := by
  constructor
  · exact none.depth_eq_zero (by omega)
  · intro last before
    exact Int.le_of_eq (none.depth_eq_zero before).symm

/-- Code without bracket in front of balanced code. -/
theorem Balanced.prepend {address : Int} (balanced : Balanced cells (address + 1) finish)
    (ordered : first ≤ address) (inside : address < finish)
    (closed : depth cells first address = 0)
    (nonneg : ∀ last, last < address → 0 ≤ depth cells first last) :
    Balanced cells first finish := by
  have split : ∀ last, address ≤ last →
      depth cells first last = depth cells (address + 1) last := by
    intro last behind
    rw [depth_split cells (by omega : first ≤ address + 1) (by omega), Int.add_sub_cancel, closed,
      Int.zero_add]
  constructor
  · rw [split (finish - 1) (by omega)]
    exact balanced.closed
  · intro last before
    by_cases behind : address ≤ last
    · rw [split last behind]
      exact balanced.nonneg last before
    · exact nonneg last (by omega)

theorem depth_of_opens {opening last : Int}
    (opens : Command.ofByte? (cells opening) = some .openLoop) (behind : opening ≤ last) :
    depth cells opening last = 1 + depth cells (opening + 1) last := by
  rw [depth_left cells behind, nesting_eq_one_iff.mpr opens]

theorem Matched.of_balanced {opening closing : Int}
    (opens : Command.ofByte? (cells opening) = some .openLoop)
    (balanced : Balanced cells (opening + 1) closing)
    (closes : Command.ofByte? (cells closing) = some .closeLoop) (ordered : opening < closing) :
    Matched cells opening closing := by
  have minusOne : nesting (cells closing) = -1 := nesting_eq_neg_one_iff.mpr closes
  refine ⟨ordered, ?_, ?_⟩
  · rw [depth_right cells (by omega), depth_of_opens opens (by omega), balanced.closed, minusOne]
    rfl
  · intro address behind before
    have nonneg := balanced.nonneg address before
    rw [depth_of_opens opens behind]
    omega

theorem nesting_operation {operation : Operation} {byte : UInt8}
    (found : Command.ofByte? byte = some operation.command) : nesting byte = 0 := by
  rw [nesting, found]
  cases operation <;> rfl

theorem Spells.balanced {block : Block} (spells : Spells cells finish first block.flatten) :
    Balanced cells first finish := by
  induction block generalizing first finish with
  | empty =>
      cases spells with
      | nil _ none => exact .of_noCommands none
  | simple operation rest ih =>
      cases spells with
      | @cons _ address _ _ ordered none found continues =>
          have inside := continues.ordered
          refine (ih continues).prepend ordered (by omega) ?_ ?_
          · rw [none.depth_command ordered, nesting_operation found]
          · intro last before
            exact Int.le_of_eq (none.depth_eq_zero before).symm
  | loop body rest bodyIH restIH =>
      obtain ⟨opening, closing, ordered, none, loopAt⟩ := spells.loop
      have inner := loopAt.inner.ordered
      have outer := loopAt.outer.ordered
      have matched : Matched cells opening closing :=
        .of_balanced loopAt.opens (bodyIH loopAt.inner) loopAt.closes (by omega)
      have split : ∀ last, opening ≤ last →
          depth cells first last = depth cells opening last := by
        intro last behind
        rw [depth_split cells ordered (by omega), none.depth_eq_zero (by omega), Int.zero_add]
      refine (restIH loopAt.outer).prepend (by omega) (by omega) ?_ ?_
      · rw [split closing (by omega)]
        exact matched.closed
      · intro last before
        by_cases behind : opening ≤ last
        · rw [split last behind]
          exact Int.le_of_lt (matched.nested last behind before)
        · exact Int.le_of_eq (none.depth_eq_zero (by omega)).symm

theorem LoopAt.matched {body rest : Block} {opening closing : Int}
    (loopAt : LoopAt cells finish body rest opening closing) :
    Matched cells opening closing := by
  have ordered := loopAt.inner.ordered
  exact .of_balanced loopAt.opens loopAt.inner.balanced loopAt.closes (by omega)

end Balance

theorem spells_program (program : List UInt8) :
    Spells (programCells program) program.length 0 (program.filterMap Command.ofByte?) := by
  refine suffix_induction (motive := fun address rest =>
    Spells (programCells program) program.length address (rest.filterMap Command.ofByte?))
    ?_ ?_ 0 (Nat.zero_le _)
  · refine .nil (Int.le_refl _) ?_
    intro address behind before
    omega
  · intro address byte rest _ here continues
    cases found : Command.ofByte? byte with
    | none =>
        rw [List.filterMap_cons_none found]
        exact continues.skip (by rw [here, found])
    | some command =>
        rw [List.filterMap_cons_some found]
        refine .cons (Int.le_refl _) ?_ (by rw [here, found]) continues
        intro between behind before
        omega

end OneTape
