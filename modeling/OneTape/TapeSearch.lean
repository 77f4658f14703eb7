import OneTape.Command
import OneTape.Tape

/-!
# Searching the tape

Two searches move the program pointer.  The next command is the first one to
the right; blank tape reads as the stop command, so there always is one.  The
partner of a bracket is found by counting brackets, to the right from an
opening one and to the left from a closing one, within the tracked range.
-/

namespace OneTape
namespace Tape

/-- The command at an address, if its byte is one. -/
def commandAt? (tape : Tape) (address : Int) : Option Command :=
  Command.ofByte? (tape.get address)

/-- An address from which on the tape is neither stored nor tracked. -/
def blankFrom (tape : Tape) : Int :=
  max (tape.high + 1) tape.row.afterLast

theorem get_of_blankFrom_le {tape : Tape} {address : Int}
    (past : tape.blankFrom ≤ address) : tape.get address = 0 := by
  apply ByteRow.read_eq_zero
  intro stored
  have := stored.2
  unfold blankFrom at past
  omega

/-- The first command among a number of addresses, or else the stop command
right after them. -/
def firstCommand (tape : Tape) : Nat → Int → Int × Command
  | 0, address => (address, .stop)
  | remaining + 1, address =>
      match tape.commandAt? address with
      | some command => (address, command)
      | none => tape.firstCommand remaining (address + 1)

/-- The first command to the right of an address. -/
def nextCommand (tape : Tape) (address : Int) : Int × Command :=
  tape.firstCommand (tape.blankFrom - (address + 1)).toNat (address + 1)

theorem firstCommand_bounds (tape : Tape) (remaining : Nat) (start : Int) :
    start ≤ (tape.firstCommand remaining start).1 ∧
      (tape.firstCommand remaining start).1 ≤ start + remaining := by
  induction remaining generalizing start with
  | zero => simp [firstCommand]
  | succ remaining ih =>
      unfold firstCommand
      split
      · dsimp only
        omega
      · have := ih (start + 1)
        omega

/-- The search passes over no command. -/
theorem commandAt?_eq_none_of_lt_firstCommand (tape : Tape) (remaining : Nat)
    {start address : Int} (fromStart : start ≤ address)
    (before : address < (tape.firstCommand remaining start).1) :
    tape.commandAt? address = none := by
  induction remaining generalizing start with
  | zero =>
      simp only [firstCommand] at before
      omega
  | succ remaining ih =>
      unfold firstCommand at before
      split at before
      · dsimp only at before
        omega
      · rename_i noCommand
        by_cases atStart : address = start
        · exact atStart ▸ noCommand
        · exact ih (by omega) before

theorem commandAt?_firstCommand (tape : Tape) (remaining : Nat) (start : Int)
    (blank : tape.blankFrom ≤ start + remaining) :
    tape.commandAt? (tape.firstCommand remaining start).1 =
      some (tape.firstCommand remaining start).2 := by
  induction remaining generalizing start with
  | zero =>
      simp [firstCommand, commandAt?, get_of_blankFrom_le (by simpa using blank)]
  | succ remaining ih =>
      unfold firstCommand
      split
      · assumption
      · exact ih (start + 1) (by omega)

/-- The search for the next command always finds one. -/
theorem commandAt?_nextCommand (tape : Tape) (address : Int) :
    tape.commandAt? (tape.nextCommand address).1 =
      some (tape.nextCommand address).2 :=
  commandAt?_firstCommand tape _ _ (by omega)

theorem lt_nextCommand (tape : Tape) (address : Int) :
    address < (tape.nextCommand address).1 := by
  have := firstCommand_bounds tape (tape.blankFrom - (address + 1)).toNat (address + 1)
  unfold nextCommand
  omega

/-- The two ways in which a bracket looks for its partner. -/
inductive Direction where
  | rightward
  | leftward
  deriving DecidableEq

namespace Direction

/-- The neighbour of an address in a direction. -/
def next : Direction → Int → Int
  | rightward, address => address + 1
  | leftward, address => address - 1

/-- The bracket that looks in a direction, and nests on the way. -/
def bracket : Direction → Command
  | rightward => .openLoop
  | leftward => .closeLoop

/-- The bracket that it looks for. -/
def partner : Direction → Command
  | rightward => .closeLoop
  | leftward => .openLoop

/-- The first address past the tracked range, where a search without success
ends. -/
def pastRange (tape : Tape) : Direction → Int
  | rightward => tape.high + 1
  | leftward => tape.low - 1

/-- The number of tracked addresses that lie ahead. -/
def ahead (tape : Tape) : Direction → Int → Nat
  | rightward, address => (tape.high - address).toNat
  | leftward, address => (address - tape.low).toNat

end Direction

/-- Look for the partner of a bracket among a number of addresses, with a given
number of brackets in between still waiting for theirs. -/
def seekPartner (tape : Tape) (direction : Direction) :
    Nat → Nat → Int → Option Int
  | 0, _, _ => none
  | remaining + 1, depth, address =>
      let command := tape.commandAt? address
      if command = some direction.partner then
        match depth with
        | 0 => some address
        | depth + 1 => tape.seekPartner direction remaining depth (direction.next address)
      else if command = some direction.bracket then
        tape.seekPartner direction remaining (depth + 1) (direction.next address)
      else
        tape.seekPartner direction remaining depth (direction.next address)

/-- The address of the partner of a bracket at an address. -/
def partner? (tape : Tape) (direction : Direction) (address : Int) : Option Int :=
  tape.seekPartner direction (direction.ahead tape address) 0 (direction.next address)

end Tape
end OneTape
