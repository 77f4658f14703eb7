import OneTape.Proofs.HaltingStep
import OneTape.Proofs.UnboundedRefinement

/-!
# The search for a command

A machine looks for its next command one address at a time.  An address past the
tracked range is stored and tracked before it is read.  So nothing in the search
bounds it, and it moves the end of the range while it runs.  On a tape that stores
bytes behind its tracked range it would run on through them.

The tape of a machine has no such bytes.  Its search reads at most one address behind
the range, and the blank that it finds there is the stop command.
-/

namespace OneTape
namespace Machine

/-- Move the program pointer to an address, which joins the tracked range if it lies
past it. -/
def arrive (machine : Machine) (address : Int) : Machine :=
  { machine with
    programPointer := address
    tape :=
      if machine.tape.high < address then machine.tape.touch address
      else machine.tape }

/-- One turn of the search reads the next address. -/
def scanTurn (machine : Machine) : Option Command × Machine :=
  let next := machine.arrive (machine.programPointer + 1)
  (next.currentCommand?, next)

/-- A search comes to its end after a number of turns.  There is no bound on it. -/
inductive Scans : Machine → Nat → Command → Machine → Prop where
  | found {machine : Machine} {command : Command}
      (found : machine.scanTurn.1 = some command) :
      Scans machine 1 command machine.scanTurn.2
  | passed {machine final : Machine} {turns : Nat} {command : Command}
      (passed : machine.scanTurn.1 = none)
      (rest : Scans machine.scanTurn.2 turns command final) :
      Scans machine (turns + 1) command final

theorem Scans.deterministic {machine firstFinal secondFinal : Machine} {first second : Nat}
    {firstCommand secondCommand : Command}
    (isFirst : machine.Scans first firstCommand firstFinal)
    (isSecond : machine.Scans second secondCommand secondFinal) :
    second = first ∧ secondCommand = firstCommand ∧ secondFinal = firstFinal := by
  induction isFirst generalizing second with
  | found found =>
      cases isSecond with
      | found other =>
          rw [found] at other
          cases other
          exact ⟨rfl, rfl, rfl⟩
      | passed passed =>
          rw [found] at passed
          cases passed
  | passed passed _ ih =>
      cases isSecond with
      | found found =>
          rw [passed] at found
          cases found
      | passed _ rest =>
          obtain ⟨turns, sameCommand, sameFinal⟩ := ih rest
          exact ⟨congrArg (· + 1) turns, sameCommand, sameFinal⟩

@[simp]
theorem get_arrive (machine : Machine) (address other : Int) :
    (machine.arrive address).tape.get other = machine.tape.get other := by
  unfold arrive
  dsimp only
  split
  · exact Tape.get_touch machine.tape address other
  · rfl

theorem arrive_of_le {machine : Machine} {address : Int} (inside : address ≤ machine.tape.high) :
    machine.arrive address = { machine with programPointer := address } := by
  unfold arrive
  rw [if_neg (Int.not_lt.mpr inside)]

theorem scanTurn_fst (machine : Machine) :
    machine.scanTurn.1 = Command.ofByte? (machine.tape.get (machine.programPointer + 1)) :=
  congrArg Command.ofByte? (machine.get_arrive _ _)

/-- The search finds a command that is at most one address behind the tracked range,
with a turn for each address on the way. -/
theorem scans_of_isNextCommand {machine : Machine} {turns : Nat} {command : Command}
    (next : IsNextCommand machine.tape.get machine.programPointer
      (machine.programPointer + turns) command)
    (near : machine.programPointer + turns ≤ machine.tape.high + 1) :
    machine.Scans turns command (machine.arrive (machine.programPointer + turns)) := by
  induction turns generalizing machine with
  | zero =>
      have behind := next.behind
      omega
  | succ turns ih =>
      by_cases last : turns = 0
      · subst last
        exact .found ((scanTurn_fst machine).trans next.command)
      · have passed : machine.scanTurn.1 = none :=
          (scanTurn_fst machine).trans (next.least _ (by omega) (by omega))
        have turned : machine.scanTurn.2 =
            { machine with programPointer := machine.programPointer + 1 } :=
          arrive_of_le (by omega)
        have address : machine.programPointer + ((turns + 1 : Nat) : Int) =
            machine.programPointer + 1 + turns := by
          omega
        rw [address] at next near ⊢
        refine .passed passed ?_
        rw [turned]
        refine ih ⟨?_, ?_, next.command⟩ near
        · dsimp only
          omega
        · intro between behind before
          exact next.least between (by dsimp only at behind; omega) before

/-- What the search leaves behind: a machine at its next command. -/
structure Found (machine : Machine) (command : Command) (next : Machine) : Prop where
  isNext : IsNextCommand machine.tape.get machine.programPointer next.programPointer command
  get : ∀ address, next.tape.get address = machine.tape.get address
  low : next.tape.low = machine.tape.low
  others : next =
    { machine with programPointer := next.programPointer, tape := next.tape }
  grows_iff : machine.tape.high < next.tape.high ↔ machine.NoneAhead
  stays : ¬ machine.NoneAhead → next.tape = machine.tape
  /-- One address more is stored and tracked, and the stop command is found there. -/
  grown : machine.NoneAhead →
    command = .stop ∧ next.programPointer = machine.tape.high + 1 ∧
      next.tape.high = machine.tape.high + 1 ∧
      next.tape.row.first = machine.tape.row.first ∧
      next.tape.row.toList = machine.tape.row.toList ++ [0]

theorem Fetches.found {machine : Machine} (fetches : machine.Fetches) :
    machine.Found machine.fetch.1 machine.fetch.2 := by
  have isNext := machine.isNextCommand_fetch
  cases fetches with
  | inside ahead tape =>
      have grows_iff : machine.tape.high < machine.fetch.2.tape.high ↔ machine.NoneAhead := by
        rw [tape]
        exact iff_of_false (Int.lt_irrefl _) ahead
      exact ⟨isNext, machine.get_fetch, congrArg Tape.low tape, rfl, grows_iff, fun _ => tape,
        fun noneAhead => absurd noneAhead ahead⟩
  | next noneAhead exact stop pointer tape =>
      obtain ⟨low, high, first, cells⟩ := exact.touch_next
      rw [← tape] at low high first cells
      exact ⟨isNext, machine.get_fetch, low, rfl, iff_of_true (by omega) noneAhead,
        fun ahead => absurd noneAhead ahead, fun _ => ⟨stop, pointer, high, first, cells⟩⟩

/-- The next command is at most one address behind the tracked range. -/
theorem Fetches.programPointer_le {machine : Machine} (fetches : machine.Fetches) :
    machine.fetch.2.programPointer ≤ machine.tape.high + 1 := by
  cases fetches with
  | inside ahead _ =>
      refine Int.not_lt.mp fun passed => ahead ?_
      intro address behind inside
      exact machine.isNextCommand_fetch.least address behind (by omega)
  | next _ _ _ pointer => exact Int.le_of_eq pointer

/-- The search of a running machine ends, in one way only, after a turn for each
address up to the next command.  At most one of these addresses is behind the tracked
range.  If the search gets there, the range had no command left, the stop command is
found, and the tape has grown by that address.  Otherwise the tape is the same. -/
theorem search_ends {machine : Machine} (reachable : machine.Reachable)
    (running : machine.halt = none) :
    ∃ turns : Nat,
      machine.programPointer + turns = machine.fetch.2.programPointer ∧
      turns ≤ machine.tape.high + 1 - machine.programPointer ∧
      (∀ count command next, machine.Scans count command next ↔
        count = turns ∧ command = machine.fetch.1 ∧ next = machine.fetch.2) ∧
      machine.Found machine.fetch.1 machine.fetch.2 := by
  have fetches := reachable.fetches running
  have found := fetches.found
  have behind := found.isNext.behind
  have near := fetches.programPointer_le
  obtain ⟨turns, distance⟩ :=
    Int.eq_ofNat_of_zero_le (by omega :
      0 ≤ machine.fetch.2.programPointer - machine.programPointer)
  have address : machine.fetch.2.programPointer = machine.programPointer + turns := by omega
  have isNext := found.isNext
  rw [address] at isNext
  have arrives := scans_of_isNextCommand isNext (address ▸ near)
  rw [← address] at arrives
  have scans : machine.Scans turns machine.fetch.1 machine.fetch.2 := arrives
  refine ⟨turns, address.symm, by omega, ?_, found⟩
  intro count command next
  constructor
  · exact scans.deterministic
  · rintro ⟨rfl, rfl, rfl⟩
    exact scans

/-- The program `<x>yz` has no command behind its second one, at address two. -/
theorem search_ends_behind :
    let machine := (load [60, 120, 62, 121, 122] {}).after [.step, .step]
    machine.halt = none ∧ machine.NoneAhead ∧
      machine.Scans 3 .stop machine.fetch.2 ∧
      machine.fetch.2.tape.row.toList = machine.tape.row.toList ++ [0] := by
  intro machine
  have reachable : machine.Reachable := ⟨_, _, _, rfl⟩
  have running : machine.halt = none := by decide
  obtain ⟨turns, distance, -, ends, found⟩ := search_ends reachable running
  have grows : machine.tape.high < machine.fetch.2.tape.high := by decide
  have noneAhead := found.grows_iff.mp grows
  obtain ⟨stop, pointer, -, -, cells⟩ := found.grown noneAhead
  have start : machine.programPointer = 2 := by decide
  have high : machine.tape.high = 4 := by decide
  have three : 3 = turns := by omega
  exact ⟨running, noneAhead, (ends 3 .stop machine.fetch.2).mpr ⟨three, stop.symm, rfl⟩, cells⟩

/-- A byte behind the tracked range, which no machine stores there, leads the search
past the address behind the range. -/
example :
    let tape : Tape := { row := .ofList [60, 120, 62], high := 0 }
    ({ options := {}, tape, programPointer := 0 } : Machine).fetch.2.programPointer = 2 := by
  decide

end Machine
end OneTape
