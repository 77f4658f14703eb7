import OneTape.Proofs.UnboundedMachine

/-!
# Code beside data

A program that keeps its data pointer at negative addresses does not change
itself: the code stays at the addresses from zero on, whatever the data are.
Then the next command and the partner of a bracket depend on the code alone,
although the data next to it may hold command bytes and brackets as well.
-/

namespace OneTape

/-- A program from address zero on, and data at the negative addresses. -/
def codeAndData (program : List UInt8) (data : Int → UInt8) : Int → UInt8
  | .ofNat index => program[index]?.getD 0
  | .negSucc index => data (.negSucc index)

/-- The addresses from a first one up to an end hold no command. -/
def NoCommands (cells : Int → UInt8) (first finish : Int) : Prop :=
  ∀ address, first ≤ address → address < finish → Command.ofByte? (cells address) = none

section CodeAndData

variable {program : List UInt8} {data : Int → UInt8} {address : Int}

theorem codeAndData_of_nonneg (nonneg : 0 ≤ address) :
    codeAndData program data address = programCells program address := by
  cases address with
  | ofNat index => rfl
  | negSucc index => omega

theorem codeAndData_of_neg (negative : address < 0) :
    codeAndData program data address = data address := by
  cases address with
  | ofNat index =>
      simp only [Int.ofNat_eq_natCast] at negative
      omega
  | negSucc index => rfl

theorem codeAndData_blank (program : List UInt8) :
    codeAndData program (fun _ => 0) = programCells program := by
  funext address
  cases address <;> rfl

theorem codeAndData_update (negative : address < 0) (value : UInt8) :
    codeAndData program (Function.update data address value) =
      Function.update (codeAndData program data) address value := by
  funext other
  by_cases equal : other = address
  · subst other
    rw [codeAndData_of_neg negative, Function.update_self, Function.update_self]
  · rw [Function.update_of_ne equal]
    by_cases otherNegative : other < 0
    · rw [codeAndData_of_neg otherNegative, codeAndData_of_neg otherNegative,
        Function.update_of_ne equal]
    · rw [codeAndData_of_nonneg (by omega), codeAndData_of_nonneg (by omega)]

theorem isNextCommand_codeAndData {pointer : Int} {command : Command}
    (fromStart : -1 ≤ pointer) (behind : pointer < address)
    (none : NoCommands (programCells program) (pointer + 1) address)
    (found : Command.ofByte? (programCells program address) = some command) :
    IsNextCommand (codeAndData program data) pointer address command := by
  refine ⟨behind, ?_, ?_⟩
  · intro between after before
    rw [codeAndData_of_nonneg (by omega)]
    exact none between (by omega) before
  · rw [codeAndData_of_nonneg (by omega)]
    exact found

/-- The partners in the code do not depend on the data. -/
theorem Matched.codeAndData {first last : Int} (data : Int → UInt8)
    (matched : Matched (programCells program) first last) (nonneg : 0 ≤ first) :
    Matched (codeAndData program data) first last := by
  apply matched.congr
  intro address behind before
  rw [codeAndData_of_nonneg (by omega)]

end CodeAndData

end OneTape
