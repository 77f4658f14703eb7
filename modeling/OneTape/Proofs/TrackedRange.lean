import OneTape.Tape

/-!
# Stored and tracked ranges

A tape stores a range of addresses and tracks a range of addresses, and its
operations move the two independently: storing a byte does not track it, and
tracking an address does not store it.  Growing the stored range to an address
gives the smallest range with that address in it, which is also what touching
does to the tracked range.  So the two ranges stay equal under touching, and
under storing bytes at tracked addresses.
-/

namespace OneTape
namespace ByteRow

theorem afterLast_eq (row : ByteRow) : row.afterLast = row.first + row.size := by
  unfold afterLast first size
  omega

theorem anchor_of_stored {row : ByteRow} (stored : row.size ≠ 0) (address : Int) :
    row.anchor address = row :=
  if_neg stored

theorem first_reserve {row : ByteRow} (stored : row.size ≠ 0) (address : Int) :
    (row.reserve address).first = min row.first address := by
  unfold reserve first
  simp only [anchor_of_stored stored]
  split
  · rename_i index offset
    simp only [Int.ofNat_eq_natCast] at offset
    dsimp only
    omega
  · rename_i index offset
    dsimp only
    rw [size_extend]
    omega

theorem afterLast_reserve {row : ByteRow} (stored : row.size ≠ 0) (address : Int) :
    (row.reserve address).afterLast = max row.afterLast (address + 1) := by
  unfold reserve afterLast
  simp only [anchor_of_stored stored]
  split
  · rename_i index offset
    simp only [Int.ofNat_eq_natCast] at offset
    dsimp only
    rw [size_extend]
    omega
  · rename_i index offset
    dsimp only
    omega

@[simp]
theorem first_replace (row : ByteRow) (address : Int) (value : UInt8) :
    (row.replace address value).first = row.first := by
  unfold replace
  split <;> simp [first]

@[simp]
theorem afterLast_replace (row : ByteRow) (address : Int) (value : UInt8) :
    (row.replace address value).afterLast = row.afterLast := by
  unfold replace
  split <;> simp [afterLast]

theorem first_write {row : ByteRow} (stored : row.size ≠ 0) (address : Int)
    (value : UInt8) :
    (row.write address value).first = min row.first address := by
  rw [write, first_replace, first_reserve stored]

theorem afterLast_write {row : ByteRow} (stored : row.size ≠ 0) (address : Int)
    (value : UInt8) :
    (row.write address value).afterLast = max row.afterLast (address + 1) := by
  rw [write, afterLast_replace, afterLast_reserve stored]

end ByteRow

namespace Tape

/-- Every address outside the tracked range reads as zero. -/
def BlankOutside (tape : Tape) : Prop :=
  ∀ address, address < tape.low ∨ tape.high < address → tape.get address = 0

/-- The stored range is the tracked range, which has an address in it. -/
structure Exact (tape : Tape) : Prop where
  ordered : tape.low ≤ tape.high
  first : tape.row.first = tape.low
  afterLast : tape.row.afterLast = tape.high + 1

theorem exact_ofProgram {program : List UInt8} (nonempty : program ≠ []) :
    (ofProgram program).Exact := by
  have positive : 0 < program.length := List.length_pos_iff.mpr nonempty
  constructor
  · simp [ofProgram]
  · simp [ofProgram, ByteRow.ofList, ByteRow.first]
  · simp only [ofProgram, ByteRow.ofList, ByteRow.afterLast, List.size_toArray]
    omega

theorem blankOutside_ofProgram (program : List UInt8) :
    (ofProgram program).BlankOutside := by
  intro address outside
  apply ByteRow.read_eq_zero
  intro stored
  unfold ByteRow.Stores ByteRow.first ByteRow.afterLast at stored
  simp only [ofProgram, ByteRow.ofList, List.size_toArray] at stored outside
  simp at stored
  omega

namespace BlankOutside

variable {tape : Tape}

theorem touch (blank : tape.BlankOutside) (address : Int) :
    (tape.touch address).BlankOutside := by
  intro other outside
  rw [low_touch, high_touch] at outside
  rw [get_touch]
  exact blank other (by omega)

/-- A stored byte may lie outside the tracked range, but not once its address
has been touched. -/
theorem set_touch (blank : tape.BlankOutside) (address : Int) (value : UInt8) :
    ((tape.set address value).touch address).BlankOutside := by
  intro other outside
  rw [low_touch, high_touch, low_set, high_set] at outside
  rw [get_touch, get_set, if_neg (by omega)]
  exact blank other (by omega)

end BlankOutside

namespace Exact

variable {tape : Tape}

theorem size_ne_zero (exact : tape.Exact) : tape.row.size ≠ 0 := by
  have ordered := exact.ordered
  have length := tape.row.afterLast_eq
  rw [exact.first, exact.afterLast] at length
  omega

theorem blankOutside (exact : tape.Exact) : tape.BlankOutside := by
  intro address outside
  apply ByteRow.read_eq_zero
  rintro ⟨fromFirst, beforeEnd⟩
  rw [exact.first] at fromFirst
  rw [exact.afterLast] at beforeEnd
  omega

theorem touch (exact : tape.Exact) (address : Int) : (tape.touch address).Exact := by
  have stored := exact.size_ne_zero
  have ordered := exact.ordered
  constructor
  · rw [low_touch, high_touch]
    omega
  · rw [low_touch, ← exact.first]
    exact ByteRow.first_reserve stored address
  · have grown := ByteRow.afterLast_reserve stored address
    rw [exact.afterLast] at grown
    rw [high_touch]
    change (tape.row.reserve address).afterLast = _
    omega

theorem set (exact : tape.Exact) {address : Int} (fromLow : tape.low ≤ address)
    (toHigh : address ≤ tape.high) (value : UInt8) : (tape.set address value).Exact := by
  have stored := exact.size_ne_zero
  constructor
  · exact exact.ordered
  · have start := ByteRow.first_write stored address value
    rw [exact.first] at start
    change (tape.row.write address value).first = tape.low
    omega
  · have grown := ByteRow.afterLast_write stored address value
    rw [exact.afterLast] at grown
    change (tape.row.write address value).afterLast = tape.high + 1
    omega

end Exact
end Tape
end OneTape
