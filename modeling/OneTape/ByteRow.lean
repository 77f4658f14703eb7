/-!
# Two-sided rows of bytes

A row gives a byte to every integer address, and stores a contiguous range of
them; every other address reads as zero.  The range grows to either side from
the address where storage began: the cells from there upwards and the cells
below it are kept apart, so that growing on one side moves nothing.
-/

namespace OneTape

/-- Stored cells around an origin.  `above` starts at the origin and runs
upwards; `below` starts at the address before it and runs downwards. -/
structure ByteRow where
  origin : Int := 0
  below : Array UInt8 := #[]
  above : Array UInt8 := #[]

namespace ByteRow

/-- One side of a row, read as zero past its end. -/
def cell (side : Array UInt8) (index : Nat) : UInt8 :=
  side[index]?.getD 0

/-- One side of a row, with zeros added until it has a given size. -/
def extend (side : Array UInt8) (size : Nat) : Array UInt8 :=
  side ++ Array.replicate (size - side.size) 0

@[simp]
theorem cell_empty (index : Nat) : cell #[] index = 0 := rfl

@[simp]
theorem size_extend (side : Array UInt8) (size : Nat) :
    (extend side size).size = max side.size size := by
  simp only [extend, Array.size_append, Array.size_replicate]
  omega

@[simp]
theorem cell_extend (side : Array UInt8) (size index : Nat) :
    cell (extend side size) index = cell side index := by
  unfold cell extend
  by_cases stored : index < side.size
  · rw [Array.getElem?_append_left stored]
  · rw [Array.getElem?_append_right (by omega), Array.getElem?_replicate,
      Array.getElem?_eq_none (by omega)]
    split <;> rfl

theorem cell_set (side : Array UInt8) (index other : Nat) (value : UInt8)
    (stored : index < side.size) :
    cell (side.setIfInBounds index value) other =
      if other = index then value else cell side other := by
  unfold cell
  by_cases equal : other = index
  · subst other
    simp [stored]
  · simp [equal, Array.getElem?_setIfInBounds_ne (Ne.symm equal)]

/-- A row that stores bytes from address zero on. -/
def ofList (bytes : List UInt8) : ByteRow :=
  { above := bytes.toArray }

/-- The number of stored cells. -/
def size (row : ByteRow) : Nat :=
  row.below.size + row.above.size

/-- The address of the first stored cell, if there is one. -/
def first (row : ByteRow) : Int :=
  row.origin - row.below.size

/-- The address after the last stored cell, if there is one. -/
def afterLast (row : ByteRow) : Int :=
  row.origin + row.above.size

/-- The stored cells, lowest address first. -/
def toList (row : ByteRow) : List UInt8 :=
  row.below.toList.reverse ++ row.above.toList

/-- The byte at an address. -/
def read (row : ByteRow) (address : Int) : UInt8 :=
  match address - row.origin with
  | .ofNat index => cell row.above index
  | .negSucc index => cell row.below index

/-- Let storage begin at an address, unless it has begun elsewhere. -/
def anchor (row : ByteRow) (address : Int) : ByteRow :=
  if row.size = 0 then { row with origin := address } else row

/-- Grow the stored range as far as an address. -/
def reserve (row : ByteRow) (address : Int) : ByteRow :=
  let row := row.anchor address
  match address - row.origin with
  | .ofNat index => { row with above := extend row.above (index + 1) }
  | .negSucc index => { row with below := extend row.below (index + 1) }

/-- Replace the byte at a stored address. -/
def replace (row : ByteRow) (address : Int) (value : UInt8) : ByteRow :=
  match address - row.origin with
  | .ofNat index => { row with above := row.above.setIfInBounds index value }
  | .negSucc index => { row with below := row.below.setIfInBounds index value }

/-- Store a byte at any address. -/
def write (row : ByteRow) (address : Int) (value : UInt8) : ByteRow :=
  (row.reserve address).replace address value

@[simp]
theorem length_toList (row : ByteRow) : row.toList.length = row.size := by
  simp [toList, size]

@[simp]
theorem read_anchor (row : ByteRow) (address other : Int) :
    (row.anchor address).read other = row.read other := by
  unfold anchor
  split
  · rename_i empty
    have noneBelow : row.below = #[] := by
      apply Array.eq_empty_of_size_eq_zero
      simp only [size] at empty
      omega
    have noneAbove : row.above = #[] := by
      apply Array.eq_empty_of_size_eq_zero
      simp only [size] at empty
      omega
    simp only [read, noneBelow, noneAbove, cell_empty]
    split <;> split <;> rfl
  · rfl

/-- Growing the stored range changes no byte. -/
@[simp]
theorem read_reserve (row : ByteRow) (address other : Int) :
    (row.reserve address).read other = row.read other := by
  rw [← read_anchor row address other]
  unfold reserve
  dsimp only
  split <;> simp only [read, cell_extend]

/-- An address is stored. -/
def Stores (row : ByteRow) (address : Int) : Prop :=
  row.first ≤ address ∧ address < row.afterLast

theorem stores_reserve (row : ByteRow) (address : Int) :
    (row.reserve address).Stores address := by
  unfold reserve Stores first afterLast
  dsimp only
  split
  · rename_i index equal
    dsimp only
    rw [size_extend]
    simp only [Int.ofNat_eq_natCast] at equal
    omega
  · rename_i index equal
    dsimp only
    rw [size_extend]
    omega

theorem read_replace {row : ByteRow} {address : Int}
    (stored : row.Stores address) (value : UInt8) (other : Int) :
    (row.replace address value).read other =
      if other = address then value else row.read other := by
  obtain ⟨fromFirst, beforeEnd⟩ := stored
  unfold first at fromFirst
  unfold afterLast at beforeEnd
  unfold replace
  split
  · rename_i index offset
    simp only [Int.ofNat_eq_natCast] at offset
    simp only [read]
    split
    · rename_i otherIndex otherOffset
      simp only [Int.ofNat_eq_natCast] at otherOffset
      rw [cell_set _ _ _ _ (by omega)]
      by_cases equal : other = address
      · rw [if_pos (by omega), if_pos equal]
      · rw [if_neg (by omega), if_neg equal]
    · rw [if_neg (by omega)]
  · rename_i index offset
    simp only [read]
    split
    · rename_i otherIndex otherOffset
      simp only [Int.ofNat_eq_natCast] at otherOffset
      rw [if_neg (by omega)]
    · rename_i otherIndex otherOffset
      rw [cell_set _ _ _ _ (by omega)]
      by_cases equal : other = address
      · rw [if_pos (by omega), if_pos equal]
      · rw [if_neg (by omega), if_neg equal]

theorem read_write (row : ByteRow) (address : Int) (value : UInt8)
    (other : Int) :
    (row.write address value).read other =
      if other = address then value else row.read other := by
  rw [write, read_replace (stores_reserve row address), read_reserve]

theorem read_eq_zero {row : ByteRow} {address : Int}
    (notStored : ¬ row.Stores address) : row.read address = 0 := by
  unfold Stores first afterLast at notStored
  unfold read
  split
  · rename_i index offset
    simp only [Int.ofNat_eq_natCast] at offset
    simp [cell, Array.getElem?_eq_none (show row.above.size ≤ index by omega)]
  · rename_i index offset
    simp [cell, Array.getElem?_eq_none (show row.below.size ≤ index by omega)]

end ByteRow
end OneTape
