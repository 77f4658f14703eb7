import Mathlib.Data.Int.Order.Basic
import Mathlib.Order.Basic
import OneTape.Proofs.TapeHistory

/-!
# Canonical storage

What a tape stores does not depend on the order in which it came to store it.  The
stored range is the smallest one with the program and with every address that was
written or touched, and a tape that has nothing to store has not begun to store
anywhere.  So two tapes are the same as soon as their ranges and their bytes are,
whatever has been done to either of them.

Three things are known of a history: the addresses that it stores, those that it
tracks, and for each address the writes there in order.  Histories that agree in
these lead to the same tape.
-/

namespace OneTape

/-- The addresses of the bytes of a program. -/
def programAddresses (program : List UInt8) : List Int :=
  (List.range program.length).map Int.ofNat

namespace ByteRow

/-- The stored range is the smallest one with some addresses in it. -/
structure Covers (row : ByteRow) (addresses : List Int) : Prop where
  stores : ∀ address ∈ addresses, row.Stores address
  first : row.size ≠ 0 → row.first ∈ addresses
  last : row.size ≠ 0 → row.afterLast - 1 ∈ addresses
  /-- A row without cells begins nowhere else than a new one. -/
  unbegun : row.size = 0 → row.first = 0

section Range

variable {row : ByteRow}

theorem stores_first (stored : row.size ≠ 0) : row.Stores row.first := by
  have length := row.afterLast_eq
  unfold Stores
  omega

theorem stores_last (stored : row.size ≠ 0) : row.Stores (row.afterLast - 1) := by
  have length := row.afterLast_eq
  unfold Stores
  omega

theorem Stores.size_ne_zero {address : Int} (stored : row.Stores address) : row.size ≠ 0 := by
  have length := row.afterLast_eq
  unfold Stores at stored
  omega

/-- The first address that is stored is where storage begins. -/
theorem range_reserve_of_empty (empty : row.size = 0) (address : Int) :
    (row.reserve address).first = address ∧ (row.reserve address).afterLast = address + 1 := by
  have anchored : row.anchor address = { row with origin := address } := if_pos empty
  unfold size at empty
  unfold reserve
  simp only [anchored, Int.sub_self]
  change address - row.below.size = address ∧
    address + ((extend row.above 1).size : Int) = address + 1
  rw [size_extend]
  omega

end Range

namespace Covers

variable {row : ByteRow} {addresses : List Int}

theorem size_eq_zero_iff (covers : row.Covers addresses) : row.size = 0 ↔ addresses = [] := by
  constructor
  · intro empty
    apply List.eq_nil_iff_forall_not_mem.mpr
    intro address member
    exact (covers.stores address member).size_ne_zero empty
  · rintro rfl
    by_contra stored
    exact List.not_mem_nil (covers.first stored)

theorem stores_iff (covers : row.Covers addresses) (address : Int) :
    row.Stores address ↔
      ∃ least ∈ addresses, ∃ greatest ∈ addresses, least ≤ address ∧ address ≤ greatest := by
  constructor
  · intro stored
    refine ⟨_, covers.first stored.size_ne_zero, _, covers.last stored.size_ne_zero, stored.1, ?_⟩
    have before := stored.2
    omega
  · rintro ⟨least, leastMember, greatest, greatestMember, fromLeast, toGreatest⟩
    have fromFirst := (covers.stores least leastMember).1
    have beforeEnd := (covers.stores greatest greatestMember).2
    unfold Stores
    omega

/-- Only the ends of the stored range matter. -/
theorem of_range_eq {other : ByteRow} (covers : row.Covers addresses)
    (first : other.first = row.first) (afterLast : other.afterLast = row.afterLast) :
    other.Covers addresses := by
  have size : other.size = row.size := by
    have length := row.afterLast_eq
    have otherLength := other.afterLast_eq
    omega
  constructor
  · intro address member
    rw [Stores, first, afterLast]
    exact covers.stores address member
  · rw [size, first]
    exact covers.first
  · rw [size, afterLast]
    exact covers.last
  · rw [size, first]
    exact covers.unbegun

theorem reserve_of_empty (empty : row.size = 0) (address : Int) :
    (row.reserve address).Covers [address] := by
  obtain ⟨first, afterLast⟩ := range_reserve_of_empty empty address
  have reserved := row.stores_reserve address
  constructor
  · intro other member
    obtain rfl := List.mem_singleton.mp member
    exact reserved
  · intro _
    exact List.mem_singleton.mpr first
  · intro _
    rw [afterLast, Int.add_sub_cancel]
    exact List.mem_cons_self
  · intro none
    exact absurd none reserved.size_ne_zero

theorem reserve_of_stored (covers : row.Covers addresses) (stored : row.size ≠ 0)
    (address : Int) : (row.reserve address).Covers (addresses ++ [address]) := by
  have first := first_reserve stored address
  have afterLast := afterLast_reserve stored address
  have reserved := row.stores_reserve address
  constructor
  · intro other member
    rcases List.mem_append.mp member with earlier | last
    · have already := covers.stores other earlier
      unfold Stores at already ⊢
      omega
    · obtain rfl := List.mem_singleton.mp last
      exact reserved
  · intro _
    rw [first]
    rcases Int.le_total row.first address with inside | below
    · rw [Int.min_eq_left inside]
      exact List.mem_append_left _ (covers.first stored)
    · rw [Int.min_eq_right below]
      exact List.mem_append_right _ List.mem_cons_self
  · intro _
    rw [afterLast]
    rcases Int.le_total (address + 1) row.afterLast with inside | beyond
    · rw [Int.max_eq_left inside]
      exact List.mem_append_left _ (covers.last stored)
    · rw [Int.max_eq_right beyond, Int.add_sub_cancel]
      exact List.mem_append_right _ List.mem_cons_self
  · intro none
    exact absurd none reserved.size_ne_zero

theorem reserve (covers : row.Covers addresses) (address : Int) :
    (row.reserve address).Covers (addresses ++ [address]) := by
  by_cases empty : row.size = 0
  · rw [covers.size_eq_zero_iff.mp empty, List.nil_append]
    exact reserve_of_empty empty address
  · exact covers.reserve_of_stored empty address

theorem write (covers : row.Covers addresses) (address : Int) (value : UInt8) :
    (row.write address value).Covers (addresses ++ [address]) :=
  (covers.reserve address).of_range_eq (first_replace _ _ _) (afterLast_replace _ _ _)

end Covers

theorem covers_ofList (program : List UInt8) :
    (ofList program).Covers (programAddresses program) := by
  have first : (ofList program).first = 0 := by simp [ofList, ByteRow.first]
  have afterLast : (ofList program).afterLast = program.length := by
    simp [ofList, ByteRow.afterLast]
  have size : (ofList program).size = program.length := by simp [ofList, ByteRow.size]
  have member : ∀ address,
      address ∈ programAddresses program ↔ 0 ≤ address ∧ address < program.length := by
    intro address
    simp only [programAddresses, List.mem_map, List.mem_range]
    constructor
    · rintro ⟨index, before, rfl⟩
      exact ⟨Int.natCast_nonneg index, Int.ofNat_lt.mpr before⟩
    · rintro ⟨nonneg, before⟩
      exact ⟨address.toNat, by omega, Int.toNat_of_nonneg nonneg⟩
  constructor
  · intro address inProgram
    rw [Stores, first, afterLast]
    exact (member address).mp inProgram
  · intro stored
    rw [member, first]
    omega
  · intro stored
    rw [member, afterLast]
    omega
  · intro _
    exact first

section Equality

variable {first second : ByteRow}

theorem read_eq_of_toList_eq (start : first.first = second.first)
    (cells : first.toList = second.toList) (address : Int) :
    first.read address = second.read address := by
  have size : first.size = second.size := by
    rw [← length_toList, ← length_toList, cells]
  have ends : first.afterLast = second.afterLast := by
    rw [afterLast_eq, afterLast_eq, start, size]
  by_cases stored : first.Stores address
  · have fromFirst := stored.1
    have place : address = first.first + ((address - first.first).toNat : Int) := by omega
    have alsoPlace : address = second.first + ((address - first.first).toNat : Int) := by omega
    rw [read_of_index place, read_of_index alsoPlace, cells]
  · have alsoNot : ¬ second.Stores address := by
      rwa [Stores, ← start, ← ends]
    rw [read_eq_zero stored, read_eq_zero alsoNot]

theorem toList_eq_of_read_eq (start : first.first = second.first)
    (size : first.size = second.size) (bytes : ∀ address, first.read address = second.read address) :
    first.toList = second.toList := by
  apply List.ext_getElem
  · rw [length_toList, length_toList, size]
  · intro index inFirst inSecond
    have here := bytes (first.first + index)
    have place : first.first + (index : Int) = second.first + index := by rw [start]
    rw [read_of_index rfl, read_of_index place] at here
    rwa [List.getElem?_eq_getElem inFirst, List.getElem?_eq_getElem inSecond] at here

/-- Rows that cover what they were asked to store begin at the same place and have
the same size, once they store the same addresses. -/
theorem Covers.range_eq {firstAddresses secondAddresses : List Int}
    (covers : first.Covers firstAddresses) (alsoCovers : second.Covers secondAddresses)
    (same : ∀ address, first.Stores address ↔ second.Stores address) :
    first.first = second.first ∧ first.size = second.size := by
  have length := first.afterLast_eq
  have alsoLength := second.afterLast_eq
  by_cases empty : first.size = 0
  · have alsoEmpty : second.size = 0 := by
      by_contra stored
      exact ((same _).mpr (stores_first stored)).size_ne_zero empty
    rw [covers.unbegun empty, alsoCovers.unbegun alsoEmpty, empty, alsoEmpty]
    exact ⟨rfl, rfl⟩
  · -- The ends of either row are stored by the other one.
    have start := (same _).mp (stores_first empty)
    have finish := (same _).mp (stores_last empty)
    have alsoStart := (same _).mpr (stores_first start.size_ne_zero)
    have alsoFinish := (same _).mpr (stores_last start.size_ne_zero)
    unfold Stores at start finish alsoStart alsoFinish
    omega

end Equality
end ByteRow

namespace TapeAction

/-- The address that an action is about. -/
def address : TapeAction → Int
  | set address _ | modify address _ | touch address | widen address => address

/-- The address that an action lets the tape store. -/
def stored? : TapeAction → Option Int
  | set address _ | modify address _ | touch address => some address
  | widen _ => none

/-- Two actions do not write at the same address. -/
def Independent (first second : TapeAction) : Prop :=
  ∀ address, first.write? address = none ∨ second.write? address = none

section Independent

variable {first second : TapeAction}

theorem write?_eq_none {action : TapeAction} {address : Int} (elsewhere : action.address ≠ address) :
    action.write? address = none := by
  cases action with
  | set target value | modify target change => exact if_neg elsewhere
  | touch target | widen target => rfl

theorem Independent.of_address_ne (apart : first.address ≠ second.address) :
    first.Independent second := by
  intro address
  by_cases here : first.address = address
  · exact .inr (write?_eq_none (here ▸ apart.symm))
  · exact .inl (write?_eq_none here)

theorem independent_touch (address : Int) (action : TapeAction) :
    (touch address).Independent action :=
  fun _ => .inl rfl

theorem independent_widen (address : Int) (action : TapeAction) :
    (widen address).Independent action :=
  fun _ => .inl rfl

end Independent
end TapeAction

namespace Tape

theorem beq_iff {first second : Tape} :
    first == second ↔
      first.row.first = second.row.first ∧ first.row.toList = second.row.toList ∧
        first.low = second.low ∧ first.high = second.high := by
  change same first second = true ↔ _
  simp [same, and_assoc]

theorem beq_iff_of_covers {first second : Tape} {firstAddresses secondAddresses : List Int}
    (covers : first.row.Covers firstAddresses) (alsoCovers : second.row.Covers secondAddresses) :
    first == second ↔
      (∀ address, first.row.Stores address ↔ second.row.Stores address) ∧
        first.low = second.low ∧ first.high = second.high ∧
        ∀ address, first.get address = second.get address := by
  rw [beq_iff]
  constructor
  · rintro ⟨start, cells, low, high⟩
    have size : first.row.size = second.row.size := by
      rw [← ByteRow.length_toList, ← ByteRow.length_toList, cells]
    refine ⟨?_, low, high, ByteRow.read_eq_of_toList_eq start cells⟩
    intro address
    rw [ByteRow.Stores, ByteRow.Stores, ByteRow.afterLast_eq, ByteRow.afterLast_eq, start, size]
  · rintro ⟨stores, low, high, bytes⟩
    obtain ⟨start, size⟩ := covers.range_eq alsoCovers stores
    exact ⟨start, ByteRow.toList_eq_of_read_eq start size bytes, low, high⟩

section History

variable {tape : Tape} {addresses : List Int}

theorem covers_perform (covers : tape.row.Covers addresses) (action : TapeAction) :
    (tape.perform action).row.Covers (addresses ++ action.stored?.toList) := by
  cases action with
  | set target value => exact covers.write target value
  | modify target change => exact covers.write target _
  | touch target => exact covers.reserve target
  | widen target =>
      rw [show (TapeAction.widen target).stored?.toList = [] from rfl, List.append_nil]
      exact covers

theorem covers_after (covers : tape.row.Covers addresses) (actions : List TapeAction) :
    (tape.after actions).row.Covers (addresses ++ actions.filterMap TapeAction.stored?) := by
  induction actions generalizing tape addresses with
  | nil => simpa using covers
  | cons action actions ih =>
      have performed := ih (covers_perform covers action)
      rw [after_cons]
      cases stored : action.stored? <;> simpa [stored] using performed

theorem covers_history (program : List UInt8) (actions : List TapeAction) :
    ((ofProgram program).after actions).row.Covers
      (programAddresses program ++ actions.filterMap TapeAction.stored?) :=
  covers_after (ByteRow.covers_ofList program) actions

/-- The writes at an address make its byte, one after the other. -/
theorem get_after (tape : Tape) (actions : List TapeAction) (address : Int) :
    (tape.after actions).get address =
      (actions.filterMap (TapeAction.write? address)).foldl (fun byte write => write byte)
        (tape.get address) := by
  induction actions generalizing tape with
  | nil => rfl
  | cons action actions ih =>
      rw [after_cons, ih]
      cases writes : action.write? address with
      | none => rw [List.filterMap_cons_none writes, get_perform_of_other writes]
      | some write =>
          rw [List.filterMap_cons_some writes, get_perform_of_write writes, List.foldl_cons]

theorem le_low_after_iff {actions : List TapeAction} {bound : Int} :
    bound ≤ (tape.after actions).low ↔
      bound ≤ tape.low ∧ ∀ address ∈ actions.filterMap TapeAction.tracked?, bound ≤ address := by
  have least : (tape.low :: actions.filterMap TapeAction.tracked?).min? =
      some (tape.after actions).low := by
    rw [List.min?_cons', low_after]
  rw [List.le_min?_iff least, List.forall_mem_cons]

theorem high_after_le_iff {actions : List TapeAction} {bound : Int} :
    (tape.after actions).high ≤ bound ↔
      tape.high ≤ bound ∧ ∀ address ∈ actions.filterMap TapeAction.tracked?, address ≤ bound := by
  have greatest : (tape.high :: actions.filterMap TapeAction.tracked?).max? =
      some (tape.after actions).high := by
    rw [List.max?_cons', high_after]
  rw [List.max?_le_iff greatest, List.forall_mem_cons]

end History

section SameEffects

variable {actions others : List TapeAction}

/-- Two histories store and track the same addresses, and write the same at each. -/
structure SameEffects (actions others : List TapeAction) : Prop where
  stored : ∀ address,
    address ∈ actions.filterMap TapeAction.stored? ↔ address ∈ others.filterMap TapeAction.stored?
  tracked : ∀ address,
    address ∈ actions.filterMap TapeAction.tracked? ↔
      address ∈ others.filterMap TapeAction.tracked?
  written : ∀ address,
    actions.filterMap (TapeAction.write? address) = others.filterMap (TapeAction.write? address)

theorem stores_congr (program : List UInt8)
    (stored : ∀ address, address ∈ actions.filterMap TapeAction.stored? ↔
      address ∈ others.filterMap TapeAction.stored?) (address : Int) :
    ((ofProgram program).after actions).row.Stores address ↔
      ((ofProgram program).after others).row.Stores address := by
  rw [(covers_history program actions).stores_iff, (covers_history program others).stores_iff]
  simp only [List.mem_append, stored]

theorem SameEffects.beq (effects : SameEffects actions others) (program : List UInt8) :
    (ofProgram program).after actions == (ofProgram program).after others := by
  rw [beq_iff_of_covers (covers_history program actions) (covers_history program others)]
  refine ⟨stores_congr program effects.stored, ?_, ?_, ?_⟩
  · -- A watermark is told by its bounds, which do not know the order.
    apply eq_of_forall_le_iff
    intro bound
    simp only [le_low_after_iff, effects.tracked]
  · apply eq_of_forall_ge_iff
    intro bound
    simp only [high_after_le_iff, effects.tracked]
  · intro address
    rw [get_after, get_after, effects.written]

theorem sameEffects_swap {first second : TapeAction} (independent : first.Independent second)
    (earlier later : List TapeAction) :
    SameEffects (earlier ++ first :: second :: later) (earlier ++ second :: first :: later) := by
  have swapped : (earlier ++ first :: second :: later).Perm
      (earlier ++ second :: first :: later) := (List.Perm.swap second first later).append_left _
  constructor
  · exact fun address => (swapped.filterMap _).mem_iff
  · exact fun address => (swapped.filterMap _).mem_iff
  · intro address
    simp only [List.filterMap_append, List.filterMap_cons]
    rcases independent address with none | none
    · rw [none]
    · rw [none]

/-- Touching an address again stores and tracks nothing new. -/
theorem sameEffects_touch {earlier : List TapeAction} {address : Int}
    (touched : .touch address ∈ earlier) (later : List TapeAction) :
    SameEffects (earlier ++ .touch address :: later) (earlier ++ later) := by
  have known : ∀ {select : TapeAction → Option Int}, select (.touch address) = some address →
      ∀ other, other ∈ (earlier ++ .touch address :: later).filterMap select ↔
        other ∈ (earlier ++ later).filterMap select := by
    intro select selects other
    have already : address ∈ earlier.filterMap select :=
      List.mem_filterMap.mpr ⟨_, touched, selects⟩
    rw [List.filterMap_append, List.filterMap_append, List.filterMap_cons_some selects,
      List.mem_append, List.mem_append, List.mem_cons]
    constructor
    · rintro (inEarlier | rfl | inLater)
      · exact .inl inEarlier
      · exact .inl already
      · exact .inr inLater
    · rintro (inEarlier | inLater)
      · exact .inl inEarlier
      · exact .inr (.inr inLater)
  refine ⟨known rfl, known rfl, ?_⟩
  intro other
  rw [List.filterMap_append, List.filterMap_append, List.filterMap_cons_none rfl]

end SameEffects

/-- Two actions may be taken in either order, whatever is done afterwards. -/
def Commutes (tape : Tape) (first second : TapeAction) : Prop :=
  ∀ later, tape.after (first :: second :: later) == tape.after (second :: first :: later)

theorem commutes_of_independent (program : List UInt8) (actions : List TapeAction)
    {first second : TapeAction} (independent : first.Independent second) :
    ((ofProgram program).after actions).Commutes first second := by
  intro later
  rw [← after_append, ← after_append]
  exact (sameEffects_swap independent actions later).beq program

/-- A tape stores the smallest range with the program and all addresses that were
written or touched, in whatever order that was done.  Two tapes are equal if they
store and track the same addresses and have the same bytes, and only then, whatever
was done to them.  Actions at different addresses may be taken in either order, and
so may any two actions one of which touches or widens.  To touch an address again
changes nothing. -/
theorem storage_canonical (program : List UInt8) (actions : List TapeAction) :
    let tape := (ofProgram program).after actions
    let backed := programAddresses program ++ actions.filterMap TapeAction.stored?
    (∀ address, tape.row.Stores address ↔
        ∃ least ∈ backed, ∃ greatest ∈ backed, least ≤ address ∧ address ≤ greatest) ∧
      (tape.row.size = 0 ↔ backed = []) ∧
      (tape.row.size = 0 → tape.row.first = 0) ∧
      (∀ reordered : List TapeAction, reordered.Perm actions → ∀ address,
        ((ofProgram program).after reordered).row.Stores address ↔ tape.row.Stores address) ∧
      (∀ otherProgram otherActions,
        let other := (ofProgram otherProgram).after otherActions
        tape == other ↔
          (∀ address, tape.row.Stores address ↔ other.row.Stores address) ∧
            tape.low = other.low ∧ tape.high = other.high ∧
            ∀ address, tape.get address = other.get address) ∧
      (∀ first second, first.address ≠ second.address → tape.Commutes first second) ∧
      (∀ address action, tape.Commutes (.touch address) action) ∧
      (∀ address action, tape.Commutes (.widen address) action) ∧
      (∀ address, .touch address ∈ actions → ∀ later,
        (tape.touch address).after later == tape.after later) := by
  intro tape backed
  have covers : tape.row.Covers backed := covers_history program actions
  refine ⟨covers.stores_iff, covers.size_eq_zero_iff, covers.unbegun, ?_, ?_, ?_, ?_, ?_, ?_⟩
  · intro reordered permuted
    exact stores_congr program fun address => (permuted.filterMap _).mem_iff
  · intro otherProgram otherActions
    exact beq_iff_of_covers covers (covers_history otherProgram otherActions)
  · intro first second apart
    exact commutes_of_independent program actions (.of_address_ne apart)
  · intro address action
    exact commutes_of_independent program actions (TapeAction.independent_touch address action)
  · intro address action
    exact commutes_of_independent program actions (TapeAction.independent_widen address action)
  · intro address touched later
    have effects := (sameEffects_touch touched later).beq program
    rw [after_append, after_append] at effects
    exact effects

end Tape
end OneTape
