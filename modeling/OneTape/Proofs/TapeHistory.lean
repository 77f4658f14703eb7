import OneTape.Proofs.UnboundedRefinement
import OneTape.Proofs.Words

/-!
# Histories of a tape

A tape is meant as a map from addresses to bytes with a tracked range.  Whatever is
done to it, a byte that is read is the one last written at its address, or that of
the program if there was no write.  Where storage began, and when it had to grow to
one side or the other, cannot be seen.  The tracked range is the smallest one with
the program and all addresses that were to be tracked; writing does not widen it.

Storage may also be indexed with words of 64 bits.  An address far from the stored
cells may then have no index at all, but such an address reads as zero anyway.
-/

namespace OneTape
namespace ByteRow

theorem read_of_index {row : ByteRow} {address : Int} {index : Nat}
    (place : address = row.first + index) : row.read address = row.toList[index]?.getD 0 := by
  unfold first at place
  unfold read toList
  -- The cells below the origin are stored downwards, and listed before the others.
  split
  · rename_i above offset
    rw [Int.ofNat_eq_natCast] at offset
    have behind : row.below.toList.reverse.length ≤ index := by
      rw [List.length_reverse, Array.length_toList]
      omega
    have sameIndex : index - row.below.toList.reverse.length = above := by
      rw [List.length_reverse, Array.length_toList]
      omega
    rw [List.getElem?_append_right behind, sameIndex, Array.getElem?_toList]
    rfl
  · rename_i below offset
    have before : index < row.below.toList.length := by
      rw [Array.length_toList]
      omega
    have sameIndex : row.below.toList.length - 1 - index = below := by
      rw [Array.length_toList]
      omega
    rw [List.getElem?_append_left (by rwa [List.length_reverse]), List.getElem?_reverse before,
      sameIndex, Array.getElem?_toList]
    rfl

/-- The index of an address among the stored cells, computed with signed words.  An
address below the first cell has none, nor has one that is too far above it. -/
def index? (row : ByteRow) (address : Int) : Option Nat :=
  (signedDifference? address row.first).bind fun offset =>
    if 0 ≤ offset then some offset.toNat else none

/-- Indexing with words finds the byte at every address, as long as the number of
stored cells is a signed word itself. -/
theorem read_eq_index? {row : ByteRow} (short : IsSignedWord row.size) (address : Int) :
    row.read address = ((row.index? address).bind (row.toList[·]?)).getD 0 := by
  have length := row.afterLast_eq
  unfold IsSignedWord at short
  unfold index? signedDifference?
  split
  · rw [Option.bind_some]
    split
    · exact read_of_index (by omega)
    · -- The address lies below the first cell.
      apply read_eq_zero
      intro stored
      have := stored.1
      omega
  · -- The difference is no word, and the stored cells do not reach that far.
    rename_i far
    apply read_eq_zero
    intro stored
    obtain ⟨fromFirst, beforeEnd⟩ := stored
    unfold IsSignedWord at far
    omega

end ByteRow

/-- What can be done to a tape. -/
inductive TapeAction where
  | set (address : Int) (value : UInt8)
  | modify (address : Int) (change : UInt8 → UInt8)
  | touch (address : Int)
  | widen (address : Int)

namespace TapeAction

/-- What an action makes of the byte at an address, if it writes there. -/
def write? (address : Int) : TapeAction → Option (UInt8 → UInt8)
  | set target value => if target = address then some fun _ => value else none
  | modify target change => if target = address then some change else none
  | touch _ | widen _ => none

/-- The address that an action lets the tape track. -/
def tracked? : TapeAction → Option Int
  | set _ _ | modify _ _ => none
  | touch address | widen address => some address

end TapeAction

namespace Tape

def perform (tape : Tape) : TapeAction → Tape
  | .set address value => tape.set address value
  | .modify address change => tape.modify address change
  | .touch address => tape.touch address
  | .widen address => tape.widen address

def after (tape : Tape) (actions : List TapeAction) : Tape :=
  actions.foldl perform tape

@[simp]
theorem after_nil (tape : Tape) : tape.after [] = tape := rfl

@[simp]
theorem after_cons (tape : Tape) (action : TapeAction) (actions : List TapeAction) :
    tape.after (action :: actions) = (tape.perform action).after actions := rfl

theorem after_append (tape : Tape) (first second : List TapeAction) :
    tape.after (first ++ second) = (tape.after first).after second :=
  List.foldl_append

section Bytes

variable {tape : Tape} {action : TapeAction} {address : Int}

theorem get_modify (tape : Tape) (address : Int) (change : UInt8 → UInt8) (other : Int) :
    (tape.modify address change).get other =
      if other = address then change (tape.get other) else tape.get other := by
  rw [modify, get_set]
  split
  · rename_i here
    rw [here]
  · rfl

theorem get_perform_of_write {write : UInt8 → UInt8}
    (writes : action.write? address = some write) :
    (tape.perform action).get address = write (tape.get address) := by
  cases action with
  | set target value =>
      obtain ⟨rfl, rfl⟩ : target = address ∧ (fun _ => value) = write := by
        simpa [TapeAction.write?] using writes
      simp [perform]
  | modify target change =>
      obtain ⟨rfl, rfl⟩ : target = address ∧ change = write := by
        simpa [TapeAction.write?] using writes
      simp [perform, get_modify]
  | touch target | widen target => simp [TapeAction.write?] at writes

theorem get_perform_of_other (unwritten : action.write? address = none) :
    (tape.perform action).get address = tape.get address := by
  cases action with
  | set target value =>
      have elsewhere : address ≠ target := by
        rintro rfl
        simp [TapeAction.write?] at unwritten
      simp [perform, elsewhere]
  | modify target change =>
      have elsewhere : address ≠ target := by
        rintro rfl
        simp [TapeAction.write?] at unwritten
      simp [perform, get_modify, elsewhere]
  | touch target => exact get_touch tape target address
  | widen target => exact get_widen tape target address

theorem get_after_of_unwritten {actions : List TapeAction}
    (unwritten : ∀ action ∈ actions, action.write? address = none) :
    (tape.after actions).get address = tape.get address := by
  induction actions generalizing tape with
  | nil => rfl
  | cons action actions ih =>
      have here := unwritten action List.mem_cons_self
      have later := fun other member => unwritten other (List.mem_cons_of_mem action member)
      rw [after_cons, ih later, get_perform_of_other here]

/-- A byte is what the last write at its address has made of it. -/
theorem get_after_of_last_write {earlier later : List TapeAction} {write : UInt8 → UInt8}
    (writes : action.write? address = some write)
    (unwritten : ∀ other ∈ later, other.write? address = none) :
    (tape.after (earlier ++ action :: later)).get address =
      write ((tape.after earlier).get address) := by
  rw [after_append, after_cons, get_after_of_unwritten unwritten, get_perform_of_write writes]

end Bytes

section Range

variable (tape : Tape) (action : TapeAction) (actions : List TapeAction)

theorem low_perform :
    (tape.perform action).low = action.tracked?.toList.foldl min tape.low := by
  cases action <;> rfl

theorem high_perform :
    (tape.perform action).high = action.tracked?.toList.foldl max tape.high := by
  cases action <;> rfl

/-- A watermark that every action moves to the address it tracks, if any, is moved
to all of them in turn. -/
theorem mark_after {mark : Tape → Int} {join : Int → Int → Int}
    (moves : ∀ tape action,
      mark (perform tape action) = action.tracked?.toList.foldl join (mark tape)) :
    mark (tape.after actions) =
      (actions.filterMap TapeAction.tracked?).foldl join (mark tape) := by
  induction actions generalizing tape with
  | nil => rfl
  | cons action actions ih =>
      rw [after_cons, ih, moves, List.filterMap_cons]
      cases action.tracked? <;> rfl

theorem low_after :
    (tape.after actions).low = (actions.filterMap TapeAction.tracked?).foldl min tape.low :=
  mark_after tape actions low_perform

theorem high_after :
    (tape.after actions).high = (actions.filterMap TapeAction.tracked?).foldl max tape.high :=
  mark_after tape actions high_perform

end Range

section Entries

variable (tape : Tape)

theorem pairwise_entries : (tape.entries.map Prod.fst).Pairwise (· < ·) := by
  have addresses : tape.entries.map Prod.fst =
      (List.range tape.span).map fun index : Nat => tape.low + index := by
    simp [entries, Function.comp_def]
  rw [addresses, List.pairwise_map]
  exact List.pairwise_lt_range.imp fun less => by omega

theorem mem_entries_iff {address : Int} {byte : UInt8} :
    (address, byte) ∈ tape.entries ↔
      (tape.low ≤ address ∧ address ≤ tape.high) ∧ byte = tape.get address := by
  simp only [entries, List.mem_map, List.mem_range, Prod.mk.injEq, span]
  constructor
  · rintro ⟨index, inside, rfl, rfl⟩
    exact ⟨by omega, rfl⟩
  · rintro ⟨⟨fromLow, toHigh⟩, rfl⟩
    have place : tape.low + ((address - tape.low).toNat : Int) = address := by omega
    exact ⟨(address - tape.low).toNat, by omega, place, by rw [place]⟩

end Entries

/-- A tape is a map from addresses to bytes with a tracked range, whatever has been
done to it.  A byte is what the last write at its address has made of it, or that of
the program without such a write.  Touching, widening and growing change no byte.
The watermarks are the least and the greatest of the addresses that were to be
tracked, address zero and the end of the program included, and the entries list the
addresses between them in order.  Indices that are words lead to the same bytes. -/
theorem history_refines_byteMap (program : List UInt8) (actions : List TapeAction) :
    let tape := (ofProgram program).after actions
    (∀ address, (∀ action ∈ actions, action.write? address = none) →
        tape.get address = programCells program address) ∧
      (∀ earlier action later address write, actions = earlier ++ action :: later →
        action.write? address = some write →
        (∀ other ∈ later, other.write? address = none) →
        tape.get address = write (((ofProgram program).after earlier).get address)) ∧
      (∀ address other, (tape.touch address).get other = tape.get other ∧
        (tape.widen address).get other = tape.get other ∧
        (tape.modify address id).get other = tape.get other) ∧
      (0 :: actions.filterMap TapeAction.tracked?).min? = some tape.low ∧
      (max ((program.length : Int) - 1) 0 :: actions.filterMap TapeAction.tracked?).max? =
        some tape.high ∧
      (tape.entries.map Prod.fst).Pairwise (· < ·) ∧
      (∀ address byte, (address, byte) ∈ tape.entries ↔
        (tape.low ≤ address ∧ address ≤ tape.high) ∧ byte = tape.get address) ∧
      (IsSignedWord tape.row.size → ∀ address, tape.get address =
        ((tape.row.index? address).bind (tape.row.toList[·]?)).getD 0) ∧
      blank = ofProgram [] := by
  intro tape
  refine ⟨?_, ?_, ?_, ?_, ?_, tape.pairwise_entries, fun _ _ => tape.mem_entries_iff,
    ByteRow.read_eq_index?, rfl⟩
  · intro address unwritten
    rw [get_after_of_unwritten unwritten, get_ofProgram]
  · rintro earlier action later address write rfl writes unwritten
    exact get_after_of_last_write writes unwritten
  · intro address other
    refine ⟨get_touch tape address other, get_widen tape address other, ?_⟩
    rw [get_modify]
    exact ite_self _
  · rw [List.min?_cons', low_after]
    rfl
  · have highest : (ofProgram program).high = max ((program.length : Int) - 1) 0 := by
      change ((program.length - 1 : Nat) : Int) = _
      omega
    rw [List.max?_cons', high_after, highest]

/-- Storage begins at the least signed word.  The greatest one is too far away to
have an index, and reads as zero. -/
theorem history_from_least_address :
    let least : Int := -0x8000000000000000
    let greatest : Int := 0x7FFFFFFFFFFFFFFF
    let tape := (ofProgram []).after [.modify least (· + 3), .touch (least + 2), .widen 4]
    tape.get least = 3 ∧ tape.get (least + 1) = 0 ∧ tape.row.toList = [3, 0, 0] ∧
      tape.row.index? greatest = none ∧ tape.get greatest = 0 ∧ tape.low = least + 2 ∧
      tape.high = 4 := by
  intro least greatest tape
  obtain ⟨untouched, written, -, lowest, highest, -, -, indexed, -⟩ := history_refines_byteMap []
    [.modify least (· + 3), .touch (least + 2), .widen 4]
  have short : IsSignedWord tape.row.size := by decide
  have far : tape.row.index? greatest = none := by decide
  refine ⟨?_, ?_, by decide, far, ?_, ?_, ?_⟩
  · exact written [] (.modify least (· + 3)) [.touch (least + 2), .widen 4] least (· + 3) rfl
      (by simp [TapeAction.write?]) (by simp [TapeAction.write?])
  · exact untouched (least + 1) (by simp [TapeAction.write?, least])
  · rw [indexed short greatest, far]
    rfl
  · exact (Option.some.inj lowest).symm
  · exact (Option.some.inj highest).symm

end Tape
end OneTape
