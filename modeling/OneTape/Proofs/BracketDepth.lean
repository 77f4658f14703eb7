import OneTape.Proofs.TrackedRange
import OneTape.TapeSearch

/-!
# Bracket depth

The depth of a range of addresses is the number of opening brackets in it less
the number of closing ones.  The partner of an opening bracket is the first
address to its right at which the depth from the bracket on returns to zero,
and the partner of a closing bracket is the first such address to its left.
Both say the same of a pair of addresses: the depth from the first one on stays
positive, and is back at zero at the second one.

The search of a tape for a partner is bounded by the tracked range.  It finds
the partners in this sense all the same, as long as the tape is blank outside.
-/

namespace OneTape

/-- What a byte adds to the depth: one for an opening bracket, minus one for a
closing bracket, and nothing otherwise. -/
def nesting (byte : UInt8) : Int :=
  match Command.ofByte? byte with
  | some .openLoop => 1
  | some .closeLoop => -1
  | _ => 0

/-- The bracket depth over a number of addresses from a first one on. -/
def depthOf (cells : Int → UInt8) (first : Int) : Nat → Int
  | 0 => 0
  | count + 1 => depthOf cells first count + nesting (cells (first + count))

/-- The bracket depth over the addresses from a first to a last one. -/
def depth (cells : Int → UInt8) (first last : Int) : Int :=
  depthOf cells first (last + 1 - first).toNat

theorem nesting_bounds (byte : UInt8) : -1 ≤ nesting byte ∧ nesting byte ≤ 1 := by
  unfold nesting
  split <;> omega

theorem nesting_eq_one_iff {byte : UInt8} :
    nesting byte = 1 ↔ Command.ofByte? byte = some .openLoop := by
  unfold nesting
  split <;> simp_all

theorem nesting_eq_neg_one_iff {byte : UInt8} :
    nesting byte = -1 ↔ Command.ofByte? byte = some .closeLoop := by
  unfold nesting
  split <;> simp_all

theorem nesting_eq_zero {byte : UInt8} (notOpen : Command.ofByte? byte ≠ some .openLoop)
    (notClose : Command.ofByte? byte ≠ some .closeLoop) : nesting byte = 0 := by
  unfold nesting
  split
  · contradiction
  · contradiction
  · rfl

section Depth

variable {cells : Int → UInt8} {first last : Int}

theorem depthOf_add (cells : Int → UInt8) (first : Int) (left right : Nat) :
    depthOf cells first (left + right) =
      depthOf cells first left + depthOf cells (first + left) right := by
  induction right with
  | zero => simp [depthOf]
  | succ right ih =>
      have address : first + ((left + right : Nat) : Int) = first + left + right := by omega
      rw [← Nat.add_assoc, depthOf, depthOf, ih, address]
      omega

@[simp]
theorem depth_self (cells : Int → UInt8) (address : Int) :
    depth cells address address = nesting (cells address) := by
  have one : (address + 1 - address).toNat = 1 := by omega
  rw [depth, one]
  simp [depthOf]

theorem depth_split (cells : Int → UInt8) {middle : Int} (fromFirst : first ≤ middle)
    (toLast : middle ≤ last + 1) :
    depth cells first last = depth cells first (middle - 1) + depth cells middle last := by
  have lengths : (last + 1 - first).toNat =
      (middle - 1 + 1 - first).toNat + (last + 1 - middle).toNat := by omega
  have start : first + ((middle - 1 + 1 - first).toNat : Int) = middle := by omega
  unfold depth
  rw [lengths, depthOf_add, start]

theorem depth_right (cells : Int → UInt8) (ordered : first ≤ last) :
    depth cells first last = depth cells first (last - 1) + nesting (cells last) := by
  rw [depth_split cells ordered (by omega), depth_self]

theorem depth_left (cells : Int → UInt8) (ordered : first ≤ last) :
    depth cells first last = nesting (cells first) + depth cells (first + 1) last := by
  rw [depth_split cells (show first ≤ first + 1 by omega) (by omega), Int.add_sub_cancel,
    depth_self]

theorem depthOf_congr {others : Int → UInt8} (count : Nat)
    (equal : ∀ index : Nat, index < count → cells (first + index) = others (first + index)) :
    depthOf cells first count = depthOf others first count := by
  induction count with
  | zero => rfl
  | succ count ih =>
      rw [depthOf, depthOf, equal count (by omega)]
      rw [ih fun index before => equal index (by omega)]

theorem depthOf_eq_zero (count : Nat)
    (flat : ∀ index : Nat, index < count → nesting (cells (first + index)) = 0) :
    depthOf cells first count = 0 := by
  induction count with
  | zero => rfl
  | succ count ih =>
      rw [depthOf, flat count (by omega), ih fun index before => flat index (by omega)]
      rfl

theorem depth_congr {others : Int → UInt8}
    (equal : ∀ address, first ≤ address → address ≤ last → cells address = others address) :
    depth cells first last = depth others first last := by
  apply depthOf_congr
  intro index before
  exact equal (first + index) (by omega) (by omega)

end Depth

/-- The bracket at one address is the partner of the bracket at a later one. -/
structure Matched (cells : Int → UInt8) (first last : Int) : Prop where
  ordered : first < last
  closed : depth cells first last = 0
  nested : ∀ address, first ≤ address → address < last → 0 < depth cells first address

/-- The address that a bracket looking in a direction has to jump to.  It is
found on the tape as a whole, with no bound to the search. -/
def IsPartner (cells : Int → UInt8) : Tape.Direction → Int → Int → Prop
  | .rightward, address, partner =>
      address < partner ∧ depth cells address partner = 0 ∧
        ∀ between, address < between → between < partner → depth cells address between ≠ 0
  | .leftward, address, partner =>
      partner < address ∧ depth cells partner address = 0 ∧
        ∀ between, partner < between → between < address → depth cells between address ≠ 0

theorem IsPartner.unique {cells : Int → UInt8} {direction : Tape.Direction}
    {address first second : Int} (isFirst : IsPartner cells direction address first)
    (isSecond : IsPartner cells direction address second) : first = second := by
  cases direction with
  | rightward =>
      obtain ⟨firstBehind, firstZero, firstLeast⟩ := isFirst
      obtain ⟨secondBehind, secondZero, secondLeast⟩ := isSecond
      rcases Int.lt_trichotomy first second with before | equal | behind
      · exact absurd firstZero (secondLeast first firstBehind before)
      · exact equal
      · exact absurd secondZero (firstLeast second secondBehind behind)
  | leftward =>
      obtain ⟨firstBefore, firstZero, firstGreatest⟩ := isFirst
      obtain ⟨secondBefore, secondZero, secondGreatest⟩ := isSecond
      rcases Int.lt_trichotomy first second with before | equal | behind
      · exact absurd secondZero (firstGreatest second before secondBefore)
      · exact equal
      · exact absurd firstZero (secondGreatest first behind firstBefore)

namespace Matched

variable {cells : Int → UInt8} {first last : Int}

theorem opens (matched : Matched cells first last) :
    Command.ofByte? (cells first) = some .openLoop := by
  have positive := matched.nested first (Int.le_refl first) matched.ordered
  rw [depth_self] at positive
  have bounds := nesting_bounds (cells first)
  exact nesting_eq_one_iff.mp (by omega)

theorem closes (matched : Matched cells first last) :
    Command.ofByte? (cells last) = some .closeLoop := by
  have ordered := matched.ordered
  have positive := matched.nested (last - 1) (by omega) (by omega)
  have closed := matched.closed
  have appended := depth_right cells (Int.le_of_lt ordered)
  have bounds := nesting_bounds (cells last)
  exact nesting_eq_neg_one_iff.mp (by omega)

theorem isPartner_rightward (matched : Matched cells first last) :
    IsPartner cells .rightward first last := by
  refine ⟨matched.ordered, matched.closed, ?_⟩
  intro between behind before
  have positive := matched.nested between (by omega) before
  omega

/-- What lies between an address and the second bracket of a pair has more
closing than opening brackets. -/
theorem depth_neg (matched : Matched cells first last) {address : Int}
    (behind : first < address) (before : address ≤ last) :
    depth cells address last < 0 := by
  have positive := matched.nested (address - 1) (by omega) (by omega)
  have parts := depth_split cells (Int.le_of_lt behind) (by omega : address ≤ last + 1)
  rw [matched.closed] at parts
  omega

theorem isPartner_leftward (matched : Matched cells first last) :
    IsPartner cells .leftward last first := by
  refine ⟨matched.ordered, matched.closed, ?_⟩
  intro between behind before
  have negative := matched.depth_neg behind (by omega)
  omega

theorem congr {others : Int → UInt8} (matched : Matched cells first last)
    (equal : ∀ address, first ≤ address → address ≤ last → cells address = others address) :
    Matched others first last where
  ordered := matched.ordered
  closed := by
    rw [← depth_congr equal]
    exact matched.closed
  nested address fromFirst beforeLast := by
    have same : depth cells first address = depth others first address :=
      depth_congr fun other behind before => equal other behind (by omega)
    rw [← same]
    exact matched.nested address fromFirst beforeLast

end Matched

namespace Tape
namespace Direction

def travel : Direction → Int → Nat → Int
  | rightward, address, distance => address + distance
  | leftward, address, distance => address - distance

/-- The depth from an address up to a distance from it.  The brackets that look
in the direction count as opening. -/
def height (cells : Int → UInt8) : Direction → Int → Nat → Int
  | rightward, address, distance => depth cells address (address + distance)
  | leftward, address, distance => -depth cells (address - distance) address

def turn : Direction → UInt8 → Int
  | rightward, byte => nesting byte
  | leftward, byte => -nesting byte

theorem turn_bounds (direction : Direction) (byte : UInt8) :
    -1 ≤ direction.turn byte ∧ direction.turn byte ≤ 1 := by
  have bounds := nesting_bounds byte
  cases direction with
  | rightward => exact bounds
  | leftward =>
      simp only [turn]
      omega

theorem turn_of_bracket {direction : Direction} {byte : UInt8}
    (found : Command.ofByte? byte = some direction.bracket) : direction.turn byte = 1 := by
  cases direction <;> simp [turn, nesting, found, bracket]

theorem turn_of_partner {direction : Direction} {byte : UInt8}
    (found : Command.ofByte? byte = some direction.partner) : direction.turn byte = -1 := by
  cases direction <;> simp [turn, nesting, found, partner]

theorem turn_of_other {direction : Direction} {byte : UInt8}
    (notBracket : Command.ofByte? byte ≠ some direction.bracket)
    (notPartner : Command.ofByte? byte ≠ some direction.partner) :
    direction.turn byte = 0 := by
  cases direction with
  | rightward => exact nesting_eq_zero notBracket notPartner
  | leftward => simp [turn, nesting_eq_zero notPartner notBracket]

theorem turn_zero (direction : Direction) : direction.turn 0 = 0 := by
  cases direction <;> rfl

@[simp]
theorem travel_zero (direction : Direction) (address : Int) :
    direction.travel address 0 = address := by
  cases direction <;> simp [travel]

theorem next_travel (direction : Direction) (address : Int) (distance : Nat) :
    direction.next (direction.travel address distance) =
      direction.travel address (distance + 1) := by
  cases direction <;> simp only [next, travel] <;> omega

variable {cells : Int → UInt8} {direction : Direction} {address : Int}

theorem height_zero (start : Command.ofByte? (cells address) = some direction.bracket) :
    direction.height cells address 0 = 1 := by
  have first := turn_of_bracket start
  cases direction <;> simpa [height, turn] using first

theorem height_succ (cells : Int → UInt8) (direction : Direction) (address : Int)
    (distance : Nat) :
    direction.height cells address (distance + 1) =
      direction.height cells address distance +
        direction.turn (cells (direction.travel address (distance + 1))) := by
  cases direction with
  | rightward =>
      simp only [height, turn, travel]
      rw [depth_right cells (by omega)]
      congr 2
      omega
  | leftward =>
      simp only [height, turn, travel]
      rw [depth_left cells (by omega)]
      rw [show address - ((distance + 1 : Nat) : Int) + 1 = address - distance by omega]
      omega

/-- The height goes up and down by one at a time, so it is positive until it
first comes to zero. -/
theorem height_pos (direction : Direction)
    (start : Command.ofByte? (cells address) = some direction.bracket) {bound : Nat}
    (nonzero : ∀ distance, 0 < distance → distance < bound →
      direction.height cells address distance ≠ 0)
    (distance : Nat) (before : distance < bound) :
    0 < direction.height cells address distance := by
  induction distance with
  | zero =>
      rw [height_zero start]
      exact Int.one_pos
  | succ distance ih =>
      have previous := ih (by omega)
      have current := nonzero (distance + 1) (by omega) before
      have change := direction.turn_bounds (cells (direction.travel address (distance + 1)))
      rw [height_succ] at current ⊢
      omega

theorem isPartner_iff_height {partner : Int} :
    IsPartner cells direction address partner ↔
      ∃ distance, 0 < distance ∧ partner = direction.travel address distance ∧
        direction.height cells address distance = 0 ∧
        ∀ between, 0 < between → between < distance →
          direction.height cells address between ≠ 0 := by
  cases direction with
  | rightward =>
      constructor
      · rintro ⟨behind, zero, nonzero⟩
        have reached : address + ((partner - address).toNat : Int) = partner := by omega
        refine ⟨(partner - address).toNat, by omega, reached.symm, ?_, ?_⟩
        · simpa only [height, reached] using zero
        · intro between positive before
          exact nonzero (address + between) (by omega) (by omega)
      · rintro ⟨distance, positive, rfl, zero, nonzero⟩
        refine ⟨by simp only [travel]; omega, zero, ?_⟩
        intro between behind before
        simp only [travel] at before
        have offset : address + ((between - address).toNat : Int) = between := by omega
        have unequal := nonzero (between - address).toNat (by omega) (by omega)
        simpa only [height, offset] using unequal
  | leftward =>
      constructor
      · rintro ⟨before, zero, nonzero⟩
        have reached : address - ((address - partner).toNat : Int) = partner := by omega
        refine ⟨(address - partner).toNat, by omega, reached.symm, ?_, ?_⟩
        · simp only [height, reached, zero, Int.neg_zero]
        · intro between positive behind
          have unequal := nonzero (address - between) (by omega) (by omega)
          simp only [height]
          omega
      · rintro ⟨distance, positive, rfl, zero, nonzero⟩
        simp only [height] at zero
        refine ⟨by simp only [travel]; omega, by simp only [travel]; omega, ?_⟩
        intro between behind before
        simp only [travel] at behind
        have offset : address - ((address - between).toNat : Int) = between := by omega
        have unequal := nonzero (address - between).toNat (by omega) (by omega)
        simp only [height, offset] at unequal
        omega

/-- What a search over a number of addresses, from a distance on, has to find
out about the heights. -/
def SearchResult (cells : Int → UInt8) (direction : Direction) (address : Int)
    (distance remaining : Nat) : Option Int → Prop
  | some partner =>
      ∃ total, distance < total ∧ total ≤ distance + remaining ∧
        partner = direction.travel address total ∧
        direction.height cells address total = 0 ∧
        ∀ between, distance < between → between < total →
          0 < direction.height cells address between
  | none =>
      ∀ between, distance < between → between ≤ distance + remaining →
        0 < direction.height cells address between

theorem SearchResult.earlier {distance remaining : Nat} {result : Option Int}
    (positive : 0 < direction.height cells address (distance + 1))
    (rest : SearchResult cells direction address (distance + 1) remaining result) :
    SearchResult cells direction address distance (remaining + 1) result := by
  cases result with
  | some partner =>
      obtain ⟨total, behind, bounded, reached, zero, positives⟩ := rest
      refine ⟨total, by omega, by omega, reached, zero, ?_⟩
      intro between after before
      by_cases atOnce : between = distance + 1
      · exact atOnce ▸ positive
      · exact positives between (by omega) before
  | none =>
      intro between after bounded
      by_cases atOnce : between = distance + 1
      · exact atOnce ▸ positive
      · exact rest between (by omega) (by omega)

end Direction

open Direction

/-- The number of waiting brackets is one less than the height. -/
theorem seekPartner_result (tape : Tape) (direction : Direction) (start : Int)
    (remaining : Nat) {waiting distance : Nat}
    (current : direction.height tape.get start distance = waiting + 1) :
    SearchResult tape.get direction start distance remaining
      (tape.seekPartner direction remaining waiting
        (direction.travel start (distance + 1))) := by
  induction remaining generalizing waiting distance with
  | zero =>
      intro between after bounded
      omega
  | succ remaining ih =>
      have change := height_succ tape.get direction start distance
      rw [current] at change
      unfold seekPartner
      simp only [next_travel]
      by_cases isPartner :
          tape.commandAt? (direction.travel start (distance + 1)) = some direction.partner
      · rw [turn_of_partner isPartner] at change
        rw [if_pos isPartner]
        cases waiting with
        | zero =>
            refine ⟨distance + 1, by omega, by omega, rfl, by simpa using change, ?_⟩
            intro between after before
            omega
        | succ waiting =>
            have height : direction.height tape.get start (distance + 1) = waiting + 1 := by
              rw [change]
              omega
            exact (ih height).earlier (by omega)
      · rw [if_neg isPartner]
        by_cases isBracket :
            tape.commandAt? (direction.travel start (distance + 1)) = some direction.bracket
        · rw [turn_of_bracket isBracket] at change
          rw [if_pos isBracket]
          have height : direction.height tape.get start (distance + 1) =
              (waiting + 1 : Nat) + 1 := by
            rw [change]
            omega
          exact (ih height).earlier (by omega)
        · rw [turn_of_other isBracket isPartner] at change
          rw [if_neg isBracket]
          exact (ih (by rw [change]; omega)).earlier (by omega)

section Partner

variable {tape : Tape} {direction : Direction} {address partner : Int}

theorem partner?_result (bracket : tape.commandAt? address = some direction.bracket) :
    SearchResult tape.get direction address 0 (direction.ahead tape address)
      (tape.partner? direction address) := by
  have height : direction.height tape.get address 0 = ((0 : Nat) : Int) + 1 :=
    height_zero bracket
  have result := seekPartner_result tape direction address (direction.ahead tape address) height
  rwa [← next_travel, travel_zero] at result

theorem isPartner_of_partner?_eq_some
    (found : tape.partner? direction address = some partner)
    (bracket : tape.commandAt? address = some direction.bracket) :
    IsPartner tape.get direction address partner := by
  have result := partner?_result bracket
  rw [found] at result
  obtain ⟨total, positive, bounded, reached, zero, positives⟩ := result
  refine isPartner_iff_height.mpr ⟨total, positive, reached, zero, ?_⟩
  intro between after before
  have := positives between after before
  omega

theorem tracked_of_partner?_eq_some
    (found : tape.partner? direction address = some partner)
    (bracket : tape.commandAt? address = some direction.bracket)
    (fromLow : tape.low ≤ address) (toHigh : address ≤ tape.high) :
    tape.low ≤ partner ∧ partner ≤ tape.high := by
  have result := partner?_result bracket
  rw [found] at result
  obtain ⟨total, positive, bounded, reached, -⟩ := result
  cases direction <;> simp only [ahead, travel] at bounded reached <;> omega

/-- Beyond the tracked addresses that lie ahead, a blank tape adds nothing to
the height. -/
theorem BlankOutside.height_pos (blank : tape.BlankOutside)
    (positive : ∀ distance ≤ direction.ahead tape address,
      0 < direction.height tape.get address distance) (distance : Nat) :
    0 < direction.height tape.get address distance := by
  induction distance with
  | zero => exact positive 0 (Nat.zero_le _)
  | succ distance ih =>
      by_cases tracked : distance + 1 ≤ direction.ahead tape address
      · exact positive (distance + 1) tracked
      · have outside : tape.get (direction.travel address (distance + 1)) = 0 := by
          apply blank
          cases direction <;> simp only [ahead, travel] at tracked ⊢ <;> omega
        rw [height_succ, outside, turn_zero]
        omega

theorem not_isPartner_of_partner?_eq_none
    (missing : tape.partner? direction address = none)
    (bracket : tape.commandAt? address = some direction.bracket)
    (blank : tape.BlankOutside) (partner : Int) :
    ¬ IsPartner tape.get direction address partner := by
  have result := partner?_result bracket
  rw [missing] at result
  have positive : ∀ distance, 0 < direction.height tape.get address distance := by
    apply blank.height_pos
    intro distance tracked
    cases distance with
    | zero =>
        rw [height_zero bracket]
        exact Int.one_pos
    | succ distance => exact result (distance + 1) (by omega) (by omega)
  intro isPartner
  obtain ⟨distance, -, -, zero, -⟩ := isPartner_iff_height.mp isPartner
  have := positive distance
  omega

end Partner

end Tape

section Matching

variable {cells : Int → UInt8} {first last : Int}

open Tape.Direction

theorem IsPartner.matched_rightward
    (opened : Command.ofByte? (cells first) = some .openLoop)
    (isPartner : IsPartner cells .rightward first last) : Matched cells first last := by
  obtain ⟨distance, positive, reached, zero, nonzero⟩ := isPartner_iff_height.mp isPartner
  simp only [travel] at reached
  refine ⟨by omega, by rw [reached]; exact zero, ?_⟩
  intro address fromFirst beforeLast
  have above := height_pos .rightward opened nonzero (address - first).toNat (by omega)
  have offset : first + ((address - first).toNat : Int) = address := by omega
  simpa only [height, offset] using above

theorem IsPartner.matched_leftward
    (closed : Command.ofByte? (cells last) = some .closeLoop)
    (isPartner : IsPartner cells .leftward last first) : Matched cells first last := by
  obtain ⟨distance, positive, reached, zero, nonzero⟩ := isPartner_iff_height.mp isPartner
  simp only [travel] at reached
  have balanced : depth cells first last = 0 := by
    simp only [height] at zero
    rw [reached]
    omega
  refine ⟨by omega, balanced, ?_⟩
  intro address fromFirst beforeLast
  -- The height seen from the closing bracket is what the part behind it lacks.
  have above := height_pos .leftward closed nonzero (last - address - 1).toNat (by omega)
  have offset : last - ((last - address - 1).toNat : Int) = address + 1 := by omega
  simp only [height, offset] at above
  have parts := depth_split cells (by omega : first ≤ address + 1)
    (by omega : address + 1 ≤ last + 1)
  rw [balanced, Int.add_sub_cancel] at parts
  omega

end Matching

end OneTape
