import OneTape.Proofs.StructuredProgram

/-!
# The matching of brackets

A tape looks for the partner of an opening bracket to the right, and for that of a
closing bracket to the left.  One search undoes the other.  So there is one matching
of the brackets of a tape, and both directions find it.  Not every bracket needs to
have a partner, but those that have one are nested in each other or lie apart.

Nothing is assumed of the bytes here.  The brackets around a pair need not be
balanced, and the tape need not be blank outside the tracked range, because both
brackets of a pair are tracked and a search never looks past its partner.
-/

namespace OneTape
namespace Matched

variable {cells : Int → UInt8} {first last : Int}

/-- What stands between the two brackets of a pair is balanced. -/
theorem balanced (matched : Matched cells first last) : Balanced cells (first + 1) last := by
  have ordered := matched.ordered
  constructor
  · have closed := matched.closed
    have minusOne : nesting (cells last) = -1 := nesting_eq_neg_one_iff.mpr matched.closes
    rw [depth_right cells (by omega), depth_of_opens matched.opens (by omega), minusOne] at closed
    omega
  · intro address before
    by_cases behind : first ≤ address
    · have positive := matched.nested address behind before
      rw [depth_of_opens matched.opens behind] at positive
      omega
    · have nothing : (address + 1 - (first + 1)).toNat = 0 := by omega
      rw [depth, nothing]
      exact Int.le_refl 0

variable {otherFirst otherLast : Int}

theorem last_eq (matched : Matched cells first last) (other : Matched cells first otherLast) :
    last = otherLast :=
  matched.isPartner_rightward.unique other.isPartner_rightward

/-- A pair that opens inside another one closes inside it. -/
theorem closes_inside (outer : Matched cells first last)
    (inner : Matched cells otherFirst otherLast) (behind : first < otherFirst)
    (before : otherFirst < last) : otherLast < last := by
  -- Otherwise the depth would still be positive where the outer pair closes.
  by_contra beyond
  have upTo := outer.nested (otherFirst - 1) (by omega) (by omega)
  have parts := depth_split cells (Int.le_of_lt behind) (by omega : otherFirst ≤ last + 1)
  have rest : 0 ≤ depth cells otherFirst last := by
    by_cases same : last = otherLast
    · rw [same]
      exact Int.le_of_eq inner.closed.symm
    · exact Int.le_of_lt (inner.nested last (Int.le_of_lt before) (by omega))
  rw [outer.closed] at parts
  omega

/-- Two pairs are the same, or lie apart, or one of them is inside the other. -/
theorem noncrossing (matched : Matched cells first last)
    (other : Matched cells otherFirst otherLast) :
    (first = otherFirst ∧ last = otherLast) ∨ last < otherFirst ∨ otherLast < first ∨
      (first < otherFirst ∧ otherLast < last) ∨ (otherFirst < first ∧ last < otherLast) := by
  -- A bracket cannot open one pair and close another one.
  have differs : last ≠ otherFirst := by
    rintro rfl
    have opens := other.opens
    rw [matched.closes] at opens
    cases opens
  have alsoDiffers : otherLast ≠ first := by
    rintro rfl
    have opens := matched.opens
    rw [other.closes] at opens
    cases opens
  rcases Int.lt_trichotomy first otherFirst with behind | rfl | before
  · by_cases inside : otherFirst < last
    · have closesInside := matched.closes_inside other behind inside
      omega
    · omega
  · exact .inl ⟨rfl, matched.last_eq other⟩
  · by_cases inside : first < otherLast
    · have closesInside := other.closes_inside matched before inside
      omega
    · omega

end Matched

namespace Tape

variable {tape : Tape} {direction : Direction} {address partner first last : Int}

open Direction

/-- A search finds the partner, as long as it is tracked. -/
theorem partner?_eq_some_of_isPartner (bracket : tape.commandAt? address = some direction.bracket)
    (fromLow : tape.low ≤ partner) (toHigh : partner ≤ tape.high)
    (isPartner : IsPartner tape.get direction address partner) :
    tape.partner? direction address = some partner := by
  cases found : tape.partner? direction address with
  | some other =>
      rw [isPartner.unique (isPartner_of_partner?_eq_some found bracket)]
  | none =>
      have result := partner?_result bracket
      rw [found] at result
      obtain ⟨distance, positive, reached, zero, -⟩ := isPartner_iff_height.mp isPartner
      have within : distance ≤ 0 + direction.ahead tape address := by
        cases direction <;> simp only [ahead, travel] at reached ⊢ <;> omega
      have := result distance positive within
      omega

/-- A search takes a tracked bracket to its partner. -/
structure Links (tape : Tape) (direction : Direction) (address partner : Int) : Prop where
  fromLow : tape.low ≤ address
  toHigh : address ≤ tape.high
  bracket : tape.commandAt? address = some direction.bracket
  found : tape.partner? direction address = some partner

/-- Two tracked brackets are partners. -/
structure Paired (tape : Tape) (first last : Int) : Prop where
  fromLow : tape.low ≤ first
  toHigh : last ≤ tape.high
  matched : Matched tape.get first last

namespace Direction

/-- The opening one of a bracket that looks in a direction and its partner. -/
def opening : Direction → Int → Int → Int
  | rightward, address, _ => address
  | leftward, _, partner => partner

/-- The closing one of the two. -/
def closing : Direction → Int → Int → Int
  | rightward, _, partner => partner
  | leftward, address, _ => address

end Direction

theorem matched_iff {cells : Int → UInt8} :
    Matched cells (direction.opening address partner) (direction.closing address partner) ↔
      Command.ofByte? (cells address) = some direction.bracket ∧
        IsPartner cells direction address partner := by
  cases direction with
  | rightward =>
      exact ⟨fun matched => ⟨matched.opens, matched.isPartner_rightward⟩,
        fun found => found.2.matched_rightward found.1⟩
  | leftward =>
      exact ⟨fun matched => ⟨matched.closes, matched.isPartner_leftward⟩,
        fun found => found.2.matched_leftward found.1⟩

theorem links_iff :
    tape.Links direction address partner ↔
      tape.Paired (direction.opening address partner) (direction.closing address partner) := by
  constructor
  · intro links
    have isPartner := isPartner_of_partner?_eq_some links.found links.bracket
    have tracked := tracked_of_partner?_eq_some links.found links.bracket links.fromLow links.toHigh
    have matched := matched_iff.mpr ⟨links.bracket, isPartner⟩
    cases direction with
    | rightward => exact ⟨links.fromLow, tracked.2, matched⟩
    | leftward => exact ⟨tracked.1, links.toHigh, matched⟩
  · rintro ⟨fromLow, toHigh, matched⟩
    have ordered := matched.ordered
    obtain ⟨bracket, isPartner⟩ := matched_iff.mp matched
    have tracked : (tape.low ≤ address ∧ address ≤ tape.high) ∧
        tape.low ≤ partner ∧ partner ≤ tape.high := by
      cases direction <;> simp only [opening, closing] at fromLow toHigh ordered <;> omega
    obtain ⟨⟨addressFromLow, addressToHigh⟩, partnerFromLow, partnerToHigh⟩ := tracked
    exact ⟨addressFromLow, addressToHigh, bracket,
      partner?_eq_some_of_isPartner bracket partnerFromLow partnerToHigh isPartner⟩

/-- The two searches are inverse to each other.  What they find are pairs of an
opening bracket and a closing bracket to its right, with balanced brackets in
between, and such pairs never cross or share a bracket. -/
theorem searches_inverse (tape : Tape) :
    (∀ first last, tape.Links .rightward first last →
        first < last ∧ last ≤ tape.high ∧ tape.commandAt? last = some .closeLoop ∧
          Balanced tape.get (first + 1) last ∧ tape.partner? .leftward last = some first) ∧
      (∀ first last, tape.Links .leftward last first →
        first < last ∧ tape.low ≤ first ∧ tape.commandAt? first = some .openLoop ∧
          Balanced tape.get (first + 1) last ∧ tape.partner? .rightward first = some last) ∧
      (∀ first last, tape.Links .rightward first last ↔ tape.Links .leftward last first) ∧
      (∀ first last otherFirst otherLast, tape.Links .rightward first last →
        tape.Links .rightward otherFirst otherLast →
        (first = otherFirst ∧ last = otherLast) ∨ last < otherFirst ∨ otherLast < first ∨
          (first < otherFirst ∧ otherLast < last) ∨ (otherFirst < first ∧ last < otherLast)) := by
  refine ⟨?_, ?_, ?_, ?_⟩
  · intro first last links
    have pair : tape.Paired first last := links_iff.mp links
    have back : tape.Links .leftward last first := links_iff.mpr pair
    exact ⟨pair.matched.ordered, pair.toHigh, pair.matched.closes, pair.matched.balanced,
      back.found⟩
  · intro first last links
    have pair : tape.Paired first last := links_iff.mp links
    have forth : tape.Links .rightward first last := links_iff.mpr pair
    exact ⟨pair.matched.ordered, pair.fromLow, pair.matched.opens, pair.matched.balanced,
      forth.found⟩
  · intro first last
    have back : tape.Links .leftward last first ↔ tape.Paired first last := links_iff
    exact links_iff.trans back.symm
  · intro first last otherFirst otherLast links otherLinks
    have pair : tape.Paired first last := links_iff.mp links
    have otherPair : tape.Paired otherFirst otherLast := links_iff.mp otherLinks
    exact pair.matched.noncrossing otherPair.matched

end Tape
end OneTape
