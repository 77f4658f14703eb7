/-!
# Words of 64 bits

Addresses are integers and counts are natural numbers, and neither have bounds.
Where they are stored or sent they have to be words of 64 bits, and a difference
of two of them need not be a word again.
-/

namespace OneTape

/-- Numbers of 64 bits. -/
def IsWord (value : Nat) : Prop :=
  value < 0x10000000000000000

/-- Integers of 64 bits, one of which is the sign. -/
def IsSignedWord (value : Int) : Prop :=
  -0x8000000000000000 ≤ value ∧ value < 0x8000000000000000

instance (value : Nat) : Decidable (IsWord value) :=
  inferInstanceAs (Decidable (_ < _))

instance (value : Int) : Decidable (IsSignedWord value) :=
  inferInstanceAs (Decidable (_ ∧ _))

/-- The difference of two addresses, provided that it is a signed word. -/
def signedDifference? (first second : Int) : Option Int :=
  if IsSignedWord (first - second) then some (first - second) else none

end OneTape
