/-!
# Numbers on the wire

A natural number is written in groups of seven bits, lowest group first, one
group to a byte; the high bit of a byte says that another group follows.  A
width bounds the number of groups and the value of the last possible one.
Writing uses as few groups as possible, and reading also accepts zero groups
in front of the end.

An integer is written as the natural number that interleaves the nonnegative
integers with the negative ones.
-/

namespace OneTape

/-- Why bytes from the wire cannot be read. -/
inductive WireError where
  | endOfBytes
  | malformedNumber
  | malformedBoolean
  | malformedOption
  | unknownVariant
  deriving DecidableEq

def WireError.message : WireError → String
  | endOfBytes => "Hit the end of buffer, expected more data"
  | malformedNumber =>
      "Found a varint that didn't terminate. Is the usize too big for this platform?"
  | malformedBoolean => "Found a bool that wasn't 0 or 1"
  | malformedOption => "Found an Option discriminant that wasn't 0 or 1"
  | unknownVariant => "Serde Deserialization Error"

namespace Varint

/-- The most groups that a number may have, and the greatest value of the last
of them. -/
structure Width where
  groups : Nat
  lastGroup : Nat
  deriving DecidableEq

/-- Numbers below 2 ^ 64. -/
def word64 : Width := ⟨10, 1⟩

/-- Numbers below 2 ^ 32. -/
def word32 : Width := ⟨5, 15⟩

/-- The number of values that some full groups and the last group can carry. -/
def capacity (lastGroup : Nat) : Nat → Nat
  | 0 => lastGroup + 1
  | groups + 1 => 128 * capacity lastGroup groups

/-- The number of values that a width can carry. -/
def Width.capacity (width : Width) : Nat :=
  Varint.capacity width.lastGroup (width.groups - 1)

theorem capacity_word64 : word64.capacity = 0x10000000000000000 := by decide

theorem capacity_word32 : word32.capacity = 0x100000000 := by decide

/-- Write a number in at most the given number of groups. -/
def writeGroups : Nat → Nat → List UInt8
  | 0, _ => []
  | groups + 1, value =>
      if value < 128 then
        [UInt8.ofNat value]
      else
        UInt8.ofNat (value % 128 + 128) :: writeGroups groups (value / 128)

/-- Read a number of at most the given number of groups. -/
def readGroups (lastGroup : Nat) :
    Nat → List UInt8 → Except WireError (Nat × List UInt8)
  | 0, _ => .error .malformedNumber
  | _ + 1, [] => .error .endOfBytes
  | 1, byte :: rest =>
      if byte.toNat ≤ lastGroup then .ok (byte.toNat, rest)
      else .error .malformedNumber
  | groups + 2, byte :: rest =>
      if byte.toNat < 128 then .ok (byte.toNat, rest)
      else
        match readGroups lastGroup (groups + 1) rest with
        | .ok (higher, rest) => .ok (byte.toNat - 128 + 128 * higher, rest)
        | .error error => .error error

def write (width : Width) (value : Nat) : List UInt8 :=
  writeGroups width.groups value

def read (width : Width) (bytes : List UInt8) :
    Except WireError (Nat × List UInt8) :=
  readGroups width.lastGroup width.groups bytes

theorem readGroups_writeGroups {lastGroup : Nat} (small : lastGroup < 128)
    (groups value : Nat) (fits : value < capacity lastGroup groups)
    (rest : List UInt8) :
    readGroups lastGroup (groups + 1) (writeGroups (groups + 1) value ++ rest) =
      .ok (value, rest) := by
  induction groups generalizing value with
  | zero =>
      unfold capacity at fits
      have bound : value < 128 := by omega
      have toNat_value : (UInt8.ofNat value).toNat = value :=
        UInt8.toNat_ofNat_of_lt (show value < 256 by omega)
      have inLast : value ≤ lastGroup := by omega
      simp [writeGroups, readGroups, bound, toNat_value, inLast]
  | succ groups ih =>
      unfold capacity at fits
      by_cases single : value < 128
      · have toNat_value : (UInt8.ofNat value).toNat = value :=
          UInt8.toNat_ofNat_of_lt (show value < 256 by omega)
        simp [writeGroups, readGroups, single, toNat_value]
      · have toNat_group : (UInt8.ofNat (value % 128 + 128)).toNat = value % 128 + 128 :=
          UInt8.toNat_ofNat_of_lt (show value % 128 + 128 < 256 by omega)
        have followed : ¬ (UInt8.ofNat (value % 128 + 128)).toNat < 128 := by omega
        rw [writeGroups, if_neg single, List.cons_append, readGroups, if_neg followed,
          ih (value / 128) (by omega)]
        simp only [toNat_group, Except.ok.injEq, Prod.mk.injEq, and_true]
        omega

/-- Number the integers 0, -1, 1, -2, 2 and so on. -/
def zigzag : Int → Nat
  | .ofNat magnitude => 2 * magnitude
  | .negSucc magnitude => 2 * magnitude + 1

/-- The integer with a given number. -/
def unzigzag (code : Nat) : Int :=
  if code % 2 = 0 then .ofNat (code / 2) else .negSucc (code / 2)

@[simp]
theorem unzigzag_zigzag (value : Int) : unzigzag (zigzag value) = value := by
  cases value with
  | ofNat magnitude =>
      have even : 2 * magnitude % 2 = 0 := by omega
      have half : 2 * magnitude / 2 = magnitude := by omega
      simp [zigzag, unzigzag, even, half]
  | negSucc magnitude =>
      have odd : (2 * magnitude + 1) % 2 = 1 := by omega
      have half : (2 * magnitude + 1) / 2 = magnitude := by omega
      simp [zigzag, unzigzag, odd, half]

@[simp]
theorem zigzag_unzigzag (code : Nat) : zigzag (unzigzag code) = code := by
  unfold unzigzag
  split
  · show 2 * (code / 2) = code
    omega
  · show 2 * (code / 2) + 1 = code
    omega

end Varint
end OneTape
