/-!
# Numerals

Numbers are written in decimal, bytes in hexadecimal.  A decimal numeral is
read with one optional plus sign and any number of leading zeros, and only if
its value is below a bound.
-/

namespace OneTape
namespace Numeral

/-- The decimal digits of a natural number, without leading zeros. -/
def ofNat (value : Nat) : List Char :=
  Nat.toDigits 10 value

/-- The decimal form of an integer, with a minus sign if it is negative. -/
def ofInt : Int → List Char
  | .ofNat value => ofNat value
  | .negSucc value => '-' :: ofNat (value + 1)

/-- The lowercase hexadecimal digits of a byte, without leading zeros. -/
def hexadecimal (byte : UInt8) : List Char :=
  Nat.toDigits 16 byte.toNat

/-- The two lowercase hexadecimal digits of a byte. -/
def hexadecimalPair (byte : UInt8) : List Char :=
  (hexadecimal byte).leftpad 2 '0'

/-- The value of a sequence of decimal digits. -/
def valueOfDigits (digits : List Char) : Nat :=
  Nat.ofDigitChars 10 digits 0

/-- What is left of a numeral without its optional plus sign. -/
def withoutPlus : List Char → List Char
  | '+' :: digits => digits
  | digits => digits

/-- Read a decimal numeral whose value is below a bound. -/
def readBelow? (bound : Nat) (text : List Char) : Option Nat :=
  let digits := withoutPlus text
  if digits ≠ [] ∧ digits.all Char.isDigit ∧ valueOfDigits digits < bound then
    some (valueOfDigits digits)
  else
    none

@[simp]
theorem valueOfDigits_ofNat (value : Nat) :
    valueOfDigits (ofNat value) = value :=
  Nat.ofDigitChars_toDigits (by decide) (by decide)

theorem ofNat_ne_nil (value : Nat) : ofNat value ≠ [] :=
  List.length_pos_iff.mp Nat.length_toDigits_pos

theorem isDigit_of_mem_ofNat {value : Nat} {char : Char}
    (member : char ∈ ofNat value) : char.isDigit :=
  Nat.isDigit_of_mem_toDigits (by decide) (by decide) member

end Numeral
end OneTape
