import OneTape.Proofs.CommandLineMeaning
import OneTape.Proofs.Words

/-!
# The values of numeric flags

The limit and the end byte are given on the command line by numerals.  A numeral
consists of decimal digits, at least one of them, behind an optional plus sign.
Zeros may lead it, so that its length tells nothing about its value.

A limit is accepted if it is a numeral of a word, and an end byte if it is a numeral
of 0 or of 255.  Everything else is refused, with an error that repeats it.  In
particular a value that is too large is never taken for what its last bits say.  This
is so whether a numeral is read to its end before its value is looked at, or refused
at the digit at which it gets too large.
-/

namespace OneTape
namespace Numeral

/-- The digits, each at the place of its value. -/
def digits : List Char :=
  ['0', '1', '2', '3', '4', '5', '6', '7', '8', '9']

/-- Digits, at least one, and their value. -/
inductive Digits : List Char → Nat → Prop where
  | one {char : Char} {digit : Nat} (isDigit : digits[digit]? = some char) :
      Digits [char] digit
  | more {chars : List Char} {char : Char} {value digit : Nat} (front : Digits chars value)
      (isDigit : digits[digit]? = some char) :
      Digits (chars ++ [char]) (10 * value + digit)

/-- Numerals, which are digits behind an optional plus sign, and their values. -/
inductive Decimal : List Char → Nat → Prop where
  | bare {chars : List Char} {value : Nat} (isDigits : Digits chars value) : Decimal chars value
  | plus {chars : List Char} {value : Nat} (isDigits : Digits chars value) :
      Decimal ('+' :: chars) value

theorem getElem?_digits_iff {char : Char} {digit : Nat} :
    digits[digit]? = some char ↔ char.isDigit ∧ char.toNat - '0'.toNat = digit := by
  constructor
  · intro found
    obtain ⟨inside, rfl⟩ := List.getElem?_eq_some_iff.mp found
    have every : ∀ digit (inside : digit < digits.length),
        digits[digit].isDigit ∧ digits[digit].toNat - '0'.toNat = digit := by decide
    exact every digit inside
  · rintro ⟨isDigit, rfl⟩
    have every : ∀ digit < 10, digits[digit]? = some (Char.ofNat ('0'.toNat + digit)) := by
      decide
    simp only [Char.isDigit, Bool.and_eq_true, decide_eq_true_eq, ge_iff_le] at isDigit
    have least : '0'.toNat ≤ char.toNat := isDigit.1
    have greatest : char.toNat ≤ '9'.toNat := isDigit.2
    have nine : '9'.toNat = '0'.toNat + 9 := rfl
    rw [every _ (by omega), Nat.add_sub_cancel' least, Char.ofNat_toNat]

theorem valueOfDigits_concat (chars : List Char) (char : Char) :
    valueOfDigits (chars ++ [char]) = 10 * valueOfDigits chars + (char.toNat - '0'.toNat) := by
  simp [valueOfDigits, Nat.ofDigitChars]

/-- Digits are what reading looks for, and they have the value that it computes. -/
theorem digits_iff {chars : List Char} {value : Nat} :
    Digits chars value ↔
      chars ≠ [] ∧ chars.all Char.isDigit ∧ valueOfDigits chars = value := by
  constructor
  · intro isDigits
    induction isDigits with
    | one isDigit =>
        obtain ⟨last, rfl⟩ := getElem?_digits_iff.mp isDigit
        refine ⟨List.cons_ne_nil _ _, by simp [last], ?_⟩
        rw [← List.nil_append [_], valueOfDigits_concat]
        exact Nat.zero_add _
    | more front isDigit ih =>
        obtain ⟨-, allDigits, rfl⟩ := ih
        obtain ⟨last, rfl⟩ := getElem?_digits_iff.mp isDigit
        exact ⟨by simp, by simp [allDigits, last], valueOfDigits_concat _ _⟩
  · rintro ⟨nonempty, allDigits, rfl⟩
    induction chars using List.reverseRecOn with
    | nil => exact absurd rfl nonempty
    | append_singleton chars char ih =>
        simp only [List.all_append, List.all_cons, List.all_nil, Bool.and_true,
          Bool.and_eq_true] at allDigits
        have isDigit := getElem?_digits_iff.mpr ⟨allDigits.2, rfl⟩
        rw [valueOfDigits_concat]
        by_cases single : chars = []
        · subst single
          have zero : 10 * valueOfDigits [] = 0 := rfl
          rw [zero, Nat.zero_add]
          exact .one isDigit
        · exact .more (ih single allDigits.1) isDigit

/-- A numeral is digits once its plus sign is gone. -/
theorem decimal_iff {text : List Char} {value : Nat} :
    Decimal text value ↔ Digits (withoutPlus text) value := by
  constructor
  · rintro (isDigits | isDigits)
    · unfold withoutPlus
      split
      · -- A sign is not a digit.
        obtain ⟨-, allDigits, -⟩ := digits_iff.mp isDigits
        cases allDigits
      · exact isDigits
    · exact isDigits
  · unfold withoutPlus
    split
    · exact .plus
    · exact .bare

/-- What is read are the numerals with values below the bound. -/
theorem readBelow?_eq_some_iff {bound : Nat} {text : List Char} {value : Nat} :
    readBelow? bound text = some value ↔ Decimal text value ∧ value < bound := by
  rw [decimal_iff, digits_iff]
  simp only [readBelow?, Option.ite_none_right_eq_some, Option.some.injEq]
  constructor
  · rintro ⟨⟨nonempty, allDigits, below⟩, rfl⟩
    exact ⟨⟨nonempty, allDigits, rfl⟩, below⟩
  · rintro ⟨⟨nonempty, allDigits, rfl⟩, below⟩
    exact ⟨⟨nonempty, allDigits, below⟩, rfl⟩

instance (text : List Char) (value : Nat) : Decidable (Decimal text value) :=
  decidable_of_iff (readBelow? (value + 1) text = some value)
    (readBelow?_eq_some_iff.trans (and_iff_left (Nat.lt_succ_self value)))

/-- What numbers are printed as. -/
theorem decimal_ofNat (value : Nat) : Decimal (ofNat value) value := by
  refine .bare (digits_iff.mpr ⟨ofNat_ne_nil value, ?_, valueOfDigits_ofNat value⟩)
  exact List.all_eq_true.mpr fun _ member => isDigit_of_mem_ofNat member

section Checked

/-- A number, if it is below a bound. -/
def checked? (bound value : Nat) : Option Nat :=
  if value < bound then some value else none

/-- Take one more digit into a total, as long as all numbers on the way fit. -/
def takeDigit? (bound total : Nat) (char : Char) : Option Nat := do
  let tenfold ← checked? bound (10 * total)
  if char.isDigit then checked? bound (tenfold + (char.toNat - '0'.toNat)) else none

/-- Read a numeral digit by digit. -/
def readChecked? (bound : Nat) (text : List Char) : Option Nat :=
  if withoutPlus text = [] then none
  else (withoutPlus text).foldlM (takeDigit? bound) 0

variable {bound : Nat}

theorem takeDigit?_eq_some_iff {total value : Nat} {char : Char} :
    takeDigit? bound total char = some value ↔
      char.isDigit ∧ 10 * total + (char.toNat - '0'.toNat) = value ∧ value < bound := by
  simp only [takeDigit?, checked?, Option.bind_eq_bind, Option.bind_eq_some_iff,
    Option.ite_none_right_eq_some, Option.some.injEq]
  constructor
  · rintro ⟨_, ⟨-, rfl⟩, isDigit, below, rfl⟩
    exact ⟨isDigit, rfl, below⟩
  · rintro ⟨isDigit, rfl, below⟩
    exact ⟨_, ⟨by omega, rfl⟩, isDigit, below, rfl⟩

theorem foldlM_takeDigit?_eq_some_iff (positive : 0 < bound) {chars : List Char} {value : Nat} :
    chars.foldlM (takeDigit? bound) 0 = some value ↔
      chars.all Char.isDigit ∧ valueOfDigits chars = value ∧ value < bound := by
  induction chars using List.reverseRecOn generalizing value with
  | nil =>
      have zero : valueOfDigits [] = 0 := rfl
      simp only [List.foldlM_nil, List.all_nil, zero]
      constructor
      · rintro ⟨⟩
        exact ⟨trivial, rfl, positive⟩
      · rintro ⟨-, rfl, -⟩
        rfl
  | append_singleton chars char ih =>
      simp only [List.foldlM_append, List.foldlM_cons, List.foldlM_nil, bind_pure,
        Option.bind_eq_bind, Option.bind_eq_some_iff, takeDigit?_eq_some_iff, ih,
        List.all_append, List.all_cons, List.all_nil, Bool.and_true, Bool.and_eq_true,
        valueOfDigits_concat]
      constructor
      · rintro ⟨_, ⟨front, rfl, -⟩, last, value, below⟩
        exact ⟨⟨front, last⟩, value, below⟩
      · -- The total before the last digit is not greater than the value.
        rintro ⟨⟨front, last⟩, rfl, below⟩
        exact ⟨_, ⟨front, rfl, by omega⟩, last, rfl, below⟩

/-- A numeral is refused on the way if and only if its value is not below the bound. -/
theorem readChecked?_eq_readBelow? (positive : 0 < bound) (text : List Char) :
    readChecked? bound text = readBelow? bound text := by
  apply Option.ext
  intro value
  rw [readBelow?_eq_some_iff, decimal_iff, digits_iff]
  unfold readChecked?
  by_cases empty : withoutPlus text = []
  · simp [empty]
  · simp only [empty, if_false, foldlM_takeDigit?_eq_some_iff positive]
    tauto

end Checked
end Numeral

theorem EndByte.ofByte?_eq_some_iff {byte : UInt8} {endByte : EndByte} :
    ofByte? byte = some endByte ↔ endByte.toByte = byte := by
  constructor
  · intro found
    have same := List.find?_some found
    exact eq_of_beq same
  · rintro rfl
    exact ofByte?_toByte endByte

theorem EndByte.exists_iff {property : EndByte → Prop} :
    (∃ endByte, property endByte) ↔ property .zero ∨ property .max := by
  constructor
  · rintro ⟨_ | _, holds⟩
    · exact .inl holds
    · exact .inr holds
  · rintro (holds | holds)
    · exact ⟨_, holds⟩
    · exact ⟨_, holds⟩

namespace Invocation

open Numeral

theorem limit?_eq_some_iff {value : String} {limit : Nat} :
    limit? value = some limit ↔ Decimal value.toList limit ∧ IsWord limit :=
  readBelow?_eq_some_iff

theorem endByte?_eq_some_iff {value : String} {endByte : EndByte} :
    endByte? value = some endByte ↔ Decimal value.toList endByte.toByte.toNat := by
  simp only [endByte?, Option.bind_eq_some_iff, readBelow?_eq_some_iff,
    EndByte.ofByte?_eq_some_iff]
  constructor
  · rintro ⟨number, ⟨decimal, below⟩, same⟩
    rwa [same, UInt8.toNat_ofNat_of_lt' below]
  · intro decimal
    exact ⟨_, ⟨decimal, endByte.toByte.toNat_lt⟩, UInt8.ofNat_toNat.symm⟩

theorem limit?_eq_none_iff {value : String} :
    limit? value = none ↔ ¬ ∃ limit, Decimal value.toList limit ∧ IsWord limit := by
  simp only [Option.eq_none_iff_forall_ne_some, ne_eq, limit?_eq_some_iff, not_exists]

theorem endByte?_eq_none_iff {value : String} :
    endByte? value = none ↔ ¬ ∃ endByte : EndByte, Decimal value.toList endByte.toByte.toNat := by
  simp only [Option.eq_none_iff_forall_ne_some, ne_eq, endByte?_eq_some_iff, not_exists]

section Flag

variable {before : List String} {invocation next : Invocation} {value : String}

theorem add_limit_eq_ok_iff :
    invocation.add (.limit value) = .ok next ↔
      ∃ limit, Decimal value.toList limit ∧ IsWord limit ∧
        next = { invocation with options := { invocation.options with limit } } := by
  simp only [← and_assoc, ← limit?_eq_some_iff, add]
  cases limit? value <;> simp [eq_comm]

theorem add_endByte_eq_ok_iff :
    invocation.add (.endByte value) = .ok next ↔
      ∃ endByte : EndByte, Decimal value.toList endByte.toByte.toNat ∧
        next = { invocation with options := { invocation.options with endByte } } := by
  simp only [← endByte?_eq_some_iff, add]
  cases endByte? value <;> simp [eq_comm]

/-- A flag behind accepted arguments is added to what they ask for. -/
theorem parse_flag (accepted : parse before = .ok invocation) {kind : Argument} {flag : String}
    (spelled : Argument.SpelledAs kind flag) :
    parse (before ++ [flag]) = invocation.add kind := by
  rw [parse_concat, accepted, spelled.ofString_eq]
  rfl

/-- A flag that is refused decides the error. -/
theorem parse_flag_of_refused (accepted : parse before = .ok invocation) {kind : Argument}
    {flag : String} (spelled : Argument.SpelledAs kind flag) {error : UsageError}
    (offends : Offends (kinds before) kind error) (after : List String) :
    parse (before ++ flag :: after) = .error error := by
  obtain ⟨consistent, -⟩ := parse_eq_ok_iff.mp accepted
  rw [← spelled.ofString_eq] at offends
  exact parse_of_offends consistent offends after

end Flag

/-- A limit is accepted exactly if it is a numeral of a word, and an end byte exactly
if it is a numeral of 0 or of 255, and then it is what the invocation asks for.  Every
other value is refused with an error that repeats it, whatever arguments follow.  So
each word can be given as a limit in the way it is printed. -/
theorem flag_values_exact {before : List String} {invocation : Invocation}
    (accepted : parse before = .ok invocation) (value : String) :
    (∀ next, parse (before ++ ["--limit=" ++ value]) = .ok next ↔
      ∃ limit, Decimal value.toList limit ∧ IsWord limit ∧
        next = { invocation with options := { invocation.options with limit } }) ∧
    ((¬ ∃ limit, Decimal value.toList limit ∧ IsWord limit) →
      ∀ after, parse (before ++ ("--limit=" ++ value) :: after) =
        .error (.invalidLimit value)) ∧
    (∀ next, parse (before ++ ["--eof=" ++ value]) = .ok next ↔
      (Decimal value.toList 0 ∧
        next = { invocation with options := { invocation.options with endByte := .zero } }) ∨
      (Decimal value.toList 255 ∧
        next = { invocation with options := { invocation.options with endByte := .max } })) ∧
    (¬ (Decimal value.toList 0 ∨ Decimal value.toList 255) →
      ∀ after, parse (before ++ ("--eof=" ++ value) :: after) =
        .error (.invalidEndByte value)) ∧
    ∀ limit, IsWord limit →
      parse (before ++ ["--limit=" ++ String.ofList (ofNat limit)]) =
        .ok { invocation with options := { invocation.options with limit } } := by
  refine ⟨?_, ?_, ?_, ?_, ?_⟩
  · intro next
    rw [parse_flag accepted (.limit value)]
    exact add_limit_eq_ok_iff
  · intro refused after
    have unread := limit?_eq_none_iff.mpr refused
    exact parse_flag_of_refused accepted (.limit value) (.limit unread) after
  · intro next
    rw [parse_flag accepted (.endByte value)]
    exact add_endByte_eq_ok_iff.trans EndByte.exists_iff
  · intro refused after
    have unread := endByte?_eq_none_iff.mpr (mt EndByte.exists_iff.mp refused)
    exact parse_flag_of_refused accepted (.endByte value) (.endByte unread) after
  · intro limit isWord
    rw [parse_flag accepted (.limit _)]
    refine add_limit_eq_ok_iff.mpr ⟨limit, ?_, isWord, rfl⟩
    rw [String.toList_ofList]
    exact decimal_ofNat limit

/-- Zeros may lead a value.  A value of nine bits is not that of its last eight. -/
theorem flag_values_exact_zeros :
    parse ["--raw"] = .ok { options := { decodeEscapes := false } } ∧
      parse ["--raw", "--limit=+007"] =
        .ok { options := { decodeEscapes := false, limit := 7 } } ∧
      parse ["--raw", "--eof=000000255"] =
        .ok { options := { decodeEscapes := false, endByte := .max } } ∧
      parse ["--raw", "--eof=511", "--help"] = .error (.invalidEndByte "511") ∧
      parse ["--raw", "--limit=18446744073709551615"] =
        .ok { options := { decodeEscapes := false, limit := 0xFFFFFFFFFFFFFFFF } } := by
  have accepted : parse ["--raw"] = .ok { options := { decodeEscapes := false } } := by decide
  obtain ⟨limits, -, -, -, printed⟩ := flag_values_exact accepted "+007"
  obtain ⟨-, -, endBytes, -, -⟩ := flag_values_exact accepted "000000255"
  obtain ⟨-, -, -, refused, -⟩ := flag_values_exact accepted "511"
  refine ⟨accepted, ?_, ?_, ?_, ?_⟩
  · exact (limits _).mpr ⟨7, by decide, by decide, rfl⟩
  · exact (endBytes _).mpr (.inr ⟨by decide, rfl⟩)
  · exact refused (by decide) ["--help"]
  · exact printed 0xFFFFFFFFFFFFFFFF (by decide)

end Invocation
end OneTape
