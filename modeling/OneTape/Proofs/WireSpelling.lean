import Mathlib.Data.List.Forall2
import OneTape.Proofs.WireReading

/-!
# Spellings on the wire

What is on the wire consists of single bytes and numerals.  A number has many numerals,
because groups of zero may stand in front of its end, so a value has many spellings.
Writing chooses the one in which all numerals are minimal, and every other one is
longer.

A reader accepts certain pieces, single bytes and numerals, and no other bytes.  What a
reader accepts is known once this is known of the parts that it is made of.
-/

namespace OneTape
namespace Varint

/-- The numerals of a number with a bound to the groups.  The last one of all possible
groups has a bound of its own. -/
inductive IsNumeral (lastGroup : Nat) : Nat → Nat → List UInt8 → Prop where
  | last {groups : Nat} {byte : UInt8} (ends : byte.toNat < 128)
      (fits : groups = 0 → byte.toNat ≤ lastGroup) :
      IsNumeral lastGroup (groups + 1) byte.toNat [byte]
  | more {groups value : Nat} {byte : UInt8} {bytes : List UInt8} (goesOn : 128 ≤ byte.toNat)
      (higher : IsNumeral lastGroup groups value bytes) :
      IsNumeral lastGroup (groups + 1) (byte.toNat - 128 + 128 * value) (byte :: bytes)

/-- A numeral does not end in a group of zero, unless this is its only group. -/
def Minimal (numeral : List UInt8) : Prop :=
  numeral.getLast? = some 0 → numeral = [0]

instance (numeral : List UInt8) : Decidable (Minimal numeral) :=
  inferInstanceAs (Decidable (_ → _))

section Numeral

variable {lastGroup groups value : Nat} {bytes : List UInt8}

theorem IsNumeral.ne_nil (numeral : IsNumeral lastGroup groups value bytes) : bytes ≠ [] := by
  cases numeral <;> simp

/-- A numeral is read whatever follows it. -/
theorem IsNumeral.read (numeral : IsNumeral lastGroup groups value bytes) (rest : List UInt8) :
    readGroups lastGroup groups (bytes ++ rest) = .ok (value, rest) := by
  induction numeral with
  | @last groups byte ends fits =>
      cases groups with
      | zero => exact if_pos (fits rfl)
      | succ groups => exact if_pos ends
  | @more groups value byte bytes goesOn higher ih =>
      cases groups with
      | zero => cases higher
      | succ groups =>
          rw [List.cons_append, readGroups, if_neg (Nat.not_lt.mpr goesOn), ih]

/-- Only numerals are read. -/
theorem isNumeral_of_readGroups (small : lastGroup < 128) {rest : List UInt8}
    (read : readGroups lastGroup groups bytes = .ok (value, rest)) :
    ∃ numeral, IsNumeral lastGroup groups value numeral ∧ bytes = numeral ++ rest := by
  induction groups generalizing bytes value rest with
  | zero => cases read
  | succ groups ih =>
      cases bytes with
      | nil => cases read
      | cons byte bytes =>
          cases groups with
          | zero =>
              rw [readGroups] at read
              split at read
              · rename_i fits
                cases read
                exact ⟨[byte], .last (by omega) fun _ => fits, rfl⟩
              · cases read
          | succ groups =>
              rw [readGroups] at read
              split at read
              · rename_i ends
                cases read
                exact ⟨[byte], .last ends (by simp), rfl⟩
              · rename_i goesOn
                split at read
                · rename_i higher later answer
                  cases read
                  obtain ⟨numeral, isNumeral, rfl⟩ := ih answer
                  exact ⟨byte :: numeral, .more (Nat.le_of_not_lt goesOn) isNumeral, rfl⟩
                · cases read

theorem IsNumeral.getLast?_of_zero (numeral : IsNumeral lastGroup groups value bytes)
    (zero : value = 0) : bytes.getLast? = some 0 := by
  induction numeral with
  | @last groups byte ends fits =>
      have isZero : byte = 0 := UInt8.toNat_inj.mp zero
      rw [isZero]
      rfl
  | @more groups value byte bytes goesOn higher ih =>
      have last := ih (by omega)
      rw [List.getLast?_cons, last]
      rfl

theorem IsNumeral.value_of_singleton {byte : UInt8}
    (numeral : IsNumeral lastGroup groups value [byte]) : value = byte.toNat := by
  cases numeral with
  | last => rfl
  | more _ higher => exact absurd rfl higher.ne_nil

theorem capacity_pos (lastGroup groups : Nat) : 0 < capacity lastGroup groups := by
  induction groups with
  | zero => exact Nat.succ_pos lastGroup
  | succ groups ih => exact Nat.mul_pos (by decide) ih

/-- A numeral of bounded groups is the numeral of a bounded number. -/
theorem IsNumeral.lt_capacity (numeral : IsNumeral lastGroup (groups + 1) value bytes) :
    value < capacity lastGroup groups := by
  induction groups generalizing value bytes with
  | zero =>
      cases numeral with
      | last ends fits => exact Nat.lt_succ_of_le (fits rfl)
      | more goesOn higher => cases higher
  | succ groups ih =>
      rw [capacity]
      cases numeral with
      | last ends fits =>
          have positive := capacity_pos lastGroup groups
          omega
      | @more _ higherValue byte _ goesOn higher =>
          have bound := ih higher
          have byteBound := byte.toNat_lt
          omega

theorem minimal_cons_iff {byte : UInt8} (nonempty : bytes ≠ []) :
    Minimal (byte :: bytes) ↔ bytes.getLast? ≠ some 0 := by
  have last : (byte :: bytes).getLast? = bytes.getLast? := List.getLast?_cons_of_ne_nil nonempty
  have long : byte :: bytes ≠ [0] := by
    intro single
    exact nonempty (List.cons.inj single).2
  simp only [Minimal, last, long, imp_false, ne_eq]

/-- The minimal numeral of a number is the one that is written, and all others are
longer. -/
theorem IsNumeral.minimal_or_longer (numeral : IsNumeral lastGroup groups value bytes) :
    (Minimal bytes ∧ bytes = writeGroups groups value) ∨
      (¬ Minimal bytes ∧ (writeGroups groups value).length < bytes.length) := by
  induction numeral with
  | @last groups byte ends fits =>
      refine .inl ⟨?_, ?_⟩
      · intro zero
        simpa using zero
      · rw [writeGroups, if_pos ends, UInt8.ofNat_toNat]
  | @more groups value byte bytes goesOn higher ih =>
      have nonempty := higher.ne_nil
      have bound := byte.toNat_lt
      rw [minimal_cons_iff nonempty, writeGroups]
      by_cases zero : value = 0
      · -- The higher groups are all zero, and none of them is written.
        refine .inr ⟨not_not_intro (higher.getLast?_of_zero zero), ?_⟩
        rw [if_pos (by omega)]
        simpa using List.length_pos_iff.mpr nonempty
      · have lowest : (byte.toNat - 128 + 128 * value) % 128 + 128 = byte.toNat := by omega
        have others : (byte.toNat - 128 + 128 * value) / 128 = value := by omega
        rw [if_neg (by omega), lowest, others, UInt8.ofNat_toNat]
        rcases ih with ⟨minimal, written⟩ | ⟨padded, shorter⟩
        · refine .inl ⟨?_, by rw [← written]⟩
          intro last
          obtain rfl := minimal last
          exact zero higher.value_of_singleton
        · refine .inr ⟨?_, Nat.succ_lt_succ shorter⟩
          intro last
          exact padded fun isZero => absurd isZero last

end Numeral

end Varint

/-- What the bytes on the wire are made of. -/
inductive WirePiece where
  | single (byte : UInt8)
  | numeral (bytes : List UInt8)

namespace WirePiece

def bytes : WirePiece → List UInt8
  | single byte => [byte]
  | numeral bytes => bytes

/-- The bytes of some pieces. -/
def join (pieces : List WirePiece) : List UInt8 :=
  pieces.flatMap bytes

@[simp]
theorem join_nil : join [] = [] := rfl

@[simp]
theorem join_append (first second : List WirePiece) :
    join (first ++ second) = join first ++ join second :=
  List.flatMap_append

@[simp]
theorem join_singleton (piece : WirePiece) : join [piece] = piece.bytes := by
  simp [join]

/-- All numerals among some pieces are minimal. -/
def Minimal (pieces : List WirePiece) : Prop :=
  ∀ bytes, .numeral bytes ∈ pieces → Varint.Minimal bytes

theorem minimal_append_iff {first second : List WirePiece} :
    Minimal (first ++ second) ↔ Minimal first ∧ Minimal second := by
  simp only [Minimal, List.mem_append, or_imp, forall_and]

/-- Pieces that are either minimal and what is written, or padded and longer. -/
def Spends (pieces : List WirePiece) (written : List UInt8) : Prop :=
  (Minimal pieces ∧ join pieces = written) ∨
    (¬ Minimal pieces ∧ written.length < (join pieces).length)

section Spends

variable {pieces first second : List WirePiece} {written firstWritten secondWritten : List UInt8}

theorem spends_nil : Spends [] [] :=
  .inl ⟨fun _ member => absurd member List.not_mem_nil, rfl⟩

theorem spends_single (byte : UInt8) : Spends [.single byte] [byte] := by
  refine .inl ⟨?_, rfl⟩
  intro bytes member
  cases List.mem_singleton.mp member

theorem Spends.append (isFirst : Spends first firstWritten) (isSecond : Spends second secondWritten) :
    Spends (first ++ second) (firstWritten ++ secondWritten) := by
  unfold Spends
  rw [minimal_append_iff, join_append, List.length_append, List.length_append]
  rcases isFirst with ⟨firstMinimal, rfl⟩ | ⟨firstPadded, firstLonger⟩
  · rcases isSecond with ⟨secondMinimal, rfl⟩ | ⟨secondPadded, secondLonger⟩
    · exact .inl ⟨⟨firstMinimal, secondMinimal⟩, rfl⟩
    · exact .inr ⟨fun minimal => secondPadded minimal.2, by omega⟩
  · refine .inr ⟨fun minimal => firstPadded minimal.1, ?_⟩
    rcases isSecond with ⟨-, rfl⟩ | ⟨-, secondLonger⟩ <;> omega

theorem Spends.length_le (spends : Spends pieces written) :
    written.length ≤ (join pieces).length := by
  rcases spends with ⟨-, rfl⟩ | ⟨-, longer⟩
  · exact Nat.le_refl _
  · exact Nat.le_of_lt longer

theorem Spends.eq_iff (spends : Spends pieces written) : join pieces = written ↔ Minimal pieces := by
  rcases spends with ⟨minimal, written⟩ | ⟨padded, longer⟩
  · exact iff_of_true written minimal
  · refine iff_of_false ?_ padded
    rintro rfl
    exact Nat.lt_irrefl _ longer

theorem Spends.longer (spends : Spends pieces written) (differs : join pieces ≠ written) :
    written.length < (join pieces).length := by
  rcases spends with ⟨-, same⟩ | ⟨-, longer⟩
  · exact absurd same differs
  · exact longer

end Spends

end WirePiece

/-- The pieces that spell a number of some width. -/
def Varint.Width.Spells (width : Varint.Width) (value : Nat) (pieces : List WirePiece) : Prop :=
  ∃ numeral, Varint.IsNumeral width.lastGroup width.groups value numeral ∧
    pieces = [.numeral numeral]

theorem Varint.Width.Spells.spends {width : Varint.Width} {value : Nat} {pieces : List WirePiece}
    (spells : width.Spells value pieces) : WirePiece.Spends pieces (Varint.write width value) := by
  obtain ⟨numeral, isNumeral, rfl⟩ := spells
  have single : WirePiece.Minimal [.numeral numeral] ↔ Varint.Minimal numeral := by
    simp [WirePiece.Minimal]
  unfold WirePiece.Spends
  rw [single, WirePiece.join_singleton]
  exact isNumeral.minimal_or_longer

namespace WireReader

variable {α β : Type}

open WirePiece

/-- A reader accepts the bytes of the pieces that spell a value, and no others. -/
def Accepts (reader : WireReader α) (spells : α → List WirePiece → Prop) : Prop :=
  ∀ bytes value rest, reader bytes = .ok (value, rest) ↔
    ∃ pieces, spells value pieces ∧ bytes = join pieces ++ rest

theorem andThen_eq_ok_iff {reader : WireReader α} {next : α → WireReader β}
    {bytes rest : List UInt8} {result : β} :
    andThen reader next bytes = .ok (result, rest) ↔
      ∃ value middle, reader bytes = .ok (value, middle) ∧
        next value middle = .ok (result, rest) := by
  unfold andThen
  cases reader bytes with
  | error error => simp
  | ok taken =>
      obtain ⟨value, middle⟩ := taken
      simp [and_assoc]

section Accepts

variable {reader : WireReader α} {next : α → WireReader β} {spells : α → List WirePiece → Prop}

theorem Accepts.congr {others : α → List WirePiece → Prop} (accepts : Accepts reader spells)
    (same : ∀ value pieces, spells value pieces ↔ others value pieces) : Accepts reader others := by
  intro bytes value rest
  rw [accepts]
  simp only [same]

theorem accepts_give (value : α) :
    Accepts (give value) fun result pieces => result = value ∧ pieces = [] := by
  intro bytes result rest
  simp [give, eq_comm, and_assoc]

theorem accepts_refuse (error : WireError) :
    Accepts (refuse error : WireReader α) fun _ _ => False := by
  intro bytes result rest
  simp [refuse]

theorem Accepts.andThen (accepts : Accepts reader spells) (later : α → β → List WirePiece → Prop)
    (goesOn : ∀ value, Accepts (next value) (later value)) :
    Accepts (andThen reader next) fun result pieces =>
      ∃ value front back, spells value front ∧ later value result back ∧
        pieces = front ++ back := by
  intro bytes result rest
  rw [andThen_eq_ok_iff]
  constructor
  · rintro ⟨value, middle, read, continued⟩
    obtain ⟨front, isFront, rfl⟩ := (accepts _ _ _).mp read
    obtain ⟨back, isBack, rfl⟩ := (goesOn value _ _ _).mp continued
    exact ⟨front ++ back, ⟨value, front, back, isFront, isBack, rfl⟩, by simp⟩
  · rintro ⟨_, ⟨value, front, back, isFront, isBack, rfl⟩, rfl⟩
    refine ⟨value, join back ++ rest, (accepts _ _ _).mpr ⟨front, isFront, by simp⟩, ?_⟩
    exact (goesOn value _ _ _).mpr ⟨back, isBack, rfl⟩

theorem Accepts.convert (accepts : Accepts reader spells) (change : α → β) :
    Accepts (convert change reader) fun result pieces =>
      ∃ value, change value = result ∧ spells value pieces := by
  rw [convert_eq]
  refine (accepts.andThen _ fun value => accepts_give (change value)).congr ?_
  intro result pieces
  constructor
  · rintro ⟨value, front, back, isFront, ⟨rfl, rfl⟩, rfl⟩
    exact ⟨value, rfl, by simpa using isFront⟩
  · rintro ⟨value, rfl, isFront⟩
    exact ⟨value, pieces, [], isFront, ⟨rfl, rfl⟩, by simp⟩

theorem accepts_byte :
    Accepts WireFormat.byte.read fun value pieces => pieces = [.single value] := by
  intro bytes value rest
  cases bytes with
  | nil => simp [WireFormat.byte, WirePiece.bytes]
  | cons byte bytes => simp [WireFormat.byte, WirePiece.bytes, eq_comm]

theorem accepts_number {width : Varint.Width} (small : width.lastGroup < 128) :
    Accepts (Varint.read width) width.Spells := by
  intro bytes value rest
  constructor
  · intro read
    obtain ⟨numeral, isNumeral, rfl⟩ := Varint.isNumeral_of_readGroups small read
    exact ⟨[.numeral numeral], ⟨numeral, isNumeral, rfl⟩, by simp [WirePiece.bytes]⟩
  · rintro ⟨_, ⟨numeral, isNumeral, rfl⟩, rfl⟩
    rw [join_singleton]
    exact isNumeral.read rest

theorem accepts_readMany {format : WireFormat α} (accepts : Accepts format.read spells)
    (count : Nat) (earlier : Array α) :
    Accepts (format.readMany count earlier) fun result pieces =>
      ∃ values parts, values.length = count ∧ result = earlier.toList ++ values ∧
        List.Forall₂ spells values parts ∧ pieces = parts.flatten := by
  induction count generalizing earlier with
  | zero =>
      refine (accepts_give earlier.toList).congr ?_
      intro result pieces
      constructor
      · rintro ⟨rfl, rfl⟩
        exact ⟨[], [], rfl, by simp, .nil, rfl⟩
      · rintro ⟨values, parts, none, rfl, all, rfl⟩
        obtain rfl := List.length_eq_zero_iff.mp none
        cases all
        simp
  | succ count ih =>
      rw [WireFormat.readMany_succ]
      refine (accepts.andThen _ fun value => ih (earlier.push value)).congr ?_
      intro result pieces
      constructor
      · rintro ⟨value, front, _, isFront, ⟨values, parts, rfl, rfl, all, rfl⟩, rfl⟩
        exact ⟨value :: values, front :: parts, rfl, by simp, .cons isFront all, rfl⟩
      · rintro ⟨values, parts, length, rfl, all, rfl⟩
        cases all with
        | nil => cases length
        | cons isFront all =>
            exact ⟨_, _, _, isFront, ⟨_, _, Nat.succ.inj length, by simp, all, rfl⟩, rfl⟩

end Accepts
end WireReader

end OneTape
