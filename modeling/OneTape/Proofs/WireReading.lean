import OneTape.WireFormat

/-!
# How values are read off the wire

All readers of wire formats are made in one way: a value is read, and decides how
reading goes on with the bytes behind it.  Two properties pass from the parts of
a reader to the whole.

An answer is determined by the bytes that lead to it.  Only a reader that has come
to the end of its bytes may give another answer when there are more of them.

A value is taken off its own bytes whatever follows them.  Together with the first
property this tells what happens if these bytes are cut short: the reader comes to
their end, and says so.
-/

namespace OneTape

abbrev WireReader (α : Type) := List UInt8 → WireResult α

namespace WireReader

variable {α β : Type}

/-- Answer with a value without reading anything. -/
def give (value : α) : WireReader α := fun bytes => .ok (value, bytes)

def refuse (error : WireError) : WireReader α := fun _ => .error error

/-- Read a value, and go on with the bytes behind it. -/
def andThen (reader : WireReader α) (next : α → WireReader β) : WireReader β := fun bytes =>
  match reader bytes with
  | .error error => .error error
  | .ok (value, rest) => next value rest

def convert (change : α → β) (reader : WireReader α) : WireReader β := fun bytes =>
  (reader bytes).map (Prod.map change id)

theorem convert_eq (change : α → β) (reader : WireReader α) :
    convert change reader = andThen reader fun value => give (change value) := by
  funext bytes
  unfold convert andThen
  cases reader bytes <;> rfl

/-- More bytes change an answer only if the reader has come to the end of the
bytes.  They are left over behind what was left over before. -/
def Determined (reader : WireReader α) : Prop :=
  ∀ bytes more, reader bytes ≠ .error .endOfBytes →
    reader (bytes ++ more) = (reader bytes).map (Prod.map id (· ++ more))

/-- A value is read off some bytes, whatever follows them. -/
def Takes (reader : WireReader α) (bytes : List UInt8) (value : α) : Prop :=
  ∀ rest, reader (bytes ++ rest) = .ok (value, rest)

section Determined

theorem determined_give (value : α) : Determined (give value) := fun _ _ _ => rfl

theorem determined_refuse (error : WireError) :
    Determined (refuse error : WireReader α) := fun _ _ _ => rfl

theorem Determined.andThen {reader : WireReader α} {next : α → WireReader β}
    (first : Determined reader) (second : ∀ value, Determined (next value)) :
    Determined (andThen reader next) := by
  intro bytes more goesOn
  unfold WireReader.andThen at goesOn ⊢
  -- The end may be found by the first reader or by the second.
  have continues : reader bytes ≠ .error .endOfBytes := by
    intro ended
    rw [ended] at goesOn
    exact goesOn rfl
  rw [first bytes more continues]
  cases answer : reader bytes with
  | error error => rfl
  | ok taken =>
      rw [answer] at goesOn
      exact second taken.1 taken.2 more goesOn

theorem Determined.convert {reader : WireReader α} (determined : Determined reader)
    (change : α → β) : Determined (convert change reader) := by
  rw [convert_eq]
  exact determined.andThen fun _ => determined_give _

end Determined

section Takes

theorem takes_give (value : α) : Takes (give value) [] value := fun _ => rfl

theorem Takes.andThen {reader : WireReader α} {next : α → WireReader β}
    {first second : List UInt8} {value : α} {result : β} (takes : Takes reader first value)
    (goesOn : Takes (next value) second result) :
    Takes (andThen reader next) (first ++ second) result := by
  intro rest
  rw [List.append_assoc, WireReader.andThen, takes (second ++ rest)]
  exact goesOn rest

theorem Takes.convert {reader : WireReader α} {bytes : List UInt8} {value : α}
    (takes : Takes reader bytes value) (change : α → β) :
    Takes (convert change reader) bytes (change value) := by
  rw [convert_eq, ← List.append_nil bytes]
  exact takes.andThen (takes_give _)

/-- Without its last bytes, nothing but the end is found where a value was. -/
theorem Takes.cut {reader : WireReader α} {bytes front : List UInt8} {value : α}
    (takes : Takes reader bytes value) (determined : Determined reader)
    (isFront : front <+: bytes) (isCut : front ≠ bytes) : reader front = .error .endOfBytes := by
  obtain ⟨back, rfl⟩ := isFront
  have whole := takes []
  rw [List.append_nil] at whole
  -- Any other answer would stand for the whole too, with the missing bytes left over.
  cases answer : reader front with
  | error error =>
      by_cases ended : error = .endOfBytes
      · rw [ended]
      · have same := determined front back (by simpa [answer] using ended)
        rw [whole, answer] at same
        cases same
  | ok taken =>
      have same := determined front back (by simp [answer])
      rw [whole, answer] at same
      have leftOver : taken.2 ++ back = [] :=
        (congrArg Prod.snd (Except.ok.inj same)).symm
      have nothing : back = [] := (List.append_eq_nil_iff.mp leftOver).2
      exact absurd (by rw [nothing, List.append_nil]) isCut

end Takes
end WireReader

open WireReader

section Numbers

open Varint

theorem determined_byte : Determined WireFormat.byte.read := by
  intro bytes more goesOn
  cases bytes with
  | nil => exact absurd rfl goesOn
  | cons value rest => rfl

theorem takes_byte (value : UInt8) : Takes WireFormat.byte.read [value] value := fun _ => rfl

/-- A group says whether it is the last one, unless no further group is possible. -/
theorem readGroups_one (lastGroup : Nat) :
    readGroups lastGroup 1 = andThen WireFormat.byte.read fun byte =>
      if byte.toNat ≤ lastGroup then give byte.toNat else refuse .malformedNumber := by
  funext bytes
  cases bytes with
  | nil => rfl
  | cons byte rest =>
      simp only [readGroups, andThen, WireFormat.byte]
      split <;> rfl

theorem readGroups_succ_succ (lastGroup groups : Nat) :
    readGroups lastGroup (groups + 2) = andThen WireFormat.byte.read fun byte =>
      if byte.toNat < 128 then give byte.toNat
      else convert (byte.toNat - 128 + 128 * ·) (readGroups lastGroup (groups + 1)) := by
  funext bytes
  cases bytes with
  | nil => rfl
  | cons byte rest =>
      simp only [readGroups, andThen, WireFormat.byte]
      split
      · rfl
      · simp only [convert]
        cases readGroups lastGroup (groups + 1) rest <;> rfl

theorem determined_readGroups (lastGroup groups : Nat) :
    Determined (readGroups lastGroup (groups + 1)) := by
  induction groups with
  | zero =>
      rw [readGroups_one]
      refine determined_byte.andThen fun byte => ?_
      split
      · exact determined_give _
      · exact determined_refuse _
  | succ groups ih =>
      rw [readGroups_succ_succ]
      refine determined_byte.andThen fun byte => ?_
      split
      · exact determined_give _
      · exact ih.convert _

theorem determined_word32 : Determined (Varint.read word32) := determined_readGroups 15 4

theorem determined_word64 : Determined (Varint.read word64) := determined_readGroups 1 9

theorem takes_word32 {value : Nat} (fits : value < word32.capacity) :
    Takes (Varint.read word32) (Varint.write word32 value) value :=
  readGroups_writeGroups (by decide) 4 value fits

theorem takes_word64 {value : Nat} (fits : value < word64.capacity) :
    Takes (Varint.read word64) (Varint.write word64 value) value :=
  readGroups_writeGroups (by decide) 9 value fits

end Numbers

namespace WireFormat

variable {α β : Type}

section Readers

/-! The readers of the formats, put together from their parts. -/

theorem read_boolean :
    boolean.read = andThen byte.read fun value =>
      if value = 0 then give false else if value = 1 then give true
      else refuse .malformedBoolean := by
  funext bytes
  cases bytes with
  | nil => rfl
  | cons value rest =>
      simp only [boolean, andThen, byte]
      split
      · rfl
      · split <;> rfl

theorem read_pair (first : WireFormat α) (second : WireFormat β) :
    (pair first second).read = andThen first.read fun value => convert (value, ·) second.read :=
  rfl

theorem read_optional (format : WireFormat α) :
    (optional format).read = andThen byte.read fun tag =>
      if tag = 0 then give none else if tag = 1 then convert some format.read
      else refuse .malformedOption := by
  funext bytes
  cases bytes with
  | nil => rfl
  | cons tag rest =>
      simp only [optional, andThen, byte]
      split
      · rfl
      · split <;> rfl

theorem read_oneOf [DecidableEq α] (members : List α) :
    (oneOf members).read = andThen (Varint.read Varint.word32) fun index =>
      match members[index]? with
      | some value => give value
      | none => refuse .unknownVariant := by
  funext bytes
  simp only [oneOf, andThen]
  cases Varint.read Varint.word32 bytes with
  | error error => rfl
  | ok taken =>
      dsimp only
      cases members[taken.1]? <;> rfl

theorem read_either (first : WireFormat α) (second : WireFormat β) :
    (either first second).read = andThen (Varint.read Varint.word32) fun
      | 0 => convert .inl first.read
      | 1 => convert .inr second.read
      | _ + 2 => refuse .unknownVariant := by
  funext bytes
  simp only [either, andThen]
  cases Varint.read Varint.word32 bytes with
  | error error => rfl
  | ok taken =>
      obtain ⟨index, rest⟩ := taken
      match index with
      | 0 | 1 | _ + 2 => rfl

theorem readMany_succ (format : WireFormat α) (count : Nat) (values : Array α) :
    format.readMany (count + 1) values =
      andThen format.read fun value => format.readMany count (values.push value) := by
  funext bytes
  cases answer : format.read bytes <;> simp only [readMany, andThen, answer]

theorem read_list (format : WireFormat α) :
    (list format).read =
      andThen (Varint.read Varint.word64) fun count => format.readMany count #[] := by
  funext bytes
  cases answer : Varint.read Varint.word64 bytes <;> simp only [list, andThen, answer]

end Readers

section Determined

theorem determined_unit : Determined unit.read := determined_give ()

theorem determined_boolean : Determined boolean.read := by
  rw [read_boolean]
  refine determined_byte.andThen fun value => ?_
  split
  · exact determined_give _
  · split
    · exact determined_give _
    · exact determined_refuse _

variable {first : WireFormat α} {second : WireFormat β} {format : WireFormat α}

theorem determined_map (determined : Determined format.read) (pack : α → β) (unpack : β → α) :
    Determined (format.map pack unpack).read :=
  determined.convert pack

theorem determined_integer : Determined integer.read :=
  determined_map determined_word64 Varint.unzigzag Varint.zigzag

theorem determined_pair (isFirst : Determined first.read) (isSecond : Determined second.read) :
    Determined (pair first second).read := by
  rw [read_pair]
  exact isFirst.andThen fun _ => isSecond.convert _

theorem determined_optional (determined : Determined format.read) :
    Determined (optional format).read := by
  rw [read_optional]
  refine determined_byte.andThen fun tag => ?_
  split
  · exact determined_give _
  · split
    · exact determined.convert _
    · exact determined_refuse _

theorem determined_oneOf [DecidableEq α] (members : List α) :
    Determined (oneOf members).read := by
  rw [read_oneOf]
  refine determined_word32.andThen fun index => ?_
  split
  · exact determined_give _
  · exact determined_refuse _

theorem determined_either (isFirst : Determined first.read)
    (isSecond : Determined second.read) : Determined (either first second).read := by
  rw [read_either]
  refine determined_word32.andThen fun index => ?_
  split
  · exact isFirst.convert _
  · exact isSecond.convert _
  · exact determined_refuse _

theorem determined_readMany (determined : Determined format.read) (count : Nat)
    (values : Array α) : Determined (format.readMany count values) := by
  induction count generalizing values with
  | zero => exact determined_give _
  | succ count ih =>
      rw [readMany_succ]
      exact determined.andThen fun value => ih (values.push value)

theorem determined_list (determined : Determined format.read) :
    Determined (list format).read := by
  rw [read_list]
  exact determined_word64.andThen fun count => determined_readMany determined count #[]

end Determined

section Returns

/-- What is written for a value is read as this value again, whatever follows. -/
def Returns (format : WireFormat α) (value : α) : Prop :=
  Takes format.read (format.write value) value

theorem returns_unit (value : Unit) : unit.Returns value := takes_give ()

theorem returns_byte (value : UInt8) : byte.Returns value := takes_byte value

theorem returns_boolean (value : Bool) : boolean.Returns value := by
  cases value <;> exact fun _ => rfl

theorem returns_word64 {value : Nat} (fits : value < Varint.word64.capacity) :
    (number Varint.word64).Returns value :=
  takes_word64 fits

variable {first : WireFormat α} {second : WireFormat β} {format : WireFormat α}

theorem Returns.map {pack : α → β} {unpack : β → α} {value : β}
    (returns : format.Returns (unpack value)) (inverse : pack (unpack value) = value) :
    (format.map pack unpack).Returns value := by
  have taken := Takes.convert returns pack
  rw [inverse] at taken
  exact taken

theorem returns_integer {value : Int} (fits : Varint.zigzag value < Varint.word64.capacity) :
    integer.Returns value :=
  (returns_word64 fits).map (Varint.unzigzag_zigzag value)

theorem Returns.pair {values : α × β} (isFirst : first.Returns values.1)
    (isSecond : second.Returns values.2) : (pair first second).Returns values := by
  rw [Returns, read_pair]
  exact Takes.andThen isFirst (Takes.convert isSecond _)

theorem returns_optional {value : Option α}
    (returns : ∀ content ∈ value, format.Returns content) : (optional format).Returns value := by
  rw [Returns, read_optional]
  cases value with
  | none => exact (takes_byte 0).andThen (takes_give none)
  | some content => exact (takes_byte 1).andThen (Takes.convert (returns content rfl) some)

theorem returns_oneOf [DecidableEq α] {members : List α} {value : α} (member : value ∈ members)
    (few : members.length ≤ Varint.word32.capacity) : (oneOf members).Returns value := by
  have position := List.idxOf_lt_length_of_mem member
  have found : members[members.idxOf value]? = some value := by
    rw [List.getElem?_eq_getElem position, List.getElem_idxOf]
  have taken := takes_word32 (Nat.lt_of_lt_of_le position few)
  rw [Returns, read_oneOf]
  rw [← List.append_nil ((oneOf members).write value)]
  refine taken.andThen ?_
  rw [found]
  exact takes_give value

theorem returns_either {value : α ⊕ β} (isFirst : ∀ content, value = .inl content →
    first.Returns content) (isSecond : ∀ content, value = .inr content → second.Returns content) :
    (either first second).Returns value := by
  rw [Returns, read_either]
  cases value with
  | inl content =>
      exact (takes_word32 (by decide)).andThen (Takes.convert (isFirst content rfl) Sum.inl)
  | inr content =>
      exact (takes_word32 (by decide)).andThen (Takes.convert (isSecond content rfl) Sum.inr)

theorem takes_readMany {values : List α} (returns : ∀ value ∈ values, format.Returns value)
    (earlier : Array α) :
    Takes (format.readMany values.length earlier) (values.flatMap format.write)
      (earlier.toList ++ values) := by
  induction values generalizing earlier with
  | nil =>
      rw [List.append_nil]
      exact takes_give earlier.toList
  | cons value values ih =>
      -- The values read so far grow by this one, so the induction is for all of them.
      have later := ih (fun other member => returns other (List.mem_cons_of_mem _ member))
        (earlier.push value)
      rw [Array.toList_push, List.append_assoc] at later
      rw [List.length_cons, readMany_succ, List.flatMap_cons]
      exact Takes.andThen (returns value List.mem_cons_self) later

theorem returns_list {values : List α} (short : values.length < Varint.word64.capacity)
    (returns : ∀ value ∈ values, format.Returns value) : (list format).Returns values := by
  rw [Returns, read_list]
  exact (takes_word64 short).andThen (takes_readMany returns #[])

end Returns
end WireFormat
end OneTape
