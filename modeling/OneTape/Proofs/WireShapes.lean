import OneTape.Proofs.WireRoundTrip
import OneTape.Proofs.WireSpelling

/-!
# Shapes of wire formats

The formats of the records are put together from a few building blocks.  A shape is the
syntax of that, and says which pieces spell a value.  By induction on the shape, its
format reads exactly the spellings of a value, and writes the shortest of them, in which
all numerals are minimal.

So the same record can arrive in many forms, but it leaves in one.
-/

namespace OneTape

/-- How the formats of the records are put together. -/
inductive WireShape : Type → Type 1 where
  | unit : WireShape Unit
  | byte : WireShape UInt8
  | boolean : WireShape Bool
  | number : WireShape Nat
  | map {α β : Type} (shape : WireShape α) (pack : α → β) (unpack : β → α)
      (inverse : ∀ value, unpack (pack value) = value) : WireShape β
  | pair {α β : Type} (first : WireShape α) (second : WireShape β) : WireShape (α × β)
  | optional {α : Type} (shape : WireShape α) : WireShape (Option α)
  | oneOf {α : Type} [DecidableEq α] (members : List α) (distinct : members.Nodup)
      (few : members.length ≤ Varint.word32.capacity) : WireShape α
  | either {α β : Type} (first : WireShape α) (second : WireShape β) : WireShape (α ⊕ β)
  | list {α : Type} (shape : WireShape α) : WireShape (List α)

namespace WireShape

open Varint WireReader

/-- The format of a shape. -/
def format : {α : Type} → WireShape α → WireFormat α
  | _, unit => .unit
  | _, byte => .byte
  | _, boolean => .boolean
  | _, number => .number word64
  | _, map shape pack unpack _ => shape.format.map pack unpack
  | _, pair first second => .pair first.format second.format
  | _, optional shape => .optional shape.format
  | _, oneOf members _ _ => .oneOf members
  | _, either first second => .either first.format second.format
  | _, list shape => .list shape.format

/-- The pieces that spell a value. -/
def Spells : {α : Type} → WireShape α → α → List WirePiece → Prop
  | _, unit, _, pieces => pieces = []
  | _, byte, value, pieces => pieces = [.single value]
  | _, boolean, value, pieces => pieces = [.single (if value then 1 else 0)]
  | _, number, value, pieces => word64.Spells value pieces
  | _, map shape pack _ _, value, pieces => ∃ content, pack content = value ∧ shape.Spells content pieces
  | _, pair first second, (value, other), pieces =>
      ∃ front back, first.Spells value front ∧ second.Spells other back ∧ pieces = front ++ back
  | _, optional _, none, pieces => pieces = [.single 0]
  | _, optional shape, some content, pieces =>
      ∃ back, shape.Spells content back ∧ pieces = [.single 1] ++ back
  | _, oneOf members _ _, value, pieces =>
      ∃ index, members[index]? = some value ∧ word32.Spells index pieces
  | _, either first _, .inl content, pieces =>
      ∃ front back, word32.Spells 0 front ∧ first.Spells content back ∧ pieces = front ++ back
  | _, either _ second, .inr content, pieces =>
      ∃ front back, word32.Spells 1 front ∧ second.Spells content back ∧ pieces = front ++ back
  | _, list shape, values, pieces =>
      ∃ front parts, word64.Spells values.length front ∧ List.Forall₂ shape.Spells values parts ∧
        pieces = front ++ parts.flatten

section Accepts

variable {α β : Type} {first shape : WireShape α} {second : WireShape β}

theorem accepts_word32 : Accepts (Varint.read word32) word32.Spells :=
  accepts_number (by decide)

theorem accepts_word64 : Accepts (Varint.read word64) word64.Spells :=
  accepts_number (by decide)

theorem accepts_boolean : Accepts boolean.format.read boolean.Spells := by
  rw [format, WireFormat.read_boolean]
  refine (accepts_byte.andThen
    (fun byte value pieces => byte = (if value then 1 else 0) ∧ pieces = [])
    fun byte => ?_).congr ?_
  · split
    · rename_i zero
      refine (accepts_give false).congr fun value pieces => ?_
      cases value <;> simp [zero]
    · rename_i nonzero
      split
      · rename_i one
        refine (accepts_give true).congr fun value pieces => ?_
        cases value <;> simp [one]
      · rename_i other
        refine (accepts_refuse _).congr fun value pieces => ?_
        cases value <;> simp [nonzero, other]
  · intro value pieces
    simp [Spells]

theorem accepts_pair (isFirst : Accepts first.format.read first.Spells)
    (isSecond : Accepts second.format.read second.Spells) :
    Accepts (first.pair second).format.read (first.pair second).Spells := by
  rw [format, WireFormat.read_pair]
  refine (isFirst.andThen _ fun value => isSecond.convert _).congr ?_
  rintro ⟨value, other⟩ pieces
  simp [Spells]

theorem accepts_optional (content : Accepts shape.format.read shape.Spells) :
    Accepts shape.optional.format.read shape.optional.Spells := by
  rw [format, WireFormat.read_optional]
  refine (accepts_byte.andThen
    (fun tag value pieces => (tag = 0 ∧ value = none ∧ pieces = []) ∨
      (tag = 1 ∧ ∃ content, some content = value ∧ shape.Spells content pieces))
    fun tag => ?_).congr ?_
  · split
    · rename_i zero
      exact (accepts_give _).congr fun value pieces => by simp [zero]
    · rename_i nonzero
      split
      · rename_i one
        exact (content.convert _).congr fun value pieces => by simp [one]
      · rename_i other
        exact (accepts_refuse _).congr fun value pieces => by simp [nonzero, other]
  · intro value pieces
    cases value <;> simp [Spells]

theorem accepts_oneOf [DecidableEq α] (members : List α) :
    Accepts (WireFormat.oneOf members).read fun value pieces =>
      ∃ index, members[index]? = some value ∧ word32.Spells index pieces := by
  rw [WireFormat.read_oneOf]
  refine (accepts_word32.andThen
    (fun index value pieces => members[index]? = some value ∧ pieces = [])
    fun index => ?_).congr ?_
  · split
    · rename_i found
      exact (accepts_give _).congr fun value pieces => by simp [found, eq_comm]
    · rename_i missing
      exact (accepts_refuse _).congr fun value pieces => by simp [missing]
  · intro value pieces
    simp [and_comm]

theorem accepts_either (isFirst : Accepts first.format.read first.Spells)
    (isSecond : Accepts second.format.read second.Spells) :
    Accepts (first.either second).format.read (first.either second).Spells := by
  rw [format, WireFormat.read_either]
  refine (accepts_word32.andThen
    (fun index value pieces =>
      (index = 0 ∧ ∃ content, Sum.inl content = value ∧ first.Spells content pieces) ∨
        (index = 1 ∧ ∃ content, Sum.inr content = value ∧ second.Spells content pieces))
    fun index => ?_).congr ?_
  · split
    · exact (isFirst.convert _).congr fun value pieces => by simp
    · exact (isSecond.convert _).congr fun value pieces => by simp
    · exact (accepts_refuse _).congr fun value pieces => by simp
  · intro value pieces
    cases value <;> simp [Spells]

theorem accepts_list (item : Accepts shape.format.read shape.Spells) :
    Accepts shape.list.format.read shape.list.Spells := by
  rw [format, WireFormat.read_list]
  refine (accepts_word64.andThen _ fun count => accepts_readMany item count #[]).congr ?_
  intro values pieces
  simp [Spells]

/-- A format reads the spellings of its values. -/
theorem accepts (shape : WireShape α) : Accepts shape.format.read shape.Spells := by
  induction shape with
  | unit => exact (accepts_give ()).congr fun value pieces => by simp [Spells]
  | byte => exact accepts_byte
  | boolean => exact accepts_boolean
  | number => exact accepts_word64
  | map shape pack unpack inverse content => exact content.convert pack
  | pair first second isFirst isSecond => exact accepts_pair isFirst isSecond
  | optional shape content => exact accepts_optional content
  | oneOf members distinct few => exact accepts_oneOf members
  | either first second isFirst isSecond => exact accepts_either isFirst isSecond
  | list shape item => exact accepts_list item

end Accepts

theorem determined {α : Type} (shape : WireShape α) : Determined shape.format.read := by
  induction shape with
  | unit => exact WireFormat.determined_unit
  | byte => exact determined_byte
  | boolean => exact WireFormat.determined_boolean
  | number => exact determined_word64
  | map shape pack unpack inverse content => exact WireFormat.determined_map content pack unpack
  | pair first second isFirst isSecond => exact WireFormat.determined_pair isFirst isSecond
  | optional shape content => exact WireFormat.determined_optional content
  | oneOf members distinct few => exact WireFormat.determined_oneOf members
  | either first second isFirst isSecond => exact WireFormat.determined_either isFirst isSecond
  | list shape item => exact WireFormat.determined_list item

open WirePiece

theorem spends_flatten {α : Type} {format : WireFormat α} {spells : α → List WirePiece → Prop}
    (spends : ∀ value pieces, spells value pieces → Spends pieces (format.write value))
    {values : List α} {parts : List (List WirePiece)} (all : List.Forall₂ spells values parts) :
    Spends parts.flatten (values.flatMap format.write) := by
  induction all with
  | nil => exact spends_nil
  | cons item _ ih =>
      rw [List.flatten_cons, List.flatMap_cons]
      exact (spends _ _ item).append ih

/-- A spelling is what is written for the value, if its numerals are minimal, and is
longer otherwise. -/
theorem Spells.spends {α : Type} {shape : WireShape α} {value : α} {pieces : List WirePiece}
    (spells : shape.Spells value pieces) : Spends pieces (shape.format.write value) := by
  induction shape generalizing pieces with
  | unit =>
      obtain rfl := spells
      exact spends_nil
  | byte =>
      obtain rfl := spells
      exact spends_single value
  | boolean =>
      obtain rfl := spells
      exact spends_single _
  | number => exact Varint.Width.Spells.spends spells
  | map shape pack unpack inverse content =>
      obtain ⟨inside, rfl, spells⟩ := spells
      have spends := content spells
      rw [← inverse inside] at spends
      exact spends
  | pair first second isFirst isSecond =>
      obtain ⟨front, back, firstSpells, secondSpells, rfl⟩ := spells
      exact (isFirst firstSpells).append (isSecond secondSpells)
  | optional shape content =>
      cases value with
      | none =>
          obtain rfl := spells
          exact spends_single 0
      | some inside =>
          obtain ⟨back, spells, rfl⟩ := spells
          exact (spends_single 1).append (content spells)
  | oneOf members distinct few =>
      obtain ⟨index, found, spells⟩ := spells
      obtain ⟨inside, rfl⟩ := List.getElem?_eq_some_iff.mp found
      have position := distinct.idxOf_getElem index inside
      show Spends pieces (Varint.write word32 (members.idxOf members[index]))
      rw [position]
      exact spells.spends
  | either first second isFirst isSecond =>
      cases value with
      | inl inside =>
          obtain ⟨front, back, tag, spells, rfl⟩ := spells
          exact tag.spends.append (isFirst spells)
      | inr inside =>
          obtain ⟨front, back, tag, spells, rfl⟩ := spells
          exact tag.spends.append (isSecond spells)
  | list shape item =>
      obtain ⟨front, parts, count, all, rfl⟩ := spells
      exact count.spends.append (spends_flatten (fun _ _ spells => item spells) all)

/-- What can be spelled is read back from what is written for it. -/
theorem Spells.returns {α : Type} {shape : WireShape α} {value : α} {pieces : List WirePiece}
    (spells : shape.Spells value pieces) : shape.format.Returns value := by
  induction shape generalizing pieces with
  | unit => exact WireFormat.returns_unit value
  | byte => exact WireFormat.returns_byte value
  | boolean => exact WireFormat.returns_boolean value
  | number =>
      obtain ⟨numeral, isNumeral, -⟩ := spells
      exact WireFormat.returns_word64 isNumeral.lt_capacity
  | map shape pack unpack inverse content =>
      obtain ⟨inside, rfl, spells⟩ := spells
      refine WireFormat.Returns.map ?_ ?_
      · rw [inverse]
        exact content spells
      · rw [inverse]
  | pair first second isFirst isSecond =>
      obtain ⟨front, back, firstSpells, secondSpells, -⟩ := spells
      exact .pair (isFirst firstSpells) (isSecond secondSpells)
  | optional shape content =>
      refine WireFormat.returns_optional ?_
      rintro inside rfl
      obtain ⟨back, spells, -⟩ := spells
      exact content spells
  | oneOf members distinct few =>
      obtain ⟨index, found, -⟩ := spells
      exact WireFormat.returns_oneOf (List.mem_of_getElem? found) few
  | either first second isFirst isSecond =>
      refine WireFormat.returns_either ?_ ?_
      · rintro inside rfl
        obtain ⟨front, back, tag, spells, -⟩ := spells
        exact isFirst spells
      · rintro inside rfl
        obtain ⟨front, back, tag, spells, -⟩ := spells
        exact isSecond spells
  | list shape item =>
      obtain ⟨front, parts, ⟨numeral, isNumeral, -⟩, all, -⟩ := spells
      have both := all.imp fun _ _ spells => And.intro (item spells) spells
      exact WireFormat.returns_list isNumeral.lt_capacity ((List.forall₂_and_left _ _).mp both).1

end WireShape

open WirePiece WireReader

/-- A format reads every spelling of a value, and writes the shortest one. -/
structure WireFormat.Canonical {α : Type} (format : WireFormat α) (shape : WireShape α) : Prop where
  decode_append : ∀ bytes more, format.decode bytes ≠ .error .endOfBytes →
    format.decode (bytes ++ more) = format.decode bytes
  read_iff : ∀ bytes value rest, format.read bytes = .ok (value, rest) ↔
    ∃ pieces, shape.Spells value pieces ∧ bytes = join pieces ++ rest
  length_write_le : ∀ value pieces, shape.Spells value pieces →
    (format.write value).length ≤ (join pieces).length
  eq_write_iff : ∀ value pieces, shape.Spells value pieces →
    (join pieces = format.write value ↔ Minimal pieces)
  shortest : ∀ bytes value, format.read bytes = .ok (value, []) →
    format.read (format.write value) = .ok (value, []) ∧
      (bytes ≠ format.write value → (format.write value).length < bytes.length)

theorem WireShape.canonical {α : Type} (shape : WireShape α) : shape.format.Canonical shape where
  decode_append bytes more goesOn := by
    unfold WireFormat.decode at goesOn ⊢
    have continues : shape.format.read bytes ≠ .error .endOfBytes := by
      intro ended
      rw [ended] at goesOn
      exact goesOn rfl
    rw [shape.determined bytes more continues]
    cases shape.format.read bytes <;> rfl
  read_iff := shape.accepts
  length_write_le value pieces spells := spells.spends.length_le
  eq_write_iff value pieces spells := spells.spends.eq_iff
  shortest bytes value read := by
    obtain ⟨pieces, spells, rfl⟩ := (shape.accepts _ _ _).mp read
    rw [List.append_nil]
    refine ⟨?_, spells.spends.longer⟩
    simpa using spells.returns []

section Records

open WireShape

def WireShape.integer : WireShape Int :=
  number.map Varint.unzigzag Varint.zigzag Varint.zigzag_unzigzag

def Command.shape : WireShape Command :=
  oneOf Command.all (by decide) (by decide)

def Fault.shape : WireShape Fault :=
  oneOf Fault.all (by decide) (by decide)

def EndByte.shape : WireShape EndByte :=
  oneOf EndByte.all (by decide) (by decide)

def Halt.shape : WireShape Halt :=
  (unit.either Fault.shape).map
    (fun
      | .inl _ => .stopped
      | .inr fault => .faulted fault)
    (fun
      | .stopped => .inl ()
      | .faulted fault => .inr fault)
    (by rintro (_ | _) <;> rfl)

def Options.shape : WireShape Options :=
  (boolean.pair (number.pair EndByte.shape)).map
    (fun (decodeEscapes, limit, endByte) => ⟨decodeEscapes, limit, endByte⟩)
    (fun options => (options.decodeEscapes, options.limit, options.endByte))
    (fun _ => rfl)

def ByteQueue.shape : WireShape ByteQueue :=
  (byte.list.pair number).map
    (fun (buffer, cursor) => ⟨buffer.toArray, cursor⟩)
    (fun queue => (queue.buffer.toList, queue.cursor))
    (fun _ => rfl)

def Snapshot.shape : WireShape Snapshot :=
  (integer.pair (integer.pair (number.pair (Halt.shape.optional.pair
      ((integer.pair byte).list.pair (byte.list.pair byte.list)))))).map
    (fun (programPointer, dataPointer, stepCount, halt, entries, output, diagnostics) =>
      ⟨programPointer, dataPointer, stepCount, halt, entries, output, diagnostics⟩)
    (fun snapshot =>
      (snapshot.programPointer, snapshot.dataPointer, snapshot.stepCount,
        snapshot.halt, snapshot.entries, snapshot.output, snapshot.diagnostics))
    (fun _ => rfl)

/-- Every record is written in one way, the shortest among those in which it is read. -/
theorem records_canonical :
    Command.format.Canonical Command.shape ∧
      Fault.format.Canonical Fault.shape ∧
      Halt.format.Canonical Halt.shape ∧
      EndByte.format.Canonical EndByte.shape ∧
      Options.format.Canonical Options.shape ∧
      ByteQueue.format.Canonical ByteQueue.shape ∧
      Snapshot.format.Canonical Snapshot.shape :=
  ⟨Command.shape.canonical, Fault.shape.canonical, Halt.shape.canonical, EndByte.shape.canonical,
    Options.shape.canonical, ByteQueue.shape.canonical, Snapshot.shape.canonical⟩

example : Command.format.decode [130, 128, 0] = .ok .increment := by decide

end Records
end OneTape
