import OneTape.Varint

/-!
# Wire formats

A wire format writes the values of a type as bytes and reads one value off the
front of a byte sequence, leaving the rest.  Formats of records are put
together from a few building blocks: fields follow one another without
framing, a choice is preceded by its number, and a list by its length.
-/

namespace OneTape

/-- A value read off the front of some bytes together with the bytes after it,
or the reason why there is none. -/
abbrev WireResult (α : Type) := Except WireError (α × List UInt8)

/-- How the values of a type are written to bytes and read from them. -/
structure WireFormat (α : Type) where
  write : α → List UInt8
  read : List UInt8 → WireResult α

namespace WireFormat

variable {α β : Type}

/-- Read the value at the front of the bytes, whatever follows it. -/
def decode (format : WireFormat α) (bytes : List UInt8) : Except WireError α :=
  (format.read bytes).map Prod.fst

/-- The only value of a type without content takes no bytes. -/
def unit : WireFormat Unit where
  write _ := []
  read bytes := .ok ((), bytes)

def byte : WireFormat UInt8 where
  write value := [value]
  read
    | [] => .error .endOfBytes
    | value :: rest => .ok (value, rest)

/-- A truth value is the byte zero or one. -/
def boolean : WireFormat Bool where
  write value := [if value then 1 else 0]
  read
    | [] => .error .endOfBytes
    | value :: rest =>
        if value = 0 then .ok (false, rest)
        else if value = 1 then .ok (true, rest)
        else .error .malformedBoolean

/-- A natural number of a given width. -/
def number (width : Varint.Width) : WireFormat Nat where
  write := Varint.write width
  read := Varint.read width

/-- The bytes of one type, seen as values of another. -/
def map (format : WireFormat α) (pack : α → β) (unpack : β → α) :
    WireFormat β where
  write value := format.write (unpack value)
  read bytes := (format.read bytes).map (Prod.map pack id)

def integer : WireFormat Int :=
  (number Varint.word64).map Varint.unzigzag Varint.zigzag

/-- One value after another. -/
def pair (first : WireFormat α) (second : WireFormat β) :
    WireFormat (α × β) where
  write values := first.write values.1 ++ second.write values.2
  read bytes :=
    match first.read bytes with
    | .error error => .error error
    | .ok (value, rest) => (second.read rest).map (Prod.map (value, ·) id)

/-- A value that may be missing follows the byte one; the byte zero stands for
its absence. -/
def optional (format : WireFormat α) : WireFormat (Option α) where
  write
    | none => [0]
    | some value => 1 :: format.write value
  read
    | [] => .error .endOfBytes
    | tag :: rest =>
        if tag = 0 then .ok (none, rest)
        else if tag = 1 then (format.read rest).map (Prod.map some id)
        else .error .malformedOption

/-- A member of a fixed list is written as its position. -/
def oneOf [DecidableEq α] (members : List α) : WireFormat α where
  write value := Varint.write Varint.word32 (members.idxOf value)
  read bytes :=
    match Varint.read Varint.word32 bytes with
    | .error error => .error error
    | .ok (index, rest) =>
        match members[index]? with
        | some value => .ok (value, rest)
        | none => .error .unknownVariant

/-- A value of one of two types follows the number of the alternative. -/
def either (first : WireFormat α) (second : WireFormat β) :
    WireFormat (α ⊕ β) where
  write
    | .inl value => Varint.write Varint.word32 0 ++ first.write value
    | .inr value => Varint.write Varint.word32 1 ++ second.write value
  read bytes :=
    match Varint.read Varint.word32 bytes with
    | .error error => .error error
    | .ok (0, rest) => (first.read rest).map (Prod.map .inl id)
    | .ok (1, rest) => (second.read rest).map (Prod.map .inr id)
    | .ok (_ + 2, _) => .error .unknownVariant

/-- Read a given number of values, after those already read. -/
def readMany (format : WireFormat α) :
    Nat → Array α → List UInt8 → WireResult (List α)
  | 0, values, bytes => .ok (values.toList, bytes)
  | count + 1, values, bytes =>
      match format.read bytes with
      | .error error => .error error
      | .ok (value, rest) => readMany format count (values.push value) rest

/-- The values of a list follow their number. -/
def list (format : WireFormat α) : WireFormat (List α) where
  write values :=
    Varint.write Varint.word64 values.length ++ values.flatMap format.write
  read bytes :=
    match Varint.read Varint.word64 bytes with
    | .error error => .error error
    | .ok (count, rest) => format.readMany count #[] rest

end WireFormat
end OneTape
