/-!
# UTF-8 text

Text enters a byte channel as UTF-8 and is shown again by a decoder that never
fails.  The decoder reads one byte at a time.  It remembers an unfinished
character together with the range in which the next byte has to lie; these
ranges exclude overlong forms, surrogates and values past the last character.
A byte outside the range ends the unfinished character, which is then shown as
one replacement character, and the byte is read afresh.
-/

namespace OneTape
namespace Utf8

/-- The bytes of a text. -/
def encode (text : List Char) : List UInt8 :=
  text.flatMap String.utf8EncodeChar

@[simp]
theorem encode_nil : encode [] = [] := rfl

@[simp]
theorem encode_append (first second : List Char) :
    encode (first ++ second) = encode first ++ encode second := by
  simp [encode]

/-- What stands for bytes that are no character. -/
def replacement : Char := '\uFFFD'

/-- A character of which some bytes have been read: its leading bits, how many
bytes follow the next one, and the range of the next one. -/
structure Unfinished where
  bits : Nat
  following : Nat
  least : UInt8 := 0x80
  greatest : UInt8 := 0xBF
  deriving DecidableEq

/-- What the first byte of a character leads to. -/
inductive Lead where
  | character (char : Char)
  | unfinished (state : Unfinished)
  | invalid
  deriving DecidableEq

/-- Classify a byte that stands where a character begins. -/
def lead (byte : UInt8) : Lead :=
  let value := byte.toNat
  if value < 0x80 then .character (Char.ofNat value)
  else if value < 0xC2 then .invalid
  else if value < 0xE0 then .unfinished { bits := value % 0x20, following := 0 }
  else if value = 0xE0 then .unfinished { bits := 0, following := 1, least := 0xA0 }
  else if value = 0xED then .unfinished { bits := 0xD, following := 1, greatest := 0x9F }
  else if value < 0xF0 then .unfinished { bits := value % 0x10, following := 1 }
  else if value = 0xF0 then .unfinished { bits := 0, following := 2, least := 0x90 }
  else if value < 0xF4 then .unfinished { bits := value % 0x8, following := 2 }
  else if value = 0xF4 then .unfinished { bits := 4, following := 2, greatest := 0x8F }
  else .invalid

/-- The text shown so far and the character that is under way. -/
structure Reading where
  shown : Array Char := #[]
  pending : Option Unfinished := none
  deriving DecidableEq

namespace Reading

/-- Read a byte between two characters. -/
def startCharacter (shown : Array Char) (byte : UInt8) : Reading :=
  match lead byte with
  | .character char => ⟨shown.push char, none⟩
  | .unfinished state => ⟨shown, some state⟩
  | .invalid => ⟨shown.push replacement, none⟩

/-- Read the next byte. -/
def feed (reading : Reading) (byte : UInt8) : Reading :=
  match reading.pending with
  | none => startCharacter reading.shown byte
  | some state =>
      if state.least ≤ byte ∧ byte ≤ state.greatest then
        let bits := state.bits * 0x40 + byte.toNat % 0x40
        match state.following with
        | 0 => ⟨reading.shown.push (Char.ofNat bits), none⟩
        | following + 1 => ⟨reading.shown, some { bits, following }⟩
      else startCharacter (reading.shown.push replacement) byte

/-- End of the bytes: a character still under way is cut short. -/
def finish (reading : Reading) : List Char :=
  match reading.pending with
  | none => reading.shown.toList
  | some _ => (reading.shown.push replacement).toList

end Reading

/-- The text of any bytes, with one replacement character for each longest
stretch that begins a character and does not finish it. -/
def decodeLossy (bytes : List UInt8) : List Char :=
  (bytes.foldl Reading.feed {}).finish

@[simp]
theorem decodeLossy_nil : decodeLossy [] = [] := rfl

end Utf8
end OneTape
