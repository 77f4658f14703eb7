import OneTape.Numeral

/-!
# Escapes in source text

Source text may write a tape byte as an escape: backslash zero for the byte
zero, and backslash `x` (or `X`) with two hexadecimal digits for any byte.
Every other byte of the source stands for itself.  The first malformed escape
makes the whole source invalid and is reported with the position of its
backslash.
-/

namespace OneTape

/-- What is wrong with an escape. -/
inductive EscapeFault where
  | unknown (byte : UInt8)
  | malformedHexadecimal
  | endOfSource
  deriving DecidableEq

/-- A malformed escape and the position of its backslash in the source. -/
structure EscapeError where
  offset : Nat
  fault : EscapeFault
  deriving DecidableEq

namespace EscapeFault

/-- The printable ASCII form of a byte: control characters, quotes and the
backslash are escaped, and what lies outside ASCII is given by its code. -/
def printable (byte : UInt8) : String :=
  if byte = '\t'.toUInt8 then "\\t"
  else if byte = '\r'.toUInt8 then "\\r"
  else if byte = '\n'.toUInt8 then "\\n"
  else if byte = '\''.toUInt8 then "\\'"
  else if byte = '"'.toUInt8 then "\\\""
  else if byte = '\\'.toUInt8 then "\\\\"
  else if 0x20 ≤ byte ∧ byte ≤ 0x7E then String.ofList [Char.ofNat byte.toNat]
  else "\\u\x7b" ++ String.ofList (Numeral.hexadecimal byte) ++ "\x7d"

def description : EscapeFault → String
  | unknown byte => "\\" ++ printable byte
  | malformedHexadecimal => "\\x needs two hex digits"
  | endOfSource => "unexpected end of source"

end EscapeFault

def EscapeError.message (error : EscapeError) : String :=
  "Undefined escape sequence: " ++ error.fault.description ++ " at byte " ++
    String.ofList (Numeral.ofNat error.offset)

namespace SourceEscape

def backslash : UInt8 := '\\'.toUInt8

/-- The value of a hexadecimal digit in either case. -/
def hexDigit? (byte : UInt8) : Option UInt8 :=
  if '0'.toUInt8 ≤ byte ∧ byte ≤ '9'.toUInt8 then some (byte - '0'.toUInt8)
  else if 'a'.toUInt8 ≤ byte ∧ byte ≤ 'f'.toUInt8 then some (byte - 'a'.toUInt8 + 10)
  else if 'A'.toUInt8 ≤ byte ∧ byte ≤ 'F'.toUInt8 then some (byte - 'A'.toUInt8 + 10)
  else none

/-- The byte that two hexadecimal digits denote. -/
def hexPair? (high low : UInt8) : Option UInt8 :=
  match hexDigit? high, hexDigit? low with
  | some highValue, some lowValue => some (highValue * 16 + lowValue)
  | _, _ => none

/-- Decode the source that is left from a position on, after the bytes that the
part before it denotes. -/
def decodeFrom (offset : Nat) (decoded : Array UInt8) :
    List UInt8 → Except EscapeError (List UInt8)
  | [] => .ok decoded.toList
  | byte :: rest =>
      if byte ≠ backslash then
        decodeFrom (offset + 1) (decoded.push byte) rest
      else
        match rest with
        | [] => .error ⟨offset, .endOfSource⟩
        | selector :: rest =>
            if selector = '0'.toUInt8 then
              decodeFrom (offset + 2) (decoded.push 0) rest
            else if selector = 'x'.toUInt8 ∨ selector = 'X'.toUInt8 then
              match rest with
              | high :: low :: rest =>
                  match hexPair? high low with
                  | some value => decodeFrom (offset + 4) (decoded.push value) rest
                  | none => .error ⟨offset, .malformedHexadecimal⟩
              | _ => .error ⟨offset, .endOfSource⟩
            else
              .error ⟨offset, .unknown selector⟩

/-- The tape bytes that a source denotes. -/
def decode (source : List UInt8) : Except EscapeError (List UInt8) :=
  decodeFrom 0 #[] source

end SourceEscape
end OneTape
