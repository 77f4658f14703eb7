import OneTape.Machine
import OneTape.Numeral
import OneTape.StyledText

/-!
# Views of the tape

A table has one row for each tracked address, with marks for the pointers; the
full layout also gives the byte in hexadecimal and the mnemonic of a command.
A trace line shows the whole tracked tape at once: the program pointer's cell
is in parentheses and the data pointer's cell in braces.
-/

namespace OneTape
namespace TapeView

/-- Whether a table shows bytes and mnemonics or only glyphs. -/
inductive Layout where
  | full
  | compact
  deriving DecidableEq

/-- One printable form for every byte: the symbol of a command, the character
of any other visible ASCII byte, and a middle dot for the rest. -/
def glyph (byte : UInt8) : List Char :=
  match Command.ofByte? byte with
  | some command => command.symbol.toList
  | none =>
      if 0x21 ≤ byte ∧ byte ≤ 0x7E then [Char.ofNat byte.toNat] else ['\u00B7']

/-- The mnemonic of a byte that is a command. -/
def label (byte : UInt8) : List Char :=
  match Command.ofByte? byte with
  | some command => command.mnemonic.toList
  | none => []

/-- Commands of one kind share a style. -/
def style (byte : UInt8) : Style :=
  match Command.ofByte? byte with
  | some .stop => .dim
  | some .openLoop | some .closeLoop => .yellow
  | some .input | some .output => .green
  | some .increment | some .decrement => .magenta
  | some .right | some .left => .cyan
  | none => .regular

/-- The mark of a row: `P` for the program pointer, `D` for the data pointer. -/
def marker (atProgram atData : Bool) : List Char :=
  [if atProgram then 'P' else ' ', if atData then 'D' else ' ']

/-- An integer at the right end of a column. -/
def alignedRight (width : Nat) (value : Int) : List Char :=
  (Numeral.ofInt value).leftpad width ' '

/-- An integer at the left end of a column. -/
def alignedLeft (width : Nat) (value : Int) : List Char :=
  (Numeral.ofInt value).rightpad width ' '

/-- What a table row says about a byte. -/
def cellText (layout : Layout) (byte : UInt8) : List Char :=
  match layout with
  | .full =>
      ['0', 'x'] ++ Numeral.hexadecimalPair byte ++ [' '] ++
        (label byte).rightpad 6 ' ' ++ [' '] ++ glyph byte
  | .compact => glyph byte

/-- The row of one address. -/
def row (layout : Layout) (machine : Machine) (entry : Int × UInt8) : List Span :=
  let (address, byte) := entry
  [{ text := marker (address == machine.programPointer) (address == machine.dataPointer) ++
      [' ', '['] ++ alignedRight 6 address ++ [']', ' '] },
    { style := some (style byte), text := cellText layout byte },
    { text := ['\n'] }]

/-- The rows of all tracked addresses. -/
def table (layout : Layout) (machine : Machine) : List Span :=
  machine.tape.entries.flatMap (row layout machine)

/-- A glyph with the marks of the pointers around it. -/
def marked (atProgram atData : Bool) (text : List Char) : List Char :=
  let text := if atData then '\x7b' :: text ++ ['\x7d'] else text
  if atProgram then '(' :: text ++ [')'] else text

/-- The cell of one address in a trace line. -/
def traceCell (machine : Machine) (entry : Int × UInt8) : Span :=
  let (address, byte) := entry
  { style := some (style byte)
    text := marked (address == machine.programPointer) (address == machine.dataPointer)
      (glyph byte) }

/-- The step count, the two pointers, and the tracked tape. -/
def traceLine (machine : Machine) : List Span :=
  { text := ['#'] ++ alignedLeft 6 machine.stepCount ++
      [' ', 'p', '='] ++ alignedLeft 5 machine.programPointer ++
      [' ', 'd', '='] ++ alignedLeft 5 machine.dataPointer ++ [' '] } ::
    machine.tape.entries.map (traceCell machine)

end TapeView
end OneTape
