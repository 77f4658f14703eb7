import OneTape.Numeral
import OneTape.Options

/-!
# Command lines

Arguments are read from left to right, and the first one that is wrong decides
the error.  Of several limits, end bytes or input texts the last one counts; of
several file names the first.  Input comes from a text or from standard input,
never from both.
-/

namespace OneTape

/-- Where the input of a program comes from. -/
inductive InputSource where
  | none
  | text (text : String)
  | standardInput
  deriving DecidableEq

/-- What a command line asks for. -/
structure Invocation where
  file : Option String := none
  options : Options := {}
  input : InputSource := .none
  /-- Show the tape after every step. -/
  trace : Bool := false
  /-- Show the final tape. -/
  table : Bool := false
  /-- Show tapes without colours. -/
  plain : Bool := false
  help : Bool := false
  deriving DecidableEq

inductive UsageError where
  | invalidLimit (value : String)
  | invalidEndByte (value : String)
  | unknownFlag (flag : String)
  | conflictingInput
  deriving DecidableEq

def UsageError.message : UsageError → String
  | invalidLimit value =>
      "invalid --limit value '" ++ value ++ "': expected a non-negative integer"
  | invalidEndByte value =>
      "invalid --eof value '" ++ value ++ "': expected 0 or 255"
  | unknownFlag flag => "unknown flag '" ++ flag ++ "'"
  | conflictingInput => "--input and --stdin cannot be combined"

/-- The kinds of arguments. -/
inductive Argument where
  | limit (value : String)
  | endByte (value : String)
  | inputText (text : String)
  | raw
  | standardInput
  | trace
  | table
  | plain
  | help
  | unknown (flag : String)
  | file (name : String)
  deriving DecidableEq

namespace Argument

/-- The flags that take no value. -/
def flags : List (String × Argument) :=
  [("--raw", raw), ("--stdin", standardInput), ("--trace", trace), ("--tape", table),
    ("--no-color", plain), ("--help", help), ("-h", help)]

/-- What follows a given beginning of an argument. -/
def valueAfter? (beginning argument : String) : Option String :=
  (beginning.toList.isPrefixOf? argument.toList).map String.ofList

/-- The kind of an argument: what starts with a dash is a flag, and anything
else is a file name. -/
def ofString (argument : String) : Argument :=
  match valueAfter? "--limit=" argument with
  | some value => limit value
  | none =>
      match valueAfter? "--eof=" argument with
      | some value => endByte value
      | none =>
          match valueAfter? "--input=" argument with
          | some text => inputText text
          | none =>
              match flags.lookup argument with
              | some flag => flag
              | none =>
                  if argument.toList.head? = some '-' then unknown argument
                  else file argument

end Argument

namespace Invocation

/-- A limit, as it is written on the command line. -/
def limit? (value : String) : Option Nat :=
  Numeral.readBelow? Options.limitBound value.toList

/-- An end byte, as it is written on the command line. -/
def endByte? (value : String) : Option EndByte :=
  (Numeral.readBelow? 256 value.toList).bind fun byte =>
    EndByte.ofByte? (UInt8.ofNat byte)

/-- Take one more argument into account. -/
def add (invocation : Invocation) : Argument → Except UsageError Invocation
  | .limit value =>
      match limit? value with
      | some limit =>
          .ok { invocation with options := { invocation.options with limit } }
      | none => .error (.invalidLimit value)
  | .endByte value =>
      match endByte? value with
      | some endByte =>
          .ok { invocation with options := { invocation.options with endByte } }
      | none => .error (.invalidEndByte value)
  | .inputText text =>
      match invocation.input with
      | .standardInput => .error .conflictingInput
      | _ => .ok { invocation with input := .text text }
  | .standardInput =>
      match invocation.input with
      | .text _ => .error .conflictingInput
      | _ => .ok { invocation with input := .standardInput }
  | .raw =>
      .ok { invocation with options := { invocation.options with decodeEscapes := false } }
  | .trace => .ok { invocation with trace := true }
  | .table => .ok { invocation with table := true }
  | .plain => .ok { invocation with plain := true }
  | .help => .ok { invocation with help := true }
  | .unknown flag => .error (.unknownFlag flag)
  | .file name => .ok { invocation with file := some (invocation.file.getD name) }

/-- What a list of arguments asks for. -/
def parse (arguments : List String) : Except UsageError Invocation :=
  arguments.foldlM (fun invocation argument => invocation.add (.ofString argument)) {}

/-- The last argument is added to what the ones before it ask for. -/
theorem parse_concat (arguments : List String) (last : String) :
    parse (arguments ++ [last]) =
      (parse arguments).bind fun invocation => invocation.add (.ofString last) := by
  simp only [parse, List.foldlM_append, List.foldlM_cons, List.foldlM_nil, bind_pure]
  rfl

end Invocation
end OneTape
