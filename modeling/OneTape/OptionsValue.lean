import OneTape.Options

/-!
# Options from a structured value

Options may be given by a value of a data format: either a record of named
fields, or a list of them in order.  A field that is missing keeps its default,
and a field that is present has to have the right kind.
-/

namespace OneTape

/-- A value of a data format.  Numbers that are no integers need not be told
apart. -/
inductive StructuredValue where
  | null
  | boolean (value : Bool)
  | integer (value : Int)
  | otherNumber
  | text (value : String)
  | list (items : List StructuredValue)
  | record (fields : List (String × StructuredValue))
  deriving Inhabited

namespace StructuredValue

def boolean? : StructuredValue → Option Bool
  | boolean value => some value
  | _ => none

/-- A limit is a natural number in the range of limits. -/
def limit? : StructuredValue → Option Nat
  | integer (.ofNat value) => if value < Options.limitBound then some value else none
  | _ => none

def namedEndByte? (name : String) : Option EndByte :=
  [("Zero", EndByte.zero), ("Max", EndByte.max)].lookup name

/-- An end byte is given by its name, which may also stand as the only field of
a record without content. -/
def endByte? : StructuredValue → Option EndByte
  | text name => namedEndByte? name
  | record [(name, null)] => namedEndByte? name
  | _ => none

/-- A field that may be missing. -/
def fieldOr {α : Type} (default : α) (read : StructuredValue → Option α) :
    Option StructuredValue → Option α
  | none => some default
  | some value => read value

end StructuredValue

namespace Options

open StructuredValue

/-- Options from the values of those fields that are present. -/
def ofFields? (decodeEscapes limit endByte : Option StructuredValue) :
    Option Options := do
  let defaults : Options := {}
  let decodeEscapes ← fieldOr defaults.decodeEscapes boolean? decodeEscapes
  let limit ← fieldOr defaults.limit limit? limit
  let endByte ← fieldOr defaults.endByte endByte? endByte
  return { decodeEscapes, limit, endByte }

/-- Options from a record with other fields allowed, or from a list of at most
three items. -/
def ofValue? : StructuredValue → Option Options
  | .record fields =>
      ofFields? (fields.lookup "use_escape") (fields.lookup "limit") (fields.lookup "eof")
  | .list items =>
      if items.length ≤ 3 then ofFields? items[0]? items[1]? items[2]? else none
  | _ => none

end Options
end OneTape
