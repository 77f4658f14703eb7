import OneTape.Snapshot
import OneTape.WireFormat

/-!
# Wire formats of the records

Each record is written field by field, in the order that its format lists.
-/

namespace OneTape

open WireFormat

def Command.format : WireFormat Command :=
  oneOf Command.all

def Fault.format : WireFormat Fault :=
  oneOf Fault.all

def EndByte.format : WireFormat EndByte :=
  oneOf EndByte.all

/-- A stop has number zero; a fault follows the number one. -/
def Halt.format : WireFormat Halt :=
  (either unit Fault.format).map
    (fun
      | .inl _ => .stopped
      | .inr fault => .faulted fault)
    (fun
      | .stopped => .inl ()
      | .faulted fault => .inr fault)

/-- Whether escapes are decoded, the limit, the end byte. -/
def Options.format : WireFormat Options :=
  (pair boolean (pair (number Varint.word64) EndByte.format)).map
    (fun (decodeEscapes, limit, endByte) => ⟨decodeEscapes, limit, endByte⟩)
    (fun options => (options.decodeEscapes, options.limit, options.endByte))

/-- The whole buffer with its consumed part, then the cursor. -/
def ByteQueue.format : WireFormat ByteQueue :=
  (pair (list byte) (number Varint.word64)).map
    (fun (buffer, cursor) => ⟨buffer.toArray, cursor⟩)
    (fun queue => (queue.buffer.toList, queue.cursor))

/-- The pointers, the step count, the halt, the entries, and the bytes of the
two channels. -/
def Snapshot.format : WireFormat Snapshot :=
  (pair integer (pair integer (pair (number Varint.word64)
      (pair (optional Halt.format) (pair (list (pair integer byte))
        (pair (list byte) (list byte))))))).map
    (fun (programPointer, dataPointer, stepCount, halt, entries, output, diagnostics) =>
      ⟨programPointer, dataPointer, stepCount, halt, entries, output, diagnostics⟩)
    (fun snapshot =>
      (snapshot.programPointer, snapshot.dataPointer, snapshot.stepCount,
        snapshot.halt, snapshot.entries, snapshot.output, snapshot.diagnostics))

end OneTape
