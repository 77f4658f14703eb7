import OneTape.Proofs.WireReading
import OneTape.Proofs.Words
import OneTape.WireRecords

/-!
# Records on the wire

Every record is read back from the bytes that were written for it, and whatever
follows these bytes is ignored.  If the bytes are cut short anywhere, in the
middle of a number or between two fields, then reading comes to their end; it
never yields another record, and finds nothing else wrong.

On the wire, counts and lengths are words of 64 bits, and pointers and addresses
are signed words.  This is all that a record has to fit into.
-/

namespace OneTape

theorem IsWord.lt_capacity {value : Nat} (isWord : IsWord value) :
    value < Varint.word64.capacity := by
  rw [Varint.capacity_word64]
  exact isWord

/-- The signed words are numbered by the words. -/
theorem IsSignedWord.zigzag_lt_capacity {value : Int} (isSignedWord : IsSignedWord value) :
    Varint.zigzag value < Varint.word64.capacity := by
  rw [Varint.capacity_word64]
  obtain ⟨least, greatest⟩ := isSignedWord
  cases value with
  | ofNat magnitude =>
      rw [Int.ofNat_eq_natCast] at greatest
      show 2 * magnitude < _
      omega
  | negSucc magnitude =>
      show 2 * magnitude + 1 < _
      omega

namespace WireFormat

variable {α : Type}

/-- A value is read back from what was written for it, and from no less. -/
structure Faithful (format : WireFormat α) (value : α) : Prop where
  decode_append : ∀ rest, format.decode (format.write value ++ rest) = .ok value
  decode_cut : ∀ front, front <+: format.write value → front ≠ format.write value →
    format.decode front = .error .endOfBytes

theorem Returns.faithful {format : WireFormat α} {value : α} (returns : format.Returns value)
    (determined : WireReader.Determined format.read) : format.Faithful value where
  decode_append rest := by
    rw [decode, returns rest]
    rfl
  decode_cut front isFront isCut := by
    rw [decode, returns.cut determined isFront isCut]
    rfl

theorem returns_word {value : Nat} (isWord : IsWord value) :
    (number Varint.word64).Returns value :=
  returns_word64 isWord.lt_capacity

theorem returns_signedWord {value : Int} (isSignedWord : IsSignedWord value) :
    integer.Returns value :=
  returns_integer isSignedWord.zigzag_lt_capacity

theorem returns_bytes {bytes : List UInt8} (short : IsWord bytes.length) :
    (list byte).Returns bytes :=
  returns_list short.lt_capacity fun value _ => returns_byte value

end WireFormat

open WireFormat

section Choices

theorem Command.format_returns (command : Command) : Command.format.Returns command :=
  returns_oneOf command.mem_all (by decide)

theorem Fault.format_returns (fault : Fault) : Fault.format.Returns fault :=
  returns_oneOf fault.mem_all (by decide)

theorem EndByte.format_returns (endByte : EndByte) : EndByte.format.Returns endByte :=
  returns_oneOf endByte.mem_all (by decide)

theorem Halt.format_determined : WireReader.Determined Halt.format.read :=
  determined_map (determined_either determined_unit (determined_oneOf Fault.all)) _ _

theorem Halt.format_returns (halt : Halt) : Halt.format.Returns halt := by
  apply Returns.map
  · exact returns_either (fun _ _ => returns_unit ()) (fun fault _ => fault.format_returns)
  · cases halt <;> rfl

end Choices

namespace Options

theorem format_determined : WireReader.Determined Options.format.read :=
  determined_map (determined_pair determined_boolean
    (determined_pair determined_word64 (determined_oneOf EndByte.all))) _ _

theorem format_returns {options : Options} (fits : IsWord options.limit) :
    Options.format.Returns options := by
  apply Returns.map
  · exact .pair (returns_boolean _) (.pair (returns_word fits) options.endByte.format_returns)
  · rfl

end Options

namespace ByteQueue

/-- The buffer of a queue and its cursor are counted in words.  The cursor may be
anywhere. -/
structure Fits (queue : ByteQueue) : Prop where
  buffer : IsWord queue.buffer.size
  cursor : IsWord queue.cursor

theorem format_determined : WireReader.Determined ByteQueue.format.read :=
  determined_map (determined_pair (determined_list determined_byte) determined_word64) _ _

theorem format_returns {queue : ByteQueue} (fits : queue.Fits) : ByteQueue.format.Returns queue := by
  apply Returns.map
  · exact .pair (returns_bytes (by simpa using fits.buffer)) (returns_word fits.cursor)
  · rfl

end ByteQueue

namespace Snapshot

/-- The pointers and addresses of a snapshot are signed words, and its step count
and the lengths of its lists are words. -/
structure Fits (snapshot : Snapshot) : Prop where
  programPointer : IsSignedWord snapshot.programPointer
  dataPointer : IsSignedWord snapshot.dataPointer
  stepCount : IsWord snapshot.stepCount
  addresses : ∀ entry ∈ snapshot.entries, IsSignedWord entry.1
  entries : IsWord snapshot.entries.length
  output : IsWord snapshot.output.length
  diagnostics : IsWord snapshot.diagnostics.length

theorem format_determined : WireReader.Determined Snapshot.format.read :=
  determined_map
    (determined_pair determined_integer
      (determined_pair determined_integer
        (determined_pair determined_word64
          (determined_pair (determined_optional Halt.format_determined)
            (determined_pair (determined_list (determined_pair determined_integer determined_byte))
              (determined_pair (determined_list determined_byte)
                (determined_list determined_byte)))))))
    _ _

theorem format_returns {snapshot : Snapshot} (fits : snapshot.Fits) :
    Snapshot.format.Returns snapshot := by
  have halt : (optional Halt.format).Returns snapshot.halt :=
    returns_optional fun reason _ => reason.format_returns
  have entries : (list (pair integer byte)).Returns snapshot.entries := by
    refine returns_list fits.entries.lt_capacity fun entry member => ?_
    exact .pair (returns_signedWord (fits.addresses entry member)) (returns_byte entry.2)
  apply Returns.map
  · exact .pair (returns_signedWord fits.programPointer)
      (.pair (returns_signedWord fits.dataPointer)
        (.pair (returns_word fits.stepCount)
          (.pair halt
            (.pair entries
              (.pair (returns_bytes fits.output) (returns_bytes fits.diagnostics))))))
  · rfl

end Snapshot

/-- Whatever fits on the wire is read back from the bytes written for it, with any
bytes behind them, and a strict part from the front of these bytes ends too
early. -/
theorem records_round_trip :
    (∀ command : Command, Command.format.Faithful command) ∧
      (∀ fault : Fault, Fault.format.Faithful fault) ∧
      (∀ halt : Halt, Halt.format.Faithful halt) ∧
      (∀ endByte : EndByte, EndByte.format.Faithful endByte) ∧
      (∀ options : Options, IsWord options.limit → Options.format.Faithful options) ∧
      (∀ queue : ByteQueue, queue.Fits → ByteQueue.format.Faithful queue) ∧
      ∀ snapshot : Snapshot, snapshot.Fits → Snapshot.format.Faithful snapshot := by
  refine ⟨?_, ?_, ?_, ?_, ?_, ?_, ?_⟩
  · exact fun command => command.format_returns.faithful (determined_oneOf Command.all)
  · exact fun fault => fault.format_returns.faithful (determined_oneOf Fault.all)
  · exact fun halt => halt.format_returns.faithful Halt.format_determined
  · exact fun endByte => endByte.format_returns.faithful (determined_oneOf EndByte.all)
  · exact fun options fits => (Options.format_returns fits).faithful Options.format_determined
  · exact fun queue fits => (ByteQueue.format_returns fits).faithful ByteQueue.format_determined
  · exact fun snapshot fits => (Snapshot.format_returns fits).faithful Snapshot.format_determined

/-- A snapshot at the ends of all ranges. -/
def extremeSnapshot : Snapshot where
  programPointer := -0x8000000000000000
  dataPointer := 0x7FFFFFFFFFFFFFFF
  stepCount := 0xFFFFFFFFFFFFFFFF
  halt := some (.faulted .unmatchedClose)
  entries := [(-1, 255), (0, 0)]
  output := []
  diagnostics := [10]

theorem extremeSnapshot_round_trip :
    Snapshot.format.write extremeSnapshot =
        [255, 255, 255, 255, 255, 255, 255, 255, 255, 1,
          254, 255, 255, 255, 255, 255, 255, 255, 255, 1,
          255, 255, 255, 255, 255, 255, 255, 255, 255, 1,
          1, 1, 2, 2, 1, 255, 0, 0, 0, 1, 10] ∧
      Snapshot.format.Faithful extremeSnapshot ∧
      Options.format.Faithful { limit := 0xFFFFFFFFFFFFFFFF } ∧
      ByteQueue.format.Faithful { buffer := #[7], cursor := 0xFFFFFFFFFFFFFFFF } := by
  obtain ⟨-, -, -, -, options, queue, snapshot⟩ := records_round_trip
  refine ⟨by decide +kernel, ?_, ?_, ?_⟩
  · exact snapshot _ ⟨by decide, by decide, by decide, by decide, by decide, by decide, by decide⟩
  · exact options _ (by decide)
  · exact queue _ ⟨by decide, by decide⟩

end OneTape
