import OneTape.Proofs.RunTrace
import OneTape.Proofs.SnapshotObservation
import OneTape.Proofs.TapeHistory

/-!
# What a table tells

A table of the tape has one line for each tracked address.  No byte of the tape can
break a line or add one, because bytes are shown in hexadecimal and by glyphs.  So
the rows can be found again in the text, and each row tells what it was made of: an
address, a byte, and whether the two pointers are there.

The data pointer is always tracked, so the table tells where it is.  The program
pointer may be outside, and then the table tells just that.
-/

namespace OneTape

section Text

/-- Text without a separator is told from what follows the separator. -/
theorem append_cons_inj {separator : Char} {first second firstRest secondRest : List Char}
    (notInFirst : separator ∉ first) (notInSecond : separator ∉ second)
    (same : first ++ separator :: firstRest = second ++ separator :: secondRest) :
    first = second ∧ firstRest = secondRest := by
  have front : ∀ {text rest : List Char}, separator ∉ text →
      (text ++ separator :: rest).takeWhile (· ≠ separator) = text := by
    intro text rest notInText
    have others : ∀ char ∈ text, (char ≠ separator) = true := by
      intro char member
      simpa using ne_of_mem_of_not_mem member notInText
    rw [List.takeWhile_append_of_pos (by simpa using others)]
    simp
  have fronts := congrArg (List.takeWhile (· ≠ separator)) same
  rw [front notInFirst, front notInSecond] at fronts
  rw [fronts] at same
  exact ⟨fronts, (List.cons.inj (List.append_cancel_left same)).2⟩

/-- Lines are found again in their text. -/
theorem lines_inj {first second : List (List Char)} (firstLines : ∀ line ∈ first, '\n' ∉ line)
    (secondLines : ∀ line ∈ second, '\n' ∉ line)
    (same : first.flatMap (· ++ ['\n']) = second.flatMap (· ++ ['\n'])) : first = second := by
  induction first generalizing second with
  | nil =>
      cases second with
      | nil => rfl
      | cons line lines => simp at same
  | cons firstLine first ih =>
      cases second with
      | nil => simp at same
      | cons secondLine second =>
          rw [List.forall_mem_cons] at firstLines secondLines
          simp only [List.flatMap_cons, List.append_assoc, List.singleton_append] at same
          obtain ⟨lines, rest⟩ := append_cons_inj firstLines.1 secondLines.1 same
          rw [lines, ih firstLines.2 secondLines.2 rest]

end Text

namespace Numeral

theorem ofNat_injective {first second : Nat} (same : ofNat first = ofNat second) :
    first = second := by
  simpa using congrArg valueOfDigits same

/-- The characters of a decimal numeral. -/
theorem digit_or_minus {value : Int} {char : Char} (member : char ∈ ofInt value) :
    char.isDigit ∨ char = '-' := by
  cases value with
  | ofNat value => exact .inl (isDigit_of_mem_ofNat member)
  | negSucc value =>
      rcases List.mem_cons.mp member with rfl | digit
      · exact .inr rfl
      · exact .inl (isDigit_of_mem_ofNat digit)

theorem not_mem_ofInt {char : Char} (noDigit : char.isDigit = false) (notMinus : char ≠ '-')
    (value : Int) : char ∉ ofInt value := by
  intro member
  rcases digit_or_minus member with digit | minus
  · simp [noDigit] at digit
  · exact notMinus minus

theorem ofInt_injective {first second : Int} (same : ofInt first = ofInt second) :
    first = second := by
  have noMinus : ∀ value, '-' ∉ ofNat value := by
    intro value member
    have digit := isDigit_of_mem_ofNat member
    contradiction
  cases first with
  | ofNat first =>
      cases second with
      | ofNat second => rw [ofNat_injective same]
      | negSucc second =>
          have minus : '-' ∈ ofInt (.ofNat first) := same ▸ List.mem_cons_self
          exact absurd minus (noMinus first)
  | negSucc first =>
      cases second with
      | ofNat second =>
          have minus : '-' ∈ ofInt (.ofNat second) := same ▸ List.mem_cons_self
          exact absurd minus (noMinus second)
      | negSucc second =>
          have values := ofNat_injective (List.cons.inj same).2
          rw [Nat.succ.inj values]

theorem length_hexadecimalPair (byte : UInt8) : (hexadecimalPair byte).length = 2 := by
  have every : ∀ byte, (hexadecimalPair byte).length = 2 := forall_byte (by decide +kernel)
  exact every byte

/-- The two digits of a byte make an escape that stands for it. -/
theorem decode_hexadecimalPair (byte : UInt8) :
    SourceEscape.decode (('\\' :: 'x' :: hexadecimalPair byte).map Char.toUInt8) = .ok [byte] := by
  have every : ∀ byte, SourceEscape.decode
      (('\\' :: 'x' :: hexadecimalPair byte).map Char.toUInt8) = .ok [byte] :=
    forall_byte (by decide +kernel)
  exact every byte

theorem hexadecimalPair_injective {first second : UInt8}
    (same : hexadecimalPair first = hexadecimalPair second) : first = second := by
  have bytes := decode_hexadecimalPair first
  rw [same, decode_hexadecimalPair] at bytes
  exact (List.cons.inj (Except.ok.inj bytes)).1.symm

end Numeral

namespace Machine

/-- The program pointer is in the tracked range. -/
def TracksProgram (machine : Machine) : Prop :=
  machine.tape.low ≤ machine.programPointer ∧ machine.programPointer ≤ machine.tape.high

theorem Reachable.tracks_dataPointer {machine : Machine} (reachable : machine.Reachable) :
    machine.tape.low ≤ machine.dataPointer ∧ machine.dataPointer ≤ machine.tape.high := by
  obtain ⟨source, options, calls, rfl⟩ := reachable
  have tracked := tracked_after source options calls
  exact ⟨tracked.low_le_dataPointer, tracked.dataPointer_le_high⟩

end Machine

namespace TapeView

/-- Without the blanks in front of it, a column holds the numeral alone. -/
theorem dropWhile_alignedRight (width : Nat) (value : Int) :
    (alignedRight width value).dropWhile (· = ' ') = Numeral.ofInt value := by
  have noBlank : ' ' ∉ Numeral.ofInt value := Numeral.not_mem_ofInt rfl (by decide) value
  unfold alignedRight List.leftpad
  rw [List.dropWhile_append_of_pos (by simp)]
  cases digits : Numeral.ofInt value with
  | nil => rfl
  | cons first rest =>
      rw [digits, List.mem_cons, not_or] at noBlank
      exact List.dropWhile_cons_of_neg (by simpa using Ne.symm noBlank.1)

theorem alignedRight_injective {width : Nat} {first second : Int}
    (same : alignedRight width first = alignedRight width second) : first = second := by
  apply Numeral.ofInt_injective
  rw [← dropWhile_alignedRight width, ← dropWhile_alignedRight width, same]

theorem bracket_not_mem_alignedRight (width : Nat) (value : Int) :
    ']' ∉ alignedRight width value := by
  intro member
  rcases List.mem_append.mp member with blank | digit
  · cases List.eq_of_mem_replicate blank
  · exact Numeral.not_mem_ofInt rfl (by decide) value digit

theorem inline_alignedRight (width : Nat) (value : Int) :
    InlineText (alignedRight width value) := by
  refine .append (fun char member => ?_) (inline_ofInt value)
  rw [List.eq_of_mem_replicate member]
  decide

theorem inline_hexadecimalPair (byte : UInt8) : InlineText (Numeral.hexadecimalPair byte) := by
  have every : ∀ byte, InlineText (Numeral.hexadecimalPair byte) := forall_byte (by decide +kernel)
  exact every byte

theorem inline_label (byte : UInt8) : InlineText ((label byte).rightpad 6 ' ') := by
  unfold label
  split
  · rename_i command _
    cases command <;> decide
  · decide

theorem inline_cellText (layout : Layout) (byte : UInt8) : InlineText (cellText layout byte) := by
  cases layout with
  | full =>
      exact .append (.append (.append (.append (.append (by decide) (inline_hexadecimalPair byte))
        (by decide)) (inline_label byte)) (by decide)) (inline_glyph byte)
  | compact => exact inline_glyph byte

theorem cellText_injective {first second : UInt8}
    (same : cellText .full first = cellText .full second) : first = second := by
  simp only [cellText, List.append_assoc] at same
  have lengths : (Numeral.hexadecimalPair first).length = (Numeral.hexadecimalPair second).length := by
    rw [Numeral.length_hexadecimalPair, Numeral.length_hexadecimalPair]
  have digits := (List.append_inj (List.append_cancel_left same) lengths).1
  exact Numeral.hexadecimalPair_injective digits

theorem marker_injective {firstProgram firstData secondProgram secondData : Bool}
    (same : marker firstProgram firstData = marker secondProgram secondData) :
    firstProgram = secondProgram ∧ firstData = secondData := by
  revert firstProgram firstData secondProgram secondData
  decide

/-- What a row of a table is made of. -/
structure Row where
  atProgram : Bool
  atData : Bool
  address : Int
  byte : UInt8
  deriving DecidableEq

namespace Row

/-- A row as plain text, without the end of the line. -/
def line (layout : Layout) (row : Row) : List Char :=
  marker row.atProgram row.atData ++
    ([' ', '['] ++ (alignedRight 6 row.address ++ ([']', ' '] ++ cellText layout row.byte)))

theorem inline_line (layout : Layout) (row : Row) : InlineText (row.line layout) := by
  have marks : InlineText (marker row.atProgram row.atData) := by
    cases row.atProgram <;> cases row.atData <;> decide
  exact .append marks (.append (by decide) (.append (inline_alignedRight 6 row.address)
    (.append (by decide) (inline_cellText layout row.byte))))

/-- A line of a full table tells what it was made of. -/
theorem line_injective {first second : Row} (same : first.line .full = second.line .full) :
    first = second := by
  unfold line at same
  obtain ⟨markers, afterMarkers⟩ := List.append_inj same rfl
  obtain ⟨atProgram, atData⟩ := marker_injective markers
  have afterOpening := List.append_cancel_left afterMarkers
  -- No numeral holds the bracket that closes its column.
  obtain ⟨columns, afterColumns⟩ := append_cons_inj (bracket_not_mem_alignedRight 6 _)
    (bracket_not_mem_alignedRight 6 _) afterOpening
  have address := alignedRight_injective columns
  have byte := cellText_injective (List.cons.inj afterColumns).2
  cases first
  cases second
  simp_all

end Row

/-- The row of a tracked address. -/
def rowOf (machine : Machine) (entry : Int × UInt8) : Row where
  atProgram := entry.1 == machine.programPointer
  atData := entry.1 == machine.dataPointer
  address := entry.1
  byte := entry.2

def rows (machine : Machine) : List Row :=
  machine.tape.entries.map (rowOf machine)

/-- A table is the lines of its rows. -/
theorem renderSpans_table (layout : Layout) (machine : Machine) :
    renderSpans false (table layout machine) =
      ((rows machine).map (Row.line layout)).flatMap (· ++ ['\n']) := by
  unfold renderSpans table rows
  rw [List.flatMap_assoc, List.map_map, List.flatMap_map]
  congr 1
  funext entry
  simp [row, rowOf, Row.line]

theorem newline_not_mem_lines (layout : Layout) (machine : Machine) :
    ∀ line ∈ (rows machine).map (Row.line layout), '\n' ∉ line := by
  intro line member
  obtain ⟨row, -, rfl⟩ := List.mem_map.mp member
  exact (row.inline_line layout).not_mem (by decide)

section Rows

variable {first second : Machine}

theorem rows_eq_of_table_eq (same : renderSpans false (table .full first) =
    renderSpans false (table .full second)) : rows first = rows second := by
  rw [renderSpans_table, renderSpans_table] at same
  have lines := lines_inj (newline_not_mem_lines .full first) (newline_not_mem_lines .full second)
    same
  exact (List.map_inj_right fun _ _ => Row.line_injective).mp lines

theorem entries_eq_of_rows_eq (same : rows first = rows second) :
    first.tape.entries = second.tape.entries := by
  have contents := congrArg (List.map fun row : Row => (row.address, row.byte)) same
  simpa [rows, rowOf, Function.comp_def] using contents

/-- A tracked address is marked in the same way in a table of the same rows. -/
theorem marks_eq (same : rows first = rows second) {address : Int}
    (fromLow : first.tape.low ≤ address) (toHigh : address ≤ first.tape.high) :
    (address = first.programPointer ↔ address = second.programPointer) ∧
      (address = first.dataPointer ↔ address = second.dataPointer) := by
  have entry := first.tape.mem_entries_iff.mpr ⟨⟨fromLow, toHigh⟩, rfl⟩
  have member := List.mem_map_of_mem (f := rowOf first) entry
  change _ ∈ rows first at member
  rw [same] at member
  obtain ⟨other, -, equal⟩ := List.mem_map.mp member
  have sameAddress : other.1 = address := congrArg Row.address equal
  have atProgram := congrArg Row.atProgram equal
  have atData := congrArg Row.atData equal
  simp only [rowOf, sameAddress] at atProgram atData
  exact ⟨by simpa using atProgram.symm, by simpa using atData.symm⟩

end Rows

/-- A table has one line for each tracked address, with the lowest address first, and
no byte breaks a line.  Two machines with the same table have the same tape and the
same data pointer, and also the same program pointer unless it is outside the tracked
range in both of them. -/
theorem table_tells_tape :
    (∀ machine : Machine,
      renderSpans false (table .full machine) =
          ((rows machine).map (Row.line .full)).flatMap (· ++ ['\n']) ∧
        (∀ row ∈ rows machine, '\n' ∉ row.line .full) ∧
        (rows machine).map Row.address = machine.tape.entries.map Prod.fst ∧
        ((rows machine).map Row.address).Pairwise (· < ·)) ∧
      ∀ first second : Machine, first.Reachable → second.Reachable →
        renderSpans false (table .full first) = renderSpans false (table .full second) →
        first.tape.entries = second.tape.entries ∧
          first.tape.low = second.tape.low ∧ first.tape.high = second.tape.high ∧
          (∀ address, first.tape.get address = second.tape.get address) ∧
          first.dataPointer = second.dataPointer ∧
          (first.programPointer = second.programPointer ∨
            ¬ first.TracksProgram ∧ ¬ second.TracksProgram) := by
  refine ⟨?_, ?_⟩
  · intro machine
    have addresses : (rows machine).map Row.address = machine.tape.entries.map Prod.fst := by
      simp [rows, rowOf, Function.comp_def]
    refine ⟨renderSpans_table .full machine, ?_, addresses, ?_⟩
    · intro row _
      exact (row.inline_line .full).not_mem (by decide)
    · rw [addresses]
      exact machine.tape.pairwise_entries
  · intro first second firstReachable secondReachable same
    have sameRows := rows_eq_of_table_eq same
    have entries := entries_eq_of_rows_eq sameRows
    have alike := Tape.alike_of_entries_eq entries firstReachable.low_le_high
      secondReachable.low_le_high firstReachable.sound.blank secondReachable.sound.blank
    obtain ⟨fromLow, toHigh⟩ := firstReachable.tracks_dataPointer
    refine ⟨entries, alike.low, alike.high, congrFun alike.get,
      (marks_eq sameRows fromLow toHigh).2.mp rfl, ?_⟩
    by_cases inFirst : first.TracksProgram
    · exact .inl ((marks_eq sameRows inFirst.1 inFirst.2).1.mp rfl)
    · by_cases inSecond : second.TracksProgram
      · exact .inl ((marks_eq sameRows.symm inSecond.1 inSecond.2).1.mp rfl).symm
      · exact .inr ⟨inFirst, inSecond⟩

/-- A loaded tape, and one that a program has made before it failed at a bracket.  The
program pointer is before the first of them and behind the second. -/
theorem table_tells_tape_of_unmatched :
    let first := Machine.load [0, 91] { decodeEscapes := false }
    let second := (Machine.load [44, 91] {}).after [.step, .step]
    first.Reachable ∧ second.Reachable ∧
      renderSpans false (table .full first) = renderSpans false (table .full second) ∧
      first.programPointer = -1 ∧ second.programPointer = 2 ∧
      first.dataPointer = second.dataPointer ∧
      ¬ first.TracksProgram ∧ ¬ second.TracksProgram := by
  intro first second
  have firstReachable : first.Reachable := ⟨[0, 91], { decodeEscapes := false }, [], rfl⟩
  have secondReachable : second.Reachable := ⟨_, _, _, rfl⟩
  have same : renderSpans false (table .full first) = renderSpans false (table .full second) := by
    decide +kernel
  have firstPointer : first.programPointer = -1 := rfl
  have secondPointer : second.programPointer = 2 := by decide
  obtain ⟨-, -, -, -, dataPointer, pointers⟩ :=
    table_tells_tape.2 first second firstReachable secondReachable same
  have outside := pointers.resolve_left (by rw [firstPointer, secondPointer]; decide)
  exact ⟨firstReachable, secondReachable, same, firstPointer, secondPointer, dataPointer, outside⟩

end TapeView

end OneTape
