import OneTape.Proofs.EscapeGrammar
import OneTape.Proofs.SoundMachine

/-!
# What the diagnostics say

The diagnostics of a machine hold one line about its source, if the source is
malformed, and one line about the fault that ended the run, if a fault did, and
nothing else.  So they are empty exactly if nothing has gone wrong.

Whatever bytes the source contains, the lines are printable ASCII, because an
escape that is not known is shown in a printable form.  Showing the diagnostics
as text therefore loses nothing.
-/

namespace OneTape

/-- The characters of printed lines. -/
def Legible (char : Char) : Prop :=
  char = '\n' ∨ 0x20 ≤ char.toNat ∧ char.toNat ≤ 0x7E

instance (char : Char) : Decidable (Legible char) :=
  inferInstanceAs (Decidable (_ ∨ _))

def LegibleText (text : String) : Prop :=
  ∀ char ∈ text.toList, Legible char

instance (text : String) : Decidable (LegibleText text) :=
  List.decidableBAll Legible text.toList

section Messages

theorem LegibleText.append {first second : String} (isFirst : LegibleText first)
    (isSecond : LegibleText second) : LegibleText (first ++ second) := by
  rw [LegibleText, String.toList_append]
  exact List.forall_mem_append.mpr ⟨isFirst, isSecond⟩

theorem legible_of_isDigit {char : Char} (isDigit : char.isDigit) : Legible char := by
  obtain ⟨least, greatest⟩ := Char.isDigit_iff_toNat.mp isDigit
  exact .inr ⟨Nat.le_trans (by decide) least, Nat.le_trans greatest (by decide)⟩

theorem legible_numeral (value : Nat) : LegibleText (String.ofList (Numeral.ofNat value)) := by
  intro char member
  rw [String.toList_ofList] at member
  exact legible_of_isDigit (Numeral.isDigit_of_mem_ofNat member)

theorem legible_hexadecimal (byte : UInt8) :
    LegibleText (String.ofList (Numeral.hexadecimal byte)) := by
  have digits : ∀ byte, (Numeral.hexadecimal byte).all fun char => Legible char :=
    forall_byte (by decide +kernel)
  intro char member
  rw [String.toList_ofList] at member
  exact of_decide_eq_true (List.all_eq_true.mp (digits byte) char member)

theorem legible_ofNat {code : Nat} (least : 0x20 ≤ code) (greatest : code ≤ 0x7E) :
    Legible (Char.ofNat code) := by
  have every : ∀ code ≤ 0x7E, 0x20 ≤ code → Legible (Char.ofNat code) := by decide
  exact every code greatest least

/-- The printable form of a byte deserves its name, outside ASCII too. -/
theorem legible_printable (byte : UInt8) : LegibleText (EscapeFault.printable byte) := by
  unfold EscapeFault.printable
  -- The first six cases are the bytes with a short form of their own.
  iterate 6
    split
    · decide
  split
  · rename_i inRange
    intro char member
    obtain rfl : char = Char.ofNat byte.toNat := by simpa using member
    exact legible_ofNat (UInt8.le_iff_toNat_le.mp inRange.1) (UInt8.le_iff_toNat_le.mp inRange.2)
  · exact .append (.append (by decide) (legible_hexadecimal byte)) (by decide)

theorem legible_description (fault : EscapeFault) : LegibleText fault.description := by
  cases fault with
  | unknown byte => exact .append (by decide) (legible_printable byte)
  | malformedHexadecimal => decide
  | endOfSource => decide

theorem legible_message (error : EscapeError) : LegibleText error.message :=
  .append (.append (.append (by decide) (legible_description error.fault)) (by decide))
    (legible_numeral error.offset)

theorem legible_diagnostic (fault : Fault) : LegibleText fault.diagnostic := by
  cases fault <;> decide

end Messages

section Bytes

theorem Legible.toNat_cases {char : Char} (legible : Legible char) :
    char.toNat = 0x0A ∨ 0x20 ≤ char.toNat ∧ char.toNat ≤ 0x7E := by
  rcases legible with rfl | printable
  · exact .inl rfl
  · exact .inr printable

theorem Legible.toNat_toUInt8 {char : Char} (legible : Legible char) :
    char.toUInt8.toNat = char.toNat := by
  have bounds := legible.toNat_cases
  rw [Char.toUInt8, UInt32.toNat_toUInt8]
  apply Nat.mod_eq_of_lt
  change char.toNat < 2 ^ 8
  omega

theorem Legible.ofNat_toUInt8 {char : Char} (legible : Legible char) :
    Char.ofNat char.toUInt8.toNat = char := by
  rw [legible.toNat_toUInt8, Char.ofNat_toNat]

theorem Legible.encode {char : Char} (legible : Legible char) :
    String.utf8EncodeChar char = [char.toUInt8] := by
  have bounds := legible.toNat_cases
  apply String.utf8EncodeChar_eq_singleton
  rw [Char.utf8Size_eq_one_iff, UInt32.le_iff_toNat_le]
  change char.toNat ≤ 127
  omega

theorem encode_legible {text : List Char} (legible : ∀ char ∈ text, Legible char) :
    Utf8.encode text = text.map Char.toUInt8 := by
  induction text with
  | nil => rfl
  | cons char text ih =>
      have here := (legible char List.mem_cons_self).encode
      have later := ih fun other member => legible other (List.mem_cons_of_mem _ member)
      unfold Utf8.encode at later ⊢
      rw [List.flatMap_cons, here, later]
      rfl

theorem LegibleText.bytes {text : String} (legible : LegibleText text) :
    ∀ byte ∈ Utf8.encode text.toList, byte = 0x0A ∨ 0x20 ≤ byte ∧ byte ≤ 0x7E := by
  rw [encode_legible legible]
  intro byte member
  obtain ⟨char, inText, rfl⟩ := List.mem_map.mp member
  have code := (legible char inText).toNat_toUInt8
  rw [← UInt8.toNat_inj, UInt8.le_iff_toNat_le, UInt8.le_iff_toNat_le, code]
  exact (legible char inText).toNat_cases

theorem LegibleText.encode_eq_nil_iff {text : String} (legible : LegibleText text) :
    Utf8.encode text.toList = [] ↔ text = "" := by
  rw [encode_legible legible, List.map_eq_nil_iff, String.toList_eq_nil_iff]

/-- The decoder reads bytes below 0x80 as characters of their own. -/
theorem foldl_feed_ascii {bytes : List UInt8} (ascii : ∀ byte ∈ bytes, byte.toNat < 0x80)
    (shown : Array Char) :
    bytes.foldl Utf8.Reading.feed { shown } =
      { shown := shown ++ bytes.map fun byte => Char.ofNat byte.toNat } := by
  induction bytes generalizing shown with
  | nil => simp
  | cons byte bytes ih =>
      have leads : Utf8.lead byte = .character (Char.ofNat byte.toNat) :=
        if_pos (ascii byte List.mem_cons_self)
      have read : Utf8.Reading.feed { shown } byte =
          { shown := shown.push (Char.ofNat byte.toNat) } := by
        simp only [Utf8.Reading.feed, Utf8.Reading.startCharacter, leads]
      rw [List.foldl_cons, read, ih fun later member => ascii later (List.mem_cons_of_mem _ member)]
      simp

theorem decodeLossy_ascii {bytes : List UInt8} (ascii : ∀ byte ∈ bytes, byte.toNat < 0x80) :
    Utf8.decodeLossy bytes = bytes.map fun byte => Char.ofNat byte.toNat := by
  rw [Utf8.decodeLossy, foldl_feed_ascii ascii]
  simp [Utf8.Reading.finish]

/-- Legible text is shown as it is. -/
theorem LegibleText.decodeLossy {text : String} (legible : LegibleText text) :
    Utf8.decodeLossy (Utf8.encode text.toList) =
      (Utf8.encode text.toList).map fun byte => Char.ofNat byte.toNat := by
  apply decodeLossy_ascii
  intro byte member
  have bounds := legible.bytes byte member
  rw [← UInt8.toNat_inj, UInt8.le_iff_toNat_le, UInt8.le_iff_toNat_le] at bounds
  change byte.toNat = 0x0A ∨ 0x20 ≤ byte.toNat ∧ byte.toNat ≤ 0x7E at bounds
  omega

theorem LegibleText.decodeLossy_encode {text : String} (legible : LegibleText text) :
    Utf8.decodeLossy (Utf8.encode text.toList) = text.toList := by
  rw [legible.decodeLossy, encode_legible legible, List.map_map]
  calc
    _ = text.toList.map id :=
      List.map_congr_left fun char member => (legible char member).ofNat_toUInt8
    _ = text.toList := List.map_id _

end Bytes

/-- The line about a source that cannot be loaded. -/
def loadLine : Option EscapeError → String
  | some error => error.message ++ "\n"
  | none => ""

/-- The line about a fault that has ended a run. -/
def faultLine : Option Halt → String
  | some (.faulted fault) => fault.diagnostic
  | _ => ""

theorem legible_loadLine (error : Option EscapeError) : LegibleText (loadLine error) := by
  cases error with
  | none => decide
  | some error => exact .append (legible_message error) (by decide)

theorem legible_faultLine (halt : Option Halt) : LegibleText (faultLine halt) := by
  unfold faultLine
  split
  · exact legible_diagnostic _
  · decide

theorem loadLine_eq_empty_iff {error : Option EscapeError} :
    loadLine error = "" ↔ error = none := by
  cases error with
  | none => simp [loadLine]
  | some error => simp [loadLine]

theorem faultLine_eq_empty_iff {halt : Option Halt} :
    faultLine halt = "" ↔ ∀ fault, halt ≠ some (.faulted fault) := by
  unfold faultLine
  split
  · rename_i fault
    simp [Fault.diagnostic]
  · rename_i unfaulted
    simpa using unfaulted

namespace Machine

/-- What a running machine says in a step: nothing, or a line about the fault
that halts it. -/
inductive Tells (machine : Machine) : Machine → Prop where
  | nothing {next : Machine} (diagnostics : next.diagnostics = machine.diagnostics)
      (loadError : next.loadError = machine.loadError)
      (unfaulted : next.halt = none ∨ next.halt = some .stopped) : Tells machine next
  | fault {next : Machine} (fault : Fault)
      (diagnostics : next.diagnostics = machine.diagnostics.appendText fault.diagnostic)
      (loadError : next.loadError = machine.loadError)
      (halted : next.halt = some (.faulted fault)) : Tells machine next

section Step

variable {machine : Machine}

theorem Tells.of_same {before next : Machine} (told : before.Tells next)
    (sameDiagnostics : before.diagnostics = machine.diagnostics)
    (sameLoadError : before.loadError = machine.loadError) : machine.Tells next := by
  cases told with
  | nothing diagnostics loadError unfaulted =>
      exact .nothing (diagnostics.trans sameDiagnostics) (loadError.trans sameLoadError) unfaulted
  | fault fault diagnostics loadError halted =>
      exact .fault fault (sameDiagnostics ▸ diagnostics) (loadError.trans sameLoadError) halted

theorem tells_fail (machine : Machine) (fault : Fault) : machine.Tells (machine.fail fault).2 :=
  .fault fault rfl rfl rfl

theorem tells_jump (running : machine.halt = none) (direction : Tape.Direction) :
    machine.Tells (machine.jump direction).2 := by
  unfold jump
  split
  · exact .nothing rfl rfl (.inl running)
  · exact (tells_fail _ (unmatched direction)).of_same rfl rfl

theorem tells_execute (running : machine.halt = none) (command : Command) :
    machine.Tells (machine.execute command).2 := by
  cases command with
  | openLoop =>
      unfold execute
      dsimp only
      split
      · exact tells_jump running _
      · exact .nothing rfl rfl (.inl running)
  | closeLoop =>
      unfold execute
      dsimp only
      split
      · exact .nothing rfl rfl (.inl running)
      · exact tells_jump running _
  | stop => exact .nothing rfl rfl (.inr rfl)
  | _ => exact .nothing rfl rfl (.inl running)

theorem tells_step (running : machine.halt = none) : machine.Tells machine.step.2 := by
  rcases Nat.lt_or_ge machine.stepCount machine.options.limit with allowed | exceeded
  · have fetched : machine.counted.fetch.2.halt = none := running
    rw [step_of_allowed running allowed]
    exact (tells_execute fetched machine.fetch.1).of_same rfl rfl
  · rw [step_of_exceeded running exceeded]
    exact (machine.counted.tells_fail .limitExceeded).of_same rfl rfl

end Step

/-- The diagnostics consist of the line about the source and of the line about
the fault. -/
structure Reports (machine : Machine) : Prop where
  inBounds : machine.diagnostics.InBounds
  unread : machine.diagnostics.unread =
    Utf8.encode (loadLine machine.loadError ++ faultLine machine.halt).toList

theorem reports_load (source : List UInt8) (options : Options) :
    (load source options).Reports := by
  refine ⟨(sound_load source options).diagnostics, ?_⟩
  unfold load
  split
  · cases SourceEscape.decode source with
    | ok program => rfl
    | error error =>
        simp [loadLine, faultLine, ByteQueue.unread, ByteQueue.appendText, ByteQueue.empty]
  · rfl

theorem Reports.step {machine : Machine} (reports : machine.Reports) : machine.step.2.Reports := by
  cases status : machine.halt with
  | some reason =>
      rw [step_of_halted (isHalted_of_halt status)]
      exact reports
  | none =>
      -- So far there is at most the line about the source.
      have before : machine.diagnostics.unread =
          Utf8.encode (loadLine machine.loadError).toList := by
        simpa [status, faultLine] using reports.unread
      cases tells_step status with
      | nothing diagnostics loadError unfaulted =>
          have silent : faultLine machine.step.2.halt = "" := by
            rcases unfaulted with running | stopped
            · rw [running]
              rfl
            · rw [stopped]
              rfl
          refine ⟨diagnostics ▸ reports.inBounds, ?_⟩
          rw [diagnostics, loadError, silent, String.append_empty, before]
      | fault fault diagnostics loadError halted =>
          refine ⟨diagnostics ▸ ByteQueue.inBounds_append reports.inBounds _, ?_⟩
          rw [diagnostics, loadError, halted, ByteQueue.appendText,
            ByteQueue.unread_append reports.inBounds, before, String.toList_append,
            Utf8.encode_append]
          rfl

theorem Reports.after {machine : Machine} (reports : machine.Reports) (calls : List Call) :
    (machine.after calls).Reports :=
  calls_invariant (fun _ _ reports => ⟨reports.inBounds, reports.unread⟩)
    (fun _ reports => reports.step) calls reports

theorem loadError_step (machine : Machine) : machine.step.2.loadError = machine.loadError := by
  cases status : machine.halt with
  | some reason => rw [step_of_halted (isHalted_of_halt status)]
  | none => cases tells_step status <;> assumption

theorem loadError_after (machine : Machine) (calls : List Call) :
    (machine.after calls).loadError = machine.loadError :=
  @calls_invariant (fun next => next.loadError = machine.loadError) machine
    (fun _ _ same => same) (fun next same => next.loadError_step.trans same) calls rfl

theorem legible_lines (machine : Machine) :
    LegibleText (loadLine machine.loadError ++ faultLine machine.halt) :=
  .append (legible_loadLine _) (legible_faultLine _)

/-- The diagnostics are empty if nothing has gone wrong, and only then. -/
theorem Reports.unread_eq_nil_iff {machine : Machine} (reports : machine.Reports) :
    machine.diagnostics.unread = [] ↔
      machine.loadError = none ∧ ∀ fault, machine.halt ≠ some (.faulted fault) := by
  rw [reports.unread, machine.legible_lines.encode_eq_nil_iff, String.append_eq_empty_iff,
    loadLine_eq_empty_iff, faultLine_eq_empty_iff]

/-- After any calls, the diagnostics consist of the line about the source and the
line about the fault, as far as there is something to say.  Their bytes are
printable ASCII and line ends, so that as text they are shown byte by byte. -/
theorem diagnostics_exact (source : List UInt8) (options : Options) (calls : List Call) :
    let machine := (load source options).after calls
    let bytes := machine.diagnostics.unread
    let text := loadLine machine.loadError ++ faultLine machine.halt
    bytes = Utf8.encode text.toList ∧
      (bytes = [] ↔ machine.loadError = none ∧ ∀ fault, machine.halt ≠ some (.faulted fault)) ∧
      (∀ byte ∈ bytes, byte = 0x0A ∨ 0x20 ≤ byte ∧ byte ≤ 0x7E) ∧
      Utf8.decodeLossy bytes = (bytes.map fun byte => Char.ofNat byte.toNat) ∧
      machine.diagnostics.text? = some text := by
  intro machine bytes text
  have reports : machine.Reports := (reports_load source options).after calls
  have legible : LegibleText text := machine.legible_lines
  have unread : bytes = Utf8.encode text.toList := reports.unread
  refine ⟨unread, reports.unread_eq_nil_iff, ?_, ?_, ?_⟩
  · rw [unread]
    exact legible.bytes
  · rw [unread]
    exact legible.decodeLossy
  · have shown : machine.diagnostics.unread? = some bytes := if_pos reports.inBounds
    rw [ByteQueue.text?, shown, Option.map_some, unread, legible.decodeLossy_encode,
      String.ofList_toList]

end Machine
end OneTape
