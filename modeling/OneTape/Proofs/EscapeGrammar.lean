import OneTape.SourceEscape

/-!
# The grammar of source text

A source is a sequence of tokens, each of which stands for one tape byte: a byte
other than the backslash stands for itself, and an escape for the byte that it
names.  No token begins another one, so a source is made of tokens in one way
only.  As far as the tokens reach, decoding yields the bytes for which they
stand; what is left behind them, if anything, is a malformed escape, and is
reported by its position and by what is wrong with it.
-/

namespace OneTape

/-- What holds of the bytes with codes up to 255 holds of every byte. -/
theorem forall_byte {property : UInt8 → Prop}
    (each : ∀ code < 256, property (UInt8.ofNat code)) (byte : UInt8) : property byte := by
  have holds := each byte.toNat byte.toNat_lt
  rwa [UInt8.ofNat_toNat] at holds

namespace SourceEscape

def lowerDigits : List Char :=
  ['0', '1', '2', '3', '4', '5', '6', '7', '8', '9', 'a', 'b', 'c', 'd', 'e', 'f']

def upperDigits : List Char :=
  ['0', '1', '2', '3', '4', '5', '6', '7', '8', '9', 'A', 'B', 'C', 'D', 'E', 'F']

/-- The hexadecimal digits in either case with their values. -/
def digitTable : List (UInt8 × UInt8) :=
  ((lowerDigits ++ upperDigits).map Char.toUInt8).zip
    ((List.range 16 ++ List.range 16).map UInt8.ofNat)

def IsHexDigit (byte value : UInt8) : Prop :=
  (byte, value) ∈ digitTable

instance (byte value : UInt8) : Decidable (IsHexDigit byte value) :=
  inferInstanceAs (Decidable (_ ∈ digitTable))

/-- A byte that announces two hexadecimal digits. -/
def IsSelector (byte : UInt8) : Prop :=
  byte = 'x'.toUInt8 ∨ byte = 'X'.toUInt8

/-- The spellings of a tape byte. -/
inductive Spelling : List UInt8 → UInt8 → Prop where
  | plain {byte : UInt8} (notBackslash : byte ≠ backslash) : Spelling [byte] byte
  | zero : Spelling [backslash, '0'.toUInt8] 0
  | hexadecimal {selector high low highValue lowValue : UInt8} (isSelector : IsSelector selector)
      (isHigh : IsHexDigit high highValue) (isLow : IsHexDigit low lowValue) :
      Spelling [backslash, selector, high, low] (16 * highValue + lowValue)

/-- A piece of source text that stands for one tape byte. -/
@[ext]
structure Token where
  text : List UInt8
  value : UInt8
  spelling : Spelling text value

/-- The source text of a sequence of tokens. -/
def spell (tokens : List Token) : List UInt8 :=
  tokens.flatMap Token.text

/-- The tape bytes for which a sequence of tokens stands. -/
def values (tokens : List Token) : List UInt8 :=
  tokens.map Token.value

/-- Source text that begins with no token. -/
def Stuck (rest : List UInt8) : Prop :=
  ∀ token : Token, ¬ token.text <+: rest

/-- Source text that begins with a backslash, and with no escape. -/
def Malformed (rest : List UInt8) : Prop :=
  rest.head? = some backslash ∧ Stuck rest

/-- What is wrong with a malformed escape. -/
inductive HasFault : List UInt8 → EscapeFault → Prop where
  | lone : HasFault [backslash] .endOfSource
  | short {selector : UInt8} {digits : List UInt8} (isSelector : IsSelector selector)
      (tooFew : digits.length < 2) : HasFault (backslash :: selector :: digits) .endOfSource
  | notDigits {selector high low : UInt8} {rest : List UInt8} (isSelector : IsSelector selector)
      (notBoth : (∀ value, ¬ IsHexDigit high value) ∨ ∀ value, ¬ IsHexDigit low value) :
      HasFault (backslash :: selector :: high :: low :: rest) .malformedHexadecimal
  | unknown {byte : UInt8} {rest : List UInt8} (notZero : byte ≠ '0'.toUInt8)
      (notSelector : ¬ IsSelector byte) : HasFault (backslash :: byte :: rest) (.unknown byte)

section Digits

theorem hexDigit?_eq_some_iff {byte value : UInt8} :
    hexDigit? byte = some value ↔ IsHexDigit byte value := by
  constructor
  · intro found
    have listed : ∀ byte, (hexDigit? byte).all fun value => IsHexDigit byte value :=
      forall_byte (by decide +kernel)
    exact of_decide_eq_true ((Option.all_eq_true _ _).mp (listed byte) value found)
  · intro isDigit
    have valued : digitTable.all fun entry => hexDigit? entry.1 = some entry.2 := by decide
    exact of_decide_eq_true (List.all_eq_true.mp valued _ isDigit)

theorem hexDigit?_eq_none_iff {byte : UInt8} :
    hexDigit? byte = none ↔ ∀ value, ¬ IsHexDigit byte value := by
  rw [Option.eq_none_iff_forall_ne_some]
  exact forall_congr' fun value => not_congr hexDigit?_eq_some_iff

theorem hexPair?_eq_some {high low highValue lowValue : UInt8}
    (isHigh : IsHexDigit high highValue) (isLow : IsHexDigit low lowValue) :
    hexPair? high low = some (16 * highValue + lowValue) := by
  rw [hexPair?, hexDigit?_eq_some_iff.mpr isHigh, hexDigit?_eq_some_iff.mpr isLow, UInt8.mul_comm]

theorem hexPair?_eq_none {high low : UInt8}
    (notBoth : (∀ value, ¬ IsHexDigit high value) ∨ ∀ value, ¬ IsHexDigit low value) :
    hexPair? high low = none := by
  unfold hexPair?
  rcases notBoth with notHigh | notLow
  · rw [hexDigit?_eq_none_iff.mpr notHigh]
  · rw [hexDigit?_eq_none_iff.mpr notLow]
    split <;> simp_all

end Digits

theorem IsHexDigit.unique {byte first second : UInt8} (isFirst : IsHexDigit byte first)
    (isSecond : IsHexDigit byte second) : first = second := by
  rw [← hexDigit?_eq_some_iff] at isFirst isSecond
  exact Option.some.inj (isFirst.symm.trans isSecond)

theorem IsSelector.ne_zero {selector : UInt8} (isSelector : IsSelector selector) :
    selector ≠ '0'.toUInt8 := by
  rcases isSelector with rfl | rfl <;> decide

section Tokens

variable {first second rest otherRest : List UInt8} {firstValue secondValue : UInt8}

/-- No spelling begins another one, and each stands for one byte only. -/
theorem Spelling.unique (isFirst : Spelling first firstValue)
    (isSecond : Spelling second secondValue) (same : first ++ rest = second ++ otherRest) :
    first = second ∧ firstValue = secondValue ∧ rest = otherRest := by
  cases isFirst with
  | plain notBackslash =>
      cases isSecond with
      | plain =>
          obtain ⟨rfl, rfl⟩ := List.cons.inj same
          exact ⟨rfl, rfl, rfl⟩
      | zero | hexadecimal => exact absurd (List.cons.inj same).1 notBackslash
  | zero =>
      cases isSecond with
      | plain notBackslash => exact absurd (List.cons.inj same).1.symm notBackslash
      | zero => exact ⟨rfl, rfl, List.append_cancel_left same⟩
      | hexadecimal isSelector =>
          exact absurd (List.cons.inj (List.cons.inj same).2).1.symm isSelector.ne_zero
  | hexadecimal isSelector isHigh isLow =>
      cases isSecond with
      | plain notBackslash => exact absurd (List.cons.inj same).1.symm notBackslash
      | zero => exact absurd (List.cons.inj (List.cons.inj same).2).1 isSelector.ne_zero
      | hexadecimal _ alsoHigh alsoLow =>
          simp only [List.cons_append, List.nil_append, List.cons.injEq, true_and] at same
          obtain ⟨rfl, rfl, rfl, rfl⟩ := same
          rw [isHigh.unique alsoHigh, isLow.unique alsoLow]
          exact ⟨rfl, rfl, rfl⟩

@[simp]
theorem spell_cons (token : Token) (tokens : List Token) :
    spell (token :: tokens) = token.text ++ spell tokens := rfl

/-- Source text is made of tokens, as far as they reach, in one way only. -/
theorem spell_unique {tokens others : List Token} (stuck : Stuck rest)
    (otherStuck : Stuck otherRest) (same : spell tokens ++ rest = spell others ++ otherRest) :
    tokens = others ∧ rest = otherRest := by
  induction tokens generalizing others with
  | nil =>
      cases others with
      | nil => exact ⟨rfl, same⟩
      | cons other others =>
          rw [spell_cons, List.append_assoc] at same
          exact absurd ⟨_, same.symm⟩ (stuck other)
  | cons token tokens ih =>
      cases others with
      | nil =>
          rw [spell_cons, List.append_assoc] at same
          exact absurd ⟨_, same⟩ (otherStuck token)
      | cons other others =>
          rw [spell_cons, spell_cons, List.append_assoc, List.append_assoc] at same
          obtain ⟨text, value, later⟩ := token.spelling.unique other.spelling same
          obtain ⟨rfl, rfl⟩ := ih later
          rw [Token.ext text value]
          exact ⟨rfl, rfl⟩

theorem Token.length_pos (token : Token) : 0 < token.text.length := by
  obtain ⟨text, value, spelling⟩ := token
  cases spelling <;> exact Nat.succ_pos _

theorem stuck_nil : Stuck [] := by
  intro token begins
  have nonempty := token.length_pos
  rw [List.prefix_nil.mp begins] at nonempty
  exact Nat.lt_irrefl _ nonempty

theorem HasFault.stuck {fault : EscapeFault} (hasFault : HasFault rest fault) : Stuck rest := by
  rintro ⟨text, value, spelling⟩ ⟨later, same⟩
  dsimp only at same
  cases spelling with
  | plain notBackslash =>
      cases hasFault <;> exact notBackslash (List.cons.inj same).1
  | zero =>
      cases hasFault with
      | lone => simp at same
      | short isSelector | notDigits isSelector =>
          exact isSelector.ne_zero (List.cons.inj (List.cons.inj same).2).1.symm
      | unknown notZero => exact notZero (List.cons.inj (List.cons.inj same).2).1.symm
  | hexadecimal isSelector isHigh isLow =>
      cases hasFault with
      | lone => simp at same
      | short _ tooFew =>
          obtain ⟨-, rfl⟩ := List.cons.inj (List.cons.inj same).2
          change later.length + 2 < 2 at tooFew
          omega
      | notDigits _ notBoth =>
          simp only [List.cons_append, List.nil_append, List.cons.injEq, true_and] at same
          obtain ⟨-, rfl, rfl, -⟩ := same
          rcases notBoth with notHigh | notLow
          · exact notHigh _ isHigh
          · exact notLow _ isLow
      | unknown _ notSelector =>
          obtain ⟨rfl, -⟩ := List.cons.inj (List.cons.inj same).2
          exact notSelector isSelector

/-- Text that begins like an escape is an escape with something behind it, or has
a fault. -/
theorem escape_cases (rest : List UInt8) :
    (∃ (token : Token) (later : List UInt8), backslash :: rest = token.text ++ later) ∨
      ∃ fault, HasFault (backslash :: rest) fault := by
  cases rest with
  | nil => exact .inr ⟨_, .lone⟩
  | cons selector digits =>
      by_cases isZero : selector = '0'.toUInt8
      · subst isZero
        exact .inl ⟨⟨_, _, .zero⟩, digits, rfl⟩
      by_cases isSelector : IsSelector selector
      · match digits with
        | [] | [_] => exact .inr ⟨_, .short isSelector (by simp)⟩
        | high :: low :: later =>
            by_cases isHigh : ∃ value, IsHexDigit high value
            · by_cases isLow : ∃ value, IsHexDigit low value
              · obtain ⟨highValue, isHigh⟩ := isHigh
                obtain ⟨lowValue, isLow⟩ := isLow
                exact .inl ⟨⟨_, _, .hexadecimal isSelector isHigh isLow⟩, later, rfl⟩
              · exact .inr ⟨_, .notDigits isSelector (.inr (not_exists.mp isLow))⟩
            · exact .inr ⟨_, .notDigits isSelector (.inl (not_exists.mp isHigh))⟩
      · exact .inr ⟨_, .unknown isZero isSelector⟩

theorem source_cases (source : List UInt8) :
    source = [] ∨ (∃ (token : Token) (later : List UInt8), source = token.text ++ later) ∨
      ∃ fault, HasFault source fault := by
  match source with
  | [] => exact .inl rfl
  | byte :: later =>
      by_cases escape : byte = backslash
      · exact .inr (escape ▸ escape_cases later)
      · exact .inr (.inl ⟨⟨[byte], byte, .plain escape⟩, later, rfl⟩)

/-- Source text consists of tokens, up to its end or up to a fault. -/
theorem exists_spell (source : List UInt8) :
    ∃ tokens rest, source = spell tokens ++ rest ∧
      (rest = [] ∨ ∃ fault, HasFault rest fault) := by
  rcases source_cases source with empty | ⟨token, later, begins⟩ | hasFault
  · exact ⟨[], [], empty, .inl rfl⟩
  · obtain ⟨tokens, rest, split, ends⟩ := exists_spell later
    exact ⟨token :: tokens, rest, by rw [begins, split, spell_cons, List.append_assoc], ends⟩
  · exact ⟨[], source, rfl, .inr hasFault⟩
termination_by source.length
decreasing_by
  rw [begins, List.length_append]
  have := token.length_pos
  omega

end Tokens

section Decode

variable {text rest : List UInt8} {value : UInt8} {fault : EscapeFault}

theorem Spelling.decodeFrom (spelling : Spelling text value) (offset : Nat)
    (decoded : Array UInt8) :
    decodeFrom offset decoded (text ++ rest) =
      SourceEscape.decodeFrom (offset + text.length) (decoded.push value) rest := by
  rw [SourceEscape.decodeFrom.eq_def]
  cases spelling with
  | plain notBackslash => simp [notBackslash]
  | zero => simp
  | hexadecimal isSelector isHigh isLow =>
      have notZero := isSelector.ne_zero
      unfold IsSelector at isSelector
      simp [notZero, isSelector, hexPair?_eq_some isHigh isLow]

theorem HasFault.decodeFrom (hasFault : HasFault rest fault) (offset : Nat)
    (decoded : Array UInt8) :
    decodeFrom offset decoded rest = .error ⟨offset, fault⟩ := by
  rw [SourceEscape.decodeFrom.eq_def]
  cases hasFault with
  | lone => simp
  | @short selector digits isSelector tooFew =>
      have notZero := isSelector.ne_zero
      unfold IsSelector at isSelector
      match digits with
      | [] | [_] => simp [notZero, isSelector]
      | _ :: _ :: _ =>
          simp only [List.length_cons] at tooFew
          omega
  | notDigits isSelector notBoth =>
      have notZero := isSelector.ne_zero
      unfold IsSelector at isSelector
      simp [notZero, isSelector, hexPair?_eq_none notBoth]
  | unknown notZero notSelector =>
      unfold IsSelector at notSelector
      simp [notZero, notSelector]

theorem decodeFrom_spell (tokens : List Token) (rest : List UInt8) (offset : Nat)
    (decoded : Array UInt8) :
    decodeFrom offset decoded (spell tokens ++ rest) =
      SourceEscape.decodeFrom (offset + (spell tokens).length)
        (decoded ++ values tokens) rest := by
  induction tokens generalizing offset decoded with
  | nil => simp [spell, values]
  | cons token tokens ih =>
      rw [spell_cons, List.append_assoc, token.spelling.decodeFrom, ih, List.length_append,
        Nat.add_assoc]
      simp [values]

theorem decode_spell (tokens : List Token) : decode (spell tokens) = .ok (values tokens) := by
  have decoded := decodeFrom_spell tokens [] 0 #[]
  simpa [decode, decodeFrom] using decoded

theorem decode_fault (tokens : List Token) (hasFault : HasFault rest fault) :
    decode (spell tokens ++ rest) = .error ⟨(spell tokens).length, fault⟩ := by
  rw [decode, decodeFrom_spell, hasFault.decodeFrom, Nat.zero_add]

example : decode (['+', '\\', 'x', '4', 'g'].map Char.toUInt8) =
    .error ⟨1, .malformedHexadecimal⟩ := by
  rfl

end Decode

theorem decode_eq_ok_iff {source program : List UInt8} :
    decode source = .ok program ↔ ∃ tokens, spell tokens = source ∧ values tokens = program := by
  constructor
  · intro decoded
    obtain ⟨tokens, rest, rfl, rfl | ⟨fault, hasFault⟩⟩ := exists_spell source
    · rw [List.append_nil, decode_spell] at decoded
      exact ⟨tokens, (List.append_nil _).symm, Except.ok.inj decoded⟩
    · rw [decode_fault tokens hasFault] at decoded
      contradiction
  · rintro ⟨tokens, rfl, rfl⟩
    exact decode_spell tokens

section Faults

variable {rest : List UInt8} {fault other : EscapeFault}

theorem Malformed.exists_fault (malformed : Malformed rest) : ∃ fault, HasFault rest fault := by
  rcases source_cases rest with rfl | ⟨token, later, rfl⟩ | hasFault
  · simp [Malformed] at malformed
  · exact absurd ⟨later, rfl⟩ (malformed.2 token)
  · exact hasFault

theorem HasFault.malformed (hasFault : HasFault rest fault) : Malformed rest := by
  refine ⟨?_, hasFault.stuck⟩
  cases hasFault <;> rfl

theorem exists_decode_eq_error_iff {source : List UInt8} :
    (∃ error, decode source = .error error) ↔
      ∃ tokens rest, source = spell tokens ++ rest ∧ Malformed rest := by
  constructor
  · rintro ⟨error, failed⟩
    obtain ⟨tokens, rest, rfl, rfl | ⟨fault, hasFault⟩⟩ := exists_spell source
    · rw [List.append_nil, decode_spell] at failed
      contradiction
    · exact ⟨tokens, rest, rfl, hasFault.malformed⟩
  · rintro ⟨tokens, rest, rfl, malformed⟩
    obtain ⟨fault, hasFault⟩ := malformed.exists_fault
    exact ⟨_, decode_fault tokens hasFault⟩

/-- Decoding reports one fault, so there is only one. -/
theorem HasFault.unique (hasFault : HasFault rest fault) (hasOther : HasFault rest other) :
    fault = other := by
  have same := (hasFault.decodeFrom 0 #[]).symm.trans (hasOther.decodeFrom 0 #[])
  exact congrArg EscapeError.fault (Except.error.inj same)

theorem HasFault.endOfSource_iff (hasFault : HasFault rest fault) :
    fault = .endOfSource ↔ rest = [backslash] ∨
      ∃ selector digits, IsSelector selector ∧ rest = backslash :: selector :: digits ∧
        digits.length < 2 := by
  constructor
  · rintro rfl
    cases hasFault with
    | lone => exact .inl rfl
    | short isSelector tooFew => exact .inr ⟨_, _, isSelector, rfl, tooFew⟩
  · rintro (rfl | ⟨selector, digits, isSelector, rfl, tooFew⟩)
    · exact hasFault.unique .lone
    · exact hasFault.unique (.short isSelector tooFew)

theorem HasFault.malformedHexadecimal_iff (hasFault : HasFault rest fault) :
    fault = .malformedHexadecimal ↔ ∃ selector high low later, IsSelector selector ∧
      rest = backslash :: selector :: high :: low :: later ∧
      ((∀ value, ¬ IsHexDigit high value) ∨ ∀ value, ¬ IsHexDigit low value) := by
  constructor
  · rintro rfl
    cases hasFault with
    | notDigits isSelector notBoth => exact ⟨_, _, _, _, isSelector, rfl, notBoth⟩
  · rintro ⟨selector, high, low, later, isSelector, rfl, notBoth⟩
    exact hasFault.unique (.notDigits isSelector notBoth)

theorem HasFault.unknown_iff (hasFault : HasFault rest fault) (byte : UInt8) :
    fault = .unknown byte ↔ byte ≠ '0'.toUInt8 ∧ ¬ IsSelector byte ∧
      ∃ later, rest = backslash :: byte :: later := by
  constructor
  · rintro rfl
    cases hasFault with
    | unknown notZero notSelector => exact ⟨notZero, notSelector, _, rfl⟩
  · rintro ⟨notZero, notSelector, later, rfl⟩
    exact hasFault.unique (.unknown notZero notSelector)

end Faults

/-- Decoding follows the grammar.  It succeeds on the sequences of tokens, with
the bytes for which they stand, and fails where the first malformed escape
follows a sequence of tokens.  In both cases there is only one such sequence.
The position of a failure is the length of the tokens before it, and its fault
is told by the bytes behind the backslash. -/
theorem decode_grammar (source : List UInt8) :
    (∀ program, decode source = .ok program ↔
        ∃ tokens, spell tokens = source ∧ values tokens = program) ∧
      (∀ tokens others, spell tokens = source → spell others = source → tokens = others) ∧
      ((∃ error, decode source = .error error) ↔
        ∃ tokens rest, source = spell tokens ++ rest ∧ Malformed rest) ∧
      ∀ tokens rest, source = spell tokens ++ rest → Malformed rest →
        (∀ others otherRest, source = spell others ++ otherRest → Malformed otherRest →
          others = tokens ∧ otherRest = rest) ∧
        ∃ fault, decode source = .error ⟨(spell tokens).length, fault⟩ ∧
          (fault = .endOfSource ↔ rest = [backslash] ∨
            ∃ selector digits, IsSelector selector ∧ rest = backslash :: selector :: digits ∧
              digits.length < 2) ∧
          (fault = .malformedHexadecimal ↔ ∃ selector high low later, IsSelector selector ∧
            rest = backslash :: selector :: high :: low :: later ∧
            ((∀ value, ¬ IsHexDigit high value) ∨ ∀ value, ¬ IsHexDigit low value)) ∧
          ∀ byte, fault = .unknown byte ↔ byte ≠ '0'.toUInt8 ∧ ¬ IsSelector byte ∧
            ∃ later, rest = backslash :: byte :: later := by
  refine ⟨fun program => decode_eq_ok_iff, ?_, exists_decode_eq_error_iff, ?_⟩
  · intro tokens others isSource alsoSource
    exact (spell_unique stuck_nil stuck_nil (by rw [isSource, alsoSource])).1
  · rintro tokens rest rfl malformed
    constructor
    · intro others otherRest same otherMalformed
      exact spell_unique otherMalformed.2 malformed.2 same.symm
    · obtain ⟨fault, hasFault⟩ := malformed.exists_fault
      exact ⟨fault, decode_fault tokens hasFault, hasFault.endOfSource_iff,
        hasFault.malformedHexadecimal_iff, hasFault.unknown_iff⟩

end SourceEscape
end OneTape
