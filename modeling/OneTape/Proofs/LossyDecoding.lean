import OneTape.Utf8

/-!
# Lossy decoding

The decoder reads one byte at a time, with a range for the next one.  What it shows can
be said without this.  Bytes that begin with a character are shown as this character and
what the rest is shown as.  Bytes that do not are shown with a replacement character
for as long a stretch of them as could still have become a character, or for one byte
if there is no such stretch.

An unfinished character stands for the characters that may still come of it, and these
have numbers in an interval.  Its ends are what the ranges are for: no number in it is a
surrogate, too large, or small enough for fewer bytes.
-/

namespace OneTape
namespace Utf8

open String (utf8EncodeChar)

/-- The numbers that a given count of continuation bytes can tell apart. -/
def groups : Nat → Nat
  | 0 => 1
  | count + 1 => 0x40 * groups count

/-- The continuation bytes at the end of a character, with six bits each. -/
def continuation : Nat → Nat → List UInt8
  | 0, _ => []
  | count + 1, value =>
      UInt8.ofNat (0x80 + value / groups count % 0x40) :: continuation count value

/-- The least number that needs one more byte than a given count of continuation bytes. -/
def leastBehind : Nat → Nat
  | 0 => 0x80
  | 1 => 0x800
  | 2 => 0x10000
  | _ => 0x110000

/-- The least first byte before one more byte than a given count of continuation bytes. -/
def mark : Nat → Nat
  | 0 => 0xC0
  | 1 => 0xE0
  | 2 => 0xF0
  | _ => 0xF8

/-- What stands for a number: a byte of its own, or a first byte and continuation bytes. -/
inductive Form (value : Nat) : List UInt8 → Prop where
  | single (small : value < 0x80) : Form value [UInt8.ofNat value]
  | several {count : Nat} (few : count < 3) (large : leastBehind count ≤ value)
      (small : value < leastBehind (count + 1)) (noSurrogate : value < 0xD800 ∨ 0xDFFF < value) :
      Form value (UInt8.ofNat (mark count + value / groups (count + 1)) ::
        continuation (count + 1) value)

section Characters

theorem groups_pos (count : Nat) : 0 < groups count := by
  induction count with
  | zero => decide
  | succ count ih => exact Nat.mul_pos (by decide) ih

theorem div_groups_succ (value count : Nat) :
    value / groups (count + 1) = value / groups count / 0x40 := by
  rw [groups, Nat.mul_comm, Nat.div_div_eq_div_mul]

@[simp]
theorem length_continuation (count value : Nat) : (continuation count value).length = count := by
  induction count with
  | zero => rfl
  | succ count ih => rw [continuation, List.length_cons, ih]

theorem ofNat_eq_iff {value : Nat} {byte : UInt8} (small : value < 0x100) :
    UInt8.ofNat value = byte ↔ value = byte.toNat := by
  rw [← UInt8.toNat_inj, UInt8.toNat_ofNat', Nat.mod_eq_of_lt small]

theorem form_utf8EncodeChar (char : Char) : Form char.toNat (utf8EncodeChar char) := by
  have valid : char.toNat < 0xD800 ∨ 0xDFFF < char.toNat ∧ char.toNat < 0x110000 := char.valid
  have number : char.val.toNat = char.toNat := rfl
  have same : ∀ {first second : Nat}, first = second → UInt8.ofNat first = UInt8.ofNat second :=
    congrArg UInt8.ofNat
  unfold utf8EncodeChar
  simp only [number]
  generalize char.toNat = value at valid
  split
  · exact .single (by omega)
  have noSurrogate : value < 0xD800 ∨ 0xDFFF < value := by omega
  split
  · refine cast (congrArg (Form value) ?_)
      (@Form.several value 0 (by decide) (show 0x80 ≤ value by omega)
        (show value < 0x800 by omega) noSurrogate)
    simp only [continuation, groups, mark, List.cons.injEq, and_true]
    exact ⟨same (by omega), same (by omega)⟩
  split
  · refine cast (congrArg (Form value) ?_)
      (@Form.several value 1 (by decide) (show 0x800 ≤ value by omega)
        (show value < 0x10000 by omega) noSurrogate)
    simp only [continuation, groups, mark, List.cons.injEq, and_true]
    exact ⟨same (by omega), same (by omega), same (by omega)⟩
  · refine cast (congrArg (Form value) ?_)
      (@Form.several value 2 (by decide) (show 0x10000 ≤ value by omega)
        (show value < 0x110000 by omega) noSurrogate)
    simp only [continuation, groups, mark, List.cons.injEq, and_true]
    exact ⟨same (by omega), same (by omega), same (by omega), same (by omega)⟩

/-- The first byte of a form tells how many there are. -/
theorem first_lt_mark {count value : Nat} (few : count < 3)
    (small : value < leastBehind (count + 1)) :
    mark count + value / groups (count + 1) < mark (count + 1) := by
  obtain rfl | rfl | rfl : count = 0 ∨ count = 1 ∨ count = 2 := by omega
  all_goals
    simp only [mark, groups, leastBehind] at small ⊢
    omega

/-- The bounds of the forms set them apart. -/
theorem count_unique {bound : Nat → Nat}
    (apart : ∀ low < 3, ∀ high < 3, low < high → bound (low + 1) ≤ bound high)
    {first second value : Nat} (fewFirst : first < 3) (fewSecond : second < 3)
    (fromFirst : bound first ≤ value) (toFirst : value < bound (first + 1))
    (fromSecond : bound second ≤ value) (toSecond : value < bound (second + 1)) :
    first = second := by
  rcases Nat.lt_trichotomy first second with before | same | behind
  · have := apart first fewFirst second fewSecond before
    omega
  · exact same
  · have := apart second fewSecond first fewFirst behind
    omega

theorem Form.unique {value : Nat} {first second : List UInt8} (isFirst : Form value first)
    (isSecond : Form value second) : first = second := by
  have least : ∀ count < 3, 0x80 ≤ leastBehind count := by decide
  cases isFirst with
  | single small =>
      cases isSecond with
      | single => rfl
      | several few large =>
          have := least _ few
          omega
  | several few large small =>
      cases isSecond with
      | single =>
          have := least _ few
          omega
      | several otherFew otherLarge otherSmall =>
          obtain rfl := count_unique (by decide) few otherFew large small otherLarge otherSmall
          rfl

theorem tail_le_of_mem_continuation {count value : Nat} {byte : UInt8}
    (member : byte ∈ continuation count value) : 0x80 ≤ byte.toNat := by
  induction count with
  | zero => cases member
  | succ count ih =>
      rcases List.mem_cons.mp member with rfl | later
      · have bits : value / groups count % 0x40 < 0x40 := Nat.mod_lt _ (by decide)
        rw [UInt8.toNat_ofNat']
        omega
      · exact ih later

/-- An ASCII byte in the bytes of a character is that character. -/
theorem toNat_of_mem_utf8EncodeChar {char : Char} {byte : UInt8}
    (member : byte ∈ utf8EncodeChar char) (ascii : byte.toNat < 0x80) :
    char.toNat = byte.toNat := by
  have form := form_utf8EncodeChar char
  generalize utf8EncodeChar char = spelled at member form
  cases form with
  | single small =>
      rw [List.mem_singleton, eq_comm, ofNat_eq_iff (by omega)] at member
      exact member
  | @several count few large small =>
      have below := first_lt_mark few small
      have bounds : ∀ count < 3, 0x80 ≤ mark count ∧ mark (count + 1) ≤ 0x100 := by decide
      have := bounds count few
      have above : mark count ≤ mark count + char.toNat / groups (count + 1) :=
        Nat.le_add_right _ _
      rcases List.mem_cons.mp member with first | later
      · rw [eq_comm, ofNat_eq_iff (by omega)] at first
        omega
      · have := tail_le_of_mem_continuation later
        omega

theorem toNat_charOfNat {value : Nat} (valid : value.isValidChar) :
    (Char.ofNat value).toNat = value := by
  unfold Char.ofNat
  rw [dif_pos valid]
  rfl

/-- No character begins with another one. -/
theorem utf8EncodeChar_append_inj {first second : Char} {firstRest secondRest : List UInt8}
    (same : utf8EncodeChar first ++ firstRest = utf8EncodeChar second ++ secondRest) :
    first = second := by
  have decoded := congrArg (fun bytes : List UInt8 => bytes.toByteArray.utf8DecodeChar? 0) same
  simpa [List.toByteArray_append, ByteArray.utf8DecodeChar?_utf8EncodeChar_append] using decoded

end Characters

/-- Some character begins with these bytes. -/
def Begins (bytes : List UInt8) : Prop :=
  ∃ char, bytes <+: utf8EncodeChar char

theorem Begins.of_longer {bytes longer : List UInt8} (begins : Begins longer)
    (isPrefix : bytes <+: longer) : Begins bytes := by
  obtain ⟨char, longerPrefix⟩ := begins
  exact ⟨char, isPrefix.trans longerPrefix⟩

namespace Unfinished

/-- A number that the character may still turn out to have. -/
def Admits (state : Unfinished) (value : Nat) : Prop :=
  state.bits * 0x40 + state.least.toNat % 0x40 ≤ value / groups state.following ∧
    value / groups state.following ≤ state.bits * 0x40 + state.greatest.toNat % 0x40

/-- The next byte is in the range for it. -/
def Accepts (state : Unfinished) (byte : UInt8) : Prop :=
  state.least ≤ byte ∧ byte ≤ state.greatest

theorem accepts_iff {state : Unfinished} {byte : UInt8} :
    state.Accepts byte ↔
      state.least.toNat ≤ byte.toNat ∧ byte.toNat ≤ state.greatest.toNat := by
  rw [Accepts, UInt8.le_iff_toNat_le, UInt8.le_iff_toNat_le]

/-- What has been read of a character, and which characters it may become. -/
structure Holds (state : Unfinished) (held : List UInt8) : Prop where
  nonempty : held ≠ []
  fromTail : 0x80 ≤ state.least.toNat
  ordered : state.least.toNat ≤ state.greatest.toNat
  toTail : state.greatest.toNat < 0xC0
  valid : ∀ value, state.Admits value → value.isValidChar
  spelled : ∀ char : Char, state.Admits char.toNat →
    utf8EncodeChar char = held ++ continuation (state.following + 1) char.toNat
  admitted : ∀ char : Char, held <+: utf8EncodeChar char → state.Admits char.toNat

end Unfinished

section Lead

variable {byte : UInt8} {state : Unfinished}

/-- After the first byte, the range for the next one admits the numbers of a form. -/
theorem holds_of_first (few : state.following < 3) (fromMark : mark state.following ≤ byte.toNat)
    (toMark : byte.toNat < mark (state.following + 1)) (fromTail : 0x80 ≤ state.least.toNat)
    (ordered : state.least.toNat ≤ state.greatest.toNat) (toTail : state.greatest.toNat < 0xC0)
    (admits : ∀ value, state.Admits value ↔
      (leastBehind state.following ≤ value ∧ value < leastBehind (state.following + 1)) ∧
        (value < 0xD800 ∨ 0xDFFF < value) ∧
        mark state.following + value / groups (state.following + 1) = byte.toNat) :
    state.Holds [byte] := by
  have bytes : byte.toNat < 0x100 := byte.toNat_lt
  refine ⟨List.cons_ne_nil _ _, fromTail, ordered, toTail, ?_, ?_, ?_⟩
  · intro value admitted
    obtain ⟨⟨-, small⟩, noSurrogate, -⟩ := (admits value).mp admitted
    have bound : ∀ count < 3, leastBehind (count + 1) ≤ 0x110000 := by decide
    have := bound state.following few
    unfold Nat.isValidChar
    omega
  · intro char admitted
    obtain ⟨⟨large, small⟩, noSurrogate, first⟩ := (admits char.toNat).mp admitted
    have form := Form.several few large small noSurrogate
    rw [(ofNat_eq_iff (first ▸ bytes)).mpr first] at form
    exact (form_utf8EncodeChar char).unique form
  · intro char begins
    rw [admits]
    have form := form_utf8EncodeChar char
    generalize utf8EncodeChar char = spelled at begins form
    have least : ∀ count < 3, 0x80 ≤ mark count := by decide
    cases form with
    | single small =>
        have := least _ few
        rw [List.cons_prefix_cons, eq_comm, ofNat_eq_iff (by omega)] at begins
        omega
    | several otherFew large small noSurrogate =>
        have below := first_lt_mark otherFew small
        have limit : ∀ count < 3, mark (count + 1) ≤ 0x100 := by decide
        have := limit _ otherFew
        rw [List.cons_prefix_cons, eq_comm, ofNat_eq_iff (by omega)] at begins
        obtain ⟨first, -⟩ := begins
        obtain rfl := count_unique (by decide) few otherFew fromMark toMark
          (first ▸ Nat.le_add_right _ _) (first ▸ below)
        exact ⟨⟨large, small⟩, noSurrogate, first⟩

theorem utf8EncodeChar_ofNat_of_small (small : byte.toNat < 0x80) :
    utf8EncodeChar (Char.ofNat byte.toNat) = [byte] := by
  have valid : byte.toNat.isValidChar := .inl (by omega)
  have form := form_utf8EncodeChar (Char.ofNat byte.toNat)
  rw [toNat_charOfNat valid] at form
  have single := form.unique (.single small)
  rwa [UInt8.ofNat_toNat] at single

/-- Continuation bytes begin no character, nor do bytes that only longer or larger forms
than there are would begin with. -/
theorem not_begins (least : 0x80 ≤ byte.toNat) (noFirst : byte.toNat < 0xC2 ∨ 0xF5 ≤ byte.toNat) :
    ¬ Begins [byte] := by
  rintro ⟨char, begins⟩
  have form := form_utf8EncodeChar char
  generalize utf8EncodeChar char = spelled at begins form
  cases form with
  | single small =>
      rw [List.cons_prefix_cons, eq_comm, ofNat_eq_iff (by omega)] at begins
      omega
  | @several count few large small =>
      obtain rfl | rfl | rfl : count = 0 ∨ count = 1 ∨ count = 2 := by omega
      all_goals
        simp only [leastBehind] at large small
        rw [List.cons_prefix_cons, eq_comm, ofNat_eq_iff] at begins <;>
          simp only [mark, groups] at * <;> omega

/-- What a byte leads to fits to the characters that begin with it. -/
def Lead.Fits (byte : UInt8) : Lead → Prop
  | character char => utf8EncodeChar char = [byte]
  | unfinished state => state.Holds [byte]
  | invalid => ¬ Begins [byte]

theorem fits_lead (byte : UInt8) : (lead byte).Fits byte := by
  unfold lead
  dsimp only
  split
  · exact utf8EncodeChar_ofNat_of_small (by omega)
  split
  · exact not_begins (by omega) (by omega)
  -- For each kind of first bytes, the bounds are a matter of arithmetic.
  iterate 7
    split
    · apply holds_of_first <;> simp [mark, groups, leastBehind, Unfinished.Admits] <;> omega
  exact not_begins (by omega) (by omega)

end Lead

namespace Unfinished.Holds

variable {state : Unfinished} {held : List UInt8} {byte : UInt8}

/-- A byte that goes on with a character is accepted, and tells which numbers are left. -/
theorem accepts_next (holds : state.Holds held) {char : Char}
    (begins : held ++ [byte] <+: utf8EncodeChar char) :
    state.Accepts byte ∧
      char.toNat / groups state.following = state.bits * 0x40 + byte.toNat % 0x40 := by
  obtain ⟨-, fromTail, ordered, toTail, -, spelled, admitted⟩ := holds
  have admits := admitted char ((List.prefix_append _ _).trans begins)
  rw [spelled char admits, List.prefix_append_right_inj, continuation, List.cons_prefix_cons,
    eq_comm, ofNat_eq_iff (by omega)] at begins
  obtain ⟨atLeast, atMost⟩ := admits
  rw [accepts_iff]
  omega

section Accepted

variable (holds : state.Holds held) (accepts : state.Accepts byte)

include holds accepts

theorem valid_next {value : Nat}
    (left : value / groups state.following = state.bits * 0x40 + byte.toNat % 0x40) :
    value.isValidChar := by
  have fromTail := holds.fromTail
  have toTail := holds.toTail
  rw [accepts_iff] at accepts
  exact holds.valid value ⟨by omega, by omega⟩

/-- An accepted byte goes on with every character whose number it leaves. -/
theorem spelled_next {char : Char}
    (left : char.toNat / groups state.following = state.bits * 0x40 + byte.toNat % 0x40) :
    utf8EncodeChar char = held ++ [byte] ++ continuation state.following char.toNat := by
  have fromTail := holds.fromTail
  have toTail := holds.toTail
  rw [accepts_iff] at accepts
  have next : UInt8.ofNat (0x80 + char.toNat / groups state.following % 0x40) = byte := by
    rw [ofNat_eq_iff (by omega)]
    omega
  rw [holds.spelled char ⟨by omega, by omega⟩, continuation, next, List.append_assoc,
    List.singleton_append]

theorem begins_next : Begins (held ++ [byte]) := by
  let value := (state.bits * 0x40 + byte.toNat % 0x40) * groups state.following
  have left : value / groups state.following = state.bits * 0x40 + byte.toNat % 0x40 :=
    Nat.mul_div_cancel _ (groups_pos _)
  have number := toNat_charOfNat (holds.valid_next accepts left)
  rw [← number] at left
  exact ⟨_, holds.spelled_next accepts left ▸ List.prefix_append _ _⟩

theorem complete (last : state.following = 0) :
    utf8EncodeChar (Char.ofNat (state.bits * 0x40 + byte.toNat % 0x40)) = held ++ [byte] := by
  have left : (state.bits * 0x40 + byte.toNat % 0x40) / groups state.following =
      state.bits * 0x40 + byte.toNat % 0x40 := by
    rw [last]
    exact Nat.div_one _
  have number := toNat_charOfNat (holds.valid_next accepts left)
  rw [← number] at left
  rw [holds.spelled_next accepts (left.trans number), last]
  exact List.append_nil _

theorem next {following : Nat} (more : state.following = following + 1) :
    ({ bits := state.bits * 0x40 + byte.toNat % 0x40, following } : Unfinished).Holds
      (held ++ [byte]) := by
  -- The six bits of the next byte are all that the new state has not settled.
  have admits : ∀ value, ({ bits := state.bits * 0x40 + byte.toNat % 0x40, following } :
      Unfinished).Admits value ↔
      value / groups state.following = state.bits * 0x40 + byte.toNat % 0x40 := by
    intro value
    have tail : (0x80 : UInt8).toNat % 0x40 = 0 := rfl
    have full : (0xBF : UInt8).toNat % 0x40 = 0x3F := rfl
    rw [more, div_groups_succ]
    simp only [Admits, tail, full]
    omega
  constructor
  case nonempty => simp
  case fromTail => exact Nat.le_refl 0x80
  case ordered => exact (by decide : 0x80 ≤ 0xBF)
  case toTail => exact (by decide : 0xBF < 0xC0)
  case valid =>
    intro value left
    exact holds.valid_next accepts ((admits value).mp left)
  case spelled =>
    intro char left
    rw [holds.spelled_next accepts ((admits char.toNat).mp left), more]
  case admitted =>
    intro char begins
    exact (admits char.toNat).mpr (holds.accepts_next begins).2

end Accepted

theorem begins (holds : state.Holds held) : Begins held := by
  have accepts : state.Accepts state.least := accepts_iff.mpr ⟨Nat.le_refl _, holds.ordered⟩
  exact (holds.begins_next accepts).of_longer (List.prefix_append _ _)

/-- No character ends where an unfinished one does, or before. -/
theorem not_spelled (holds : state.Holds held) (other : Char) :
    ¬ utf8EncodeChar other <+: held := by
  intro isPrefix
  obtain ⟨char, begins⟩ := holds.begins
  obtain ⟨rest, same⟩ := isPrefix.trans begins
  have whole : utf8EncodeChar other ++ rest = utf8EncodeChar char ++ [] := by
    rw [same, List.append_nil]
  obtain rfl := utf8EncodeChar_append_inj whole
  have shorter := isPrefix.length_le
  rw [holds.spelled _ (holds.admitted _ begins), List.length_append, length_continuation] at shorter
  omega

end Unfinished.Holds

/-- The longest stretch at the beginning of some bytes that could still have become a
character, or their first byte if there is none, where no character stands. -/
structure MaximalSubpart (part rest : List UInt8) : Prop where
  noCharacter : ∀ char, ¬ utf8EncodeChar char <+: part ++ rest
  nonempty : part ≠ []
  beginsOrSingle : Begins part ∨ part.length = 1
  longest : ∀ longer, longer <+: part ++ rest → part.length < longer.length → ¬ Begins longer

/-- What is shown of some bytes. -/
inductive Shows : List UInt8 → List Char → Prop where
  | nil : Shows [] []
  | character (char : Char) {rest : List UInt8} {text : List Char} (shows : Shows rest text) :
      Shows (utf8EncodeChar char ++ rest) (char :: text)
  | replaced {part rest : List UInt8} {text : List Char} (subpart : MaximalSubpart part rest)
      (shows : Shows rest text) : Shows (part ++ rest) (replacement :: text)

section Subparts

variable {part rest : List UInt8} {byte : UInt8}

/-- It is enough that the stretch holds no character and cannot be made longer by a byte. -/
theorem maximalSubpart_of_next (noCharacter : ∀ char, ¬ utf8EncodeChar char <+: part)
    (nonempty : part ≠ []) (beginsOrSingle : Begins part ∨ part.length = 1)
    (stuck : ∀ next, rest.head? = some next → ¬ Begins (part ++ [next])) :
    MaximalSubpart part rest := by
  have longest : ∀ longer, longer <+: part ++ rest → part.length < longer.length →
      ¬ Begins longer := by
    intro longer isPrefix isLonger begins
    cases rest with
    | nil =>
        have := isPrefix.length_le
        rw [List.append_nil] at this
        omega
    | cons next rest =>
        have oneMore : part ++ [next] <+: part ++ next :: rest := by simp
        apply stuck next rfl
        apply begins.of_longer
        apply List.prefix_of_prefix_length_le oneMore isPrefix
        simpa using Nat.succ_le_of_lt isLonger
  refine ⟨?_, nonempty, beginsOrSingle, longest⟩
  intro char isPrefix
  rcases Nat.lt_or_ge part.length (utf8EncodeChar char).length with isLonger | isShorter
  · exact longest _ isPrefix isLonger ⟨char, List.prefix_rfl⟩
  · exact noCharacter char
      (List.prefix_of_prefix_length_le isPrefix (List.prefix_append _ _) isShorter)

theorem maximalSubpart_single (notBegins : ¬ Begins [byte]) (rest : List UInt8) :
    MaximalSubpart [byte] rest := by
  apply maximalSubpart_of_next
  case noCharacter =>
    intro char isPrefix
    rcases List.prefix_cons_iff.mp isPrefix with nothing | ⟨tail, spelled, nothing⟩
    · exact String.utf8EncodeChar_ne_nil nothing
    · rw [List.prefix_nil] at nothing
      have whole : String.utf8EncodeChar char = [byte] := by rw [spelled, nothing]
      exact notBegins ⟨char, whole ▸ List.prefix_rfl⟩
  case nonempty => exact List.cons_ne_nil _ _
  case beginsOrSingle => exact .inr rfl
  case stuck =>
    intro next _ begins
    exact notBegins (begins.of_longer (List.prefix_append _ _))

theorem Unfinished.Holds.maximalSubpart {state : Unfinished} (holds : state.Holds part)
    (refused : ∀ next, rest.head? = some next → ¬ state.Accepts next) :
    MaximalSubpart part rest := by
  apply maximalSubpart_of_next holds.not_spelled holds.nonempty (.inl holds.begins)
  rintro next isNext ⟨char, begins⟩
  exact refused next isNext (holds.accepts_next begins).1

theorem MaximalSubpart.length_le {otherPart otherRest : List UInt8}
    (subpart : MaximalSubpart part rest) (otherSubpart : MaximalSubpart otherPart otherRest)
    (same : part ++ rest = otherPart ++ otherRest) : otherPart.length ≤ part.length := by
  apply Nat.le_of_not_lt
  intro isLonger
  have isPrefix : otherPart <+: part ++ rest := ⟨otherRest, same.symm⟩
  have nonempty := List.length_pos_iff.mpr subpart.nonempty
  rcases otherSubpart.beginsOrSingle with begins | single
  · exact subpart.longest otherPart isPrefix (by omega) begins
  · omega

/-- What is shown of some bytes is determined. -/
theorem Shows.unique {bytes : List UInt8} {first second : List Char} (isFirst : Shows bytes first)
    (isSecond : Shows bytes second) : first = second := by
  induction isFirst generalizing second with
  | nil =>
      generalize nothing : [] = bytes at isSecond
      cases isSecond with
      | nil => rfl
      | character char => simp [String.utf8EncodeChar_ne_nil] at nothing
      | replaced subpart => simp [subpart.nonempty] at nothing
  | character char shows ih =>
      generalize same : utf8EncodeChar char ++ _ = bytes at isSecond
      cases isSecond with
      | nil => simp [String.utf8EncodeChar_ne_nil] at same
      | character other otherShows =>
          obtain rfl := utf8EncodeChar_append_inj same
          obtain rfl := List.append_cancel_left same
          rw [ih otherShows]
      | replaced subpart => exact absurd ⟨_, same⟩ (subpart.noCharacter char)
  | @replaced part rest text subpart shows ih =>
      generalize same : part ++ rest = bytes at isSecond
      cases isSecond with
      | nil => simp [subpart.nonempty] at same
      | character char => exact absurd ⟨_, same.symm⟩ (subpart.noCharacter char)
      | replaced otherSubpart otherShows =>
          have lengths := Nat.le_antisymm (otherSubpart.length_le subpart same.symm)
            (subpart.length_le otherSubpart same)
          obtain ⟨-, rfl⟩ := List.append_inj same lengths
          rw [ih otherShows]

theorem Shows.of_spelled {char : Char} {bytes : List UInt8} {text : List Char}
    (spelled : utf8EncodeChar char = bytes) (shows : Shows rest text) :
    Shows (bytes ++ rest) (char :: text) :=
  spelled ▸ .character char shows

end Subparts

namespace Reading

/-- The bytes that a reading has taken but not yet shown. -/
def Holds (reading : Reading) (held : List UInt8) : Prop :=
  match reading.pending with
  | none => held = []
  | some state => state.Holds held

/-- Taking a byte shows some characters, and what is then held is shown later. -/
def Advances (before after : Reading) (held : List UInt8) (byte : UInt8) : Prop :=
  ∃ added kept, after.shown.toList = before.shown.toList ++ added ∧ after.Holds kept ∧
    ∀ rest text, Shows (kept ++ rest) text → Shows (held ++ byte :: rest) (added ++ text)

theorem advances_startCharacter (shown : Array Char) (byte : UInt8) :
    Advances { shown } (startCharacter shown byte) [] byte := by
  have fits := fits_lead byte
  unfold startCharacter
  split
  · rename_i char leads
    rw [leads] at fits
    refine ⟨[char], [], by simp, rfl, ?_⟩
    intro rest text shows
    have whole : Shows ([byte] ++ rest) (char :: text) :=
      shows.of_spelled fits
    exact whole
  · rename_i state leads
    rw [leads] at fits
    exact ⟨[], [byte], by simp, fits, fun _ _ shows => shows⟩
  · rename_i leads
    rw [leads] at fits
    refine ⟨[replacement], [], by simp, rfl, ?_⟩
    intro rest text shows
    have whole : Shows ([byte] ++ rest) (replacement :: text) :=
      .replaced (maximalSubpart_single fits rest) shows
    exact whole

theorem advances_feed {reading : Reading} {held : List UInt8} (holds : reading.Holds held)
    (byte : UInt8) : Advances reading (reading.feed byte) held byte := by
  obtain ⟨shown, pending⟩ := reading
  cases pending with
  | none =>
      obtain rfl : held = [] := holds
      exact advances_startCharacter shown byte
  | some state =>
      have holds : state.Holds held := holds
      unfold feed
      dsimp only
      split
      · rename_i accepts
        split
        · rename_i last
          refine ⟨[Char.ofNat (state.bits * 0x40 + byte.toNat % 0x40)], [], by simp, rfl, ?_⟩
          intro rest text shows
          have spelled := shows.of_spelled (holds.complete accepts last)
          simpa using spelled
        · rename_i following more
          refine ⟨[], held ++ [byte], by simp, holds.next accepts more, ?_⟩
          intro rest text shows
          simpa using shows
      · rename_i refused
        obtain ⟨added, kept, shownNext, holdsNext, showsNext⟩ :=
          advances_startCharacter (shown.push replacement) byte
        refine ⟨replacement :: added, kept, by simp [shownNext], holdsNext, ?_⟩
        intro rest text shows
        refine .replaced (holds.maximalSubpart ?_) (showsNext rest text shows)
        rintro next ⟨rfl⟩
        exact refused

theorem shows_finish {reading : Reading} {held : List UInt8} (holds : reading.Holds held)
    (bytes : List UInt8) :
    ∃ text, Shows (held ++ bytes) text ∧
      (bytes.foldl feed reading).finish = reading.shown.toList ++ text := by
  induction bytes generalizing reading held with
  | nil =>
      obtain ⟨shown, pending⟩ := reading
      cases pending with
      | none =>
          obtain rfl : held = [] := holds
          exact ⟨[], .nil, by simp [finish]⟩
      | some state =>
          have holds : state.Holds held := holds
          have subpart : MaximalSubpart held [] := holds.maximalSubpart (by simp)
          exact ⟨[replacement], .replaced subpart .nil, by simp [finish]⟩
  | cons byte bytes ih =>
      obtain ⟨added, kept, shown, holdsNext, shows⟩ := advances_feed holds byte
      obtain ⟨text, showsRest, finish⟩ := ih holdsNext
      refine ⟨added ++ text, shows bytes text showsRest, ?_⟩
      rw [List.foldl_cons, finish, shown, List.append_assoc]

end Reading

/-- The decoder shows what there is to be shown. -/
theorem decodeLossy_eq_iff {bytes : List UInt8} {text : List Char} :
    decodeLossy bytes = text ↔ Shows bytes text := by
  have fresh : Reading.Holds {} [] := rfl
  obtain ⟨shown, shows, finish⟩ := Reading.shows_finish fresh bytes
  have decoded : decodeLossy bytes = shown := by simpa [decodeLossy] using finish
  rw [decoded]
  constructor
  · rintro rfl
    exact shows
  · exact shows.unique

/-- Characters that stand whole at the beginning are shown as they are. -/
theorem decodeLossy_encode_append (text : List Char) (bytes : List UInt8) :
    decodeLossy (encode text ++ bytes) = text ++ decodeLossy bytes := by
  rw [decodeLossy_eq_iff]
  induction text with
  | nil => exact decodeLossy_eq_iff.mp rfl
  | cons char text ih =>
      have later := Shows.character char ih
      rwa [← List.append_assoc] at later

end Utf8
end OneTape
