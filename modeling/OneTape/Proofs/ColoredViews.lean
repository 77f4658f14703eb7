import OneTape.Proofs.LossyDecoding
import OneTape.Proofs.TapeTable

/-!
# Colours

A view in colours has control sequences in it, and a terminal takes them out again.  What
is left has to be the plain view, whatever bytes are on the tape, even if the cells spell
a control sequence.  They cannot complete one, because a control sequence begins with the
escape character, which is shown as a dot.

To take out the control sequences is told as a relation between two texts, which reads
the first one from left to right.  No control sequence is the beginning of another one,
so that the relation leaves no choice.
-/

namespace OneTape

/-- The character that control sequences begin with. -/
def escape : Char := '\x1b'

/-- A control sequence that selects a colour: a bracket, digits and an `m` behind the
escape character. -/
inductive IsControl : List Char → Prop where
  | intro {digits : List Char} (nonempty : digits ≠ []) (areDigits : ∀ digit ∈ digits, digit.isDigit) :
      IsControl (escape :: '[' :: (digits ++ ['m']))

/-- A text, and the same text without any control sequence that occurs in it. -/
inductive Strips : List Char → List Char → Prop where
  | nil : Strips [] []
  | control {control rest kept : List Char} (isControl : IsControl control)
      (strips : Strips rest kept) : Strips (control ++ rest) kept
  | keep {char : Char} {rest kept : List Char}
      (noControl : ∀ control, IsControl control → ¬ control <+: char :: rest)
      (strips : Strips rest kept) : Strips (char :: rest) (char :: kept)

theorem IsControl.unique {first second firstRest secondRest : List Char}
    (isFirst : IsControl first) (isSecond : IsControl second)
    (same : first ++ firstRest = second ++ secondRest) : first = second := by
  have noLetter : ∀ {digits : List Char}, (∀ digit ∈ digits, digit.isDigit) → 'm' ∉ digits := by
    intro digits areDigits member
    have letter := areDigits 'm' member
    contradiction
  cases isFirst with
  | intro _ firstDigits =>
      cases isSecond with
      | intro _ secondDigits =>
          simp only [List.cons_append, List.append_assoc, List.cons.injEq, true_and,
            List.nil_append] at same
          rw [(append_cons_inj (noLetter firstDigits) (noLetter secondDigits) same).1]

theorem Strips.unique {text first second : List Char} (isFirst : Strips text first)
    (isSecond : Strips text second) : first = second := by
  induction isFirst generalizing second with
  | nil =>
      generalize nothing : [] = text at isSecond
      cases isSecond with
      | nil => rfl
      | control isControl =>
          cases isControl
          cases nothing
      | keep => cases nothing
  | @control control rest kept isControl strips ih =>
      generalize same : control ++ rest = text at isSecond
      cases isSecond with
      | nil =>
          cases isControl
          cases same
      | control otherControl otherStrips =>
          obtain rfl := isControl.unique otherControl same
          obtain rfl := List.append_cancel_left same
          exact ih otherStrips
      | keep noControl => exact absurd ⟨rest, same⟩ (noControl control isControl)
  | @keep char rest kept noControl strips ih =>
      generalize same : char :: rest = text at isSecond
      cases isSecond with
      | nil => cases same
      | control isControl => exact absurd ⟨_, same.symm⟩ (noControl _ isControl)
      | keep _ otherStrips =>
          obtain ⟨rfl, rfl⟩ := List.cons.inj same
          rw [ih otherStrips]

/-- Text without the escape character is kept. -/
theorem Strips.append {rest kept : List Char} (strips : Strips rest kept) {text : List Char}
    (plain : escape ∉ text) : Strips (text ++ rest) (text ++ kept) := by
  induction text with
  | nil => exact strips
  | cons char text ih =>
      rw [List.mem_cons, not_or] at plain
      refine .keep ?_ (ih plain.2)
      rintro control ⟨⟩ isPrefix
      exact plain.1 (List.cons_prefix_cons.mp isPrefix).1

theorem Style.isControl_sequence (style : Style) : IsControl style.sequence := by
  have areDigits : style.parameter.toList.all Char.isDigit := by cases style <;> rfl
  apply IsControl.intro
  case nonempty => cases style <;> decide
  case areDigits => exact List.all_eq_true.mp areDigits

theorem Strips.render {rest kept : List Char} (strips : Strips rest kept) {span : Span}
    (plain : escape ∉ span.text) : Strips (span.render true ++ rest) (span.text ++ kept) := by
  cases styled : span.style with
  | none =>
      have rendered : span.render true = span.text := by simp [Span.render, styled]
      rw [rendered]
      exact strips.append plain
  | some style =>
      have rendered : span.render true =
          style.sequence ++ span.text ++ Style.regular.sequence := by simp [Span.render, styled]
      rw [rendered, List.append_assoc, List.append_assoc]
      exact .control style.isControl_sequence
        ((Strips.control Style.regular.isControl_sequence strips).append plain)

theorem mem_renderSpans {spans : List Span} {char : Char} :
    char ∈ renderSpans false spans ↔ ∃ span ∈ spans, char ∈ span.text := by
  simp [renderSpans]

/-- In colours or not, spans without the escape character show the same. -/
theorem strips_renderSpans {spans : List Span} (plain : escape ∉ renderSpans false spans) :
    Strips (renderSpans true spans) (renderSpans false spans) := by
  induction spans with
  | nil => exact .nil
  | cons span spans ih =>
      simp only [renderSpans, List.flatMap_cons, Span.render_plain, List.mem_append, not_or] at *
      exact (ih plain.2).render plain.1

/-- A text without the escape character has no escape byte either. -/
theorem escape_not_mem_encode {text : List Char} (plain : escape ∉ text) :
    0x1B ∉ Utf8.encode text := by
  intro member
  obtain ⟨char, inText, byte⟩ := List.mem_flatMap.mp member
  have number := Utf8.toNat_of_mem_utf8EncodeChar byte (by decide)
  have isEscape : char = escape := Char.toNat_inj.mp number
  exact plain (isEscape ▸ inText)

namespace TapeView

/-- The ways to look at a machine. -/
inductive View where
  | table (layout : Layout)
  | traceLine
  deriving DecidableEq

def View.spans (machine : Machine) : View → List Span
  | table layout => TapeView.table layout machine
  | traceLine => TapeView.traceLine machine

theorem escape_not_mem_spans (view : View) (machine : Machine) :
    escape ∉ renderSpans false (view.spans machine) := by
  intro member
  cases view with
  | table layout =>
      rw [View.spans, renderSpans_table, List.mem_flatMap] at member
      obtain ⟨line, isLine, member⟩ := member
      obtain ⟨row, -, rfl⟩ := List.mem_map.mp isLine
      rcases List.mem_append.mp member with inLine | isNewline
      · exact (row.inline_line layout).not_mem (by decide) inLine
      · cases List.mem_singleton.mp isNewline
  | traceLine =>
      obtain ⟨span, isSpan, member⟩ := mem_renderSpans.mp member
      exact (inline_traceLine machine span isSpan).not_mem (by decide) member

/-- A table in either layout and a trace line are the same with colours and without, but
for the control sequences.  What is left when these are taken out is the plain view, and
no control sequence can begin in it, whatever is on the tape. -/
theorem colors_only_decorate (view : View) (machine : Machine) :
    let colored := renderSpans true (view.spans machine)
    let plain := renderSpans false (view.spans machine)
    (∀ kept, Strips colored kept ↔ kept = plain) ∧ escape ∉ plain ∧ 0x1B ∉ Utf8.encode plain := by
  intro colored plain
  have noEscape : escape ∉ plain := escape_not_mem_spans view machine
  have strips : Strips colored plain := strips_renderSpans noEscape
  refine ⟨fun kept => ⟨fun other => other.unique strips, ?_⟩, noEscape,
    escape_not_mem_encode noEscape⟩
  rintro rfl
  exact strips

/-- Five cells that spell a control sequence. -/
example :
    renderSpans false (View.traceLine.spans
      (Machine.load [0x1B, 0x5B, 0x33, 0x31, 0x6D] { decodeEscapes := false })) =
      "#0      p=-1    d=0     \x7b·\x7d[31m".toList := by
  decide

end TapeView
end OneTape
