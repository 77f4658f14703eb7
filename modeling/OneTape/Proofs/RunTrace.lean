import OneTape.ProgramLog
import OneTape.Proofs.ProgramReport
import OneTape.Proofs.RunsAsSteps

/-!
# The trace of a run

A trace has one line for each step that the machine counts, the one that halts it
included.  No line can be broken by what is on the tape, because bytes are shown by
glyphs, and no glyph is a control character.
-/

namespace OneTape

section Characters

/-- Characters that stay on their line: no control characters. -/
def Inline (char : Char) : Prop :=
  0x20 ≤ char.toNat

instance (char : Char) : Decidable (Inline char) :=
  inferInstanceAs (Decidable (_ ≤ _))

def InlineText (text : List Char) : Prop :=
  ∀ char ∈ text, Inline char

instance (text : List Char) : Decidable (InlineText text) :=
  List.decidableBAll Inline text

theorem InlineText.append {first second : List Char} (isFirst : InlineText first)
    (isSecond : InlineText second) : InlineText (first ++ second) :=
  List.forall_mem_append.mpr ⟨isFirst, isSecond⟩

theorem InlineText.cons {char : Char} {text : List Char} (isFirst : Inline char)
    (isRest : InlineText text) : InlineText (char :: text) :=
  List.forall_mem_cons.mpr ⟨isFirst, isRest⟩

/-- Inline text has no control character, and so no line end. -/
theorem InlineText.not_mem {text : List Char} (inline : InlineText text) {char : Char}
    (isControl : ¬ Inline char) : char ∉ text :=
  fun member => isControl (inline char member)

theorem inline_ofNat (value : Nat) : InlineText (Numeral.ofNat value) := by
  intro char member
  have digit := Numeral.isDigit_of_mem_ofNat member
  exact Nat.le_trans (by decide) (Char.isDigit_iff_toNat.mp digit).1

theorem inline_ofInt (value : Int) : InlineText (Numeral.ofInt value) := by
  cases value with
  | ofNat value => exact inline_ofNat value
  | negSucc value => exact .cons (by decide) (inline_ofNat (value + 1))

end Characters

namespace TapeView

theorem inline_alignedLeft (width : Nat) (value : Int) :
    InlineText (alignedLeft width value) := by
  refine .append (inline_ofInt value) fun char member => ?_
  rw [List.eq_of_mem_replicate member]
  decide

theorem inline_glyph (byte : UInt8) : InlineText (glyph byte) := by
  have every : ∀ byte, InlineText (glyph byte) := forall_byte (by decide +kernel)
  exact every byte

theorem inline_marked {text : List Char} (inline : InlineText text) (atProgram atData : Bool) :
    InlineText (marked atProgram atData text) := by
  have braced : InlineText (if atData then '\x7b' :: text ++ ['\x7d'] else text) := by
    cases atData with
    | true => exact .cons (by decide) (.append inline (by decide))
    | false => exact inline
  cases atProgram with
  | true => exact .cons (by decide) (.append braced (by decide))
  | false => exact braced

theorem inline_traceLine (machine : Machine) :
    ∀ span ∈ traceLine machine, InlineText span.text := by
  intro span member
  rcases List.mem_cons.mp member with rfl | isCell
  · exact .append (.append (.append (.append (.append (.append (by decide)
      (inline_alignedLeft _ _)) (by decide)) (inline_alignedLeft _ _)) (by decide))
      (inline_alignedLeft _ _)) (by decide)
  · obtain ⟨entry, -, rfl⟩ := List.mem_map.mp isCell
    exact inline_marked (inline_glyph entry.2) _ _

end TapeView

/-- Control sequences hold no line ends either. -/
theorem newline_not_mem_renderSpans {spans : List Span}
    (inline : ∀ span ∈ spans, InlineText span.text) (colored : Bool) :
    '\n' ∉ renderSpans colored spans := by
  have selects : ∀ style : Style, '\n' ∉ style.sequence := by
    intro style
    cases style <;> decide
  intro member
  obtain ⟨span, isSpan, member⟩ := List.mem_flatMap.mp member
  have plain : '\n' ∉ span.text := (inline span isSpan).not_mem (by decide)
  unfold Span.render at member
  split at member
  · rcases List.mem_append.mp member with front | reset
    · rcases List.mem_append.mp front with select | text
      · exact selects _ select
      · exact plain text
    · exact selects _ reset
  · exact plain member

namespace Machine

section Observe

variable {α : Type} (view : Machine → α) {machine : Machine}

theorem steps_step (machine : Machine) (count : Nat) :
    machine.step.2.steps count = machine.steps (count + 1) := by
  rw [Nat.add_comm, steps_add]
  rfl

/-- The views of a run are those after each of its steps. -/
theorem observe_fst {fuel count : Nat} (views : Array α)
    (running : ∀ index < count, (machine.steps index).halt = none)
    (halted : (machine.steps count).isHalted) (enough : count ≤ fuel) :
    (observe view fuel machine views).1.toList =
      views.toList ++ (List.range count).map fun index => view (machine.steps (index + 1)) := by
  induction count generalizing fuel machine views with
  | zero =>
      have already : machine.isHalted := halted
      cases fuel <;> simp [observe, already]
  | succ count ih =>
      obtain ⟨fuel, rfl⟩ : ∃ smaller, fuel = smaller + 1 := ⟨fuel - 1, by omega⟩
      have runs : machine.isHalted = false := by
        have first : machine.halt = none := running 0 (Nat.succ_pos count)
        simp [isHalted, first]
      have laterRunning : ∀ index < count, (machine.step.2.steps index).halt = none := by
        intro index before
        rw [steps_step]
        exact running (index + 1) (Nat.succ_lt_succ before)
      have laterHalted : (machine.step.2.steps count).isHalted := by rwa [steps_step]
      rw [observe, if_neg (by simp [runs])]
      rw [ih _ laterRunning laterHalted (Nat.le_of_succ_le_succ enough), List.range_succ_eq_map,
        Array.toList_push, List.append_assoc]
      simp only [steps_step, List.map_cons, List.map_map, Function.comp_def,
        List.singleton_append]
      rfl

/-- There are as many views of a run as it counts steps. -/
theorem observe_run (machine : Machine) :
    (machine.observe view machine.remainingSteps #[]).1.toList =
      (List.range (machine.run.stepCount - machine.stepCount)).map fun index =>
        view (machine.steps (index + 1)) := by
  obtain ⟨count, ends, running⟩ := machine.exists_steps_eq_run
  have halted : (machine.steps count).isHalted := by
    rw [ends]
    exact machine.isHalted_run
  have counts : machine.run.stepCount - machine.stepCount = count := by
    rw [← ends, stepCount_steps running]
    omega
  -- The bound on the number of steps does not cut the views short.
  have enough : count ≤ machine.remainingSteps := by
    have ended : (machine.steps machine.remainingSteps).isHalted := by
      rw [← advance_eq_steps]
      exact machine.isHalted_run
    by_contra short
    have runs := running machine.remainingSteps (Nat.not_le.mp short)
    simp [isHalted, runs] at ended
  rw [counts, observe_fst view #[] running halted enough]
  rfl

end Observe
end Machine

namespace Program

theorem traceText_eq (colored : Bool) (machine : Machine) :
    traceText colored machine =
      (List.range (machine.run.stepCount - machine.stepCount)).flatMap fun index =>
        traceRow colored (machine.steps (index + 1)) :=
  congrArg List.flatten (machine.observe_run (traceRow colored))

end Program
end OneTape
