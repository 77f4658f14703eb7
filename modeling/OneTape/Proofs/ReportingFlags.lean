import OneTape.Proofs.RunTrace

/-!
# What is shown of a run

A trace, a table and colours may be asked for, and go to standard error together
with the diagnostics.  They do not interfere with the run: its exit status and its
output are the same without them.

A logger writes to standard error as well.  Whatever it writes, the rest is the same.
If it logs warnings only, then what it writes comes first, and that is nothing unless
the source has a malformed escape.
-/

namespace OneTape
namespace Program

/-- What the program writes to standard error itself. -/
def shownText (pieces : List ErrorPiece) : List Char :=
  pieces.flatMap fun
    | .shown text => text
    | .logged _ => []

@[simp]
theorem shownText_append (first second : List ErrorPiece) :
    shownText (first ++ second) = shownText first ++ shownText second :=
  List.flatMap_append

@[simp]
theorem shownText_logged (events : List LogEvent) : shownText (events.map .logged) = [] := by
  simp [shownText]

/-- Where a logger is silent, there is what the program writes itself. -/
theorem text_of_silent {logger : Logger} {pieces : List ErrorPiece}
    (silent : ∀ event, .logged event ∈ pieces → ∀ number, logger.write number event = [])
    (number : Nat) : logger.text number pieces = shownText pieces := by
  induction pieces generalizing number with
  | nil => rfl
  | cons piece pieces ih =>
      have later := ih fun event member => silent event (List.mem_cons_of_mem _ member)
      cases piece with
      | shown text => exact congrArg (text ++ ·) (later number)
      | logged event =>
          rw [Logger.text, silent event List.mem_cons_self, later]
          rfl

section Narrate

variable {about : Machine → List ErrorPiece}

theorem narrate_snd (count : Nat) (machine : Machine) :
    (machine.narrate about count).2 = machine.advance count := by
  induction count generalizing machine with
  | zero => rfl
  | succ count ih =>
      unfold Machine.narrate Machine.advance
      split
      · rfl
      · exact ih _

theorem mem_narrate {count : Nat} {machine : Machine} {piece : ErrorPiece}
    (member : piece ∈ (machine.narrate about count).1) : ∃ other, piece ∈ about other := by
  induction count generalizing machine with
  | zero => cases member
  | succ count ih =>
      unfold Machine.narrate at member
      split at member
      · cases member
      · rcases List.mem_append.mp member with first | later
        · exact ⟨machine, first⟩
        · exact ih later

/-- What is shown of a run is what is seen after each of its steps. -/
theorem shownText_narrate {view : Machine → List Char}
    (shows : ∀ machine, shownText (about machine) = view machine.step.2) (count : Nat)
    (machine : Machine) (views : Array (List Char)) :
    (machine.observe view count views).1.toList.flatten =
      views.toList.flatten ++ shownText (machine.narrate about count).1 := by
  induction count generalizing machine views with
  | zero => simp [Machine.observe, Machine.narrate, shownText]
  | succ count ih =>
      unfold Machine.observe Machine.narrate
      split
      · simp [shownText]
      · rw [ih, shownText_append, shows]
        simp

theorem shownText_narrate_loggedStep (count : Nat) (machine : Machine) :
    shownText (machine.narrate loggedStep count).1 = [] := by
  refine List.flatMap_eq_nil_iff.mpr fun piece member => ?_
  obtain ⟨other, isPiece⟩ := mem_narrate member
  obtain ⟨event, -, rfl⟩ := List.mem_map.mp isPiece
  rfl

theorem shownText_narrate_tracedStep (colored : Bool) (machine : Machine) :
    shownText (machine.narrate (tracedStep colored) machine.remainingSteps).1 =
      traceText colored machine := by
  have shows : ∀ machine : Machine,
      shownText (tracedStep colored machine) = traceRow colored machine.step.2 := by
    intro machine
    rw [tracedStep, shownText_append, loggedStep, shownText_logged]
    exact List.append_nil _
  exact (shownText_narrate shows machine.remainingSteps machine #[]).symm

end Narrate

/-- No step gives a warning. -/
theorem warning_lt_stepEvents {machine : Machine} {event : LogEvent}
    (member : event ∈ machine.stepEvents) : LogLevel.warning.rank < event.level.rank := by
  have ends : ∀ result, event ∈ Machine.outcomeEvents result →
      LogLevel.warning.rank < event.level.rank := by
    rintro ⟨_ | _ | _, final⟩ member
    case halted =>
      cases List.mem_singleton.mp member
      exact (by decide : LogLevel.warning.rank < LogLevel.debug.rank)
    all_goals cases member
  unfold Machine.stepEvents at member
  split at member
  · cases member
  · split at member
    · exact ends _ member
    · rcases List.mem_cons.mp member with rfl | last
      · exact (by decide : LogLevel.warning.rank < LogLevel.trace.rank)
      · exact ends _ last

section RunInTurn

variable (invocation : Invocation) (machine : Machine)

/-- A machine that has been traced has nothing left to run. -/
theorem run_traceInTurn : (traceInTurn invocation machine).2.run = machine.run := by
  unfold traceInTurn
  split
  · rw [narrate_snd]
    exact Machine.run_of_halted machine.isHalted_run
  · rfl

theorem shownText_traceInTurn :
    shownText (traceInTurn invocation machine).1 =
      if invocation.trace then traceText (!invocation.plain) machine else [] := by
  unfold traceInTurn
  split
  · exact shownText_narrate_tracedStep _ machine
  · rfl

theorem runInTurn_snd : (runInTurn invocation machine).2 = machine.run :=
  (narrate_snd _ _).trans (run_traceInTurn invocation machine)

theorem shownText_runInTurn :
    shownText (runInTurn invocation machine).1 =
      (if invocation.trace then traceText (!invocation.plain) machine else []) ++
      (if invocation.table then
        renderSpans (!invocation.plain) (TapeView.table .full machine.run) else []) ++
      Utf8.decodeLossy machine.run.diagnostics.unread := by
  have ends := runInTurn_snd invocation machine
  unfold runInTurn at ends ⊢
  dsimp only at ends ⊢
  rw [ends, shownText_append, shownText_append, shownText_traceInTurn, List.append_assoc,
    List.append_assoc]
  have ran := shownText_narrate_loggedStep (traceInTurn invocation machine).2.remainingSteps
    (traceInTurn invocation machine).2
  simp only [shownText] at ran ⊢
  simp [ran]

theorem warning_lt_loggedStep {event : LogEvent} (member : .logged event ∈ loggedStep machine) :
    LogLevel.warning.rank < event.level.rank := by
  obtain ⟨other, isEvent, same⟩ := List.mem_map.mp member
  cases same
  exact warning_lt_stepEvents isEvent

theorem warning_lt_traceInTurn {event : LogEvent}
    (member : .logged event ∈ (traceInTurn invocation machine).1) :
    LogLevel.warning.rank < event.level.rank := by
  unfold traceInTurn at member
  split at member
  · obtain ⟨other, isPiece⟩ := mem_narrate member
    rcases List.mem_append.mp isPiece with logged | shown
    · exact warning_lt_loggedStep other logged
    · cases List.mem_singleton.mp shown
  · cases member

/-- Once a source is loaded, nothing gives a warning. -/
theorem warning_lt_runInTurn {event : LogEvent}
    (member : .logged event ∈ (runInTurn invocation machine).1) :
    LogLevel.warning.rank < event.level.rank := by
  have atDebug : LogLevel.warning.rank < LogLevel.debug.rank := by decide
  unfold runInTurn at member
  simp only [List.mem_append, List.mem_cons, List.not_mem_nil, or_false, ErrorPiece.logged.injEq,
    reduceCtorEq] at member
  rcases member with (traced | rfl | ran) | rfl
  · exact warning_lt_traceInTurn invocation machine traced
  · exact atDebug
  · obtain ⟨other, isPiece⟩ := mem_narrate ran
    exact warning_lt_loggedStep other isPiece
  · exact atDebug

end RunInTurn

section ExecuteInTurn

variable (logger : Logger) (invocation : Invocation) (source standardInput : List UInt8)

theorem write_upTo_of_lt {level : LogLevel} {event : LogEvent}
    (above : level.rank < event.level.rank) (number : Nat) :
    (logger.upTo level).write number event = [] :=
  if_neg (Nat.not_le.mpr above)

theorem write_upTo_of_le {level : LogLevel} {event : LogEvent}
    (within : event.level.rank ≤ level.rank) (number : Nat) :
    (logger.upTo level).write number event = logger.write number event :=
  if_pos within

theorem off_lt_level (event : LogEvent) : LogLevel.off.rank < event.level.rank := by
  cases event <;> exact Nat.succ_pos _

/-- What the program writes itself does not depend on the logger. -/
theorem shownText_start :
    shownText (runInTurn invocation (start invocation source standardInput)).1 =
      (execute invocation source standardInput).standardError :=
  shownText_runInTurn invocation (start invocation source standardInput)

/-- With the log switched off, a run in turn is the same. -/
theorem executeInTurn_off :
    executeInTurn (logger.upTo .off) invocation source standardInput =
      execute invocation source standardInput := by
  have final := runInTurn_snd invocation (start invocation source standardInput)
  have own := shownText_start invocation source standardInput
  unfold executeInTurn
  dsimp only
  rw [final, text_of_silent fun event _ => write_upTo_of_lt logger (off_lt_level event),
    shownText_append, shownText_logged, own]
  rfl

/-- A logger that logs warnings only is heard of once at most, before all else. -/
theorem standardError_warnings :
    (executeInTurn (logger.upTo .warning) invocation source standardInput).standardError =
      (Machine.loadEvents source invocation.options).flatMap (logger.write 0) ++
        (execute invocation source standardInput).standardError := by
  have ran : ∀ number, (logger.upTo .warning).text number
      (runInTurn invocation (start invocation source standardInput)).1 =
        (execute invocation source standardInput).standardError := by
    intro number
    rw [← shownText_start]
    exact text_of_silent (fun _ member => write_upTo_of_lt logger
      (warning_lt_runInTurn invocation _ member)) number
  change (logger.upTo .warning).text 0 ((Machine.loadEvents source invocation.options).map .logged ++
    (runInTurn invocation (start invocation source standardInput)).1) = _
  unfold Machine.loadEvents
  cases (Machine.load source invocation.options).loadError with
  | none => exact ran 0
  | some error =>
      have within : (LogEvent.malformedEscape error).level.rank ≤ LogLevel.warning.rank :=
        Nat.le_refl 1
      change (logger.upTo .warning).write 0 (.malformedEscape error) ++
        (logger.upTo .warning).text 1 _ = (logger.write 0 (.malformedEscape error) ++ []) ++ _
      rw [write_upTo_of_le logger within, List.append_nil]
      exact congrArg (logger.write 0 (.malformedEscape error) ++ ·) (ran 1)

end ExecuteInTurn

/-- Whether a trace, a table or colours are asked for, and what is logged, makes no
difference to the exit code and to the output of a run.  What the program writes to
standard error is the trace, if any, the table, if any, and the diagnostics, which are
always the same.  The trace has as many lines as the machine counts steps, which show
the machine after each of them.  This is all of standard error if nothing is logged.
A logger may add to it, but if it logs warnings only, it does so only when a source with
a malformed escape is loaded. -/
theorem flags_only_show (logger other : Logger) (invocation : Invocation)
    (source standardInput : List UInt8) (trace table plain : Bool) :
    let machine := start invocation source standardInput
    let final := machine.run
    let showing := { invocation with trace, table, plain }
    let report (logger : Logger) := executeInTurn logger showing source standardInput
    let unflagged := executeInTurn other invocation source standardInput
    let line (index : Nat) := renderSpans (!plain) (TapeView.traceLine (machine.steps index))
    let shown :=
      (if trace then (List.range final.stepCount).flatMap fun index => line (index + 1) ++ ['\n']
        else []) ++
      (if table then renderSpans (!plain) (TapeView.table .full final) else []) ++
      Utf8.decodeLossy final.diagnostics.unread
    (report logger).status.code = unflagged.status.code ∧
      (report logger).standardOutput = unflagged.standardOutput ∧
      (∃ pieces, shownText pieces = shown ∧
        ∀ logger, (report logger).standardError = logger.text 0 pieces) ∧
      (report (logger.upTo .off)).standardError = shown ∧
      (report (logger.upTo .warning)).standardError =
        (Machine.loadEvents source invocation.options).flatMap (logger.write 0) ++ shown ∧
      (∀ index, '\n' ∉ line index) ∧
      report (logger.upTo .off) = execute showing source standardInput := by
  intro machine final showing report unflagged line shown
  have uncounted : machine.stepCount = 0 := by
    obtain ⟨_, _, fresh⟩ := Machine.load_fresh source invocation.options
    change (Machine.load source invocation.options).stepCount = 0
    rw [fresh]
  have rows := traceText_eq (!plain) machine
  rw [uncounted, Nat.sub_zero] at rows
  have own : (execute showing source standardInput).standardError = shown := by
    change (if trace then traceText (!plain) machine else []) ++ _ ++ _ = shown
    rw [rows]
    rfl
  have final_eq : (runInTurn showing machine).2 = final := runInTurn_snd showing machine
  have unflagged_eq : (runInTurn invocation machine).2 = final := runInTurn_snd invocation machine
  have off := executeInTurn_off logger showing source standardInput
  refine ⟨?_, ?_, ?_, ?_, ?_, ?_, off⟩
  · change (exitStatus (runInTurn showing machine).2).code =
      (exitStatus (runInTurn invocation machine).2).code
    rw [final_eq, unflagged_eq]
  · change (runInTurn showing machine).2.output.unread =
      (runInTurn invocation machine).2.output.unread
    rw [final_eq, unflagged_eq]
  · refine ⟨_, ?_, fun _ => rfl⟩
    rw [shownText_append, shownText_logged, List.nil_append, ← own]
    exact shownText_start showing source standardInput
  · exact (congrArg Report.standardError off).trans own
  · rw [← own]
    exact standardError_warnings logger showing source standardInput
  · intro index
    exact newline_not_mem_renderSpans (TapeView.inline_traceLine _) _

/-- A malformed escape is logged, and the diagnostics tell of it, too. -/
example :
    let logger : Logger := { write := fun _ _ => "warning\n".toList }
    (executeInTurn (logger.upTo .warning) {} [0x5C, 0x71] []).standardError =
      "warning\nUndefined escape sequence: \\q at byte 0\n".toList := by
  decide

end Program
end OneTape
