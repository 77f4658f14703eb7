import OneTape.Program
import OneTape.Proofs.Diagnostics

/-!
# How the program exits

The program exits in one of three ways.  It has been misused if its arguments
make no sense, name no file, or name a file that cannot be read; to ask for help
is no misuse.  Otherwise it runs a machine, and its status tells whether anything
has gone wrong.

The status is computed from the halt and from the load error of the machine,
whereas a user sees the diagnostics.  These always agree.
-/

namespace OneTape

theorem ExitStatus.code_eq_one_iff {status : ExitStatus} :
    status.code = 1 ↔ status = misuse := by
  cases status <;> decide

namespace Machine

/-- A source loads without error if its escapes, should they be decoded, are
well formed. -/
theorem loadError_load_eq_none_iff {source : List UInt8} {options : Options} :
    (load source options).loadError = none ↔
      (options.decodeEscapes = true → ∃ program, SourceEscape.decode source = .ok program) := by
  unfold load
  split
  · rename_i escapes
    cases SourceEscape.decode source <;> simp [escapes]
  · rename_i raw
    simp [raw]

/-- A machine that has halted has stopped by itself unless a fault has halted it. -/
theorem unfaulted_iff_stopped {machine : Machine} (halted : machine.isHalted) :
    (∀ fault, machine.halt ≠ some (.faulted fault)) ↔ machine.halt = some .stopped := by
  obtain ⟨reason, status⟩ := Option.isSome_iff_exists.mp halted
  cases reason <;> simp [status]

end Machine

namespace Program

section Surroundings

variable {arguments : List String} {readFile : String → Except ReadFailure (List UInt8)}
  {standardInput : List UInt8} {invocation : Invocation}

theorem run_of_help (parsed : Invocation.parse arguments = .ok invocation)
    (help : invocation.help = true) :
    run arguments readFile standardInput = usageReport .success := by
  simp [run, plan, parsed, help]

theorem run_of_source {name : String} {source : List UInt8}
    (parsed : Invocation.parse arguments = .ok invocation) (noHelp : invocation.help = false)
    (named : invocation.file = some name) (read : readFile name = .ok source) :
    run arguments readFile standardInput = execute invocation source standardInput := by
  simp [run, plan, parsed, noHelp, named, runFile, read]

theorem exitStatus_ne_misuse (machine : Machine) : exitStatus machine ≠ .misuse := by
  unfold exitStatus
  split <;> simp

theorem status_eq_misuse_iff :
    (run arguments readFile standardInput).status = .misuse ↔
      (∃ error, Invocation.parse arguments = .error error) ∨
        ∃ invocation, Invocation.parse arguments = .ok invocation ∧ invocation.help = false ∧
          (invocation.file = none ∨
            ∃ name failure, invocation.file = some name ∧ readFile name = .error failure) := by
  cases parsed : Invocation.parse arguments with
  | error error => simp [run, plan, parsed, usageReport]
  | ok invocation =>
      cases help : invocation.help with
      | true => simp [run_of_help parsed help, usageReport, help]
      | false =>
          cases named : invocation.file with
          | none => simp [run, plan, parsed, help, named, usageReport]
          | some name =>
              cases read : readFile name with
              | error failure => simp [run, plan, parsed, help, named, runFile, read]
              | ok source =>
                  have ran := exitStatus_ne_misuse (start invocation source standardInput).run
                  simp [run_of_source parsed help named read, execute, ran, help, named, read]

end Surroundings

/-- The status of a halted machine agrees with its diagnostics. -/
theorem exitStatus_eq {machine : Machine} (reports : machine.Reports)
    (halted : machine.isHalted) :
    exitStatus machine = if machine.diagnostics.unread = [] then .success else .failure := by
  have silent := reports.unread_eq_nil_iff
  rw [Machine.unfaulted_iff_stopped halted, and_comm] at silent
  simp only [exitStatus, silent]

section Run

variable (invocation : Invocation) (source standardInput : List UInt8)

theorem reports_run_start : (start invocation source standardInput).run.Reports :=
  (Machine.reports_load source invocation.options).after
    [.feed (inputBytes invocation standardInput), .run]

theorem loadError_run_start :
    (start invocation source standardInput).run.loadError =
      (Machine.load source invocation.options).loadError :=
  (Machine.load source invocation.options).loadError_after
    [.feed (inputBytes invocation standardInput), .run]

/-- A run of the program ends without a complaint if the source is well formed
and the machine stops by itself. -/
theorem diagnostics_run_start_eq_nil_iff :
    (start invocation source standardInput).run.diagnostics.unread = [] ↔
      (invocation.options.decodeEscapes = true →
        ∃ program, SourceEscape.decode source = .ok program) ∧
      (start invocation source standardInput).run.halt = some .stopped := by
  rw [(reports_run_start invocation source standardInput).unread_eq_nil_iff,
    Machine.unfaulted_iff_stopped (Machine.isHalted_run _), loadError_run_start,
    Machine.loadError_load_eq_none_iff]

theorem code_execute :
    (execute invocation source standardInput).status.code =
      if (start invocation source standardInput).run.diagnostics.unread = [] then 0 else 2 := by
  change (exitStatus (start invocation source standardInput).run).code = _
  rw [exitStatus_eq (reports_run_start invocation source standardInput) (Machine.isHalted_run _)]
  split <;> rfl

end Run

/-- The program has been misused if its arguments cannot be read, or if no help
is asked for and there is no file that can be read.  It shows its usage if help is
asked for.  Otherwise it runs a machine to a halt, writes the output of the
machine and nothing else, and succeeds if the diagnostics are empty, which is to
say, if the source was well formed and the machine has stopped by itself. -/
theorem exit_code_and_output (arguments : List String)
    (readFile : String → Except ReadFailure (List UInt8)) (standardInput : List UInt8) :
    let report := run arguments readFile standardInput
    (report.status.code = 1 ↔
        (∃ error, Invocation.parse arguments = .error error) ∨
          ∃ invocation, Invocation.parse arguments = .ok invocation ∧ invocation.help = false ∧
            (invocation.file = none ∨
              ∃ name failure, invocation.file = some name ∧ readFile name = .error failure)) ∧
      (∀ invocation, Invocation.parse arguments = .ok invocation → invocation.help = true →
        report.status.code = 0 ∧ report.standardOutput = Utf8.encode usage.toList ∧
          report.standardError = []) ∧
      ∀ invocation name source, Invocation.parse arguments = .ok invocation →
        invocation.help = false → invocation.file = some name → readFile name = .ok source →
          let final := (start invocation source standardInput).run
          (∃ reason, final.halt = some reason) ∧
            report.standardOutput = final.output.unread ∧
            report.status.code = (if final.diagnostics.unread = [] then 0 else 2) ∧
            (final.diagnostics.unread = [] ↔
              (invocation.options.decodeEscapes = true →
                ∃ program, SourceEscape.decode source = .ok program) ∧
              final.halt = some .stopped) := by
  intro report
  refine ⟨?_, ?_, ?_⟩
  · rw [ExitStatus.code_eq_one_iff]
    exact status_eq_misuse_iff
  · intro invocation parsed help
    have shown : report = usageReport .success := run_of_help parsed help
    simp [shown, usageReport, ExitStatus.code]
  · intro invocation name source parsed noHelp named read final
    have ran : report = execute invocation source standardInput :=
      run_of_source parsed noHelp named read
    rw [ran]
    exact ⟨⟨_, Machine.halt_run _⟩, rfl, code_execute invocation source standardInput,
      diagnostics_run_start_eq_nil_iff invocation source standardInput⟩

end Program
end OneTape
