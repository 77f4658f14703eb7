import OneTape.Main
import OneTape.OptionsValue
import OneTape.Proofs.HarvardMachine
import OneTape.Proofs.StructuredExecution
import OneTape.Proofs.Watermarks
import OneTape.WireRecords
import OneTape.Proofs.Refitting
import OneTape.Proofs.StepLimit
import OneTape.Proofs.InputTiming
import OneTape.Proofs.SnapshotObservation
import OneTape.Proofs.Ledger
import OneTape.Proofs.EscapeGrammar
import OneTape.Proofs.Diagnostics
import OneTape.Proofs.ProgramReport
import OneTape.Proofs.WireRoundTrip
import OneTape.Proofs.TapeHistory
import OneTape.Proofs.QueueHistory
import OneTape.Proofs.RunTrace
import OneTape.Proofs.SourceLoading
import OneTape.Proofs.CanonicalStorage
import OneTape.Proofs.BracketMatching
import OneTape.Proofs.HaltingStep
import OneTape.Proofs.CommandLineMeaning
import OneTape.Proofs.TapeTable
import OneTape.Proofs.WireShapes
import OneTape.Proofs.BoundedGrowth
import OneTape.Proofs.TextChannels
import OneTape.Proofs.ColoredViews
import OneTape.Proofs.CommandScan
import OneTape.Proofs.FlagValues
import OneTape.Proofs.ReportingFlags
