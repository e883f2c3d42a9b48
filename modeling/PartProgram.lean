import PartProgram.Block.Event
import PartProgram.Block.Fault
import PartProgram.Block.Feed
import PartProgram.Block.Reader
import PartProgram.Config.Line
import PartProgram.Config.Listener
import PartProgram.Config.Settings
import PartProgram.Config.Value
import PartProgram.Host
import PartProgram.Host.Moment
import PartProgram.Host.Path
import PartProgram.Log.Record
import PartProgram.Log.Sink
import PartProgram.Main
import PartProgram.Number.Decimal
import PartProgram.Number.Literal
import PartProgram.Number.Significand
import PartProgram.Proofs.Dispatch
import PartProgram.Proofs.LineAcceptance
import PartProgram.Proofs.LineGrammar
import PartProgram.Proofs.LineReading
import PartProgram.Proofs.LiteralGrammar
import PartProgram.Proofs.LiteralReading
import PartProgram.Proofs.Protocol
import PartProgram.Proofs.Recording
import PartProgram.Proofs.Resynchronization
import PartProgram.Proofs.Scaling
import PartProgram.Text.Byte
import PartProgram.Text.Clip
import PartProgram.Text.Integer
import PartProgram.Text.Message
import PartProgram.Text.Numeral
import PartProgram.Tool.Duration
import PartProgram.Tool.Options
import PartProgram.Tool.Printout
import PartProgram.Tool.Run
import PartProgram.Proofs.Calendar
import PartProgram.Proofs.Calls
import PartProgram.Proofs.Transition
import PartProgram.Proofs.Widening
import PartProgram.Proofs.Checksum
import PartProgram.Proofs.Position
import PartProgram.Proofs.Chunking
import PartProgram.Proofs.NumberText
import PartProgram.Proofs.Findings
import PartProgram.Proofs.Logging
import PartProgram.Proofs.Tokenizing
import PartProgram.Proofs.Printout
import PartProgram.Proofs.ValidConfiguration
import PartProgram.Proofs.Preparing
import PartProgram.Proofs.ExitStatus
import PartProgram.Proofs.KeepGoing
import PartProgram.Proofs.CarriageReturns
import PartProgram.Proofs.FinalLineEnd
import PartProgram.Proofs.LetterCase
import PartProgram.Proofs.PlainNotation
import PartProgram.Proofs.Spelling
import PartProgram.Proofs.ConfigurationLines
import PartProgram.Proofs.ListenerCalls
import PartProgram.Proofs.LastAssignment
import PartProgram.Proofs.Layout
import PartProgram.Proofs.Trimming
import PartProgram.Proofs.IntegerText
import PartProgram.Proofs.RefusedBytes
import PartProgram.Proofs.FaultReport
import PartProgram.Proofs.ReportText
import PartProgram.Proofs.LogRouting
import PartProgram.Proofs.BetweenBytes
import PartProgram.Proofs.LiteralSteps
