import SingleTape.Text
import SingleTape.Text.Decimal
import SingleTape.SortedSet
import SingleTape.SortedMap
import SingleTape.Symbol
import SingleTape.Move
import SingleTape.Error
import SingleTape.Machine
import SingleTape.Machine.Validity
import SingleTape.Machine.Summary
import SingleTape.Draft
import SingleTape.Source.Lexeme
import SingleTape.Source.Cursor
import SingleTape.Source.Statement
import SingleTape.Source.Reading
import SingleTape.Source.Writing
import SingleTape.Config
import SingleTape.Observer
import SingleTape.Engine
import SingleTape.Execution
import SingleTape.Transcript
import SingleTape.Script
import SingleTape.CommandLine.Options
import SingleTape.CommandLine
import SingleTape.Main
import SingleTape.Proofs.Execution.Unobserved
import SingleTape.Proofs.Execution.InfiniteTape
import SingleTape.Proofs.Execution.Query
import SingleTape.Proofs.Execution.Declaration
import SingleTape.Proofs.Execution.Trace
import SingleTape.Proofs.Execution.Interpretation
import SingleTape.Proofs.Execution.Soundness
import SingleTape.Proofs.Execution.Atomicity
import SingleTape.Proofs.Execution.Stepping
import SingleTape.Proofs.Execution.Correspondence
import SingleTape.Proofs.Execution.Conversation
import SingleTape.Proofs.Execution.Watching
import SingleTape.Proofs.Execution.Transparency
import SingleTape.Proofs.Source.Scanning
import SingleTape.Proofs.Source.Grammar
import SingleTape.Proofs.Draft.Denotation
import SingleTape.Proofs.Source.Reading
import SingleTape.Proofs.Source.Rendering
import SingleTape.Proofs.Source.RoundTrip
import SingleTape.Proofs.Source.Rewriting
import SingleTape.Proofs.Source.Image
import SingleTape.Proofs.Draft.History
import SingleTape.Proofs.Execution.Lockstep
import SingleTape.Proofs.Execution.Acceptance
import SingleTape.Proofs.Execution.Mirror
import SingleTape.Proofs.Execution.Outcome
import SingleTape.Proofs.Execution.Chronicle
import SingleTape.Proofs.Execution.Discipline
import SingleTape.Proofs.Execution.Delivery
import SingleTape.Proofs.Source.Convergence
import SingleTape.Proofs.Draft.Exchange
import SingleTape.Proofs.Execution.Silence
import SingleTape.Proofs.CommandLine.Jobs
import SingleTape.Proofs.CommandLine.Verbosity
import SingleTape.Proofs.CommandLine.Faults
import SingleTape.Proofs.CommandLine.Endings
import SingleTape.Proofs.Execution.Blanks
import SingleTape.Proofs.Execution.Replay
import SingleTape.Proofs.Execution.Interruption
import SingleTape.Proofs.Execution.Rounds
import SingleTape.Proofs.Source.LineByLine
import SingleTape.Proofs.Source.Forms
import SingleTape.Proofs.Machine.Checking
import SingleTape.Proofs.Source.Reordering
import SingleTape.Proofs.Source.Vocabulary
import SingleTape.Proofs.Transcript.Decoding
import SingleTape.Proofs.Execution.Stability
import SingleTape.Proofs.Execution.Refusal
import SingleTape.Proofs.CommandLine.Complaints
import SingleTape.Proofs.CommandLine.Report
import SingleTape.Proofs.CommandLine.Arguments
import SingleTape.Proofs.CommandLine.Queries
import SingleTape.Proofs.Source.Cursor
import SingleTape.Proofs.Source.Position
