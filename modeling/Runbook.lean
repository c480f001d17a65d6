import Runbook.Command.LogFile
import Runbook.Definition.Encode
import Runbook.Engine.Sequential
import Runbook.Main
import Runbook.Proofs.References
import Runbook.Proofs.Reading
import Runbook.Proofs.Workflow
import Runbook.Tool.Script
import Runbook.Proofs.Blindness
import Runbook.Proofs.Dependencies
import Runbook.Proofs.Gathering
import Runbook.Proofs.Conduct
import Runbook.Proofs.Resolving
import Runbook.Proofs.Execution
import Runbook.Proofs.Moves
import Runbook.Proofs.Schedule
import Runbook.Proofs.Records
import Runbook.Proofs.Books
import Runbook.Proofs.Permits
import Runbook.Proofs.Runs
import Runbook.Proofs.Termination
import Runbook.Proofs.Scheduling
import Runbook.Proofs.Answering
import Runbook.Proofs.Sequence
import Runbook.Proofs.Answers
import Runbook.Proofs.Flights
import Runbook.Proofs.Signals
import Runbook.Proofs.Clockwork
import Runbook.Proofs.Timekeeping
import Runbook.Proofs.Independence
import Runbook.Proofs.Grammar
import Runbook.Proofs.Parsing
import Runbook.Proofs.Spelling
import Runbook.Proofs.Notices
import Runbook.Proofs.Places
import Runbook.Proofs.Cancellation
import Runbook.Proofs.Closing
import Runbook.Proofs.Verdict
import Runbook.Proofs.Agreement
import Runbook.Proofs.Observer
import Runbook.Proofs.Widths
import Runbook.Proofs.Auditing
import Runbook.Proofs.Precedence
import Runbook.Proofs.Nesting
import Runbook.Proofs.Cycles
import Runbook.Proofs.Acceptance
import Runbook.Proofs.Capabilities
import Runbook.Proofs.Concurrency
import Runbook.Proofs.Gate
import Runbook.Proofs.Quotas
import Runbook.Proofs.Bounds
import Runbook.Proofs.Moments
import Runbook.Proofs.Promptness
import Runbook.Proofs.Views
import Runbook.Proofs.Ties
import Runbook.Proofs.Fragments
import Runbook.Proofs.Lexing
import Runbook.Proofs.Complements
import Runbook.Proofs.Rounding
import Runbook.Proofs.Digits
import Runbook.Proofs.Numerals
import Runbook.Proofs.Documents
import Runbook.Proofs.Printing
import Runbook.Proofs.Padding
import Runbook.Proofs.Tiling
import Runbook.Proofs.Refusals
import Runbook.Proofs.Embedding
import Runbook.Proofs.Shapes
import Runbook.Proofs.Slots
import Runbook.Proofs.Driving
import Runbook.Proofs.Integers
import Runbook.Proofs.Endings
import Runbook.Proofs.Iterations
import Runbook.Proofs.Bodies
import Runbook.Proofs.Comparing
import Runbook.Proofs.Chains
import Runbook.Proofs.Tokens
import Runbook.Proofs.Denylist
import Runbook.Proofs.Writing
import Runbook.Proofs.Attempts
import Runbook.Proofs.Seconds
import Runbook.Proofs.Ceiling
import Runbook.Proofs.Overlay
import Runbook.Proofs.Settings
import Runbook.Proofs.Joining
import Runbook.Proofs.Layers
import Runbook.Proofs.Offsets
import Runbook.Proofs.Packages
import Runbook.Proofs.Suggestions
import Runbook.Proofs.Encoding
