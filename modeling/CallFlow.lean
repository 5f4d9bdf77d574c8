import CallFlow.Flow.Apply
import CallFlow.Main
import CallFlow.Script.Data
import CallFlow.Proofs.Flow.Ancestors
import CallFlow.Proofs.Flow.Reach
import CallFlow.Proofs.Flow.Sound
import CallFlow.Proofs.Flow.Accepted
import CallFlow.Proofs.Flow.Committing
import CallFlow.Proofs.Flow.Codes
import CallFlow.Proofs.Flow.Validation
import CallFlow.Proofs.Flow.Circles
import CallFlow.Proofs.Flow.Hanging
import CallFlow.Proofs.Flow.Changing
import CallFlow.Proofs.Flow.Cutting
import CallFlow.Proofs.Flow.Runs
import CallFlow.Proofs.Flow.InPlace
import CallFlow.Proofs.Flow.Unchecked
import CallFlow.Proofs.Flow.Rejected
import CallFlow.Proofs.Flow.Reporting
import CallFlow.Proofs.Flow.Guards
import CallFlow.Proofs.Json.Scanning
import CallFlow.Proofs.Json.Spelling
import CallFlow.Proofs.Json.Grammar
import CallFlow.Proofs.Json.Writing
import CallFlow.Proofs.Json.Reading
import CallFlow.Proofs.Json.Records
import CallFlow.Proofs.Json.Maps
import CallFlow.Proofs.Snapshot.Documents
import CallFlow.Proofs.Snapshot.RoundTrip
import CallFlow.Proofs.Snapshot.Faults
import CallFlow.Proofs.Snapshot.NormalForm
import CallFlow.Proofs.Snapshot.Rewording
import CallFlow.Proofs.Flow.Versions
import CallFlow.Proofs.Compile.Walking
import CallFlow.Proofs.Compile.LayoutNames
import CallFlow.Proofs.Compile.LayoutSteps
import CallFlow.Proofs.Compile.LayoutRuns
import CallFlow.Proofs.Compile.Emitting
import CallFlow.Proofs.Compile.Unfolding
import CallFlow.Proofs.Compile.Planning
import CallFlow.Proofs.Compile.Correctness
import CallFlow.Proofs.Compile.Tagging
import CallFlow.Proofs.Compile.Jumps
import CallFlow.Proofs.Compile.Preorder
import CallFlow.Proofs.Compile.Complete
import CallFlow.Proofs.Compile.Outcome
import CallFlow.Proofs.Command.Agreement
import CallFlow.Proofs.Dialplan.Arguments
import CallFlow.Proofs.Text.Nesting
import CallFlow.Proofs.Dialplan.Boundaries
import CallFlow.Proofs.Bytes.Framing
import CallFlow.Proofs.Script.Restoring
import CallFlow.Proofs.Flow.Sharing
import CallFlow.Proofs.Compile.Charting
import CallFlow.Proofs.Compile.Touring
import CallFlow.Proofs.Compile.Naming
import CallFlow.Proofs.Compile.Grouping
import CallFlow.Proofs.Dialplan.Contexts
import CallFlow.Proofs.Dialplan.StepLines
import CallFlow.Proofs.Script.Texts
import CallFlow.Proofs.Dialplan.Closing
import CallFlow.Proofs.Compile.Laying
import CallFlow.Proofs.Compile.SafeTexts
import CallFlow.Proofs.Flow.Matching
import CallFlow.Proofs.Compile.SameScript
import CallFlow.Proofs.Compile.LabelOrder
import CallFlow.Proofs.Script.Visiting
import CallFlow.Proofs.Compile.LabelEnds
import CallFlow.Proofs.Compile.Clearing
import CallFlow.Proofs.Compile.BlankTexts
import CallFlow.Proofs.Compile.Stacking
import CallFlow.Proofs.Compile.Tracing
import CallFlow.Proofs.Compile.Traversals
import CallFlow.Proofs.Compile.Filling
import CallFlow.Proofs.Flow.Settling
import CallFlow.Proofs.Flow.Detached
import CallFlow.Proofs.Flow.FreshIds
import CallFlow.Proofs.Flow.HandedOut
import CallFlow.Proofs.Compile.Reentry
import CallFlow.Proofs.Flow.Lineage
import CallFlow.Proofs.Flow.Subtrees
import CallFlow.Proofs.Flow.Growth
import CallFlow.Proofs.Flow.Pruning
import CallFlow.Proofs.Compile.Skipping
import CallFlow.Proofs.Flow.Patching
import CallFlow.Proofs.Flow.Commuting
import CallFlow.Proofs.Audio.Uploads
