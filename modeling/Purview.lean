import Purview.Text.Span
import Purview.Distinct
import Purview.Literal.Error
import Purview.Literal.Quoted
import Purview.Literal.Duration
import Purview.Uri
import Purview.Diagnostic
import Purview.Token
import Purview.Token.Lexer
import Purview.Content
import Purview.Content.Reader
import Purview.Stage
import Purview.Document
import Purview.Document.Analysis
import Purview.Store
import Purview.LinkScope
import Purview.Step
import Purview.Project
import Purview.Project.Walk
import Purview.Visibility
import Purview.Visibility.Scope
import Purview.Scene
import Purview.Invalidation
import Purview.Build.Report
import Purview.Build.Phase
import Purview.Build.Pass
import Purview.Change
import Purview.Gate
import Purview.Workspace
import Purview.Config
import Purview.Disk
import Purview.Disk.Loader
import Purview.Proofs.Reach
import Purview.Proofs.Layout
import Purview.Proofs.Remembered
import Purview.Proofs.Moves
import Purview.Proofs.Pass
import Purview.Proofs.Changes
import Purview.Proofs.Batch
import Purview.Proofs.Coherence
import Purview.Proofs.Trails
import Purview.Proofs.Reading
import Purview.Proofs.Forms
import Purview.Proofs.Plan
import Purview.Proofs.Calm
import Purview.Proofs.Build
import Purview.Proofs.Prescribed
import Purview.Proofs.Start
import Purview.Proofs.Regular
import Purview.Proofs.Rebuild
import Purview.Proofs.Ordinary
import Purview.Proofs.Touch
import Purview.Proofs.Arrival
import Purview.Proofs.Anchored
import Purview.Proofs.Notified
import Purview.Proofs.Cycles
import Purview.Proofs.Closures
import Purview.Proofs.WaysBack
import Purview.Proofs.Horizons
import Purview.Proofs.Grammar
import Purview.Proofs.Components
import Purview.Proofs.Durations
import Purview.Proofs.Canonical
import Purview.Proofs.Invalidated
import Purview.Proofs.Upheld
import Purview.Proofs.Checked
import Purview.Proofs.Journey
import Purview.Proofs.Onward
import Purview.Proofs.Course
import Purview.Proofs.Accounts
import Purview.Proofs.Partway
import Purview.Proofs.Resumed
import Purview.Proofs.Healed
import Purview.Proofs.Calls
import Purview.Proofs.Recorded
import Purview.Proofs.Retried
import Purview.Proofs.Staged
import Purview.Proofs.Untouched
import Purview.Proofs.Builtins
import Purview.Proofs.Unaffected
import Purview.Proofs.Repeated
import Purview.Proofs.Merged
import Purview.Proofs.Revisions
import Purview.Proofs.Survivors
import Purview.Proofs.Patterns
import Purview.Proofs.Lossless
import Purview.Proofs.Quotations
import Purview.Proofs.Provenance
import Purview.Proofs.Joined
import Purview.Proofs.Resolved
import Purview.Proofs.Relative
import Purview.Proofs.Beneath
import Purview.Proofs.Indexed
import Purview.Proofs.Culprits
import Purview.Proofs.Delivered
import Purview.Proofs.Portable
