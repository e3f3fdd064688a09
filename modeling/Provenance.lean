import Provenance.Main
import Provenance.Disk.Edits
import Provenance.Proofs.Session.Publication
import Provenance.Proofs.Disk.Absolute
import Provenance.Proofs.Store
import Provenance.Proofs.Update.Layout
import Provenance.Proofs.Update.Cycle
import Provenance.Proofs.Settings
import Provenance.Proofs.Update.Sweep
import Provenance.Proofs.Session.Reachable
import Provenance.Proofs.SourceSet
import Provenance.Proofs.Update.Record
import Provenance.Proofs.Session.Resolution
import Provenance.Proofs.Update.Growth
import Provenance.Proofs.Update.Making
import Provenance.Proofs.Update.Books
import Provenance.Proofs.Update.Rollback
import Provenance.Proofs.Session.Accounting
import Provenance.Proofs.Disk.Listing
import Provenance.Proofs.Update.Clearing
import Provenance.Proofs.Session.Agreement
import Provenance.Proofs.Update.Presence
import Provenance.Proofs.Update.Sparing
import Provenance.Proofs.Session.Sources
import Provenance.Proofs.Update.Table
import Provenance.Proofs.Disk.Plain
import Provenance.Proofs.Session.Meaning
import Provenance.Proofs.Update.Pruning
import Provenance.Proofs.Update.Settled
import Provenance.Proofs.Session.Idempotence
import Provenance.Proofs.Disk.Related
import Provenance.Proofs.Disk.Skeleton
import Provenance.Proofs.Mirror
import Provenance.Proofs.Update.Twin
import Provenance.Proofs.Update.Reading
import Provenance.Proofs.Session.Refinement
import Provenance.Proofs.Outline.Contract
import Provenance.Proofs.SourceSet.Requests
import Provenance.Proofs.SourceSet.EditorText
import Provenance.Proofs.SourceSet.Transparency
import Provenance.Proofs.Session.Lookup
import Provenance.Proofs.Glob
import Provenance.Proofs.SourceSet.Discovery
import Provenance.Proofs.Outline.Nesting
import Provenance.Proofs.Binding
import Provenance.Proofs.Spelling
import Provenance.Proofs.SourceSet.Identity
import Provenance.Proofs.Session.Artifacts
import Provenance.Proofs.Update.Confinement
import Provenance.Proofs.Journal
import Provenance.Proofs.Session.Confinement
import Provenance.Proofs.Update.Declared
import Provenance.Proofs.CommandLine.Outline
import Provenance.Proofs.Session.Affected
import Provenance.Proofs.Session.Prediction
import Provenance.Proofs.Lockstep
import Provenance.Proofs.Update.Parallel
import Provenance.Proofs.Session.Parallel
import Provenance.Proofs.SourceSet.Shuffle
import Provenance.Proofs.Session.AffectedSet
import Provenance.Proofs.Disk.Renamed
import Provenance.Proofs.Session.Recounting
import Provenance.Proofs.Session.StartingOver
import Provenance.Proofs.Update.Removal
import Provenance.Proofs.Update.Exact
import Provenance.Proofs.Update.Tolerance
import Provenance.Proofs.Update.Account
import Provenance.Proofs.JournalContent
import Provenance.Proofs.Session.Chronicle
import Provenance.Proofs.CommandLine.Failures
import Provenance.Proofs.CommandLine.Verdict
import Provenance.Proofs.ArtifactPath
import Provenance.Proofs.Outline.Lexer
import Provenance.Proofs.Outline.Lines
import Provenance.Proofs.Outline.Shift
import Provenance.Proofs.Outline.BlankLine
import Provenance.Proofs.Outline.LastLine
import Provenance.Proofs.Outline.Masked
import Provenance.Proofs.Outline.Matching
import Provenance.Proofs.Outline.Depths
import Provenance.Proofs.Outline.Comments
import Provenance.Proofs.ClassKey
import Provenance.Proofs.Outline.Offsets
import Provenance.Proofs.Text.Blocks
import Provenance.Proofs.Json.RoundTrip
import Provenance.Proofs.Json.Written
import Provenance.Proofs.Journal.Lines
import Provenance.Proofs.Journal.RoundTrip
import Provenance.Proofs.Json.Accepts
import Provenance.Proofs.Json.Torn
import Provenance.Proofs.Journal.Damage
import Provenance.Proofs.Outline.Arrangement
import Provenance.Proofs.SourceSet.Exclusion
import Provenance.Proofs.Text.Lower
import Provenance.Proofs.Disk.Resolved
import Provenance.Proofs.Settings.Snapshot
import Provenance.Proofs.Text.Breaks
import Provenance.Proofs.Outline.LineNumbers
import Provenance.Proofs.SourceSet.DiskText
import Provenance.Proofs.Outline.WholeNames
