import CallMigration.Batch.Report
import CallMigration.Document.Format
import CallMigration.Document.Report
import CallMigration.Logging
import CallMigration.Proofs.Additive
import CallMigration.Proofs.Address
import CallMigration.Proofs.Basic
import CallMigration.Proofs.Batch
import CallMigration.Proofs.Call
import CallMigration.Proofs.Capture
import CallMigration.Proofs.Completeness
import CallMigration.Proofs.Convergence
import CallMigration.Proofs.Correspondence
import CallMigration.Proofs.Flush
import CallMigration.Proofs.Formatting
import CallMigration.Proofs.Growth
import CallMigration.Proofs.Idempotence
import CallMigration.Proofs.Insertion
import CallMigration.Proofs.Lossless
import CallMigration.Proofs.Mentions
import CallMigration.Proofs.Overlay
import CallMigration.Proofs.OwnTypes
import CallMigration.Proofs.Presence
import CallMigration.Proofs.Reference
import CallMigration.Proofs.Registry
import CallMigration.Proofs.Rerun
import CallMigration.Proofs.Shadowing
import CallMigration.Proofs.Shape
import CallMigration.Proofs.Simulation
import CallMigration.Proofs.Slots
import CallMigration.Proofs.Stock
import CallMigration.Proofs.Stripped
import CallMigration.Proofs.Ancestry
import CallMigration.Proofs.Lookup
import CallMigration.Proofs.Forms
import CallMigration.Proofs.Leaves
import CallMigration.Proofs.LineEnds
import CallMigration.Proofs.Contents
import CallMigration.Proofs.Grouping
import CallMigration.Proofs.Layout
import CallMigration.Proofs.Tidiness
import CallMigration.Proofs.Spacing
import CallMigration.Proofs.Fragments
import CallMigration.Proofs.Arrangement
import CallMigration.Proofs.Placement
import CallMigration.Proofs.SortedImports
import CallMigration.Proofs.ImportLines
import CallMigration.Proofs.OwnFields
import CallMigration.Proofs.Erasure
import CallMigration.Proofs.Signatures
import CallMigration.Proofs.Words
import CallMigration.Proofs.Dimensions
import CallMigration.Proofs.Headers
import CallMigration.Proofs.StepLimit
import CallMigration.Proofs.Documents
import CallMigration.Proofs.Patterns
import CallMigration.Proofs.Placeholders
import CallMigration.Proofs.Settling
import CallMigration.Proofs.TypeArguments
import CallMigration.Proofs.NormalForms
