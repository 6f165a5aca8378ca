import PinnedTree.Disk.Look
import PinnedTree.Main
import PinnedTree.Proofs.Disk.Sound
import PinnedTree.Proofs.Disk.Way
import PinnedTree.Proofs.Disk.Frame
import PinnedTree.Proofs.Disk.Calls
import PinnedTree.Proofs.Disk.Root
import PinnedTree.Proofs.Disk.Written
import PinnedTree.Proofs.Files
import PinnedTree.Proofs.Json.RoundTrip
import PinnedTree.Proofs.Marker
import PinnedTree.Proofs.Trace
import PinnedTree.Proofs.Path.Nested
import PinnedTree.Proofs.Path.Written
import PinnedTree.Proofs.Path.Parts
import PinnedTree.Proofs.Path.Topmost
import PinnedTree.Proofs.Path.Canonical
import PinnedTree.Proofs.Recovery
import PinnedTree.Proofs.Recovery.Pairing
import PinnedTree.Proofs.Transaction.Materialize
import PinnedTree.Proofs.Transaction.Slot
import PinnedTree.Proofs.Transaction.Atomicity
import PinnedTree.Proofs.Transaction.Interruption
import PinnedTree.Proofs.Transaction.Outcome
import PinnedTree.Proofs.Table.Agreement
import PinnedTree.Proofs.Disk.Alike
import PinnedTree.Proofs.Plan.Build
import PinnedTree.Proofs.Plan.Components
import PinnedTree.Proofs.Plan.Decision
import PinnedTree.Proofs.Plan.Filtering
import PinnedTree.Proofs.Plan.Groups
import PinnedTree.Proofs.Plan.Vacancy
import PinnedTree.Proofs.Plan.Validation
import PinnedTree.Proofs.Marker.Writing
import PinnedTree.Proofs.RunState.Saving
import PinnedTree.Proofs.Sync.Confinement
import PinnedTree.Proofs.Sync.Isolation
import PinnedTree.Proofs.Sync.Pinning
import PinnedTree.Proofs.Sync.Foretelling
import PinnedTree.Proofs.Sync.Repeat
import PinnedTree.Proofs.Sync.Truth
import PinnedTree.Proofs.Sync.Residue
import PinnedTree.Proofs.Sync.Reporting
import PinnedTree.Proofs.Sync.Stopping
import PinnedTree.Proofs.Prune
import PinnedTree.Proofs.Prune.Completeness
import PinnedTree.Proofs.Prune.Confinement
import PinnedTree.Proofs.Prune.Foretelling
import PinnedTree.Proofs.Prune.Aftermath
import PinnedTree.Proofs.Prune.Settling
import PinnedTree.Proofs.Archive.Confinement
import PinnedTree.Proofs.Archive.Stripping
import PinnedTree.Proofs.Terminal.TextTable
import PinnedTree.Proofs.Backend.Copying
import PinnedTree.Proofs.Backend.Mirror
import PinnedTree.Proofs.Backend.Entry
