import Reclamation.Config
import Reclamation.Fault
import Reclamation.Strategy
import Reclamation.Text.Blank
import Reclamation.Text.Case
import Reclamation.Text.Numeral
import Reclamation.Text.Words
import Reclamation.Graph.Basic
import Reclamation.Graph.Walk
import Reclamation.Memory.Handle
import Reclamation.Graph.Components
import Reclamation.Analysis.Error
import Reclamation.Analysis.Options
import Reclamation.TypeGraph.BackEdge
import Reclamation.TypeGraph.Shape
import Reclamation.Analysis.Escape
import Reclamation.Analysis.Liveness
import Reclamation.Plan.Basic
import Reclamation.Plan.Lower
import Reclamation.Plan.Ownership
import Reclamation.Plan.Placement
import Reclamation.Memory.ComponentRegistry
import Reclamation.Memory.Object
import Reclamation.Memory.SlotHandle
import Reclamation.Memory.Arena
import Reclamation.Memory.Basic
import Reclamation.Memory.Orphans
import Reclamation.Memory.Release
import Reclamation.Memory.Freeze
import Reclamation.Memory.References
import Reclamation.Memory.Closure
import Reclamation.Memory.Region
import Reclamation.Memory.Scopes
import Reclamation.Host.Basic
import Reclamation.Proofs.Graph.Walk
import Reclamation.Proofs.Graph.Tarjan
import Reclamation.Proofs.Graph.LowLinks
import Reclamation.Proofs.Graph.Components
import Reclamation.Proofs.Memory.SlotPool
import Reclamation.Proofs.Memory.ComponentRegistry
import Reclamation.Proofs.Memory.WeakFields
import Reclamation.Proofs.Memory.Storage
import Reclamation.Proofs.Memory.References
import Reclamation.Proofs.Memory.Ledger
import Reclamation.Proofs.Memory.Counting
import Reclamation.Proofs.Memory.Discard
import Reclamation.Proofs.Memory.Orphans
import Reclamation.Proofs.Memory.Release
import Reclamation.Proofs.Memory.Tracing
import Reclamation.Proofs.Memory.Fields
import Reclamation.Proofs.Memory.Freezing
import Reclamation.Proofs.Memory.Placement
import Reclamation.Proofs.Memory.Scopes
import Reclamation.Proofs.Memory.Consistency
import Reclamation.Proofs.Memory.Operations
import Reclamation.Proofs.Memory.Runs
import Reclamation.Proofs.Memory.Changes
import Reclamation.Proofs.Memory.Regions
import Reclamation.Proofs.Memory.Framing
import Reclamation.Proofs.Memory.Exactness
import Reclamation.Proofs.Graph.BackEdges
import Reclamation.Proofs.Graph.Orders
import Reclamation.Proofs.Graph.Tables
import Reclamation.Proofs.Graph.Spanning
import Reclamation.Proofs.TypeGraph.BackEdges
import Reclamation.Proofs.TypeGraph.Paths
import Reclamation.Proofs.TypeGraph.Detection
import Reclamation.Proofs.TypeGraph.Shapes
import Reclamation.Proofs.Program.Paths
import Reclamation.Proofs.Program.Store
import Reclamation.Proofs.Program.Flow
import Reclamation.Proofs.Analysis.Sweep
import Reclamation.Proofs.Analysis.Liveness
import Reclamation.Proofs.Analysis.Escape
import Reclamation.Proofs.Analysis.Detours
import Reclamation.Proofs.Plan.Ownership
import Reclamation.Proofs.Plan.Execution
import Reclamation.Proofs.Plan.Calls
import Reclamation.Proofs.Plan.Custody
import Reclamation.Proofs.Plan.Balance
import Reclamation.Proofs.Plan.Confinement
import Reclamation.Proofs.Plan.Escape
import Reclamation.Proofs.Plan.Trees
import Reclamation.Proofs.Plan.Releases
import Reclamation.Proofs.Plan.Lowering
import Reclamation.Proofs.Plan.Bracketing
import Reclamation.Proofs.Plan.Sharing
import Reclamation.Proofs.Plan.FreezePoints
import Reclamation.Proofs.Plan.Initialization
import Reclamation.Proofs.Plan.Temporaries
import Reclamation.Proofs.Plan.Owners
import Reclamation.Proofs.Memory.Lagging
import Reclamation.Proofs.Memory.Deferral
import Reclamation.Proofs.Memory.Arenas
import Reclamation.Proofs.Memory.Commands
import Reclamation.Proofs.Memory.Programs
import Reclamation.Proofs.Memory.Membership
import Reclamation.Proofs.Memory.Cycles
import Reclamation.Proofs.Memory.Watching
import Reclamation.Proofs.Memory.SlotAddresses
import Reclamation.Proofs.Memory.ScopedRuns
import Reclamation.Proofs.Memory.Isolation
import Reclamation.Proofs.Config
import Reclamation.Proofs.Memory.Audit
import Reclamation.Proofs.Memory.Statistics
import Reclamation.Proofs.Memory.Refusals
import Reclamation.Proofs.Memory.SlotRelease
import Reclamation.Proofs.Analysis.ReadFirst
import Reclamation.Proofs.Analysis.Deaths
import Reclamation.Proofs.Analysis.LeastEscape
import Reclamation.Proofs.Memory.Confluence
import Reclamation.Proofs.Memory.Batches
import Reclamation.Proofs.TypeGraph.SoleReferences
import Reclamation.Proofs.Memory.ComponentIds
import Reclamation.Proofs.Memory.SlotCounts
import Reclamation.Proofs.Memory.OrphanSearch
import Reclamation.Proofs.Memory.Settings
import Reclamation.Proofs.Memory.DeferralQueue
import Reclamation.Proofs.Memory.ArenaLives
import Reclamation.Proofs.Memory.Captures
import Reclamation.Proofs.Memory.FullRegistry
import Reclamation.Proofs.Memory.Resumption
import Reclamation.Proofs.Memory.ArenaSpace
import Reclamation.Proofs.TypeGraph.CyclicComponents
import Reclamation.Proofs.TypeGraph.Declarations
import Reclamation.Proofs.TypeGraph.Tables
import Reclamation.Proofs.TypeGraph.Store
import Reclamation.Proofs.TypeGraph.Strengths
import Reclamation.Proofs.TypeGraph.InPlace
import Reclamation.Proofs.TypeGraph.Edits
import Reclamation.Proofs.Text.Case
import Reclamation.Proofs.Text.Words
import Reclamation.Proofs.Program.Places
import Reclamation.Proofs.Plan.Referents
import Reclamation.Proofs.Memory.Survival
