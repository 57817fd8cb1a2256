import ChoraMem.Intake.Deliveries
import ChoraMem.Queue.Materialization
import ChoraMem.Selection.Interference
import ChoraMem.Consolidation.Offer
import ChoraMem.Consolidation.Atomicity
import ChoraMem.Intake.OutcomeHash
import ChoraMem.Txn.Pact
import ChoraMem.World.Commit
import ChoraMem.Core.Observe
import ChoraMem.World.Chains
import ChoraMem.World.Effective
import ChoraMem.World.Refine
import ChoraMem.Core.Grammar
import ChoraMem.Selection.Admission
import ChoraMem.Sdk.Parity
import ChoraMem.World.Isolation
import ChoraMem.World.Consumed
import ChoraMem.World.Grounds
import ChoraMem.World.Staleness
import ChoraMem.World.Once
import ChoraMem.World.Contexts
import ChoraMem.World.Framing
import ChoraMem.Worker.Constitution
import ChoraMem.Worker.Binding
import ChoraMem.World.Repairs
import ChoraMem.Core.Ranker
import ChoraMem.Selection.Fusion
import ChoraMem.Selection.Evidence
import ChoraMem.Selection.Targets
import ChoraMem.Selection.Query
import ChoraMem.Projection.Pages
import ChoraMem.Projection.Valid
import ChoraMem.Worker.Filter
import ChoraMem.World.Formation
import ChoraMem.Txn.Both
import ChoraMem.Outbox.Copy
import ChoraMem.World.Outbox
import ChoraMem.World.Enqueue
import ChoraMem.World.Links
import ChoraMem.World.Posting
import ChoraMem.World.Intake
import ChoraMem.World.Announce
import ChoraMem.World.Trail
import ChoraMem.World.Commissions
import ChoraMem.World.Identity
import ChoraMem.World.Published
import ChoraMem.Dialog.Program
import ChoraMem.Storage.IndexQueue
import ChoraMem.Projection.Projector
import ChoraMem.Projection.System
import ChoraMem.Projection.Watch
import ChoraMem.Projection.Law
import ChoraMem.Projection.Mirror
import ChoraMem.Projection.Convergence
import ChoraMem.Projection.Drain
import ChoraMem.Projection.Announced
