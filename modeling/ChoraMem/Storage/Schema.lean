/-
The tables of the causal schema.

One structure per table, under the words of `migrations/postgres`, and one
constructor of `Write` for every way a statement changes a row.  The columns
`tenant_ref, scope_kind, agent_ref, relationship_ref, session_ref` of a row are
its `scope`, or its `owner` where the table has no session.  Times are naturals
of the database clock.  Foreign keys and CHECK constraints are implied by what
the statements insert and are not repeated; the unique keys are `rowKeys`, and
a statement without `ON CONFLICT` that meets one of them fails.
-/
import ChoraMem.Txn.Table
import ChoraMem.Txn.Interleave
import ChoraMem.Core.Ledger

namespace ChoraMem

open Txn

/-! ## Rows -/

structure SourceRow where
  event : SourceEvent
  admissionOrder : Nat
  deriving DecidableEq, Repr

def SourceRow.key (r : SourceRow) : Scope × String := (r.event.scope, r.event.ref)

structure EpisodeRow where
  group : StableGroupRef
  ref : String
  deriving DecidableEq, Repr

/-- A link of a group.  `episodeRef` is empty until the group materializes. -/
structure LinkRow where
  group : StableGroupRef
  sourceEventRef : String
  role : SourceRole
  episodeRef : String
  deriving DecidableEq, Repr

def LinkRow.key (r : LinkRow) : StableGroupRef × String × SourceRole :=
  (r.group, r.sourceEventRef, r.role)

structure RequestRow where
  tenantRef : String
  idempotencyKey : String
  requestHash : String
  sourceEventRef : String
  episodeRef : String
  deriving DecidableEq, Repr

def RequestRow.key (r : RequestRow) : String × String := (r.tenantRef, r.idempotencyKey)

structure OutcomeRow where
  group : StableGroupRef
  ref : String
  idempotencyKey : String
  requestHash : String
  sourceEventRef : String
  episodeRef : String
  deliveryReceiptRefs : List String
  relatedSourceEventRefs : List String
  deriving DecidableEq, Repr

def OutcomeRow.key (r : OutcomeRow) : StableGroupRef × String := (r.group, r.ref)

structure DeliveryRow where
  scope : Scope
  ref : String
  idempotencyKey : String
  requestHash : String
  runRef : String
  contextRef : String
  deliveredMemoryRefs : List String
  deriving DecidableEq, Repr

structure ContextRow where
  scope : Scope
  ref : String
  runRef : String
  requestHash : String
  policyRef : String
  constitution : Constitution
  deriving DecidableEq, Repr

inductive ItemKind
  | recollection
  | disposition
  deriving DecidableEq, Repr

def ItemKind.text : ItemKind → String
  | recollection => "recollection"
  | disposition => "disposition"

structure ContextItemRow where
  tenantRef : String
  contextRef : String
  kind : ItemKind
  memoryRef : String
  order : Nat
  querySourceRef : String
  matchedMemoryRef : String
  evidenceEpisodeRef : String
  evidenceSourceRef : String
  deriving DecidableEq, Repr

structure ContextEvidenceRow where
  tenantRef : String
  contextRef : String
  episodeRef : String
  order : Nat
  querySourceRef : String
  text : String
  deriving DecidableEq, Repr

structure SeedRow where
  owner : OwnerScope
  ref : String
  deriving DecidableEq, Repr

inductive VersionStatus
  | active
  | superseded
  | ineligible
  deriving DecidableEq, Repr

structure SeedVersionRow where
  tenantRef : String
  seedRef : String
  ref : String
  number : Nat
  tendency : String
  status : VersionStatus
  originJobRef : String
  deriving DecidableEq, Repr

inductive BasisRole
  | formation
  | revision
  | reenactment
  | inhibition
  | support
  deriving DecidableEq, Repr

def BasisRole.text : BasisRole → String
  | formation => "formation"
  | revision => "revision"
  | reenactment => "reenactment"
  | inhibition => "inhibition"
  | support => "support"

/-- A basis of a version: `seed_basis_links` and `recollection_basis_links` cite
an Episode, `seed_outcome_basis_links` an Outcome. -/
structure BasisRow where
  tenantRef : String
  versionRef : String
  basisRef : String
  role : BasisRole
  deriving DecidableEq, Repr

structure ConsolidationReceiptRow where
  owner : OwnerScope
  jobRef : String
  requestHash : String
  deriving DecidableEq, Repr

def ConsolidationReceiptRow.key (r : ConsolidationReceiptRow) : String × String :=
  (r.owner.tenantRef, r.jobRef)

structure JobRow where
  jobOrder : Nat
  jobRef : String
  owner : OwnerScope
  episodeRefs : List String
  outcomeEventRefs : List String
  windowHash : Option String
  notBefore : Nat
  leaseToken : String
  leaseUntil : Option Nat
  attempts : Nat
  completedAt : Option Nat
  createdAt : Nat
  updatedAt : Nat
  deriving DecidableEq, Repr

/-- The job still collects evidence: no lease has frozen it. -/
def JobRow.collecting (j : JobRow) : Bool := j.windowHash.isNone && j.completedAt.isNone

structure RecollectionRow where
  owner : OwnerScope
  ref : String
  deriving DecidableEq, Repr

structure RecollectionVersionRow where
  tenantRef : String
  recollectionRef : String
  ref : String
  number : Nat
  text : String
  application : String
  status : VersionStatus
  originJobRef : String
  createdAt : Nat
  deriving DecidableEq, Repr

inductive IndexAction
  | upsert
  | delete
  deriving DecidableEq, Repr

def IndexAction.text : IndexAction → String
  | upsert => "UPSERT"
  | delete => "DELETE"

inductive DocumentKind
  | episode
  | recollection
  | disposition
  deriving DecidableEq, Repr

def DocumentKind.text : DocumentKind → String
  | episode => "EPISODE"
  | recollection => "RECOLLECTION"
  | disposition => "DISPOSITION"

structure IndexOperationRow where
  operationId : String
  streamRef : String
  streamSequence : Nat
  action : IndexAction
  documentKind : DocumentKind
  documentRef : String
  tenantRef : String
  agentRef : String
  relationshipRef : String
  deriving DecidableEq, Repr

/-! ## The store -/

structure Db where
  sources : List SourceRow := []
  episodes : List EpisodeRow := []
  links : List LinkRow := []
  requests : List RequestRow := []
  outcomes : List OutcomeRow := []
  deliveries : List DeliveryRow := []
  contexts : List ContextRow := []
  contextItems : List ContextItemRow := []
  contextEvidence : List ContextEvidenceRow := []
  seeds : List SeedRow := []
  seedVersions : List SeedVersionRow := []
  seedBasis : List BasisRow := []
  seedOutcomeBasis : List BasisRow := []
  receipts : List ConsolidationReceiptRow := []
  jobs : List JobRow := []
  recollections : List RecollectionRow := []
  recollectionVersions : List RecollectionVersionRow := []
  recollectionBasis : List BasisRow := []
  indexOperations : List IndexOperationRow := []
  deriving DecidableEq, Repr

/-- One written row. -/
inductive Write
  | insertSource (r : SourceRow)
  | insertEpisode (r : EpisodeRow)
  | insertLink (r : LinkRow)
  | updateLink (r : LinkRow)
  | insertRequest (r : RequestRow)
  | updateRequest (r : RequestRow)
  | insertOutcome (r : OutcomeRow)
  | updateOutcome (r : OutcomeRow)
  | insertDelivery (r : DeliveryRow)
  | insertContext (r : ContextRow)
  | insertContextItem (r : ContextItemRow)
  | insertContextEvidence (r : ContextEvidenceRow)
  | insertSeed (r : SeedRow)
  | insertSeedVersion (r : SeedVersionRow)
  | updateSeedVersion (r : SeedVersionRow)
  | insertSeedBasis (r : BasisRow)
  | insertSeedOutcomeBasis (r : BasisRow)
  | insertReceipt (r : ConsolidationReceiptRow)
  | insertJob (r : JobRow)
  | updateJob (r : JobRow)
  | insertRecollection (r : RecollectionRow)
  | insertRecollectionVersion (r : RecollectionVersionRow)
  | updateRecollectionVersion (r : RecollectionVersionRow)
  | insertRecollectionBasis (r : BasisRow)
  | insertIndexOperation (r : IndexOperationRow)
  deriving DecidableEq, Repr

/-- The effect of one written row.  An Outcome or a job is inserted only when its
statement found its keys free, and they stay free, so its row is put in place. -/
def Db.apply (d : Db) : Write → Db
  | .insertSource r => { d with sources := insertRow SourceRow.key r d.sources }
  | .insertEpisode r => { d with episodes := insertRow EpisodeRow.group r d.episodes }
  | .insertLink r => { d with links := insertRow LinkRow.key r d.links }
  | .updateLink r => { d with links := updateRow LinkRow.key r d.links }
  | .insertRequest r => { d with requests := insertRow RequestRow.key r d.requests }
  | .updateRequest r => { d with requests := updateRow RequestRow.key r d.requests }
  | .insertOutcome r => { d with outcomes := updateRow OutcomeRow.key r d.outcomes }
  | .updateOutcome r => { d with outcomes := updateRow OutcomeRow.key r d.outcomes }
  | .insertDelivery r => { d with deliveries := insertRow DeliveryRow.ref r d.deliveries }
  | .insertContext r => { d with contexts := insertRow ContextRow.ref r d.contexts }
  | .insertContextItem r => { d with contextItems := insertRow id r d.contextItems }
  | .insertContextEvidence r => { d with contextEvidence := insertRow id r d.contextEvidence }
  | .insertSeed r => { d with seeds := insertRow SeedRow.ref r d.seeds }
  | .insertSeedVersion r =>
    { d with seedVersions := insertRow SeedVersionRow.ref r d.seedVersions }
  | .updateSeedVersion r =>
    { d with seedVersions := updateRow SeedVersionRow.ref r d.seedVersions }
  | .insertSeedBasis r => { d with seedBasis := insertRow id r d.seedBasis }
  | .insertSeedOutcomeBasis r => { d with seedOutcomeBasis := insertRow id r d.seedOutcomeBasis }
  | .insertReceipt r => { d with receipts := insertRow ConsolidationReceiptRow.key r d.receipts }
  | .insertJob r => { d with jobs := updateRow JobRow.jobRef r d.jobs }
  | .updateJob r => { d with jobs := updateRow JobRow.jobRef r d.jobs }
  | .insertRecollection r => { d with recollections := insertRow RecollectionRow.ref r d.recollections }
  | .insertRecollectionVersion r =>
    { d with recollectionVersions := insertRow RecollectionVersionRow.ref r d.recollectionVersions }
  | .updateRecollectionVersion r =>
    { d with recollectionVersions := updateRow RecollectionVersionRow.ref r d.recollectionVersions }
  | .insertRecollectionBasis r => { d with recollectionBasis := insertRow id r d.recollectionBasis }
  | .insertIndexOperation r =>
    { d with indexOperations := insertRow IndexOperationRow.operationId r d.indexOperations }

/-! ## Unique keys -/

/-- An entry of a unique index. -/
structure RowKey where
  index : String
  fields : List String
  deriving DecidableEq, Repr

def OwnerScope.fields (o : OwnerScope) : List String :=
  [o.tenantRef, o.kind.text, o.agentRef, o.relationshipRef]

def Scope.fields (s : Scope) : List String :=
  [s.tenantRef, s.kind.text, s.agentRef, s.relationshipRef, s.sessionRef]

def StableGroupRef.fields (g : StableGroupRef) : List String :=
  g.scope.fields ++ [g.runRef, g.sourceGroupRef]

def jobKeys (r : JobRow) : List RowKey :=
  ⟨"consolidation_jobs_pkey", [r.jobRef]⟩ ::
    if r.collecting then [⟨"consolidation_jobs_collecting_owner_uq", r.owner.fields⟩] else []

def Write.rowKeys : Write → List RowKey
  | .insertSource r => [⟨"source_events_pkey", r.event.scope.fields ++ [r.event.ref]⟩]
  | .insertEpisode r => [⟨"episodes_pkey", r.group.fields⟩, ⟨"episodes_episode_ref_key", [r.ref]⟩]
  | .insertLink r | .updateLink r =>
    [⟨"episode_links_pkey", r.group.fields ++ [r.sourceEventRef, r.role.text]⟩]
  | .insertRequest r | .updateRequest r =>
    [⟨"request_receipts_pkey", [r.tenantRef, r.idempotencyKey]⟩]
  | .insertOutcome r | .updateOutcome r =>
    [⟨"outcome_events_outcome_event_ref_key", [r.ref]⟩,
      ⟨"outcome_events_idempotency_key", [r.group.scope.tenantRef, r.idempotencyKey]⟩]
  | .insertDelivery r =>
    [⟨"memory_delivery_receipts_receipt_ref_key", [r.ref]⟩,
      ⟨"memory_delivery_receipts_idempotency_key", [r.scope.tenantRef, r.idempotencyKey]⟩]
  | .insertContext r =>
    [⟨"memory_contexts_context_ref_key", [r.ref]⟩,
      ⟨"memory_contexts_run_key", r.scope.fields ++ [r.runRef]⟩]
  | .insertContextItem r =>
    [⟨"memory_context_items_memory_ref_uq", [r.tenantRef, r.contextRef, r.memoryRef]⟩]
  | .insertContextEvidence r =>
    [⟨"memory_context_episode_evidence_pkey", [r.tenantRef, r.contextRef, r.episodeRef]⟩]
  | .insertSeed r => [⟨"disposition_seeds_seed_ref_key", [r.ref]⟩]
  | .insertSeedVersion r | .updateSeedVersion r =>
    [⟨"seed_versions_seed_version_ref_key", [r.ref]⟩]
  | .insertSeedBasis r =>
    [⟨"seed_basis_links_pkey", [r.tenantRef, r.versionRef, r.basisRef, r.role.text]⟩]
  | .insertSeedOutcomeBasis r =>
    [⟨"seed_outcome_basis_links_pkey", [r.tenantRef, r.versionRef, r.basisRef, r.role.text]⟩]
  | .insertReceipt r => [⟨"consolidation_receipts_pkey", [r.owner.tenantRef, r.jobRef]⟩]
  | .insertJob r | .updateJob r => jobKeys r
  | .insertRecollection r => [⟨"recollections_recollection_ref_key", [r.ref]⟩]
  | .insertRecollectionVersion r | .updateRecollectionVersion r =>
    [⟨"recollection_versions_recollection_version_ref_key", [r.ref]⟩]
  | .insertRecollectionBasis r =>
    [⟨"recollection_basis_links_pkey", [r.tenantRef, r.versionRef, r.basisRef, r.role.text]⟩]
  | .insertIndexOperation r => [⟨"memory_index_operations_pkey", [r.operationId]⟩]

instance : Journal Db Write RowKey where
  apply := Db.apply
  rowKeys := Write.rowKeys

/-- A transaction of the store.  Named locks are the keys `hash[:8]` of the
source, here the digest's first sixteen hexadecimal characters. -/
abbrev Tx (α : Type) := Prog Db Write String Fault α

end ChoraMem
