/-
Consolidation of one window.

A call reads a snapshot, asks the worker outside of any transaction, and commits.
The commit takes the job's lock and the locks of the owners whose Memory the window
can change, loads the window again, and applies nothing unless it finds the state the
worker was asked about.  A job that has a receipt is answered from it.

The worker and the index are outside: the index is a function, and the worker is the
text a commit is given.  The snapshot is one state of the store, as a repeatable
read is, and each loader of the commit is one query.
-/
import ChoraMem.Storage.Apply
import ChoraMem.Storage.JobQueue

namespace ChoraMem

open Txn

/-! ## Windows and their receipts -/

def Window.valid (window : Window) : Bool :=
  stableFeedbackRef window.jobRef && !window.episodeRefs.isEmpty &&
    uniqueStableRefs window.episodeRefs && uniqueStableRefs window.outcomeEventRefs

namespace Store

variable (store : Store)

def consolidationWindowHash (owner : OwnerScope) (window : Window) : String :=
  store.hashFields <|
    ["consolidation-window.v2", owner.kind.text, owner.tenantRef, owner.agentRef,
      owner.relationshipRef] ++ window.episodeRefs ++ ["outcomes"] ++ window.outcomeEventRefs

def consolidationJobLockKey (tenantRef jobRef : String) : String :=
  store.lockKey ["consolidation-job-lock.v1", tenantRef, jobRef]

def consolidationOwnerLockKey (owner : OwnerScope) : String :=
  store.lockKey
    ["consolidation-owner-lock.v1", owner.kind.text, owner.tenantRef, owner.agentRef,
      owner.relationshipRef]

end Store

/-- The versions a job made. -/
def jobEffects (tenantRef jobRef : String) (d : Db) : Receipt :=
  { recollectionVersionRefs := sortRefs ((d.recollectionVersions.filter fun v =>
      decide (v.tenantRef = tenantRef) && decide (v.originJobRef = jobRef)).map (·.ref)),
    dispositionVersionRefs := sortRefs ((d.seedVersions.filter fun v =>
      decide (v.tenantRef = tenantRef) && decide (v.originJobRef = jobRef)).map (·.ref)) }

/-- The receipt of a job is rebuilt from the versions that have it as their origin. -/
def loadConsolidationReceipt (tenantRef jobRef requestHash : String) (d : Db) :
    Except Fault (Option Receipt) :=
  match d.receipts.find? fun r => decide (r.key = (tenantRef, jobRef)) with
  | none => .ok none
  | some r =>
    if r.requestHash != requestHash then .error ⟨.windowConflict, jobRef, ""⟩
    else .ok (some (jobEffects tenantRef jobRef d))

/-! ## Loading -/

def searchConsolidationMemoryIndex (index : Option MemoryIndex) (owner : OwnerScope)
    (episodes : List EpisodeEvidence) : MemoryIndexCandidates :=
  match index with
  | none => {}
  | some index => searchMemoryIndex index owner.index ((situationSources episodes).map (·.text))
      maxConsolidationIndexCandidates

/-- The Memory that indexed Episodes are a basis of is indexed too. -/
def addLinkedRefs (owner : OwnerScope) (found : MemoryIndexCandidates) (d : Db) :
    MemoryIndexCandidates :=
  if found.episodeRefs.isEmpty then found
  else
    let linked := loadEpisodeLinkedMemoryRefs owner found.episodeRefs d
    { found with recollectionRefs := uniqueRefs (found.recollectionRefs ++ linked.1),
                 dispositionRefs := uniqueRefs (found.dispositionRefs ++ linked.2) }

/-- A window with what was loaded of it. -/
def WindowState.withPairs (w : WindowState) (formation : Option FormationPairs) : WindowState :=
  match formation with
  | none => w
  | some found =>
    { w with related := mergeRelated found.related w.related,
             outcomes := mergeOutcomes found.pairs w.outcomes, pairs := found.pairs }

/-! ## The snapshot -/

/-- What a snapshot hands to the commit. -/
structure Proposal where
  window : Window
  owner : OwnerScope
  requestHash : String
  found : MemoryIndexCandidates
  formation : Option (List String)
  lockOwners : List OwnerScope
  stateHash : String
  recollectionStateHash : String
  workerRequestHash : String
  baseline : Constitution
  request : WorkerRequest
  deriving DecidableEq, Repr

/-- A request that does not fit, or that offers the baseline's own ref, is not put to
the worker, and the empty text stands for its answer. -/
def Proposal.asks (p : Proposal) : Bool :=
  fitsWorkerRequestLimit p.request && !constitutionRefCollision p.baseline p.request

inductive Snapshot
  | frozen (receipt : Receipt)
  | proposed (p : Proposal)
  deriving DecidableEq, Repr

def ownerSortKey (owner : OwnerScope) : String :=
  owner.kind.text ++ "\x00" ++ owner.tenantRef ++ "\x00" ++ owner.agentRef ++ "\x00" ++
    owner.relationshipRef

/-- The owners whose Memory the window can change, in the order they are locked. -/
def consolidationLockOwners (owner : OwnerScope) (targets : List FeedbackTarget) :
    List OwnerScope :=
  ((owner :: targets.map (·.owner)).dedup).insertionSort fun a b => ownerSortKey a ≤ ownerSortKey b

namespace Store

variable (store : Store)

def proposal (window : Window) (found : MemoryIndexCandidates) (formation : Option (List String))
    (w : WindowState) : Proposal :=
  let owner := windowOwner w.episodes
  let request := w.workerRequest window.jobRef
  { window := window, owner := owner, requestHash := store.consolidationWindowHash owner window,
    found := found, formation := formation,
    lockOwners := consolidationLockOwners owner w.targets,
    stateHash := store.hashFeedbackState w.targets,
    recollectionStateHash := store.hashRecollectionState w.recollections,
    workerRequestHash := store.hashConsolidationWorkerRequest request,
    baseline := currentConstitution w.episodes, request := request }

/-- A window without a receipt yet. -/
def propose (index : Option MemoryIndex) (window : Window) (episodes : List EpisodeEvidence)
    (found : MemoryIndexCandidates) (related : List EpisodeEvidence) (d : Db) :
    Except Fault Proposal := do
  let owner := windowOwner episodes
  let dispositions := store.loadActiveDispositions owner episodes found.dispositionRefs d
  let (targets, outcomes) ← loadFeedbackState episodes window.outcomeEventRefs dispositions d
  let formation := searchDispositionFormationEpisodes index owner episodes outcomes
  let w : WindowState :=
    { episodes := episodes, related := related, outcomes := outcomes, targets := targets,
      dispositions := dispositions,
      recollections := store.loadActiveRecollections owner episodes found.recollectionRefs d,
      pairs := [] }
  let pairs := formation.map fun refs => loadDispositionFormationPairs owner episodes outcomes refs d
  return store.proposal window found formation (w.withPairs pairs)

/-- The first half of `ConsolidateWindow`. -/
def snapshotWindow (index : Option MemoryIndex) (window : Window) (d : Db) :
    Except Fault Snapshot := do
  if !window.valid then throw invalidWindow
  let (episodes, owner) ← loadConsolidationEpisodes window.episodeRefs d
  let indexed := searchConsolidationMemoryIndex index owner episodes
  let related := loadIndexedConsolidationEpisodes owner indexed.episodeRefs episodes d
  let found := addLinkedRefs owner indexed d
  match ← loadConsolidationReceipt owner.tenantRef window.jobRef
      (store.consolidationWindowHash owner window) d with
  | some receipt => return .frozen receipt
  | none =>
    let p ← store.propose index window episodes found related d
    return .proposed p

/-! ## Effects -/

/-- Put a new version into the outbox of the index. -/
def projectFormation (kind : DocumentKind) (owner : OwnerScope) (a : Applied) : Tx Applied :=
  if a.applied then do
    store.enqueueMemoryFormation kind a.versionRef owner
    .ret a
  else .ret a

def projectRevision (kind : DocumentKind) (rootRef oldVersionRef : String) (owner : OwnerScope)
    (a : Applied) : Tx Applied :=
  if a.applied && a.versionRef != "" then do
    store.enqueueMemoryRevision kind rootRef oldVersionRef a.versionRef owner
    .ret a
  else .ret a

def applyRecollectionChange (env : Ambient) (jobRef : String) (r : ActiveRecollection)
    (change : Change) : Tx Applied :=
  match change.operation with
  | .keep => applyRecollectionKeep r change.basisRefs
  | .text => do
    let a ← applyRecollectionRevision env jobRef r change
    store.projectRevision .recollection r.recollection r.versionRef r.owner a
  | _ => .ret {}

def applyDispositionChange (jobRef : String) (t : FeedbackTarget) (change : Change) : Tx Applied :=
  match change.operation with
  | .reenact => applyReenactment t change.basisRefs
  | .inhibit => applyInhibition t change.basisRefs
  | .text | .adapt => do
    let a ← applyRevision jobRef t change
    store.projectRevision .disposition t.seedRef t.versionRef t.owner a
  | .keep => .ret {}

def applyChange (env : Ambient) (jobRef : String) (w : WindowState) (change : Change) :
    Tx Applied :=
  if change.target = targetNewRecollection then do
    let a ← store.applyRecollectionFormation env w jobRef change
    store.projectFormation .recollection (windowOwner w.episodes) a
  else if change.target = targetNewDisposition then do
    let a ← store.applyDispositionFormation w jobRef change
    store.projectFormation .disposition (windowOwner w.episodes) a
  else
    match w.recollectionOf change.target with
    | some r => store.applyRecollectionChange env jobRef r change
    | none =>
      match targetByRef w.targets change.target with
      | some t => store.applyDispositionChange jobRef t change
      | none => .ret {}

/-- The changes in order, each with what it did. -/
def applyChanges (env : Ambient) (jobRef : String) (w : WindowState) :
    List Change → Tx (List (Change × Applied))
  | [] => .ret []
  | change :: rest => do
    let a ← store.applyChange env jobRef w change
    let effects ← applyChanges env jobRef w rest
    .ret ((change, a) :: effects)

end Store

/-- A change of a Recollection. -/
def WindowState.recollects (w : WindowState) (change : Change) : Bool :=
  change.target == targetNewRecollection ||
    (change.target != targetNewDisposition && (w.recollectionOf change.target).isSome)

def madeVersions (effects : List (Change × Applied)) : List String :=
  (effects.filter fun e => e.2.applied && e.2.versionRef != "").map (·.2.versionRef)

def WindowState.receipt (w : WindowState) (effects : List (Change × Applied)) : Receipt :=
  { recollectionVersionRefs := sortRefs (madeVersions (effects.filter fun e => w.recollects e.1)),
    dispositionVersionRefs := sortRefs (madeVersions (effects.filter fun e => !w.recollects e.1)) }

/-! ## The commit -/

/-- The changes of an answer that may be applied: all of them or none. -/
def WindowState.accepted (w : WindowState) (text : String) : List Change :=
  match parseTaggedText text with
  | .error _ => []
  | .ok changes => if w.validConsolidationChanges changes then changes else []

def receiptConflict (row : ConsolidationReceiptRow) (d : Db) : Bool :=
  d.receipts.any fun r => decide (r.key = row.key)

namespace Store

variable (store : Store)

/-- The state is the one the worker was asked about. -/
def unchanged (p : Proposal) (w : WindowState) : Bool :=
  store.hashFeedbackState w.targets == p.stateHash &&
    store.hashRecollectionState w.recollections == p.recollectionStateHash &&
    store.hashConsolidationWorkerRequest (w.workerRequest p.window.jobRef) == p.workerRequestHash

/-- Load the window again under the owners' locks. -/
def reloadWindow (p : Proposal) (episodes related : List EpisodeEvidence) : Tx WindowState := do
  let dispositions ← Prog.select
    (store.loadActiveDispositions p.owner episodes p.found.dispositionRefs)
  let (targets, outcomes) ← selectOrFail
    (loadFeedbackState episodes p.window.outcomeEventRefs dispositions)
  let pairs ← Prog.select fun d => p.formation.map fun refs =>
    loadDispositionFormationPairs p.owner episodes outcomes refs d
  let recollections ← Prog.select
    (store.loadActiveRecollections p.owner episodes p.found.recollectionRefs)
  let w : WindowState :=
    { episodes := episodes, related := related, outcomes := outcomes, targets := targets,
      dispositions := dispositions, recollections := recollections, pairs := [] }
  .ret (w.withPairs pairs)

/-- Apply an answer and freeze the receipt. -/
def commitChanges (env : Ambient) (p : Proposal) (w : WindowState) (text : String) :
    Tx Receipt := do
  let effects ← store.applyChanges env p.window.jobRef w (w.accepted text)
  let row : ConsolidationReceiptRow :=
    { owner := p.owner, jobRef := p.window.jobRef, requestHash := p.requestHash }
  insertFresh (receiptConflict row) (.insertReceipt row) "freeze consolidation receipt"
  .ret (w.receipt effects)

/-- The second half of `ConsolidateWindow`, with the worker's text. -/
def commitWindow (env : Ambient) (p : Proposal) (text : String) : Tx Receipt := do
  Prog.acquire (store.consolidationJobLockKey p.owner.tenantRef p.window.jobRef)
  let found ← selectOrFail
    (loadConsolidationReceipt p.owner.tenantRef p.window.jobRef p.requestHash)
  match found with
  | some receipt => .ret receipt
  | none => do
    let (episodes, owner) ← selectOrFail (loadConsolidationEpisodes p.window.episodeRefs)
    if owner ≠ p.owner then .fail invalidWindow
    else do
      let related ← Prog.select
        (loadIndexedConsolidationEpisodes p.owner p.found.episodeRefs episodes)
      Prog.forEach (fun o => Prog.acquire (store.consolidationOwnerLockKey o)) p.lockOwners
      let w ← store.reloadWindow p episodes related
      if !store.unchanged p w then .fail windowStale
      else store.commitChanges env p w text

end Store

end ChoraMem
