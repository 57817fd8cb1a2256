/-
The consolidation job queue.

Intake joins new evidence to the one collecting job of its owner.  A lease takes
the ready job of lowest order, freezes it when it is still collecting (the tail of
the last completed window is put before it, what does not fit becomes a new
collecting job), and hands out a token.  Completion and retry are single
statements that match the token.

`SELECT ... FOR UPDATE` locks the row it returns: here it writes the row back
unchanged, which occupies the row's keys and reads its newest version.
-/
import ChoraMem.Storage.Store

namespace ChoraMem

open Txn

/-! ## Lists of refs -/

/-- Append the refs that are neither empty nor there yet, and say whether any was. -/
def appendUniqueRefs (existing added : List String) : List String × Bool :=
  let result := added.foldl
    (fun acc ref => if ref == "" || acc.contains ref then acc else acc ++ [ref]) existing
  (result, result.length != existing.length)

/-! ## Joining evidence to the collecting job -/

def collectingJob (owner : OwnerScope) (d : Db) : Option JobRow :=
  d.jobs.find? fun j => decide (j.owner = owner) && j.collecting

/-- The row locks of a `FOR UPDATE` query. -/
def touchJob : Option JobRow → List Write
  | some j => [.updateJob j]
  | none => []

def selectJobForUpdate (q : Db → Option JobRow) : Tx (Option JobRow) :=
  Prog.statement (fun d => touchJob (q d)) q

/-- `UPDATE consolidation_jobs SET ... WHERE job_ref = $1`. -/
def updateJobs (matching : JobRow → Bool) (f : JobRow → JobRow) (d : Db) : List Write :=
  (d.jobs.filter matching).map fun j => .updateJob (f j)

def JobRow.extend (env : Ambient) (episodes outcomes : List String) (j : JobRow) : JobRow :=
  { j with episodeRefs := episodes, outcomeEventRefs := outcomes, notBefore := env.now,
           updatedAt := env.now }

def extendCollectingJob (env : Ambient) (jobRef : String) (episodes outcomes : List String) :
    Tx Unit :=
  Prog.statement
    (updateJobs (fun j => j.jobRef = jobRef) (JobRow.extend env episodes outcomes)) fun _ => ()

/-- A collecting row as its `INSERT` fills it. -/
def newJob (env : Ambient) (jobOrder : Nat) (jobRef : String) (owner : OwnerScope)
    (episodes outcomes : List String) : JobRow :=
  { jobOrder := jobOrder, jobRef := jobRef, owner := owner, episodeRefs := episodes,
    outcomeEventRefs := outcomes, windowHash := none, notBefore := env.now, leaseToken := "",
    leaseUntil := none, attempts := 0, completedAt := none, createdAt := env.now,
    updatedAt := env.now }

/-- A unique index already has an entry for a collecting row. -/
def jobConflict (jobRef : String) (owner : OwnerScope) (d : Db) : Bool :=
  d.jobs.any fun j => j.jobRef = jobRef || (decide (j.owner = owner) && j.collecting)

/-- The `INSERT ... ON CONFLICT DO NOTHING` of a collecting row. -/
def newCollectingJob (row : JobRow) (d : Db) : List Write :=
  if jobConflict row.jobRef row.owner d then [] else [.insertJob row]

/-- The second half of the enqueue: the refs of the collecting row that is there. -/
def joinCollectingJob (env : Ambient) (job : JobRow) (episodeRefs outcomeRefs : List String) :
    Tx Unit :=
  let episodes := appendUniqueRefs job.episodeRefs episodeRefs
  let outcomes := appendUniqueRefs job.outcomeEventRefs outcomeRefs
  if !episodes.2 && !outcomes.2 then .ret ()
  else extendCollectingJob env job.jobRef episodes.1 outcomes.1

def Store.enqueueConsolidationEvidence (store : Store) (env : Ambient) (scope : Scope)
    (episodeRefs outcomeRefs : List String) : Tx Unit :=
  if episodeRefs.isEmpty then .ret ()
  else do
    Prog.acquire (store.consolidationCollectionLockKey scope.owner)
    let stored ← selectJobForUpdate (collectingJob scope.owner)
    let jobRef := (stored.map (·.jobRef)).getD env.jobRef
    let storedEpisodes := (stored.map (·.episodeRefs)).getD []
    let storedOutcomes := (stored.map (·.outcomeEventRefs)).getD []
    let episodes := appendUniqueRefs storedEpisodes episodeRefs
    let outcomes := appendUniqueRefs storedOutcomes outcomeRefs
    if !episodes.2 && !outcomes.2 then .ret ()
    else if storedEpisodes.isEmpty then do
      let inserted ← Prog.statement
        (newCollectingJob (newJob env env.jobOrder jobRef scope.owner episodes.1 outcomes.1))
        fun d => !jobConflict jobRef scope.owner d
      if inserted then .ret ()
      else do
        let joined ← selectJobForUpdate (collectingJob scope.owner)
        match joined with
        | none => .fail ⟨.storage, "load concurrent consolidation Job remainder", ""⟩
        | some job => joinCollectingJob env job episodeRefs outcomeRefs
    else extendCollectingJob env jobRef episodes.1 outcomes.1

/-- The Outcome refs of an Episode of an owner, in order. -/
def queuedOutcomes (owner : OwnerScope) (episodeRef : String) (d : Db) : List String :=
  sortRefs ((d.outcomes.filter fun o =>
    decide (o.group.scope.owner = owner) && decide (o.episodeRef = episodeRef)).map (·.ref))

def Store.enqueueEpisodeState (store : Store) (env : Ambient) (scope : Scope)
    (episodeRef : String) : Tx Unit :=
  if episodeRef == "" then .ret ()
  else do
    let outcomes ← Prog.select (queuedOutcomes scope.owner episodeRef)
    store.enqueueConsolidationEvidence env scope [episodeRef] outcomes

/-- The Episodes of a run, by source group. -/
def runEpisodes (scope : Scope) (runRef : String) (d : Db) : List String :=
  ((d.episodes.filter fun e =>
    decide (e.group.scope = scope) && decide (e.group.runRef = runRef)).insertionSort
      fun a b => a.group.sourceGroupRef ≤ b.group.sourceGroupRef).map (·.ref)

def Store.enqueueRunEpisodes (store : Store) (env : Ambient) (scope : Scope) (runRef : String) :
    Tx Unit := do
  let refs ← Prog.select (runEpisodes scope runRef)
  Prog.forEach (store.enqueueEpisodeState env scope) refs

/-! ## Leasing -/

structure LeaseRequest where
  quietBefore : Nat
  leaseUntil : Nat
  maxEpisodes : Int
  overlap : Int
  deriving DecidableEq, Repr

/-- One immutable leased window. -/
structure Job where
  ref : String
  episodeRefs : List String
  outcomeEventRefs : List String
  leaseToken : String
  deriving DecidableEq, Repr

/-- The `WHERE` of the lease query. -/
def leasable (now : Nat) (request : LeaseRequest) (d : Db) (job : JobRow) : Bool :=
  job.completedAt.isNone &&
  decide (job.notBefore ≤ now) &&
  job.leaseUntil.all (fun t => decide (t ≤ now)) &&
  !d.jobs.any (fun earlier =>
    decide (earlier.owner = job.owner) && earlier.completedAt.isNone &&
      decide (earlier.jobOrder < job.jobOrder)) &&
  (job.windowHash.isSome ||
    ((decide (job.updatedAt ≤ request.quietBefore) ||
        decide (request.maxEpisodes ≤ job.episodeRefs.length)) &&
      decide (1 ≤ job.episodeRefs.length)))

def readyJob (now : Nat) (request : LeaseRequest) (d : Db) : Option JobRow :=
  ((d.jobs.filter (leasable now request d)).insertionSort fun a b => a.jobOrder ≤ b.jobOrder).head?

/-- The last completed job of an owner: `ORDER BY completed_at DESC, created_at DESC`. -/
def previousJob (owner : OwnerScope) (d : Db) : Option JobRow :=
  ((d.jobs.filter fun j => decide (j.owner = owner) && j.completedAt.isSome).insertionSort
    fun a b => b.completedAt.getD 0 < a.completedAt.getD 0 ∨
      (a.completedAt.getD 0 = b.completedAt.getD 0 ∧ b.createdAt ≤ a.createdAt)).head?

def Store.consolidationQueueWindowHash (store : Store) (owner : OwnerScope)
    (episodes outcomes : List String) : String :=
  store.hashFields <|
    ["consolidation-queue-window.v1", owner.tenantRef, owner.kind.text, owner.agentRef,
      owner.relationshipRef] ++ episodes ++ ["OUTCOMES"] ++ outcomes

/-- Split Outcomes by whether their Episode is among the selected ones.  Each must
belong to the owner and to a collected Episode. -/
def partitionConsolidationOutcomes (owner : OwnerScope) (collectedEpisodes : List String)
    (selectedEpisodes : List String) (d : Db) :
    List String → Except Fault (List String × List String)
  | [] => .ok ([], [])
  | ref :: rest =>
    match d.outcomes.find? fun o => decide (o.group.scope.owner = owner) && decide (o.ref = ref) with
    | none => .error ⟨.plain, "consolidation Outcome is outside its exact owner", ref⟩
    | some outcome =>
      if !collectedEpisodes.contains outcome.episodeRef then
        .error ⟨.plain, "consolidation Outcome has no collected Episode", ref⟩
      else
        match partitionConsolidationOutcomes owner collectedEpisodes selectedEpisodes d rest with
        | .error e => .error e
        | .ok (selected, remainder) =>
          if selectedEpisodes.contains outcome.episodeRef then .ok (ref :: selected, remainder)
          else .ok (selected, ref :: remainder)

/-- The result of a query that may reject the rows it read. -/
def selectOrFail {α : Type} (q : Db → Except Fault α) : Tx α :=
  .read fun d =>
    match q d with
    | .ok a => .ret a
    | .error e => .fail e

/-- The last `n` elements. -/
def takeLast {α : Type} (n : Nat) (l : List α) : List α := l.drop (l.length - n)

/-- The tail of the previous window, and its Outcomes, before the current refs. -/
def prependPreviousOverlap (owner : OwnerScope) (current : List String) (limit : Nat) :
    Tx (List String × List String) :=
  if limit = 0 then .ret (current, [])
  else do
    let previous ← Prog.select (previousJob owner)
    match previous with
    | none => .ret (current, [])
    | some job => do
      let tail := takeLast limit job.episodeRefs
      let overlap ← selectOrFail fun d =>
        partitionConsolidationOutcomes owner job.episodeRefs tail d job.outcomeEventRefs
      .ret ((tail ++ current).foldl (fun acc ref => if acc.contains ref then acc else acc ++ [ref]) [],
        overlap.1)

/-- What a lease writes to the job, and what it carries into a new one. -/
structure FrozenWindow where
  episodeRefs : List String
  outcomeEventRefs : List String
  windowHash : String
  remainderEpisodes : List String
  remainderOutcomes : List String

def Store.freezeWindow (store : Store) (request : LeaseRequest) (job : JobRow) :
    Tx FrozenWindow := do
  let limit := if request.maxEpisodes ≤ request.overlap then request.maxEpisodes - 1
    else request.overlap
  let (combined, overlapOutcomes) ← prependPreviousOverlap job.owner job.episodeRefs limit.toNat
  let episodes := combined.take request.maxEpisodes.toNat
  let candidates := (appendUniqueRefs overlapOutcomes job.outcomeEventRefs).1
  let (selected, remainder) ← selectOrFail fun d =>
    partitionConsolidationOutcomes job.owner combined episodes d candidates
  .ret { episodeRefs := episodes, outcomeEventRefs := selected,
         windowHash := store.consolidationQueueWindowHash job.owner episodes selected,
         remainderEpisodes := job.episodeRefs.filter fun ref => !episodes.contains ref,
         remainderOutcomes := remainder }

/-- A leased job keeps its frozen window. -/
def JobRow.frozenWindow (job : JobRow) (hash : String) : FrozenWindow :=
  { episodeRefs := job.episodeRefs, outcomeEventRefs := job.outcomeEventRefs, windowHash := hash,
    remainderEpisodes := [], remainderOutcomes := [] }

/-- The window of a ready job: frozen before, or frozen now. -/
def Store.leasedWindow (store : Store) (request : LeaseRequest) (job : JobRow) : Tx FrozenWindow :=
  match job.windowHash with
  | some hash => .ret (job.frozenWindow hash)
  | none => store.freezeWindow request job

/-- What did not fit becomes the owner's new collecting job. -/
def carryRemainder (env : Ambient) (owner : OwnerScope) (window : FrozenWindow) : Tx Unit :=
  if window.remainderEpisodes.isEmpty then .ret ()
  else
    insertFresh (jobConflict env.remainderRef owner)
      (.insertJob (newJob env env.remainderOrder env.remainderRef owner window.remainderEpisodes
        window.remainderOutcomes))
      "carry consolidation Job remainder"

def JobRow.lease (env : Ambient) (request : LeaseRequest) (window : FrozenWindow) (j : JobRow) :
    JobRow :=
  { j with episodeRefs := window.episodeRefs, outcomeEventRefs := window.outcomeEventRefs,
           windowHash := some window.windowHash, leaseToken := env.leaseToken,
           leaseUntil := some request.leaseUntil, attempts := j.attempts + 1, updatedAt := env.now }

def Store.leaseConsolidationJob (store : Store) (env : Ambient) (request : LeaseRequest) :
    Tx (Option Job) :=
  if decide (request.maxEpisodes < 2) || decide (request.overlap < 0) || request.leaseUntil == 0 then
    .fail ⟨.plain, "invalid consolidation lease request", ""⟩
  else do
    let ready ← selectJobForUpdate (readyJob env.now request)
    match ready with
    | none => .ret none
    | some job => do
      let window ← store.leasedWindow request job
      Prog.statement
        (updateJobs (fun j => j.jobRef = job.jobRef) (JobRow.lease env request window)) fun _ => ()
      carryRemainder env job.owner window
      .ret (some
        { ref := job.jobRef, episodeRefs := window.episodeRefs,
          outcomeEventRefs := window.outcomeEventRefs, leaseToken := env.leaseToken })

/-! ## Ending a lease -/

/-- The row an acknowledgement matches. -/
def heldLease (jobRef leaseToken : String) (j : JobRow) : Bool :=
  decide (j.jobRef = jobRef) && decide (j.leaseToken = leaseToken) && j.completedAt.isNone

def endLease (jobRef leaseToken : String) (f : JobRow → JobRow) : Tx Unit := do
  let affected ← Prog.statement (updateJobs (heldLease jobRef leaseToken) f)
    fun d => (d.jobs.filter (heldLease jobRef leaseToken)).length
  if affected != 1 then .fail ⟨.leaseLost, "", ""⟩ else .ret ()

def completeConsolidationJob (env : Ambient) (jobRef leaseToken : String) : Tx Unit :=
  endLease jobRef leaseToken fun j =>
    { j with completedAt := some env.now, leaseToken := "", leaseUntil := none,
             updatedAt := env.now }

def retryConsolidationJob (env : Ambient) (jobRef leaseToken : String) (notBefore : Nat) : Tx Unit :=
  endLease jobRef leaseToken fun j =>
    { j with notBefore := notBefore, leaseToken := "", leaseUntil := none, updatedAt := env.now }

end ChoraMem
