/-
The store, the queue, the projector and the index together.

The calls of the store go on in any interleaving, and the operations of each commit come into
the queue.  One piece of the projector's work runs at a time, since `ProcessOne` and `Rebuild`
hold one mutex.  What it asks may be carried out and answered, carried out with the answer
lost, or not carried out at all, and it may stop for good between any two asks.
-/
import ChoraMem.Projection.Projector
import ChoraMem.World.Calls

namespace ChoraMem

open Dialog Txn

/-- The clocks, the token that is drawn and the queue rows that others have locked. -/
structure Moment where
  now : Nat
  clock : Nat
  token : String
  locked : QueueRow → Bool

structure ProjectionSys where
  memory : MemorySys
  queue : List QueueRow
  index : List Document
  work : Option (Projection Report)
  /-- The index was not reset, or was filled to the end since. -/
  whole : Bool

def ProjectionSys.init : ProjectionSys :=
  { memory := ⟨{}, []⟩, queue := [], index := [], work := none, whole := true }

/-! ## Asks carried out -/

/-- The Episode of a document. -/
def documentEpisode (r : DocumentRef) (d : Db) : Option EpisodeRow :=
  d.episodes.find? fun e => decide (e.ref = r.ref) && decide (e.group.scope.owner.index = r.scope)

/-- The rows of a page of the enumeration, and one more. -/
def refsBehind (afterKind : Int) (afterRef : String) (limit : Nat) (d : Db) : List DocumentRef :=
  (((documentRefs d).filter fun r => decide (afterKind < r.kind.order) ||
    (decide (afterKind = r.kind.order) && decide (afterRef < r.ref))).insertionSort
      documentOrder).take limit

/-- `Delete` of a provider. -/
def deleteDocuments (scope : IndexScope) (candidates : List IndexCandidate)
    (index : List Document) : List Document :=
  index.filter fun document => !(decide (document.scope = scope) &&
    candidates.any fun candidate => decide (candidate.kind = some document.kind) &&
      decide (candidate.ref = document.ref))

/-- An ask, its answer and the state after it. -/
def ProjectionSys.perform (m : Moment) (s : ProjectionSys) :
    (q : ProjectorAsk) → q.Answer × ProjectionSys
  | .now => (m.clock, s)
  | .lease leaseUntil =>
    let leased := leaseMemoryIndexOperation m.now m.token m.locked leaseUntil s.queue
    (leased.1, { s with queue := leased.2 })
  | .acknowledge operation =>
    let acknowledged := acknowledgeMemoryIndexOperation m.now operation s.queue
    (acknowledged.1, { s with queue := acknowledged.2 })
  | .retry operation notBefore reason =>
    let retried := retryMemoryIndexOperation m.now operation notBefore reason s.queue
    (retried.1, { s with queue := retried.2 })
  | .episode r => (.ok (documentEpisode r s.memory.db), s)
  | .sources ref tenantRef => (.ok (documentSources ref tenantRef s.memory.db), s)
  | .version r => (.ok (documentText r s.memory.db), s)
  | .refs afterKind afterRef limit => (.ok (refsBehind afterKind afterRef limit s.memory.db), s)
  | .upsert documents => (.ok (), { s with index := documents.foldl upsertDocument s.index })
  | .delete scope candidates => (.ok (), { s with index := deleteDocuments scope candidates s.index })
  | .reset => (.ok (), { s with index := [], whole := false })

/-- The answer of an ask that failed. -/
def ProjectorAsk.failure (fault : Fault) : (q : ProjectorAsk) → Option q.Answer
  | .now => none
  | .lease _ | .acknowledge _ | .retry _ _ _ | .episode _ | .sources _ _ | .version _ | .refs _ _ _
  | .upsert _ | .delete _ _ | .reset => some (.error fault)

/-! ## Steps -/

inductive ProjectionAct
  /-- A step of the calls; `now` are the times of the transactions that commit operations. -/
  | memory (act : MemoryAct) (now : IndexOperationRow → Nat)
  | process
  | rebuild
  | answer (m : Moment)
  /-- The ask is carried out, and its answer does not come. -/
  | lose (m : Moment) (fault : Fault)
  | refuse (fault : Fault)
  | turn
  | finish
  | stop

def ProjectionSys.step? (config : ProjectorConfig) (s : ProjectionSys) :
    ProjectionAct → Option ProjectionSys
  | .memory act now =>
    (s.memory.step? .readCommitted act).map fun memory =>
      { s with memory := memory, queue := receive now memory.db.indexOperations s.queue }
  | .process =>
    match s.work with
    | none => some { s with work := some (processOne config) }
    | some _ => none
  | .rebuild =>
    match s.work with
    | none => some { s with work := some startRebuild }
    | some _ => none
  | .answer m =>
    match s.work with
    | some (.ask q k) =>
      some { (s.perform m q).2 with work := some (k (s.perform m q).1) }
    | _ => none
  | .lose m fault =>
    match s.work with
    | some (.ask q k) =>
      (q.failure fault).map fun answer => { (s.perform m q).2 with work := some (k answer) }
    | _ => none
  | .refuse fault =>
    match s.work with
    | some (.ask q k) => (q.failure fault).map fun answer => { s with work := some (k answer) }
    | _ => none
  | .turn =>
    match s.work with
    | some (.ret (.again cursor)) => some { s with work := some (rebuildPage config cursor) }
    | _ => none
  | .finish =>
    match s.work with
    | some (.ret .rebuilt) => some { s with work := none, whole := true }
    | some (.ret (.processed _ _)) | some (.ret (.failed _)) => some { s with work := none }
    | _ => none
  | .stop =>
    match s.work with
    | some _ => some { s with work := none }
    | none => none

/-- The states that calls and the projector reach, from an empty store and an empty index. -/
inductive ProjectionReach (store : Store) (config : ProjectorConfig) : ProjectionSys → Prop
  | start : ProjectionReach store config ProjectionSys.init
  | step {s s' : ProjectionSys} {act : ProjectionAct} (h : ProjectionReach store config s)
      (hstart : ∀ p now, act = .memory (.start p) now → store.Calls p)
      (hstep : s.step? config act = some s') : ProjectionReach store config s'

/-! ## What a step does -/

/-- The steps by what they do. -/
inductive ProjectionMove (config : ProjectorConfig) (s : ProjectionSys) :
    ProjectionAct → ProjectionSys → Prop
  | memory (act : MemoryAct) (now : IndexOperationRow → Nat) (memory : MemorySys)
      (h : s.memory.step? .readCommitted act = some memory) :
      ProjectionMove config s (.memory act now)
        { s with memory := memory, queue := receive now memory.db.indexOperations s.queue }
  | begin (act : ProjectionAct) (p : Projection Report) (h : s.work = none)
      (hp : p = processOne config ∨ p = startRebuild) :
      ProjectionMove config s act { s with work := some p }
  | answer (m : Moment) (q : ProjectorAsk) (k : q.Answer → Projection Report)
      (h : s.work = some (.ask q k)) :
      ProjectionMove config s (.answer m)
        { (s.perform m q).2 with work := some (k (s.perform m q).1) }
  | lose (m : Moment) (fault : Fault) (q : ProjectorAsk) (k : q.Answer → Projection Report)
      (x : q.Answer) (h : s.work = some (.ask q k)) (hx : q.failure fault = some x) :
      ProjectionMove config s (.lose m fault) { (s.perform m q).2 with work := some (k x) }
  | refuse (fault : Fault) (q : ProjectorAsk) (k : q.Answer → Projection Report) (x : q.Answer)
      (h : s.work = some (.ask q k)) (hx : q.failure fault = some x) :
      ProjectionMove config s (.refuse fault) { s with work := some (k x) }
  | turn (cursor : String) (h : s.work = some (.ret (.again cursor))) :
      ProjectionMove config s .turn { s with work := some (rebuildPage config cursor) }
  | rebuilt (h : s.work = some (.ret .rebuilt)) :
      ProjectionMove config s .finish { s with work := none, whole := true }
  | stop (act : ProjectionAct) (p : Projection Report) (h : s.work = some p) :
      ProjectionMove config s act { s with work := none }

theorem ProjectionSys.step_moves {config : ProjectorConfig} {s s' : ProjectionSys}
    {act : ProjectionAct} (h : s.step? config act = some s') : ProjectionMove config s act s' := by
  cases act with
  | memory act now =>
    obtain ⟨memory, hmemory, rfl⟩ := Option.map_eq_some_iff.mp h
    exact .memory act now memory hmemory
  | process =>
    simp only [ProjectionSys.step?] at h
    split at h
    · obtain rfl := Option.some.inj h
      exact .begin _ _ ‹_› (Or.inl rfl)
    · cases h
  | rebuild =>
    simp only [ProjectionSys.step?] at h
    split at h
    · obtain rfl := Option.some.inj h
      exact .begin _ _ ‹_› (Or.inr rfl)
    · cases h
  | answer m =>
    simp only [ProjectionSys.step?] at h
    split at h
    · obtain rfl := Option.some.inj h
      exact .answer m _ _ ‹_›
    · cases h
  | lose m fault =>
    simp only [ProjectionSys.step?] at h
    split at h
    · obtain ⟨x, hx, rfl⟩ := Option.map_eq_some_iff.mp h
      exact .lose m fault _ _ x ‹_› hx
    · cases h
  | refuse fault =>
    simp only [ProjectionSys.step?] at h
    split at h
    · obtain ⟨x, hx, rfl⟩ := Option.map_eq_some_iff.mp h
      exact .refuse fault _ _ x ‹_› hx
    · cases h
  | turn =>
    simp only [ProjectionSys.step?] at h
    split at h
    · obtain rfl := Option.some.inj h
      exact .turn _ ‹_›
    · cases h
  | finish =>
    simp only [ProjectionSys.step?] at h
    split at h
    · obtain rfl := Option.some.inj h
      exact .rebuilt ‹_›
    · obtain rfl := Option.some.inj h
      exact .stop _ _ ‹_›
    · obtain rfl := Option.some.inj h
      exact .stop _ _ ‹_›
    · cases h
  | stop =>
    simp only [ProjectionSys.step?] at h
    split at h
    · obtain rfl := Option.some.inj h
      exact .stop _ _ ‹_›
    · cases h

end ChoraMem
