/-
Observe: the causal intake of one source event.

One transaction claims the request's idempotency key, admits the immutable
source, appends at most one typed link to its group, and materializes the group's
Episode once a situation and an agent act with distinct sources are linked.
-/
import ChoraMem.Storage.JobQueue
import ChoraMem.Storage.MemoryIndex

namespace ChoraMem

open Txn

/-- A group has a situation and an agent act with distinct sources. -/
def roleGate (g : StableGroupRef) (d : Db) : Bool :=
  d.links.any fun situation => decide (situation.group = g) && situation.role == .situation &&
    d.links.any fun agentAct => decide (agentAct.group = g) && agentAct.role == .agentAct &&
      situation.sourceEventRef != agentAct.sourceEventRef

def findEpisodeRow (g : StableGroupRef) (d : Db) : Option EpisodeRow :=
  d.episodes.find? fun e => decide (e.group = g)

/-- `findEpisode`: the ref of the group's Episode, empty when there is none. -/
def findEpisode (g : StableGroupRef) (d : Db) : String :=
  ((findEpisodeRow g d).map (·.ref)).getD ""

def hasEpisode (g : StableGroupRef) (d : Db) : Bool :=
  d.episodes.any fun e => decide (e.group = g)

def episodeRefTaken (ref : String) (d : Db) : Bool := d.episodes.any fun e => decide (e.ref = ref)

def episodeLinkExists (g : StableGroupRef) (sourceRef : String) (role : SourceRole) (d : Db) :
    Bool :=
  d.links.any fun l => decide (l.group = g) && l.sourceEventRef == sourceRef && l.role == role

/-- A materialized group is asked whether it has the link already. -/
def alreadyLinked (g : StableGroupRef) (sourceRef : String) (role : SourceRole)
    (episodeRef : String) : Tx Bool :=
  if episodeRef != "" then Prog.select (episodeLinkExists g sourceRef role) else .ret false

/-- `INSERT INTO episode_links ... DO NOTHING`. -/
def newLink (row : LinkRow) (d : Db) : List Write :=
  if d.links.any (·.key = row.key) then [] else [.insertLink row]

/-- Insert the link, and say whether a row was inserted. -/
def appendLink (row : LinkRow) : Tx Bool :=
  Prog.statement (newLink row) fun d => !d.links.any (·.key = row.key)

/-- The rows that bind a group's links to its Episode. -/
def boundLinks (ref : String) (g : StableGroupRef) (d : Db) : List LinkRow :=
  (d.links.filter (·.group = g)).map fun l => { l with episodeRef := ref }

/-- The rows that bind a group's early Outcomes to its Episode. -/
def boundOutcomes (ref : String) (g : StableGroupRef) (d : Db) : List OutcomeRow :=
  (d.outcomes.filter fun o => o.group = g && o.episodeRef == "").map fun o => { o with episodeRef := ref }

def completeBinding (binding : EpisodeBinding) : Bool :=
  binding.runRef != "" && binding.sourceGroupRef != ""

def EpisodeBinding.group (binding : EpisodeBinding) (scope : Scope) : StableGroupRef :=
  ⟨scope, binding.runRef, binding.sourceGroupRef⟩

namespace Store

variable (store : Store)

def claimRequest (idempotencyKey : String) (event : SourceEvent) (binding : EpisodeBinding) :
    Tx (ObserveReceipt × Bool) := do
  let hash := store.requestHash event binding
  let row : RequestRow :=
    { tenantRef := event.scope.tenantRef, idempotencyKey := idempotencyKey, requestHash := hash,
      sourceEventRef := event.ref, episodeRef := "" }
  let claimed ← Prog.statement
    (fun d : Db => if d.requests.any (·.key = row.key) then [] else [.insertRequest row])
    fun d => !d.requests.any (·.key = row.key)
  if claimed then .ret (⟨event.ref, ""⟩, true)
  else do
    let stored ← Prog.select fun d : Db => d.requests.find? (·.key = row.key)
    match stored with
    | none => .fail ⟨.storage, "load idempotent receipt", ""⟩
    | some r =>
      if r.requestHash != hash then .fail ⟨.idempotencyConflict, idempotencyKey, ""⟩
      else .ret (⟨r.sourceEventRef, r.episodeRef⟩, false)

def admitSource (env : Ambient) (event : SourceEvent) : Tx Unit := do
  let row : SourceRow := { event := event, admissionOrder := env.admissionOrder }
  let admitted ← Prog.statement
    (fun d : Db => if d.sources.any (·.key = row.key) then [] else [.insertSource row])
    fun d => !d.sources.any (·.key = row.key)
  if admitted then .ret ()
  else do
    let stored ← Prog.select fun d : Db => d.sources.find? (·.key = row.key)
    match stored with
    | none => .fail ⟨.storage, "load immutable source event", ""⟩
    | some r =>
      if r.event.actorKind != event.actorKind || r.event.actorRef != event.actorRef ||
          r.event.text != event.text || r.event.constitution != event.constitution then
        .fail ⟨.sourceEventConflict, event.ref, ""⟩
      else .ret ()

/-- `INSERT INTO episodes`.  A second row of the group is left out at either
dialect; a ref that another group has stops the statement on PostgreSQL, whose
conflict target is the group, and inserts nothing on MySQL, whose clause covers
every unique key. -/
def insertEpisode (g : StableGroupRef) : Tx Unit :=
  let row : EpisodeRow := { group := g, ref := store.episodeRef g }
  .write
    (fun d => if hasEpisode g d || episodeRefTaken row.ref d then [] else [.insertEpisode row])
    fun d =>
      if !hasEpisode g d && episodeRefTaken row.ref d && store.dialect == .postgres then
        .fail ⟨.storage, "materialize episode", ""⟩
      else .ret ()

/-- Back-fill the Episode ref of the group's links and of the Outcomes reported
before it materialized. -/
def bindEpisode (g : StableGroupRef) : Tx Unit := do
  Prog.statement (fun d : Db => (boundLinks (store.episodeRef g) g d).map .updateLink) fun _ => ()
  Prog.statement (fun d : Db => (boundOutcomes (store.episodeRef g) g d).map .updateOutcome)
    fun _ => ()

/-- Materialize the group when its links open the gate. -/
def materialize (g : StableGroupRef) (linkChanged : Bool) : Tx (String × Bool) := do
  let materialized ← Prog.select (roleGate g)
  if !materialized then .ret ("", linkChanged)
  else do
    store.insertEpisode g
    store.bindEpisode g
    .ret (store.episodeRef g, true)

/-- Append the link under the group's lock, and materialize the group when it
opens the gate.  Returns the group's Episode ref and whether the group changed. -/
def appendLinkAndMaterialize (event : SourceEvent) (binding : EpisodeBinding) :
    Tx (String × Bool) := do
  let g := binding.group event.scope
  Prog.acquire (store.groupLockKey g)
  let episodeRef ← Prog.select (findEpisode g)
  let linked ← alreadyLinked g event.ref binding.role episodeRef
  if linked then .ret (episodeRef, false)
  else if episodeRef != "" && binding.role != .outcome then .fail ⟨.episodeSealed, "", ""⟩
  else do
    let linkChanged ← appendLink
      { group := g, sourceEventRef := event.ref, role := binding.role, episodeRef := episodeRef }
    if episodeRef != "" then .ret (episodeRef, linkChanged)
    else store.materialize g linkChanged

def lockFeedbackRun (scope : Scope) (runRef : String) : Tx Unit :=
  Prog.acquire (store.feedbackRunLockKey scope runRef)

/-- An agent act is bound under the lock of its run. -/
def lockActedRun (scope : Scope) (binding : EpisodeBinding) : Tx Unit :=
  if binding.role == .agentAct then store.lockFeedbackRun scope binding.runRef else .ret ()

/-- `UPDATE request_receipts SET episode_ref`. -/
def freezeObserveReceipt (tenantRef idempotencyKey episodeRef : String) : Tx Unit :=
  Prog.statement
    (fun d : Db => (d.requests.filter (·.key = (tenantRef, idempotencyKey))).map fun r =>
      .updateRequest { r with episodeRef := episodeRef })
    fun _ => ()

/-- The link of a complete binding, and what follows from a changed Episode. -/
def bindObserved (env : Ambient) (event : SourceEvent) (binding : EpisodeBinding) : Tx String :=
  if completeBinding binding then do
    let (episodeRef, changed) ← store.appendLinkAndMaterialize event binding
    if changed && episodeRef != "" then do
      store.enqueueEpisodeState env event.scope episodeRef
      store.enqueueEpisodeProjection event.scope episodeRef binding.role event.ref
      .ret episodeRef
    else .ret episodeRef
  else .ret ""

def observe (env : Ambient) (idempotencyKey : String) (event : SourceEvent)
    (binding : EpisodeBinding) : Tx ObserveReceipt :=
  if !validStableRef idempotencyKey then .fail ⟨.plain, "idempotency key is required", ""⟩
  else
    match validate event binding with
    | .error e => .fail e
    | .ok _ => do
      let (receipt, claimed) ← store.claimRequest idempotencyKey event binding
      if !claimed then .ret receipt
      else do
        store.lockActedRun event.scope binding
        admitSource env event
        let episodeRef ← store.bindObserved env event binding
        freezeObserveReceipt event.scope.tenantRef idempotencyKey episodeRef
        .ret { receipt with episodeRef := episodeRef }

end Store

end ChoraMem
