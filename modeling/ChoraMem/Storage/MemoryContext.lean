/-
The memory context of a run.

One transaction under the run's lock freezes what a run is shown, and the same
request is answered from the frozen rows ever after.  The source also holds shared
locks of the owners while it reads candidates; they are left out here, which lets
more happen between its statements.
-/
import ChoraMem.Storage.Candidates
import ChoraMem.Storage.WorkerRequest
import ChoraMem.Storage.JobQueue

namespace ChoraMem

open Txn

structure ContextMemory where
  memoryRef : String
  text : String
  application : String
  deriving DecidableEq, Repr

structure ContextEvidence where
  memoryRef : String
  text : String
  deriving DecidableEq, Repr

structure MemoryContext where
  ref : String
  runRef : String
  scope : Scope
  constitution : Constitution
  recollections : List ContextMemory
  dispositions : List ContextMemory
  episodeEvidence : List ContextEvidence
  deriving DecidableEq, Repr

/-! ## Requests -/

def validEpisodeEvidenceMaxBytes (value : Int) : Bool := 0 ≤ value && value ≤ maxEpisodeEvidenceBytes

def validSelectScope (scope : Scope) : Bool :=
  scope.tenantRef != "" && scope.agentRef != "" &&
    match scope.kind with
    | .agent => scope.relationshipRef == ""
    | .relationship => scope.relationshipRef != ""
    | .other _ _ => false

def validSelectRequest (request : SelectRequest) : Bool :=
  stableFeedbackRef request.runRef && !request.situationSourceRefs.isEmpty &&
    uniqueStableRefs request.situationSourceRefs &&
    validEpisodeEvidenceMaxBytes request.episodeEvidenceMaxBytes && validSelectScope request.scope &&
    (request.constitution.memoryRef != "") == (request.constitution.text != "") &&
    (request.constitution.memoryRef == "" || stableFeedbackRef request.constitution.memoryRef)

/-- The text of each Situation source of the request's exact scope. -/
def loadSituationQuery (scope : Scope) (d : Db) (ref : String) : Except Fault Query :=
  match d.sources.find? fun s => decide (s.key = (scope, ref)) with
  | none => .error ⟨.invalidSelectRequest, "unknown situation source", ref⟩
  | some s => .ok ⟨ref, s.event.text⟩

def loadSituationQueries (scope : Scope) (refs : List String) (d : Db) : Except Fault (List Query) :=
  refs.mapM (loadSituationQuery scope d)

/-! ## Episode evidence -/

structure FrozenEpisodeEvidence where
  memoryRef : String
  querySourceRef : String
  text : String
  deriving DecidableEq, Repr

def episodeSourceRoleOrder : SourceRole → Nat
  | .situation => 0
  | .agentAct => 1
  | .outcome => 2
  | .other _ _ => 3

def renderEpisodeEvidence (episode : EpisodeEvidence) : String :=
  String.intercalate "\n" ((episode.sources.insertionSort fun a b =>
    episodeSourceRoleOrder a.role < episodeSourceRoleOrder b.role ∨
      (episodeSourceRoleOrder a.role = episodeSourceRoleOrder b.role ∧ a.ref ≤ b.ref)).map fun s =>
        upperText s.role.text ++ " [" ++ s.actorKind.text ++ "]\n" ++ s.text)

/-- The Episode is part of the run's own question. -/
def episodeContainsCurrentSituation (episode : EpisodeEvidence) (request : SelectRequest) : Bool :=
  decide (episode.scope = request.scope) &&
    episode.sources.any fun s => request.situationSourceRefs.contains s.ref

/-- The evidence of an indexed Episode of the lane's exact owner. -/
def indexedEvidence (request : SelectRequest) (d : Db) (c : ScopedIndexCandidate) :
    Option FrozenEpisodeEvidence :=
  if c.kind != .episode then none
  else
    match loadEpisode c.ref d with
    | none => none
    | some e =>
      if e.owner ≠ c.scope || episodeContainsCurrentSituation e request then none
      else some { memoryRef := c.ref, querySourceRef := c.querySourceRef, text := renderEpisodeEvidence e }

def addEvidence (request : SelectRequest) (d : Db) (result : List FrozenEpisodeEvidence)
    (c : ScopedIndexCandidate) : List FrozenEpisodeEvidence :=
  if result.any (·.memoryRef == c.ref) then result
  else result ++ (indexedEvidence request d c).toList

def loadEpisodeEvidence (request : SelectRequest) (indexed : List ScopedIndexCandidate) (d : Db) :
    List FrozenEpisodeEvidence :=
  if request.episodeEvidenceMaxBytes = 0 then []
  else
    let ordered := indexed.insertionSort fun a b =>
      a.rank < b.rank ∨ (a.rank = b.rank ∧ a.laneOrder ≤ b.laneOrder)
    boundEpisodeEvidence FrozenEpisodeEvidence.text request.episodeEvidenceMaxBytes
      (ordered.foldl (addEvidence request d) [])

/-! ## Refs of one meaning -/

/-- A ref means one kind of memory in a context. -/
def claimSemanticMemoryRef (kinds : List (String × String)) (claim : String × String) :
    Except Fault (List (String × String)) :=
  match kinds.find? (·.1 = claim.1) with
  | some (_, previous) =>
    if previous != claim.2 then
      .error ⟨.ambiguousMemoryRef, "is both " ++ previous ++ " and " ++ claim.2, claim.1⟩
    else .ok kinds
  | none => .ok (kinds ++ [claim])

def constitutionClaims (c : Constitution) : List (String × String) :=
  if c.memoryRef == "" then [] else [(c.memoryRef, "constitution")]

def claimAll (claims : List (String × String)) : Except Fault (List (String × String)) :=
  claims.foldlM claimSemanticMemoryRef []

def validateSelectedMemoryRefs (constitution : Constitution) (activations : List Activation)
    (evidence : List FrozenEpisodeEvidence) : Except Fault (List (String × String)) :=
  claimAll (constitutionClaims constitution ++
    activations.map (fun a => (a.versionRef, a.kind.text)) ++
    evidence.map fun e => (e.memoryRef, "episode_evidence"))

/-! ## Frozen contexts -/

/-- The text and application of an item, from the version it names. -/
def itemMemory (d : Db) (item : ContextItemRow) : Except Fault ContextMemory :=
  match item.kind with
  | .recollection =>
    match d.recollectionVersions.find? fun v =>
      decide (v.tenantRef = item.tenantRef) && decide (v.ref = item.memoryRef) with
    | none => .error ⟨.storage, "scan frozen MemoryContext item", ""⟩
    | some v => .ok ⟨item.memoryRef, v.text, v.application⟩
  | .disposition =>
    match d.seedVersions.find? fun v =>
      decide (v.tenantRef = item.tenantRef) && decide (v.ref = item.memoryRef) with
    | none => .error ⟨.storage, "scan frozen MemoryContext item", ""⟩
    | some v =>
      let agent := d.seeds.any fun s => decide (s.owner.tenantRef = v.tenantRef) &&
        decide (s.ref = v.seedRef) && s.owner.kind == .agent
      .ok ⟨item.memoryRef, v.tendency, if agent then "self" else "relation"⟩

def frozenItems (context : ContextRow) (d : Db) : List ContextItemRow :=
  (d.contextItems.filter fun i => decide (i.tenantRef = context.scope.tenantRef) &&
    decide (i.contextRef = context.ref)).insertionSort fun a b => a.order ≤ b.order

def frozenEvidence (context : ContextRow) (d : Db) : List ContextEvidenceRow :=
  (d.contextEvidence.filter fun i => decide (i.tenantRef = context.scope.tenantRef) &&
    decide (i.contextRef = context.ref)).insertionSort fun a b => a.order ≤ b.order

def frozenContext (context : ContextRow) (request : SelectRequest) (d : Db) :
    Except Fault MemoryContext := do
  let items := frozenItems context d
  let evidence := frozenEvidence context d
  let recollections ← (items.filter (·.kind == .recollection)).mapM (itemMemory d)
  let dispositions ← (items.filter (·.kind == .disposition)).mapM (itemMemory d)
  let _ ← claimAll (constitutionClaims context.constitution ++
    items.map (fun i => (i.memoryRef, i.kind.text)) ++
    evidence.map fun e => (e.episodeRef, "episode_evidence"))
  return { ref := context.ref, runRef := request.runRef, scope := request.scope,
           constitution := context.constitution, recollections := recollections,
           dispositions := dispositions,
           episodeEvidence := evidence.map fun e => ⟨e.episodeRef, e.text⟩ }

def loadMemoryContext (request : SelectRequest) (requestHash : String) (d : Db) :
    Except Fault (Option MemoryContext) :=
  match d.contexts.find? fun c =>
    decide (c.scope = request.scope) && decide (c.runRef = request.runRef) with
  | none => .ok none
  | some c =>
    if c.requestHash != requestHash then .error ⟨.runConflict, request.runRef, ""⟩
    else (frozenContext c request d).map some

/-- The text of an activated candidate. -/
def candidateText (candidates : List Candidate) (a : Activation) : String :=
  ((candidates.reverse.find? fun c => c.kind == a.kind && c.versionRef == a.versionRef).map
    (·.text)).getD ""

def activatedMemories (kind : ItemKind) (activations : List Activation)
    (candidates : List Candidate) : List ContextMemory :=
  (activations.filter (·.kind == kind)).map fun a =>
    ⟨a.versionRef, candidateText candidates a, a.application⟩

def buildMemoryContext (contextRef : String) (request : SelectRequest)
    (activations : List Activation) (candidates : List Candidate)
    (evidence : List FrozenEpisodeEvidence) : MemoryContext :=
  { ref := contextRef, runRef := request.runRef, scope := request.scope,
    constitution := request.constitution,
    recollections := activatedMemories .recollection activations candidates,
    dispositions := activatedMemories .disposition activations candidates,
    episodeEvidence := evidence.map fun e => ⟨e.memoryRef, e.text⟩ }

/-! ## Freezing -/

def contextConflict (row : ContextRow) (d : Db) : Bool :=
  d.contexts.any fun c =>
    c.ref = row.ref || (decide (c.scope = row.scope) && decide (c.runRef = row.runRef))

def Activation.item (tenantRef contextRef : String) (a : Activation × Nat) : ContextItemRow :=
  { tenantRef := tenantRef, contextRef := contextRef, kind := a.1.kind, memoryRef := a.1.versionRef,
    order := a.2, querySourceRef := a.1.querySourceRef, matchedMemoryRef := a.1.matchedRef,
    evidenceEpisodeRef := a.1.evidenceEpisodeRef, evidenceSourceRef := a.1.evidenceSourceRef }

def itemConflict (row : ContextItemRow) (d : Db) : Bool :=
  d.contextItems.any fun i => i.tenantRef = row.tenantRef && i.contextRef = row.contextRef &&
    (i.memoryRef = row.memoryRef || i.order = row.order)

def FrozenEpisodeEvidence.row (tenantRef contextRef : String) (e : FrozenEpisodeEvidence × Nat) :
    ContextEvidenceRow :=
  { tenantRef := tenantRef, contextRef := contextRef, episodeRef := e.1.memoryRef, order := e.2,
    querySourceRef := e.1.querySourceRef, text := e.1.text }

def evidenceConflict (row : ContextEvidenceRow) (d : Db) : Bool :=
  d.contextEvidence.any fun i => i.tenantRef = row.tenantRef && i.contextRef = row.contextRef &&
    (i.episodeRef = row.episodeRef || i.order = row.order)

namespace Store

variable (store : Store)

def memoryRequestHash (request : SelectRequest) : String :=
  let fields :=
    ["memory-context-request.v2", request.scope.kind.text, request.scope.tenantRef,
      request.scope.agentRef, request.scope.relationshipRef, request.scope.sessionRef,
      request.runRef, request.constitution.memoryRef, request.constitution.text] ++
    request.situationSourceRefs
  if request.episodeEvidenceMaxBytes = 0 then store.hashFields fields
  else store.hashFields
    (["memory-context-request.episode-evidence.v1", toString request.episodeEvidenceMaxBytes] ++
      fields)

def memoryContextRef (requestHash : String) : String := "context_" ++ textPrefix 32 requestHash

def memoryRunLockKey (scope : Scope) (runRef : String) : String :=
  store.lockKey
    ["memory-context-run-lock.v2", scope.kind.text, scope.tenantRef, scope.agentRef,
      scope.relationshipRef, scope.sessionRef, runRef]

def contextRow (request : SelectRequest) : ContextRow :=
  { scope := request.scope, ref := memoryContextRef (store.memoryRequestHash request),
    runRef := request.runRef, requestHash := store.memoryRequestHash request,
    policyRef := defaultPolicy.ref, constitution := request.constitution }

/-- Freeze a new context. -/
def freezeContext (request : SelectRequest) (activations : List Activation)
    (evidence : List FrozenEpisodeEvidence) : Tx Unit := do
  let row := store.contextRow request
  insertFresh (contextConflict row) (.insertContext row) "freeze MemoryContext"
  Prog.forEach
    (fun a =>
      let item := Activation.item request.scope.tenantRef row.ref a
      insertFresh (itemConflict item) (.insertContextItem item) "freeze MemoryContext item")
    activations.zipIdx
  Prog.forEach
    (fun e =>
      let item := FrozenEpisodeEvidence.row request.scope.tenantRef row.ref e
      insertFresh (evidenceConflict item) (.insertContextEvidence item)
        "freeze MemoryContext Episode evidence")
    evidence.zipIdx

/-- Select for a run that has no context yet. -/
def assembleContext (index : Option MemoryIndex) (request : SelectRequest) : Tx MemoryContext := do
  let limit := defaultPolicy.canonicalCandidatesPerOwnerKind
  let queries ← selectOrFail (loadSituationQueries request.scope request.situationSourceRefs)
  let indexed := searchSelectionIndex index request.scope queries limit
  let evidence ← Prog.select (loadEpisodeEvidence request indexed)
  let recollections ← Prog.select (loadRecollectionCandidates request.scope limit none)
  let dispositions ← Prog.select (loadDispositionCandidates request.scope limit none)
  let found ← Prog.select (loadIndexedSelectionCandidates request.scope indexed)
  let candidates := unionSelectionCandidates (recollections ++ dispositions) found
  match select store.score queries candidates defaultPolicy with
  | .error e => .fail e
  | .ok activations =>
    match validateSelectedMemoryRefs request.constitution activations evidence with
    | .error e => .fail e
    | .ok _ => do
      store.freezeContext request activations evidence
      .ret (buildMemoryContext (store.contextRow request).ref request activations candidates evidence)

def selectMemory (index : Option MemoryIndex) (request : SelectRequest) : Tx MemoryContext :=
  if !validSelectRequest request then .fail ⟨.invalidSelectRequest, "", ""⟩
  else do
    Prog.acquire (store.memoryRunLockKey request.scope request.runRef)
    let found ← selectOrFail (loadMemoryContext request (store.memoryRequestHash request))
    match found with
    | some context => .ret context
    | none => store.assembleContext index request

end Store

end ChoraMem
