/-
Memory deliveries and Outcome reports.

A delivery freezes which memories a run was shown, under the run's lock, and only
before any agent act of the run.  An Outcome report admits the result's source,
links it to its group and records the Outcome with its optional attribution to
deliveries.
-/
import ChoraMem.Storage.Intake

namespace ChoraMem

open Txn

/-! ## Reading a context -/

/-- Add a deliverable memory, unless it is known under another kind. -/
def allowMemory (kind ref : String) (allowed : List (String × String)) :
    Except Fault (List (String × String)) :=
  match allowed.find? (·.1 = ref) with
  | some (_, previous) =>
    if previous != kind then
      .error ⟨.invalidMemoryDelivery, "memory is both " ++ previous ++ " and " ++ kind, ref⟩
    else .ok allowed
  | none => .ok (allowed ++ [(ref, kind)])

def allowAll (kinds : List (String × String)) (allowed : List (String × String)) :
    Except Fault (List (String × String)) :=
  kinds.foldlM (fun acc kr => allowMemory kr.1 kr.2 acc) allowed

/-- The memories of the run's exact context: its constitution, its items and its
Episode evidence. -/
def loadDeliverableMemoryRefs (delivery : MemoryDelivery) : Tx (List (String × String)) := do
  let found ← Prog.select fun d : Db => d.contexts.find? fun c =>
    decide (c.scope = delivery.scope) && decide (c.runRef = delivery.runRef) &&
      decide (c.ref = delivery.memoryContextRef)
  match found with
  | none => .fail ⟨.invalidMemoryDelivery, "unknown exact MemoryContext", ""⟩
  | some context => do
    let constitution := if context.constitution.memoryRef == "" then []
      else [(context.constitution.memoryRef, "constitution")]
    let items ← selectOrFail fun d : Db =>
      allowAll ((d.contextItems.filter fun i =>
        decide (i.tenantRef = delivery.scope.tenantRef) &&
          decide (i.contextRef = delivery.memoryContextRef)).map fun i => (i.kind.text, i.memoryRef))
        constitution
    selectOrFail fun d : Db =>
      allowAll ((d.contextEvidence.filter fun i =>
        decide (i.tenantRef = delivery.scope.tenantRef) &&
          decide (i.contextRef = delivery.memoryContextRef)).map fun i =>
            ("episode_evidence", i.episodeRef))
        items

/-- The run already has a committed agent act. -/
def agentActExists (scope : Scope) (runRef : String) (d : Db) : Bool :=
  d.links.any fun l =>
    decide (l.group.scope = scope) && decide (l.group.runRef = runRef) && l.role == .agentAct

def rejectRetroactiveMemoryDelivery (delivery : MemoryDelivery) : Tx Unit := do
  let acted ← Prog.select (agentActExists delivery.scope delivery.runRef)
  if acted then
    .fail ⟨.invalidMemoryDelivery, "Memory delivery must be recorded before AgentAct", ""⟩
  else .ret ()

def deliveryConflict (row : DeliveryRow) (d : Db) : Bool :=
  d.deliveries.any fun r => r.ref = row.ref ||
    (r.scope.tenantRef = row.scope.tenantRef && r.idempotencyKey = row.idempotencyKey)

namespace Store

variable (store : Store)

def loadMemoryDeliveryReceipt (tenantRef idempotencyKey requestHash : String) :
    Tx (Option String) := do
  let stored ← Prog.select fun d : Db => d.deliveries.find? fun r =>
    decide (r.scope.tenantRef = tenantRef) && decide (r.idempotencyKey = idempotencyKey)
  match stored with
  | none => .ret none
  | some r =>
    if r.requestHash != requestHash then .fail ⟨.memoryDeliveryConflict, idempotencyKey, ""⟩
    else .ret (some r.ref)

/-- The row a delivery freezes. -/
def deliveryRow (delivery : MemoryDelivery) : DeliveryRow :=
  let memoryRefs := sortRefs delivery.deliveredMemoryRefs
  { scope := delivery.scope,
    ref := store.memoryDeliveryReceiptRef delivery.scope.tenantRef delivery.idempotencyKey,
    idempotencyKey := delivery.idempotencyKey,
    requestHash := store.memoryDeliveryHash delivery memoryRefs,
    runRef := delivery.runRef, contextRef := delivery.memoryContextRef,
    deliveredMemoryRefs := memoryRefs }

def recordMemoryDelivery (env : Ambient) (delivery : MemoryDelivery) : Tx String :=
  match validateMemoryDelivery delivery with
  | .error e => .fail e
  | .ok _ => do
    let row := store.deliveryRow delivery
    Prog.acquire
      (store.feedbackRequestLockKey "delivery" delivery.scope.tenantRef delivery.idempotencyKey)
    let found ← loadMemoryDeliveryReceipt delivery.scope.tenantRef delivery.idempotencyKey
      row.requestHash
    match found with
    | some ref => .ret ref
    | none => do
      store.lockFeedbackRun delivery.scope delivery.runRef
      rejectRetroactiveMemoryDelivery delivery
      let allowed ← loadDeliverableMemoryRefs delivery
      match row.deliveredMemoryRefs.find? fun ref => !allowed.any (·.1 = ref) with
      | some ref => .fail ⟨.invalidMemoryDelivery, "memory is not in MemoryContext", ref⟩
      | none => do
        insertFresh (deliveryConflict row) (.insertDelivery row) "freeze Memory delivery"
        store.enqueueRunEpisodes env delivery.scope delivery.runRef
        .ret row.ref

/-! ## Outcome reports -/

def loadOutcomeReceipt (report : OutcomeReport) (requestHash : String) :
    Tx (Option OutcomeReceipt) := do
  let stored ← Prog.select fun d : Db => d.outcomes.find? fun r =>
    decide (r.group.scope.tenantRef = report.event.scope.tenantRef) &&
      decide (r.idempotencyKey = report.idempotencyKey)
  match stored with
  | none => .ret none
  | some r =>
    if r.requestHash != requestHash then .fail ⟨.outcomeReportConflict, report.idempotencyKey, ""⟩
    else .ret (some ⟨r.ref, r.episodeRef⟩)

/-- Each delivery ref names a receipt of the report's exact run. -/
def validateDeliveryBinding (report : OutcomeReport) (ref : String) : Tx Unit := do
  let known ← Prog.select fun d : Db => d.deliveries.any fun r =>
    decide (r.scope = report.event.scope) && decide (r.runRef = report.runRef) && decide (r.ref = ref)
  if known then .ret () else .fail ⟨.invalidOutcomeReport, "unknown exact delivery receipt", ref⟩

/-- Each related ref names a source linked to the report's exact group. -/
def validateRelatedSource (report : OutcomeReport) (ref : String) : Tx Unit := do
  let known ← Prog.select fun d : Db => d.links.any fun l =>
    decide (l.group = report.binding.group report.event.scope) && decide (l.sourceEventRef = ref)
  if known then .ret () else .fail ⟨.invalidOutcomeReport, "unrelated source", ref⟩

def validateOutcomeBindings (report : OutcomeReport) (deliveryRefs relatedRefs : List String) :
    Tx Unit := do
  Prog.forEach (validateDeliveryBinding report) deliveryRefs
  Prog.forEach (validateRelatedSource report) relatedRefs
  if deliveryRefs.isEmpty then .ret ()
  else do
    let acted ← Prog.select fun d : Db => d.links.any fun l =>
      decide (l.group = report.binding.group report.event.scope) && l.role == .agentAct &&
        relatedRefs.contains l.sourceEventRef
    if acted then .ret ()
    else
      .fail ⟨.invalidOutcomeReport,
        "delivery-attributed Outcome requires an exact related AgentAct", ""⟩

/-- The row an Outcome report freezes. -/
def outcomeRow (report : OutcomeReport) (episodeRef : String) : OutcomeRow :=
  let deliveryRefs := sortRefs report.deliveryReceiptRefs
  let relatedRefs := sortRefs report.relatedSourceEventRefs
  { group := report.binding.group report.event.scope, ref := store.outcomeEventRef report,
    idempotencyKey := report.idempotencyKey,
    requestHash := store.outcomeReportHash report deliveryRefs relatedRefs,
    sourceEventRef := report.event.ref, episodeRef := episodeRef,
    deliveryReceiptRefs := deliveryRefs, relatedSourceEventRefs := relatedRefs }

def outcomeConflict (row : OutcomeRow) (d : Db) : Bool :=
  d.outcomes.any fun r => r.ref = row.ref ||
    (r.group.scope.tenantRef = row.group.scope.tenantRef && r.idempotencyKey = row.idempotencyKey)

def reportOutcome (env : Ambient) (report : OutcomeReport) : Tx OutcomeReceipt :=
  match validateOutcomeReport report with
  | .error e => .fail e
  | .ok _ => do
    let deliveryRefs := sortRefs report.deliveryReceiptRefs
    let relatedRefs := sortRefs report.relatedSourceEventRefs
    Prog.acquire
      (store.feedbackRequestLockKey "outcome" report.event.scope.tenantRef report.idempotencyKey)
    let found ← loadOutcomeReceipt report (store.outcomeReportHash report deliveryRefs relatedRefs)
    match found with
    | some receipt => .ret receipt
    | none => do
      validateOutcomeBindings report deliveryRefs relatedRefs
      admitSource env report.event
      let (episodeRef, episodeChanged) ← store.appendLinkAndMaterialize report.event report.binding
      let row := store.outcomeRow report episodeRef
      insertFresh (outcomeConflict row) (.insertOutcome row) "freeze Outcome event"
      store.enqueueEpisodeState env report.event.scope episodeRef
      if episodeChanged && episodeRef != "" then
        store.enqueueEpisodeProjection report.event.scope episodeRef .outcome report.event.ref
      else .ret ()
      .ret ⟨row.ref, episodeRef⟩

end Store

/-! ## The intake interface -/

/-- A call of the intake API, with what it takes from outside. -/
inductive IntakeCommand
  | observe (env : Ambient) (idempotencyKey : String) (event : SourceEvent)
      (binding : EpisodeBinding)
  | reportOutcome (env : Ambient) (report : OutcomeReport)
  | recordMemoryDelivery (env : Ambient) (delivery : MemoryDelivery)
  deriving DecidableEq, Repr

inductive IntakeReply
  | observed (receipt : ObserveReceipt)
  | reported (receipt : OutcomeReceipt)
  | delivered (receiptRef : String)
  deriving DecidableEq, Repr

/-- The transaction of a call. -/
def Store.intake (store : Store) : IntakeCommand → Tx IntakeReply
  | .observe env key event binding => do
    let receipt ← store.observe env key event binding
    .ret (.observed receipt)
  | .reportOutcome env report => do
    let receipt ← store.reportOutcome env report
    .ret (.reported receipt)
  | .recordMemoryDelivery env delivery => do
    let receiptRef ← store.recordMemoryDelivery env delivery
    .ret (.delivered receiptRef)

/-- The transactions of the intake API. -/
def Store.Intake (store : Store) (p : Tx IntakeReply) : Prop := ∃ c, p = store.intake c

end ChoraMem
