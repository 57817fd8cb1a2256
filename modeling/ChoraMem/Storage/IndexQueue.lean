/-
The queue of the index projector.

A queue row is an operation of the outbox with the columns that leasing keeps: when it may be
tried again, who has it, what went wrong and when it was acknowledged.  A lease takes the
oldest row that may be tried and that no unfinished row of its stream comes before.  An
acknowledgement and a retry match the token of the lease.
-/
import ChoraMem.Storage.Projection

namespace ChoraMem

/-- `memoryindex.Operation`. -/
structure IndexOperation where
  id : String
  streamRef : String
  sequence : Nat
  action : IndexAction
  kind : DocumentKind
  ref : String
  scope : IndexScope
  leaseToken : String
  deriving DecidableEq, Repr

/-- The document that a leased operation is about. -/
def IndexOperation.document (operation : IndexOperation) : DocumentRef :=
  ⟨operation.kind, operation.ref, operation.scope⟩

/-- The columns that a lease returns, with its token. -/
def IndexOperationRow.leased (row : IndexOperationRow) (leaseToken : String) : IndexOperation :=
  { id := row.operationId, streamRef := row.streamRef, sequence := row.streamSequence,
    action := row.action, kind := row.documentKind, ref := row.documentRef,
    scope := ⟨row.tenantRef, row.agentRef, row.relationshipRef⟩, leaseToken := leaseToken }

/-- `lease_token` and `lease_until`, which are null together. -/
structure IndexLease where
  leaseToken : String
  leaseUntil : Nat
  deriving DecidableEq, Repr

/-- A row of `memory_index_operations`. -/
structure QueueRow where
  operation : IndexOperationRow
  attemptCount : Nat
  notBefore : Nat
  lease : Option IndexLease
  lastError : String
  acknowledgedAt : Option Nat
  createdAt : Nat
  updatedAt : Nat
  deriving DecidableEq, Repr

/-- A row as its `INSERT` fills it. -/
def IndexOperationRow.queued (now : Nat) (operation : IndexOperationRow) : QueueRow :=
  { operation := operation, attemptCount := 0, notBefore := now, lease := none, lastError := "",
    acknowledgedAt := none, createdAt := now, updatedAt := now }

/-- The queue with the operations that were committed since, each at the time of its
transaction. -/
def receive (now : IndexOperationRow → Nat) (operations : List IndexOperationRow)
    (queue : List QueueRow) : List QueueRow :=
  queue ++ (operations.filter fun o => queue.all fun row => row.operation != o).map fun o =>
    o.queued (now o)

/-! ## Leasing -/

def QueueRow.unfinished (row : QueueRow) : Bool := row.acknowledgedAt.isNone

/-- The `WHERE` of the lease query. -/
def QueueRow.ready (now : Nat) (queue : List QueueRow) (row : QueueRow) : Bool :=
  row.unfinished && decide (row.notBefore ≤ now) &&
    row.lease.all (fun lease => decide (lease.leaseUntil ≤ now)) &&
    !queue.any fun earlier => decide (earlier.operation.streamRef = row.operation.streamRef) &&
      decide (earlier.operation.streamSequence < row.operation.streamSequence) && earlier.unfinished

/-- `ORDER BY created_at, operation_id`. -/
def queueOrder (a b : QueueRow) : Prop :=
  a.createdAt < b.createdAt ∨
    (a.createdAt = b.createdAt ∧ a.operation.operationId ≤ b.operation.operationId)

instance : DecidableRel queueOrder := fun a b => by unfold queueOrder; infer_instance

/-- `FOR UPDATE SKIP LOCKED LIMIT 1`, where `locked` are the rows that others have locked. -/
def nextOperation (now : Nat) (locked : QueueRow → Bool) (queue : List QueueRow) :
    Option QueueRow :=
  (((queue.filter (QueueRow.ready now queue)).insertionSort queueOrder).filter fun row =>
    !locked row).head?

def leaseDeadlineRequired : Fault := ⟨.plain, "MemoryIndex lease deadline is required", ""⟩

def retryDeadlineRequired : Fault := ⟨.plain, "MemoryIndex retry deadline is required", ""⟩

def indexLeaseLost : Fault := ⟨.plain, "MemoryIndex operation lease lost", ""⟩

def QueueRow.take (now : Nat) (lease : IndexLease) (row : QueueRow) : QueueRow :=
  { row with lease := some lease, updatedAt := now }

/-- `UPDATE memory_index_operations SET ... WHERE ...`. -/
def updateQueue (matching : QueueRow → Bool) (f : QueueRow → QueueRow) (queue : List QueueRow) :
    List QueueRow :=
  queue.map fun row => if matching row then f row else row

/-- `LeaseMemoryIndexOperation`, with the token it draws; the zero time is no deadline. -/
def leaseMemoryIndexOperation (now : Nat) (token : String) (locked : QueueRow → Bool)
    (leaseUntil : Nat) (queue : List QueueRow) :
    Except Fault (Option IndexOperation) × List QueueRow :=
  if leaseUntil = 0 then (.error leaseDeadlineRequired, queue)
  else
    match nextOperation now locked queue with
    | none => (.ok none, queue)
    | some row =>
      (.ok (some (row.operation.leased token)),
        updateQueue (fun r => decide (r.operation.operationId = row.operation.operationId))
          (QueueRow.take now ⟨token, leaseUntil⟩) queue)

/-! ## Ending a lease -/

/-- The row that the end of a lease matches. -/
def QueueRow.heldBy (operation : IndexOperation) (row : QueueRow) : Bool :=
  decide (row.operation.operationId = operation.id) &&
    row.lease.any (fun lease => decide (lease.leaseToken = operation.leaseToken)) && row.unfinished

def endIndexLease (operation : IndexOperation) (f : QueueRow → QueueRow) (queue : List QueueRow) :
    Except Fault Unit × List QueueRow :=
  (if (queue.filter (QueueRow.heldBy operation)).length ≠ 1 then .error indexLeaseLost else .ok (),
    updateQueue (QueueRow.heldBy operation) f queue)

def QueueRow.acknowledge (now : Nat) (row : QueueRow) : QueueRow :=
  { row with acknowledgedAt := some now, lease := none, lastError := "", updatedAt := now }

def QueueRow.retry (now notBefore : Nat) (reason : String) (row : QueueRow) : QueueRow :=
  { row with attemptCount := row.attemptCount + 1, notBefore := notBefore, lease := none,
             lastError := trimSpace reason, updatedAt := now }

/-- `AcknowledgeMemoryIndexOperation`. -/
def acknowledgeMemoryIndexOperation (now : Nat) (operation : IndexOperation) :
    List QueueRow → Except Fault Unit × List QueueRow :=
  endIndexLease operation (QueueRow.acknowledge now)

/-- `RetryMemoryIndexOperation`. -/
def retryMemoryIndexOperation (now : Nat) (operation : IndexOperation) (notBefore : Nat)
    (reason : String) (queue : List QueueRow) : Except Fault Unit × List QueueRow :=
  if notBefore = 0 then (.error retryDeadlineRequired, queue)
  else endIndexLease operation (QueueRow.retry now notBefore reason) queue

end ChoraMem
