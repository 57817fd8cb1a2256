/-
The outbox of the semantic index.

Every change of an indexed document enqueues one operation in the stream of the
document.  The operation's identity is derived from its cause, so a replay
enqueues nothing.
-/
import ChoraMem.Storage.Store

namespace ChoraMem

open Txn

namespace Store

variable (store : Store)

def streamRef (kind : DocumentKind) (owner : OwnerScope) (streamIdentity : String) : String :=
  "memory_index_stream_" ++
    store.shortHash ["memory-index-stream.v1", owner.tenantRef, kind.text, streamIdentity]

/-- The next free sequence of a stream. -/
def nextSequence (stream : String) (d : Db) : Nat :=
  ((d.indexOperations.filter (·.streamRef = stream)).map (·.streamSequence)).foldl max 0 + 1

def enqueueMemoryIndexOperation (action : IndexAction) (kind : DocumentKind) (documentRef : String)
    (owner : OwnerScope) (streamIdentity : String) (causeFields : List String) : Tx Unit :=
  if documentRef == "" || streamIdentity == "" || causeFields.isEmpty then
    .fail ⟨.plain, "MemoryIndex operation identity is incomplete", ""⟩
  else if causeFields.any (· == "") then
    .fail ⟨.plain, "MemoryIndex operation cause identity is incomplete", ""⟩
  else
    let stream := store.streamRef kind owner streamIdentity
    let operationId := "memory_index_operation_" ++ store.shortHash
      (["memory-index-operation.v1", stream, action.text, kind.text, documentRef] ++ causeFields)
    do
      Prog.acquire (store.projectionStreamLockKey stream)
      let exist ← Prog.select fun d : Db => d.indexOperations.any (·.operationId = operationId)
      if exist then .ret ()
      else
        let sequence ← Prog.select (nextSequence stream)
        insertFresh
          (fun d => d.indexOperations.any fun r =>
            r.operationId = operationId || (r.streamRef = stream && r.streamSequence = sequence))
          (.insertIndexOperation
            { operationId := operationId, streamRef := stream, streamSequence := sequence,
              action := action, documentKind := kind, documentRef := documentRef,
              tenantRef := owner.tenantRef, agentRef := owner.agentRef,
              relationshipRef := owner.relationshipRef })
          "enqueue MemoryIndex operation"

def enqueueEpisodeProjection (scope : Scope) (episodeRef : String) (role : SourceRole)
    (sourceRef : String) : Tx Unit :=
  store.enqueueMemoryIndexOperation .upsert .episode episodeRef scope.owner episodeRef
    ["typed-link", role.text, sourceRef]

/-- The part of a version ref before its last `@`. -/
def versionRootRef (versionRef : String) : String :=
  let tail := (versionRef.toList.reverse.dropWhile (· != '@')).drop 1
  if tail.isEmpty then versionRef else String.ofList tail.reverse

def enqueueMemoryFormation (kind : DocumentKind) (versionRef : String) (owner : OwnerScope) :
    Tx Unit :=
  store.enqueueMemoryIndexOperation .upsert kind versionRef owner (versionRootRef versionRef)
    [versionRef]

def enqueueMemoryRevision (kind : DocumentKind) (rootRef oldVersionRef newVersionRef : String)
    (owner : OwnerScope) : Tx Unit := do
  store.enqueueMemoryIndexOperation .delete kind oldVersionRef owner rootRef [newVersionRef]
  store.enqueueMemoryIndexOperation .upsert kind newVersionRef owner rootRef [newVersionRef]

end Store

end ChoraMem
