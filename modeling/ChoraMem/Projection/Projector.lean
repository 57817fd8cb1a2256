/-
The projector as a program.

The projector asks the queue for an operation, the store for the text of its document and the
provider to put the document into the index or to take it out.  Each ask is a statement or a
call of its own, and the store goes on between them.  A rebuild asks for the refs of a page,
then for their documents, one after the other.
-/
import ChoraMem.Dialog.Program
import ChoraMem.Storage.IndexCandidates
import ChoraMem.Storage.IndexQueue

namespace ChoraMem

open Dialog

/-! ## Configuration -/

/-- `ProjectorConfig`, in the unit of the clock. -/
structure ProjectorConfig where
  leaseDuration : Int
  retryDelay : Int
  pollInterval : Int
  pageSize : Int
  deriving DecidableEq, Repr

/-- `DefaultProjectorConfig`, in seconds. -/
def defaultProjectorConfig : ProjectorConfig :=
  { leaseDuration := 30, retryDelay := 5, pollInterval := 1, pageSize := 128 }

/-- The configuration that `NewProjector` keeps. -/
def newProjector (config : ProjectorConfig) : ProjectorConfig :=
  let positive (value default : Int) : Int := if value ≤ 0 then default else value
  { leaseDuration := positive config.leaseDuration defaultProjectorConfig.leaseDuration
    retryDelay := positive config.retryDelay defaultProjectorConfig.retryDelay
    pollInterval := positive config.pollInterval defaultProjectorConfig.pollInterval
    pageSize := positive config.pageSize defaultProjectorConfig.pageSize }

/-! ## Asks -/

/-- What the projector asks of the clock, the queue, the store and the provider. -/
inductive ProjectorAsk
  | now
  | lease (leaseUntil : Nat)
  | acknowledge (operation : IndexOperation)
  | retry (operation : IndexOperation) (notBefore : Nat) (reason : String)
  | episode (r : DocumentRef)
  | sources (ref tenantRef : String)
  | version (r : DocumentRef)
  | refs (afterKind : Int) (afterRef : String) (limit : Nat)
  | upsert (documents : List Document)
  | delete (scope : IndexScope) (candidates : List IndexCandidate)
  | reset

/-- Whatever is asked may fail, but for the clock. -/
def ProjectorAsk.Answer : ProjectorAsk → Type
  | .now => Nat
  | .lease _ => Except Fault (Option IndexOperation)
  | .episode _ => Except Fault (Option EpisodeRow)
  | .sources _ _ => Except Fault (List SourceEvidence)
  | .version _ => Except Fault (Option String)
  | .refs _ _ _ => Except Fault (List DocumentRef)
  | .acknowledge _ | .retry _ _ _ | .upsert _ | .delete _ _ | .reset => Except Fault Unit

abbrev Projection (α : Type) : Type := Program ProjectorAsk.Answer α

/-- `fmt.Errorf("operation: %w", err)`. -/
def Fault.within (operation : String) (fault : Fault) : Fault :=
  { fault with detail := operation ++ ": " ++ fault.detail }

/-- `errors.Join`. -/
def Fault.join (first second : Fault) : Fault :=
  { first with detail := first.detail ++ "\n" ++ second.detail }

/-! ## Documents -/

/-- The text of an Episode's document, when it has a source. -/
def episodeText (episode : EpisodeRow) (sources : List SourceEvidence) : Option String :=
  if sources.isEmpty then none
  else some (renderDocument episode.ref episode.group.scope.sessionRef sources)

def DocumentRef.withText (r : DocumentRef) (text : String) : Document :=
  { kind := r.kind, ref := r.ref, scope := r.scope, text := text }

/-- `MemoryIndexDocument` of an Episode: its row, then its sources. -/
def rehydrateEpisode (r : DocumentRef) : Projection (Except Fault (Option Document)) :=
  Program.ask (.episode r) fun episode =>
    match episode with
    | .error fault => .ret (.error (fault.within "rehydrate MemoryIndex Episode"))
    | .ok none => .ret (.ok none)
    | .ok (some episode) =>
      Program.ask (.sources r.ref r.scope.tenantRef) fun sources =>
        match sources with
        | .error fault => .ret (.error (fault.within "load MemoryIndex Episode sources"))
        | .ok sources => .ret (.ok ((episodeText episode sources).map r.withText))

/-- `MemoryIndexDocument` of a version, in one statement. -/
def rehydrateVersion (operation : String) (r : DocumentRef) :
    Projection (Except Fault (Option Document)) :=
  Program.ask (.version r) fun text =>
    match text with
    | .error fault => .ret (.error (fault.within operation))
    | .ok text => .ret (.ok (text.map r.withText))

/-- `MemoryIndexDocument`. -/
def rehydrate (r : DocumentRef) : Projection (Except Fault (Option Document)) :=
  match r.kind with
  | .episode => rehydrateEpisode r
  | .recollection => rehydrateVersion "rehydrate MemoryIndex Recollection" r
  | .disposition => rehydrateVersion "rehydrate MemoryIndex Disposition" r

/-! ## One operation -/

/-- `apply`. -/
def apply (operation : IndexOperation) : Projection (Except Fault Unit) :=
  match operation.action with
  | .upsert => do
    let document ← rehydrate operation.document
    match document with
    | .error fault => .ret (.error fault)
    | .ok none => .ret (.ok ())
    | .ok (some document) =>
      if document.kind != operation.kind || document.ref != operation.ref ||
          document.scope != operation.scope || !validDocument document then
        .ret (.error documentMismatch)
      else Program.call (ProjectorAsk.upsert [document])
  | .delete =>
    if !validOperationIdentity operation.document then .ret (.error invalidDelete)
    else Program.call (ProjectorAsk.delete operation.scope [⟨some operation.kind, operation.ref⟩])

/-- What a piece of the projector's work comes to. -/
inductive Report
  /-- `ProcessOne` returned. -/
  | processed (worked : Bool) (fault : Option Fault)
  /-- `Rebuild` goes around its loop again, with the next cursor. -/
  | again (cursor : String)
  | rebuilt
  /-- `Rebuild` returned an error. -/
  | failed (fault : Fault)
  deriving DecidableEq, Repr

/-- The end of `ProcessOne`, when the operation was applied and when it was not. -/
def settle (config : ProjectorConfig) (operation : IndexOperation) :
    Except Fault Unit → Projection Report
  | .error fault =>
    Program.ask .now fun (now : Nat) =>
      Program.ask (.retry operation (now + config.retryDelay.toNat) fault.detail) fun retried =>
        match retried with
        | .error retryFault => .ret (.processed true (some (fault.join retryFault)))
        | .ok _ => .ret (.processed true (some fault))
  | .ok _ =>
    Program.ask (.acknowledge operation) fun acknowledged =>
      match acknowledged with
      | .error fault => .ret (.processed true (some fault))
      | .ok _ => .ret (.processed true none)

/-- `ProcessOne` after its lease. -/
def workOn (config : ProjectorConfig) : Except Fault (Option IndexOperation) → Projection Report
  | .error fault => .ret (.processed false (some fault))
  | .ok none => .ret (.processed false none)
  | .ok (some operation) => apply operation >>= settle config operation

/-- `ProcessOne`. -/
def processOne (config : ProjectorConfig) : Projection Report :=
  Program.ask .now fun (now : Nat) =>
    Program.ask (.lease (now + config.leaseDuration.toNat)) (workOn config)

/-! ## Rebuilding -/

/-- The documents of a page, read one after the other. -/
def rehydrateAll : List DocumentRef → Projection (Except Fault (List Document))
  | [] => .ret (.ok [])
  | r :: rest => do
    let found ← rehydrate r
    match found with
    | .error fault => .ret (.error fault)
    | .ok found => do
      let documents ← rehydrateAll rest
      match documents with
      | .error fault => .ret (.error fault)
      | .ok documents => .ret (.ok (found.toList ++ documents))

/-- The cursor of the next page, empty when there is none. -/
def nextCursor (limit : Nat) (rows : List DocumentRef) : String :=
  if limit < rows.length then ((rows.take limit).getLast?.map memoryIndexCursor).getD "" else ""

/-- `EnumerateMemoryIndexDocuments`, statement by statement. -/
def enumerate (cursor : String) (limit : Int) : Projection (Except Fault (List Document × String)) :=
  if limit ≤ 0 ∨ 1000 < limit then .ret (.error enumerationLimit)
  else
    match parseMemoryIndexCursor cursor with
    | .error fault => .ret (.error fault)
    | .ok (afterKind, afterRef) =>
      Program.ask (.refs afterKind afterRef (limit.toNat + 1)) fun rows =>
        match rows with
        | .error fault => .ret (.error (fault.within "enumerate MemoryIndex document refs"))
        | .ok rows => do
          let documents ← rehydrateAll (rows.take limit.toNat)
          match documents with
          | .error fault => .ret (.error fault)
          | .ok documents => .ret (.ok (documents, nextCursor limit.toNat rows))

/-- `Rebuild` up to its loop. -/
def startRebuild : Projection Report :=
  Program.ask .reset fun answer =>
    match answer with
    | .error fault => .ret (.failed (fault.within "reset MemoryIndex"))
    | .ok _ => .ret (.again "")

/-- Where the loop of `Rebuild` goes after a page. -/
def turn (cursor next : String) : Report :=
  if next == "" then .rebuilt else if next == cursor then .failed notAdvanced else .again next

/-- One turn of the loop of `Rebuild`. -/
def rebuildPage (config : ProjectorConfig) (cursor : String) : Projection Report := do
  let page ← enumerate cursor config.pageSize
  match page with
  | .error fault =>
    .ret (.failed (fault.within "enumerate canonical MemoryIndex documents"))
  | .ok (documents, next) =>
    if documents.isEmpty then .ret (turn cursor next)
    else if !documents.all validDocument then .ret (.failed invalidEnumeration)
    else
      Program.ask (.upsert documents) fun answer =>
        match answer with
        | .error fault => .ret (.failed (fault.within "rebuild MemoryIndex page"))
        | .ok _ => .ret (turn cursor next)

end ChoraMem
