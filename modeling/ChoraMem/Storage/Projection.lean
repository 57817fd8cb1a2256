/-
The documents of the semantic index and the projector that copies them.

A document is read again from the canonical rows whenever it is projected: the queue and
the enumeration carry its kind, its ref and its lane.  A rebuild walks all documents page
by page, with the last kind and ref of a page as the cursor of the next one.
-/
import ChoraMem.Storage.WorkerRequest
import ChoraMem.Storage.MemoryIndex

namespace ChoraMem

/-! ## Documents -/

/-- `memoryIndexDocumentRef`. -/
structure DocumentRef where
  kind : DocumentKind
  ref : String
  scope : IndexScope
  deriving DecidableEq, Repr

structure Document where
  kind : DocumentKind
  ref : String
  scope : IndexScope
  text : String
  deriving DecidableEq, Repr

/-- The sources of an Episode's links, by role and ref. -/
def documentSources (ref tenantRef : String) (d : Db) : List SourceEvidence :=
  ((d.links.filter fun l => decide (l.episodeRef = ref) &&
    decide (l.group.scope.tenantRef = tenantRef)).insertionSort linkOrder).filterMap (linkedSource d)

/-- `renderConsolidationWindow` of one Episode, without its actors. -/
def renderDocument (ref sessionRef : String) (sources : List SourceEvidence) : String :=
  joinLines (["EPISODE " ++ ref, "SESSION " ++ sessionRef] ++ sources.flatMap fun s =>
    [upperText s.role.text, "SOURCE " ++ s.ref, s.text])

/-- The text of a document, when there is still one. -/
def documentText (r : DocumentRef) (d : Db) : Option String :=
  match r.kind with
  | .episode =>
    match d.episodes.find? fun e => decide (e.ref = r.ref) &&
      decide (e.group.scope.owner.index = r.scope) with
    | none => none
    | some e =>
      let sources := documentSources r.ref r.scope.tenantRef d
      if sources.isEmpty then none else some (renderDocument e.ref e.group.scope.sessionRef sources)
  | .recollection =>
    (d.recollectionVersions.find? fun v => decide (v.ref = r.ref) && v.status == .active &&
      d.recollections.any fun root => decide (root.owner.tenantRef = v.tenantRef) &&
        decide (root.ref = v.recollectionRef) && decide (root.owner.index = r.scope)).map (·.text)
  | .disposition =>
    (d.seedVersions.find? fun v => decide (v.ref = r.ref) && v.status == .active &&
      d.seeds.any fun root => decide (root.owner.tenantRef = v.tenantRef) &&
        decide (root.ref = v.seedRef) && decide (root.owner.index = r.scope)).map (·.tendency)

/-- `MemoryIndexDocument`. -/
def memoryIndexDocument (r : DocumentRef) (d : Db) : Option Document :=
  (documentText r d).map fun text => { kind := r.kind, ref := r.ref, scope := r.scope, text := text }

/-! ## Enumeration -/

def DocumentKind.order : DocumentKind → Nat
  | episode => 0
  | recollection => 1
  | disposition => 2

/-- The rows of `document_refs`. -/
def documentRefs (d : Db) : List DocumentRef :=
  (d.episodes.map fun e => ⟨.episode, e.ref, e.group.scope.owner.index⟩) ++
  ((d.recollectionVersions.filter (·.status == .active)).flatMap fun v =>
    (d.recollections.filter fun root => decide (root.owner.tenantRef = v.tenantRef) &&
      decide (root.ref = v.recollectionRef)).map fun root =>
        ⟨.recollection, v.ref, root.owner.index⟩) ++
  ((d.seedVersions.filter (·.status == .active)).flatMap fun v =>
    (d.seeds.filter fun root => decide (root.owner.tenantRef = v.tenantRef) &&
      decide (root.ref = v.seedRef)).map fun root => ⟨.disposition, v.ref, root.owner.index⟩)

/-- `strconv.Atoi`. -/
def atoi (digits : List Char) : Option Int :=
  let value (ds : List Char) : Option Int :=
    if ds.isEmpty || !ds.all Char.isDigit then none
    else some (Int.ofNat (ds.foldl (fun n c => n * 10 + (c.toNat - '0'.toNat)) 0))
  match digits with
  | '-' :: ds => (value ds).map fun n => -n
  | '+' :: ds => value ds
  | ds => value ds

def invalidCursor : Fault := ⟨.plain, "invalid MemoryIndex enumeration cursor", ""⟩

/-- `parseMemoryIndexCursor`. -/
def parseMemoryIndexCursor (cursor : String) : Except Fault (Int × String) :=
  if cursor == "" then .ok (-1, "")
  else
    let kind := cursor.toList.takeWhile (· != ':')
    let ref := (cursor.toList.dropWhile (· != ':')).drop 1
    if ref.isEmpty then .error invalidCursor
    else
      match atoi kind with
      | none => .error invalidCursor
      | some order =>
        if order < 0 ∨ 2 < order then .error invalidCursor else .ok (order, String.ofList ref)

/-- `ORDER BY kind_order, document_ref`, with the refs compared by code points as in the C
collation. -/
def documentOrder (a b : DocumentRef) : Prop :=
  a.kind.order < b.kind.order ∨ (a.kind.order = b.kind.order ∧ a.ref ≤ b.ref)

instance : DecidableRel documentOrder := fun a b => by unfold documentOrder; infer_instance

def memoryIndexCursor (r : DocumentRef) : String := toString r.kind.order ++ ":" ++ r.ref

def enumerationLimit : Fault :=
  ⟨.plain, "MemoryIndex enumeration limit must be between 1 and 1000", ""⟩

/-- `EnumerateMemoryIndexDocuments`. -/
def enumerateMemoryIndexDocuments (cursor : String) (limit : Int) (d : Db) :
    Except Fault (List Document × String) := do
  if limit ≤ 0 ∨ 1000 < limit then throw enumerationLimit
  let (afterKind, afterRef) ← parseMemoryIndexCursor cursor
  let rows := (((documentRefs d).filter fun r => decide (afterKind < r.kind.order) ||
    (decide (afterKind = r.kind.order) && decide (afterRef < r.ref))).insertionSort
      documentOrder).take (limit.toNat + 1)
  let refs := rows.take limit.toNat
  let documents := refs.filterMap fun r => memoryIndexDocument r d
  let next :=
    if limit.toNat < rows.length then (refs.getLast?.map memoryIndexCursor).getD "" else ""
  return (documents, next)

/-! ## The projector -/

/-- `validProjectionRef`. -/
def validProjectionRef (ref : String) (emptyAllowed : Bool) : Bool :=
  (emptyAllowed || ref != "") && !containsSpace ref

def validProjectionScope (scope : IndexScope) : Bool :=
  validProjectionRef scope.tenantRef false && validProjectionRef scope.agentRef false &&
    validProjectionRef scope.relationshipRef true

/-- `validOperationIdentity`; the kinds are those of the type. -/
def validOperationIdentity (r : DocumentRef) : Bool :=
  validProjectionRef r.ref false && validProjectionScope r.scope

def validDocument (document : Document) : Bool :=
  validProjectionRef document.ref false && validProjectionScope document.scope &&
    trimSpace document.text != ""

def invalidEnumeration : Fault :=
  ⟨.plain, "canonical MemoryIndex enumeration returned an invalid document", ""⟩

def notAdvanced : Fault := ⟨.plain, "canonical MemoryIndex enumeration did not advance", ""⟩

/-- A document replaces the one of its kind, ref and lane. -/
def upsertDocument (index : List Document) (document : Document) : List Document :=
  index.filter (fun other => !(other.kind == document.kind && other.ref == document.ref &&
    other.scope == document.scope)) ++ [document]

/-- The document that a queued operation is about. -/
def IndexOperationRow.document (operation : IndexOperationRow) : DocumentRef :=
  ⟨operation.documentKind, operation.documentRef,
    ⟨operation.tenantRef, operation.agentRef, operation.relationshipRef⟩⟩

def documentMismatch : Fault :=
  ⟨.plain, "canonical MemoryIndex document does not match frozen operation", ""⟩

def invalidDelete : Fault := ⟨.plain, "frozen MemoryIndex DELETE operation is invalid", ""⟩

/-- `apply`, of a provider that does what it is asked. -/
def applyOperation (operation : IndexOperationRow) (d : Db) (index : List Document) :
    Except Fault (List Document) :=
  let r := operation.document
  match operation.action with
  | .upsert =>
    match memoryIndexDocument r d with
    | none => .ok index
    | some document =>
      if document.kind != r.kind || document.ref != r.ref || document.scope != r.scope ||
          !validDocument document then .error documentMismatch
      else .ok (upsertDocument index document)
  | .delete =>
    if !validOperationIdentity r then .error invalidDelete
    else .ok (index.filter fun other =>
      !(other.kind == r.kind && other.ref == r.ref && other.scope == r.scope))

/-- The loop of `Rebuild`, for a number of pages; `none` when these are not all. -/
def rebuildFrom (pageSize : Int) (d : Db) :
    Nat → String → List Document → Option (Except Fault (List Document))
  | 0, _, _ => none
  | pages + 1, cursor, index =>
    match enumerateMemoryIndexDocuments cursor pageSize d with
    | .error fault => some (.error fault)
    | .ok (documents, next) =>
      if !documents.all validDocument then some (.error invalidEnumeration)
      else
        let index := documents.foldl upsertDocument index
        if next == "" then some (.ok index)
        else if next == cursor then some (.error notAdvanced)
        else rebuildFrom pageSize d pages next index

/-- `Rebuild`, after the index was reset. -/
def rebuild (pageSize : Int) (pages : Nat) (d : Db) : Option (Except Fault (List Document)) :=
  rebuildFrom pageSize d pages "" []

end ChoraMem
