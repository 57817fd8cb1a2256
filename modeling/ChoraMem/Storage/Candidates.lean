/-
The candidates of a selection.

A run may be shown the active Memory of its agent and of its exact relationship.  A
bounded part of each catalogue is always looked at, and what the index returns in a
lane is looked up in the lane's owners.  The index's own position is the rank, so
it is kept with each ref.
-/
import ChoraMem.Storage.ActiveMemory
import ChoraMem.Storage.Selection

namespace ChoraMem

open Txn

structure SelectRequest where
  scope : Scope
  runRef : String
  situationSourceRefs : List String
  constitution : Constitution
  episodeEvidenceMaxBytes : Int
  deriving DecidableEq, Repr

/-! ## Owners -/

/-- The baseline of a scope's agent. -/
def agentBaseline (tenantRef agentRef : String) : OwnerScope :=
  { kind := .agent, tenantRef := tenantRef, agentRef := agentRef, relationshipRef := "" }

/-- The baseline and the exact relationship; `sortOwnerScopes` puts the agent first. -/
def selectionOwners (scope : Scope) : List OwnerScope :=
  agentBaseline scope.tenantRef scope.agentRef ::
    if scope.kind = .relationship then [scope.owner] else []

/-- The same owners as the catalogue queries order them. -/
def catalogueOwners (scope : Scope) : List (OwnerScope × Nat) :=
  (if scope.kind = .relationship then [(scope.owner, 0)] else []) ++
    [(agentBaseline scope.tenantRef scope.agentRef, 1)]

/-! ## Anchors -/

/-- The Situation sources of an Episode, as anchors. -/
def situationAnchors (e : EpisodeRow) (d : Db) : List Anchor :=
  ((episodeSources e d).filter (·.role == .situation)).map fun s =>
    { episodeRef := e.ref, sourceRef := s.ref, text := s.text }

/-- The anchors of a basis row: its Episode must have the Memory's exact owner. -/
def basisAnchors (owner : OwnerScope) (d : Db) (b : BasisRow) : List Anchor :=
  (d.episodes.filter fun e =>
    decide (e.group.scope.owner = owner) && decide (e.ref = b.basisRef)).flatMap fun e =>
      situationAnchors e d

def sortBasis (basis : List BasisRow) : List BasisRow :=
  basis.insertionSort fun a b =>
    a.role.text < b.role.text ∨ (a.role.text = b.role.text ∧ a.basisRef ≤ b.basisRef)

/-! ## Catalogues -/

/-- The bounded part of a catalogue, of the given refs when there are any. -/
def boundedCatalogue {α : Type} (ref : α → String) (limit : Nat) (refs : Option (List String))
    (catalogue : List α) : List α :=
  ((catalogue.filter fun a => refs.all (·.contains (ref a))).insertionSort
    fun a b => ref a ≤ ref b).take limit

/-- `ORDER BY episode_ref, source_ref`. -/
def sortAnchors (anchors : List Anchor) : List Anchor :=
  anchors.insertionSort fun a b =>
    a.episodeRef < b.episodeRef ∨ (a.episodeRef = b.episodeRef ∧ a.sourceRef ≤ b.sourceRef)

def recollectionCandidate (ownerOrder : Nat) (d : Db) (r : ActiveRecollection) :
    Option Candidate :=
  let support := sortAnchors
    ((versionBasis r.owner.tenantRef r.versionRef d.recollectionBasis).flatMap
      (basisAnchors r.owner d))
  if support.isEmpty then none
  else some
    { kind := .recollection, versionRef := r.versionRef, text := r.text, application := r.application,
      ownerOrder := ownerOrder, support := support, inhibition := [], reenactments := 0,
      indexMatches := [] }

def BasisRole.supports : BasisRole → Bool
  | .formation | .revision | .reenactment => true
  | _ => false

def dispositionCandidate (ownerOrder : Nat) (d : Db) (a : ActiveDisposition) :
    Option Candidate :=
  let basis := sortBasis (versionBasis a.owner.tenantRef a.versionRef d.seedBasis)
  let anchors := fun (p : BasisRole → Bool) =>
    (basis.filter fun b => p b.role).flatMap (basisAnchors a.owner d)
  if (anchors fun _ => true).isEmpty then none
  else some
    { kind := .disposition, versionRef := a.versionRef, text := a.tendency,
      application := (dispositionScope a.owner), ownerOrder := ownerOrder,
      support := anchors BasisRole.supports, inhibition := anchors (· == .inhibition),
      reenactments := ((anchors (· == .reenactment)).map (·.episodeRef)).dedup.length,
      indexMatches := [] }
where
  /-- `dispositionApplicationScope`. -/
  dispositionScope (owner : OwnerScope) : String :=
    if owner.kind = .agent then "self" else "relation"

def loadRecollectionCandidates (scope : Scope) (limit : Nat) (refs : Option (List String))
    (d : Db) : List Candidate :=
  (catalogueOwners scope).flatMap fun o =>
    (boundedCatalogue ActiveRecollection.versionRef limit refs (ownedRecollections o.1 d)).filterMap
      (recollectionCandidate o.2 d)

def loadDispositionCandidates (scope : Scope) (limit : Nat) (refs : Option (List String))
    (d : Db) : List Candidate :=
  (catalogueOwners scope).flatMap fun o =>
    (boundedCatalogue ActiveDisposition.versionRef limit refs (ownedDispositions o.1 d)).filterMap
      (dispositionCandidate o.2 d)

/-! ## The lanes of the index -/

/-- A ref of the index with the lane it came in. -/
structure ScopedIndexCandidate where
  scope : OwnerScope
  kind : DocumentKind
  ref : String
  querySourceRef : String
  rank : Nat
  laneOrder : Nat
  deriving DecidableEq, Repr

/-- One query of one owner. -/
structure Lane where
  owner : OwnerScope
  query : Query
  order : Nat
  deriving DecidableEq, Repr

def selectionLanes (scope : Scope) (queries : List Query) : List Lane :=
  ((selectionOwners scope).flatMap fun o => queries.map fun q => (o, q)).zipIdx.map fun l =>
    { owner := l.1.1, query := l.1.2, order := l.2 }

def Lane.indexQuery (lane : Lane) (limit : Nat) : IndexQuery :=
  { scope := lane.owner.index, text := lane.query.text, limit := limit }

/-- A ref without a known kind keeps its place and is dropped. -/
def Lane.scoped (lane : Lane) (answer : IndexCandidate × Nat) : Option ScopedIndexCandidate :=
  match answer.1.kind with
  | none => none
  | some kind =>
    if answer.1.ref == "" then none
    else some
      { scope := lane.owner, kind := kind, ref := answer.1.ref, querySourceRef := lane.query.ref,
        rank := answer.2, laneOrder := lane.order }

/-- The bounded answer of a lane; one that fails is empty. -/
def Lane.search (index : MemoryIndex) (limit : Nat) (lane : Lane) : List ScopedIndexCandidate :=
  (((index (lane.indexQuery limit)).getD []).take limit).zipIdx.filterMap lane.scoped

/-- The same ref of the same owner, kind and query. -/
def ScopedIndexCandidate.repeats (a b : ScopedIndexCandidate) : Bool :=
  decide (a.scope = b.scope) && a.kind == b.kind && a.ref == b.ref &&
    a.querySourceRef == b.querySourceRef

def dropRepeats (items : List ScopedIndexCandidate) : List ScopedIndexCandidate :=
  items.foldl (fun acc c => if acc.any c.repeats then acc else acc ++ [c]) []

/-- `searchMemoryIndex` of the selection. -/
def searchSelectionIndex (index : Option MemoryIndex) (scope : Scope) (queries : List Query)
    (limit : Nat) : List ScopedIndexCandidate :=
  match index with
  | none => []
  | some index => dropRepeats ((selectionLanes scope queries).flatMap (Lane.search index limit))

/-! ## Indexed candidates -/

/-- The refs of one kind that the lanes of an owner returned. -/
def laneRefs (owner : OwnerScope) (kind : DocumentKind) (indexed : List ScopedIndexCandidate) :
    List String :=
  (indexed.filter fun c => decide (c.scope = owner) && c.kind == kind).map (·.ref)

def ScopedIndexCandidate.match (c : ScopedIndexCandidate) (supportEpisodeRef : String) :
    IndexMatch :=
  { querySourceRef := c.querySourceRef, supportEpisodeRef := supportEpisodeRef, rank := c.rank,
    laneOrder := c.laneOrder }

def ItemKind.document : ItemKind → DocumentKind
  | .recollection => .recollection
  | .disposition => .disposition

/-- The answers that name the candidate itself. -/
def attachDirectIndexMatches (indexed : List ScopedIndexCandidate) (owner : OwnerScope)
    (candidate : Candidate) : Candidate :=
  { candidate with indexMatches := candidate.indexMatches ++
      (indexed.filter fun c => decide (c.scope = owner) && c.kind == candidate.kind.document &&
        c.ref == candidate.versionRef).map (·.match "") }

/-- The answers that name an Episode supporting the candidate. -/
def attachEpisodeSupportIndexMatches (indexed : List ScopedIndexCandidate) (owner : OwnerScope)
    (candidate : Candidate) : Candidate :=
  { candidate with indexMatches := candidate.indexMatches ++
      (firstPlaces (candidate.support.map (·.episodeRef))).flatMap fun episodeRef =>
        (indexed.filter fun c => decide (c.scope = owner) && c.kind == .episode &&
          c.ref == episodeRef).map (·.match episodeRef) }

/-- The scope that a lane's owner is looked up in. -/
def OwnerScope.laneScope (owner : OwnerScope) : Scope :=
  { kind := owner.kind, tenantRef := owner.tenantRef, agentRef := owner.agentRef,
    relationshipRef := owner.relationshipRef, sessionRef := "" }

/-- What the lanes of an owner returned, with what its Episodes are a basis of. -/
def laneMemoryRefs (owner : OwnerScope) (indexed : List ScopedIndexCandidate) (d : Db) :
    List String × List String :=
  let episodes := laneRefs owner .episode indexed
  let linked := if episodes.isEmpty then ([], []) else loadEpisodeLinkedMemoryRefs owner episodes d
  (uniqueRefs (laneRefs owner .recollection indexed ++ linked.1),
    uniqueRefs (laneRefs owner .disposition indexed ++ linked.2))

def laneCandidates (indexed : List ScopedIndexCandidate) (d : Db) (owner : OwnerScope) :
    List Candidate :=
  let refs := laneMemoryRefs owner indexed d
  (loadRecollectionCandidates owner.laneScope refs.1.length (some refs.1) d).map
    (attachDirectIndexMatches indexed owner) ++
  (loadDispositionCandidates owner.laneScope refs.2.length (some refs.2) d).map fun c =>
    attachEpisodeSupportIndexMatches indexed owner (attachDirectIndexMatches indexed owner c)

/-- The groups come in the order of their lanes, which is the order of the owners. -/
def loadIndexedSelectionCandidates (scope : Scope) (indexed : List ScopedIndexCandidate) (d : Db) :
    List Candidate :=
  (selectionOwners scope).flatMap (laneCandidates indexed d)

/-- A candidate that comes again adds its matches to the first. -/
def uniteCandidate (result : List Candidate) (candidate : Candidate) : List Candidate :=
  if result.any fun c => c.kind == candidate.kind && c.versionRef == candidate.versionRef then
    result.map fun c =>
      if c.kind == candidate.kind && c.versionRef == candidate.versionRef then
        { c with indexMatches := c.indexMatches ++ candidate.indexMatches }
      else c
  else result ++ [candidate]

def unionSelectionCandidates (canonical indexed : List Candidate) : List Candidate :=
  (canonical ++ indexed).foldl uniteCandidate []

end ChoraMem
