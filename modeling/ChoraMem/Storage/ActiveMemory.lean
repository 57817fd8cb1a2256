/-
The active memories a window is compared with.

The catalogue of an owner is ranked by the current Situations and cut, and what the
index returned is added after it was found in the same catalogue.  The ranking picks
hints and targets only; it is not stored.
-/
import ChoraMem.Storage.FeedbackState

namespace ChoraMem

open Txn

def maxActiveDispositionHints : Nat := 64

def maxActiveRecollectionTargets : Nat := 64

def maxRecollectionQueryBytes : Nat := 32 * 1024

structure ActiveRecollection where
  owner : OwnerScope
  recollection : String
  versionRef : String
  versionNumber : Nat
  text : String
  application : String
  createdAt : Nat
  basisState : List String
  deriving DecidableEq, Repr

/-! ## The query of a window -/

/-- The longest head of a text within a number of bytes. -/
def takeBytes : Nat → List Char → List Char
  | _, [] => []
  | n, c :: rest => if c.utf8Size ≤ n then c :: takeBytes (n - c.utf8Size) rest else []

/-- Append one Situation's text while there is room. -/
def appendQueryText (query : String) (text : String) : String :=
  let text := trimSpace text
  if text == "" || maxRecollectionQueryBytes ≤ query.utf8ByteSize then query
  else
    let query := if query == "" then query else query ++ "\n"
    query ++ String.ofList (takeBytes (maxRecollectionQueryBytes - query.utf8ByteSize) text.toList)

/-- The Situation sources of Episodes, in order. -/
def situationSources (episodes : List EpisodeEvidence) : List SourceEvidence :=
  episodes.flatMap fun e => e.sources.filter (·.role == .situation)

def recollectionWindowQuery (episodes : List EpisodeEvidence) : String :=
  ((situationSources episodes).map (·.text)).foldl appendQueryText ""

/-! ## Dispositions -/

/-- The active versions of the owner's Seeds. -/
def ownedDispositions (owner : OwnerScope) (d : Db) : List ActiveDisposition :=
  (d.seeds.filter fun s => decide (s.owner = owner)).flatMap fun s =>
    (d.seedVersions.filter fun v => decide (v.tenantRef = s.owner.tenantRef) &&
      decide (v.seedRef = s.ref) && v.status == .active).map fun v =>
        { seedRef := v.seedRef, versionNumber := v.number, versionRef := v.ref,
          tendency := v.tendency, owner := owner }

def sortDispositions (l : List ActiveDisposition) : List ActiveDisposition :=
  l.insertionSort fun a b => a.versionRef ≤ b.versionRef

/-- The best of the catalogue. -/
def Store.hintedDispositions (store : Store) (query : String) (catalogue : List ActiveDisposition) :
    List ActiveDisposition :=
  sortDispositions (((sortDispositions catalogue).insertionSort fun a b =>
    store.score query b.tendency ≤ store.score query a.tendency).take maxActiveDispositionHints)

def Store.loadActiveDispositions (store : Store) (owner : OwnerScope)
    (episodes : List EpisodeEvidence) (indexedRefs : List String) (d : Db) :
    List ActiveDisposition :=
  let catalogue := ownedDispositions owner d
  let hinted := store.hintedDispositions (recollectionWindowQuery episodes) catalogue
  sortDispositions (hinted ++ catalogue.filter fun a =>
    indexedRefs.contains a.versionRef && !hinted.any (·.versionRef == a.versionRef))

/-! ## Recollections -/

/-- The active versions of the owner's Recollections, without their basis. -/
def ownedRecollections (owner : OwnerScope) (d : Db) : List ActiveRecollection :=
  (d.recollections.filter fun r => decide (r.owner = owner)).flatMap fun r =>
    (d.recollectionVersions.filter fun v => decide (v.tenantRef = r.owner.tenantRef) &&
      decide (v.recollectionRef = r.ref) && v.status == .active).map fun v =>
        { owner := owner, recollection := v.recollectionRef, versionRef := v.ref,
          versionNumber := v.number, text := v.text, application := v.application,
          createdAt := v.createdAt, basisState := [] }

def sortRecollections (l : List ActiveRecollection) : List ActiveRecollection :=
  l.insertionSort fun a b => a.versionRef ≤ b.versionRef

/-- More relevant first, then newer; the sort is stable on the order of refs. -/
def Store.rankRecollections (store : Store) (query : String) (l : List ActiveRecollection) :
    List ActiveRecollection :=
  (sortRecollections l).insertionSort fun a b =>
    store.score query b.text < store.score query a.text ∨
      (store.score query a.text = store.score query b.text ∧ b.createdAt ≤ a.createdAt)

def Store.boundedActiveRecollections (store : Store) (catalogue : List ActiveRecollection)
    (episodes : List EpisodeEvidence) (indexedRefs : List String) : List ActiveRecollection :=
  let best := (store.rankRecollections (recollectionWindowQuery episodes) catalogue).take
    maxActiveRecollectionTargets
  sortRecollections (best ++ catalogue.filter fun a =>
    indexedRefs.contains a.versionRef && !best.any (·.versionRef == a.versionRef))

def ActiveRecollection.withBasis (basis : List BasisRow) (r : ActiveRecollection) :
    ActiveRecollection :=
  { r with basisState := (versionBasis r.owner.tenantRef r.versionRef basis).map fun b =>
      b.role.text ++ "\x00" ++ b.basisRef }

def Store.loadActiveRecollections (store : Store) (owner : OwnerScope)
    (episodes : List EpisodeEvidence) (indexedRefs : List String) (d : Db) :
    List ActiveRecollection :=
  (store.boundedActiveRecollections (ownedRecollections owner d) episodes indexedRefs).map
    (ActiveRecollection.withBasis d.recollectionBasis)

def ActiveRecollection.hashFields (r : ActiveRecollection) : List String :=
  [r.owner.kind.text, r.owner.tenantRef, r.owner.agentRef, r.owner.relationshipRef, r.recollection,
    r.versionRef, toString r.versionNumber, r.text, r.application] ++ sortedKeys r.basisState

def Store.hashRecollectionState (store : Store) (recollections : List ActiveRecollection) : String :=
  store.hashFields
    ("recollection-state.v1" :: recollections.flatMap ActiveRecollection.hashFields)

end ChoraMem
