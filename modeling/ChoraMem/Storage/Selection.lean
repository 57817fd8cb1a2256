/-
Online selection.

`select` decides which memories a run is shown: each candidate's best support path,
the stronger of support and inhibition, and a bounded tie-break by how often a
Disposition was reenacted.  Scores never leave it.  The ranker is a parameter, as in
the source; the order of two paths or two activations is written as the source's
comparisons, and a sort by it is stable.
-/
import ChoraMem.Storage.Store

namespace ChoraMem

/-! ## Values -/

structure Query where
  ref : String
  text : String
  deriving DecidableEq, Repr

structure Anchor where
  episodeRef : String
  sourceRef : String
  text : String
  deriving DecidableEq, Repr

/-- One answer of the index.  `supportEpisodeRef` is not empty when an indexed
Episode supports this Disposition. -/
structure IndexMatch where
  querySourceRef : String
  supportEpisodeRef : String
  rank : Int
  laneOrder : Int
  deriving DecidableEq, Repr

structure Candidate where
  kind : ItemKind
  versionRef : String
  text : String
  application : String
  ownerOrder : Int
  support : List Anchor
  inhibition : List Anchor
  reenactments : Int
  indexMatches : List IndexMatch
  deriving DecidableEq, Repr

structure Activation where
  kind : ItemKind
  versionRef : String
  application : String
  querySourceRef : String
  matchedRef : String
  evidenceEpisodeRef : String
  evidenceSourceRef : String
  deriving DecidableEq, Repr

structure Policy where
  ref : String
  minimumScore : Rat
  maxRecollections : Nat
  maxDispositions : Nat
  availabilityCap : Nat
  canonicalCandidatesPerOwnerKind : Nat

def defaultPolicy : Policy :=
  { ref := "indexed-support-episode-latin-term-cjk-bigram-v6", minimumScore := 1 / 5,
    maxRecollections := 8, maxDispositions := 8, availabilityCap := 4,
    canonicalCandidatesPerOwnerKind := 40 }

structure ActivationPath where
  activation : Activation
  score : Rat
  direct : Bool
  indexed : Bool
  indexRank : Int
  laneOrder : Int

structure RankedActivation where
  activation : Activation
  support : Rat
  availability : Int
  ownerOrder : Int
  indexed : Bool
  indexRank : Int
  laneOrder : Int

/-! ## Paths -/

def normalizeScore (score : Rat) : Rat := if score < 0 then 0 else if 1 < score then 1 else score

def anchorBefore (a b : Anchor) : Bool :=
  if a.episodeRef != b.episodeRef then a.episodeRef < b.episodeRef
  else if a.sourceRef != b.sourceRef then a.sourceRef < b.sourceRef
  else a.text < b.text

/-- The complete anchors, in order. -/
def liveAnchors (anchors : List Anchor) : List Anchor :=
  (anchors.filter fun a => a.episodeRef != "" && a.sourceRef != "" && a.text != "").insertionSort
    fun a b => !anchorBefore b a

def betterPath (left right : ActivationPath) : Bool :=
  if left.indexed != right.indexed then left.indexed
  else if left.indexed && left.indexRank != right.indexRank then left.indexRank < right.indexRank
  else if left.indexed && left.laneOrder != right.laneOrder then left.laneOrder < right.laneOrder
  else if left.score != right.score then right.score < left.score
  else if left.direct != right.direct then left.direct
  else if left.activation.querySourceRef != right.activation.querySourceRef then
    left.activation.querySourceRef < right.activation.querySourceRef
  else if left.activation.matchedRef != right.activation.matchedRef then
    left.activation.matchedRef < right.activation.matchedRef
  else if left.activation.evidenceEpisodeRef != right.activation.evidenceEpisodeRef then
    left.activation.evidenceEpisodeRef < right.activation.evidenceEpisodeRef
  else left.activation.evidenceSourceRef < right.activation.evidenceSourceRef

/-- Keep the better of the best path so far and a new one. -/
def keepBetter (best : Option ActivationPath) (path : ActivationPath) : Option ActivationPath :=
  match best with
  | none => some path
  | some b => if betterPath path b then some path else some b

def Query.usable (query : Query) : Bool := query.ref != "" && query.text != ""

def Candidate.activation (candidate : Candidate) (querySourceRef matchedRef : String)
    (evidence : Anchor) : Activation :=
  { kind := candidate.kind, versionRef := candidate.versionRef, application := candidate.application,
    querySourceRef := querySourceRef, matchedRef := matchedRef,
    evidenceEpisodeRef := evidence.episodeRef, evidenceSourceRef := evidence.sourceRef }

section

variable (score : String → String → Rat)

/-- The path of one answer of the index: the memory itself, or an Episode that
supports this Disposition. -/
def indexedPath (queries : List Query) (candidate : Candidate) (anchors : List Anchor)
    (evidence : Anchor) (found : IndexMatch) : Option ActivationPath := do
  if found.querySourceRef == "" || found.rank < 0 || found.laneOrder < 0 then none
  else do
    let query ← (queries.filter Query.usable).reverse.find? (·.ref == found.querySourceRef)
    let path := fun (text matchedRef : String) (anchor : Anchor) (direct : Bool) =>
      { activation := candidate.activation found.querySourceRef matchedRef anchor,
        score := normalizeScore (score query.text text), direct := direct, indexed := true,
        indexRank := found.rank, laneOrder := found.laneOrder : ActivationPath }
    if found.supportEpisodeRef == "" then
      return path candidate.text candidate.versionRef evidence true
    else if candidate.kind != .disposition then none
    else do
      let anchor ← anchors.find? (·.episodeRef == found.supportEpisodeRef)
      return path anchor.text found.supportEpisodeRef anchor false

/-- The paths of one query: the memory's own text, and for a Disposition each of its
anchors.  A Recollection's anchors prove where it came from and are not its meaning. -/
def queryPaths (candidate : Candidate) (anchors : List Anchor) (evidence : Anchor)
    (query : Query) : List ActivationPath :=
  { activation := candidate.activation query.ref candidate.versionRef evidence,
    score := normalizeScore (score query.text candidate.text), direct := true, indexed := false,
    indexRank := 0, laneOrder := 0 } ::
  if candidate.kind == .recollection then []
  else anchors.map fun anchor =>
    { activation := candidate.activation query.ref anchor.sourceRef anchor,
      score := normalizeScore (score query.text anchor.text), direct := false, indexed := false,
      indexRank := 0, laneOrder := 0 }

def bestSupportPath (queries : List Query) (candidate : Candidate) (anchors : List Anchor)
    (evidence : Anchor) : Option ActivationPath :=
  let indexed := candidate.indexMatches.filterMap
    (indexedPath score queries candidate anchors evidence)
  let plain := (queries.filter Query.usable).flatMap (queryPaths score candidate anchors evidence)
  (indexed ++ plain).foldl keepBetter none

/-- The strongest inhibition of any query. -/
def bestInhibition (queries : List Query) (anchors : List Anchor) : Option Rat :=
  ((queries.filter Query.usable).flatMap fun query =>
    (liveAnchors anchors).map fun anchor => normalizeScore (score query.text anchor.text)).foldl
      (fun best s =>
        match best with
        | none => some s
        | some b => if b < s then some s else some b)
      none

/-! ## Selection -/

/-- Inhibition competes with support for a Disposition, and wins a tie. -/
def inhibited (queries : List Query) (candidate : Candidate) (support : Rat) : Bool :=
  candidate.kind == .disposition &&
    (bestInhibition score queries candidate.inhibition).any fun i => decide (support ≤ i)

def rankCandidate (queries : List Query) (policy : Policy) (candidate : Candidate) :
    Option RankedActivation :=
  match liveAnchors candidate.support with
  | [] => none
  | evidence :: rest =>
    if candidate.versionRef == "" || candidate.text == "" then none
    else
      match bestSupportPath score queries candidate (evidence :: rest) evidence with
      | none => none
      | some path =>
        if (!path.indexed && decide (path.score < policy.minimumScore)) ||
            inhibited score queries candidate path.score then none
        else some
          { activation := path.activation, support := path.score,
            availability := if candidate.kind == .disposition then
              min (max 0 candidate.reenactments) policy.availabilityCap else 0,
            ownerOrder := candidate.ownerOrder, indexed := path.indexed,
            indexRank := path.indexRank, laneOrder := path.laneOrder }

def rankedBefore (a b : RankedActivation) : Bool :=
  if a.indexed != b.indexed then a.indexed
  else if a.indexed && a.indexRank != b.indexRank then a.indexRank < b.indexRank
  else if a.indexed && a.laneOrder != b.laneOrder then a.laneOrder < b.laneOrder
  else if a.support != b.support then b.support < a.support
  else if a.ownerOrder != b.ownerOrder then a.ownerOrder < b.ownerOrder
  else if a.availability != b.availability then b.availability < a.availability
  else if a.activation.kind != b.activation.kind then
    a.activation.kind.text < b.activation.kind.text
  else a.activation.versionRef < b.activation.versionRef

/-- Take activations in order while their kind is within its bound. -/
def takeWithin (policy : Policy) (recollections dispositions : Nat) :
    List RankedActivation → List Activation
  | [] => []
  | item :: rest =>
    match item.activation.kind with
    | .recollection =>
      if policy.maxRecollections ≤ recollections then takeWithin policy recollections dispositions rest
      else item.activation :: takeWithin policy (recollections + 1) dispositions rest
    | .disposition =>
      if policy.maxDispositions ≤ dispositions then takeWithin policy recollections dispositions rest
      else item.activation :: takeWithin policy recollections (dispositions + 1) rest

def Policy.invalid (policy : Policy) : Bool :=
  policy.ref == "" || decide (policy.minimumScore < 0) || decide (1 < policy.minimumScore) ||
    policy.maxRecollections == 0 || policy.maxDispositions == 0 ||
    policy.canonicalCandidatesPerOwnerKind == 0

def select (queries : List Query) (candidates : List Candidate) (policy : Policy) :
    Except Fault (List Activation) :=
  if policy.invalid then
    .error ⟨.plain, "select MemoryContext: invalid selection configuration", ""⟩
  else .ok (takeWithin policy 0 0
    ((candidates.filterMap (rankCandidate score queries policy)).insertionSort
      fun a b => !rankedBefore b a))

end

/-! ## Episode evidence -/

def maxEpisodeEvidenceBytes : Nat := 16 * 1024

def maxEpisodeEvidenceEntries : Nat := 8

/-- Keep the items that fit whole, in order, up to the bound. -/
def boundEpisodeEvidence {ι : Type} (text : ι → String) (maxBytes : Int) (items : List ι) : List ι :=
  if maxBytes ≤ 0 then []
  else
    (items.foldl
      (fun (acc : List ι × Nat) item =>
        if acc.1.length = maxEpisodeEvidenceEntries ||
            decide (maxBytes - acc.2 < (text item).utf8ByteSize) then acc
        else (acc.1 ++ [item], acc.2 + (text item).utf8ByteSize))
      ([], 0)).1

end ChoraMem
