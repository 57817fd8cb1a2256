/-
Candidates from the semantic index.

The index is a service outside the store: here it is the function it computes on
one call, and no function when none is configured.  It answers with an ordered list of refs, or fails.  What it returns is
bounded and deduplicated here, and untrusted: every ref is read again from the
store before it is used.
-/
import Mathlib.Algebra.Order.Ring.Nat
import Mathlib.Data.String.Basic
import ChoraMem.Storage.Store

namespace ChoraMem

/-- One long-lived owner lane. -/
structure IndexScope where
  tenantRef : String
  agentRef : String
  relationshipRef : String
  deriving DecidableEq, Repr

def OwnerScope.index (owner : OwnerScope) : IndexScope :=
  { tenantRef := owner.tenantRef, agentRef := owner.agentRef,
    relationshipRef := owner.relationshipRef }

structure IndexQuery where
  scope : IndexScope
  text : String
  limit : Nat
  deriving DecidableEq, Repr

/-- A candidate of a kind that is not known has none. -/
structure IndexCandidate where
  kind : Option DocumentKind
  ref : String
  deriving DecidableEq, Repr

/-- What the index answers; `none` is an error. -/
abbrev MemoryIndex := IndexQuery → Option (List IndexCandidate)

/-- The elements of a list, each at its first place. -/
def firstPlaces (refs : List String) : List String :=
  refs.foldl (fun acc ref => if acc.contains ref then acc else acc ++ [ref]) []

/-- `uniqueRefs`. -/
def uniqueRefs (refs : List String) : List String := firstPlaces (refs.filter (· != ""))

/-! ## One search -/

structure MemoryIndexCandidates where
  episodeRefs : List String := []
  recollectionRefs : List String := []
  dispositionRefs : List String := []
  deriving DecidableEq, Repr

/-- A ref that comes again, or comes when the list is full, is dropped. -/
def addCandidate (limit : Nat) (refs : List String) (ref : String) : List String :=
  if refs.contains ref || limit ≤ refs.length then refs else refs ++ [ref]

def MemoryIndexCandidates.add (limit : Nat) (result : MemoryIndexCandidates)
    (candidate : IndexCandidate) : MemoryIndexCandidates :=
  if !stableFeedbackRef candidate.ref then result
  else
    match candidate.kind with
    | none => result
    | some .episode =>
      { result with episodeRefs := addCandidate limit result.episodeRefs candidate.ref }
    | some .recollection =>
      { result with recollectionRefs := addCandidate limit result.recollectionRefs candidate.ref }
    | some .disposition =>
      { result with dispositionRefs := addCandidate limit result.dispositionRefs candidate.ref }

/-- Query each distinct Situation text once.  A query that fails adds nothing. -/
def searchMemoryIndex (index : MemoryIndex) (scope : IndexScope) (situationTexts : List String)
    (limit : Nat) : MemoryIndexCandidates :=
  (uniqueRefs (situationTexts.map trimSpace)).foldl
    (fun result text =>
      match index { scope := scope, text := text, limit := limit } with
      | none => result
      | some candidates => (candidates.take limit).foldl (MemoryIndexCandidates.add limit) result)
    {}

/-! ## Fusing rankings -/

/-- The distinct Episodes of one answer, in its order. -/
def rankedEpisodes (limit : Nat) (candidates : List IndexCandidate) : List String :=
  firstPlaces ((candidates.take limit).filterMap fun c =>
    if c.kind == some .episode && stableFeedbackRef c.ref then some c.ref else none)

/-- A result of `int` arithmetic, which has 64 bits and wraps around. -/
def wrapInt (n : Int) : Int := n.bmod (2 ^ 64)

/-- The rank of an Episode in one answer; one that is missing gets the rank after the bound. -/
def rankIn (limit : Nat) (ref : String) (refs : List String) : Int :=
  match refs.idxOf? ref with
  | some place => place + 1
  | none => wrapInt (limit + 1)

def rankSum (ranks : List Int) : Int := ranks.foldl (fun sum rank => wrapInt (sum + rank)) 0

/-- The sum of the ranks, the worst one, and the first. -/
def rankStats (limit : Nat) (rankings : List (List String)) (ref : String) : List Int :=
  let ranks := rankings.map (rankIn limit ref)
  [rankSum ranks, ranks.foldl max 0, ranks.headD 0]

/-- The sort is stable, so what the ranks leave open the first place decides. -/
def fuseEpisodeCandidateRanks (limit : Nat) (answers : List (List IndexCandidate)) :
    List String :=
  let rankings := answers.map (rankedEpisodes limit)
  ((firstPlaces rankings.flatten).insertionSort fun a b =>
    rankStats limit rankings a ≤ rankStats limit rankings b).take limit

/-! ## Members -/

theorem mem_firstPlaces {ref : String} {refs : List String} :
    ref ∈ firstPlaces refs ↔ ref ∈ refs := by
  suffices h : ∀ acc : List String,
      ref ∈ refs.foldl (fun acc ref => if acc.contains ref then acc else acc ++ [ref]) acc ↔
        ref ∈ acc ∨ ref ∈ refs by
    simpa [firstPlaces] using h []
  induction refs with
  | nil => simp
  | cons first rest ih =>
    intro acc
    rw [List.foldl_cons, ih, List.mem_cons]
    by_cases hc : acc.contains first = true
    · rw [if_pos hc]
      have hmem : first ∈ acc := by simpa using hc
      constructor
      · exact fun h => h.elim Or.inl fun h => Or.inr (Or.inr h)
      · rintro (h | rfl | h)
        · exact Or.inl h
        · exact Or.inl hmem
        · exact Or.inr h
    · rw [if_neg hc, List.mem_append, List.mem_singleton]
      exact or_assoc

@[simp] theorem mem_uniqueRefs {ref : String} {refs : List String} :
    ref ∈ uniqueRefs refs ↔ ref ∈ refs ∧ ref ≠ "" := by
  simp [uniqueRefs, mem_firstPlaces]

end ChoraMem
