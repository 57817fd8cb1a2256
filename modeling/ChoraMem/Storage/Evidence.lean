/-
Episodes as evidence.

An Episode is loaded with the sources linked to it.  Each of these functions is a
query on the rows a transaction sees, as one value of them: the source runs a few
`SELECT`s and nothing is written between them.  The eligibility rules say which
Episodes and Outcomes may found a tendency; they read loaded evidence only.
-/
import Mathlib.Data.List.Nodup
import ChoraMem.Storage.IndexCandidates
import ChoraMem.Core.WindowEvidence

namespace ChoraMem

open Txn

/-! ## Values -/

structure SourceEvidence where
  ref : String
  role : SourceRole
  actorKind : ActorKind
  actorRef : String
  text : String
  constitution : Constitution
  admissionOrder : Nat
  deriving DecidableEq, Repr

structure EpisodeEvidence where
  ref : String
  sessionRef : String
  runRef : String
  groupRef : String
  owner : OwnerScope
  sources : List SourceEvidence
  deriving DecidableEq, Repr

structure FeedbackOutcome where
  ref : String
  episodeRef : String
  text : String
  actorKind : ActorKind
  actorRef : String
  deliveryRefs : List String
  deriving DecidableEq, Repr

/-- The exact scope of an Episode. -/
def EpisodeEvidence.scope (e : EpisodeEvidence) : Scope :=
  { kind := e.owner.kind, tenantRef := e.owner.tenantRef, agentRef := e.owner.agentRef,
    relationshipRef := e.owner.relationshipRef, sessionRef := e.sessionRef }

def EpisodeEvidence.group (e : EpisodeEvidence) : StableGroupRef := ⟨e.scope, e.runRef, e.groupRef⟩

def invalidWindow : Fault := ⟨.invalidWindow, "", ""⟩

/-- The storage's own check of a list of refs, the same as the ledger's. -/
abbrev uniqueStableRefs (refs : List String) : Bool := uniqueFeedbackRefs refs

/-! ## Rules on one Episode -/

/-- A Situation that is not the agent's own, or the user's when `userOnly`. -/
def episodeHasSituationActor (episode : EpisodeEvidence) (userOnly : Bool) : Bool :=
  episode.sources.any fun s =>
    s.role == .situation && s.actorKind != .agent && !s.actorKind.isEmpty &&
      (!userOnly || s.actorKind == .user)

/-- An act of the owner's own agent. -/
def ownAct (episode : EpisodeEvidence) (s : SourceEvidence) : Bool :=
  s.role == .agentAct && s.actorKind == .agent && s.actorRef == episode.owner.agentRef

/-- A Situation and an act of the owner's agent with different sources. -/
def episodeHasFormationRoles (episode : EpisodeEvidence) : Bool :=
  episode.sources.any fun situation => situation.role == .situation &&
    episode.sources.any fun act => ownAct episode act && situation.ref != act.ref

/-! ## Loading -/

/-- `ORDER BY link.role, link.source_event_ref`. -/
def linkOrder (a b : LinkRow) : Prop :=
  a.role.text < b.role.text ∨ (a.role.text = b.role.text ∧ a.sourceEventRef ≤ b.sourceEventRef)

instance : DecidableRel linkOrder := fun a b => by unfold linkOrder; infer_instance

/-- A link joined to its source. -/
def linkedSource (d : Db) (l : LinkRow) : Option SourceEvidence :=
  (d.sources.find? fun s => decide (s.key = (l.group.scope, l.sourceEventRef))).map fun s =>
    { ref := l.sourceEventRef, role := l.role, actorKind := s.event.actorKind,
      actorRef := s.event.actorRef, text := s.event.text, constitution := s.event.constitution,
      admissionOrder := s.admissionOrder }

def episodeSources (e : EpisodeRow) (d : Db) : List SourceEvidence :=
  ((d.links.filter fun l => decide (l.group = e.group) && decide (l.episodeRef = e.ref)).insertionSort
    linkOrder).filterMap (linkedSource d)

def episodeEvidence (e : EpisodeRow) (d : Db) : EpisodeEvidence :=
  { ref := e.ref, sessionRef := e.group.scope.sessionRef, runRef := e.group.runRef,
    groupRef := e.group.sourceGroupRef, owner := e.group.scope.owner, sources := episodeSources e d }

/-- The complete Episode of a ref. -/
def loadEpisode (ref : String) (d : Db) : Option EpisodeEvidence :=
  match d.episodes.find? fun e => decide (e.ref = ref) with
  | none => none
  | some e =>
    if ref == "" || !episodeHasFormationRoles (episodeEvidence e d) then none
    else some (episodeEvidence e d)

/-- Go's zero owner. -/
def OwnerScope.zero : OwnerScope :=
  { kind := .other "" (by decide), tenantRef := "", agentRef := "", relationshipRef := "" }

/-- The Episodes of the refs, which must have one owner. -/
def loadConsolidationEpisodes (refs : List String) (d : Db) :
    Except Fault (List EpisodeEvidence × OwnerScope) :=
  match refs.mapM fun ref => loadEpisode ref d with
  | none => .error invalidWindow
  | some [] => .ok ([], .zero)
  | some (first :: rest) =>
    if rest.all fun e => decide (e.owner = first.owner) then .ok (first :: rest, first.owner)
    else .error invalidWindow

/-- An indexed ref adds its Episode when the Episode is complete, the owner's, and
not there yet. -/
def addIndexedEpisode (owner : OwnerScope) (current : List EpisodeEvidence) (d : Db)
    (result : List EpisodeEvidence) (ref : String) : List EpisodeEvidence :=
  if (current ++ result).any (·.ref == ref) then result
  else
    match loadEpisode ref d with
    | none => result
    | some e => if e.owner = owner then result ++ [e] else result

def loadIndexedConsolidationEpisodes (owner : OwnerScope) (refs : List String)
    (current : List EpisodeEvidence) (d : Db) : List EpisodeEvidence :=
  refs.foldl (addIndexedEpisode owner current d) []

/-- The Episodes of an owner among the refs. -/
def ownedEpisodeRefs (owner : OwnerScope) (episodeRefs : List String) (d : Db) : List String :=
  (d.episodes.filter fun e =>
    decide (e.group.scope.owner = owner) && episodeRefs.contains e.ref).map (·.ref)

/-- The versions with a basis among these Episodes of the tenant. -/
def linkedVersions (tenantRef : String) (episodeRefs : List String) (basis : List BasisRow) :
    List String :=
  sortedKeys ((basis.filter fun b =>
    decide (b.tenantRef = tenantRef) && episodeRefs.contains b.basisRef).map (·.versionRef))

/-- `loadEpisodeLinkedMemoryRefs`: the Recollection and the Disposition versions. -/
def loadEpisodeLinkedMemoryRefs (owner : OwnerScope) (episodeRefs : List String) (d : Db) :
    List String × List String :=
  let owned := ownedEpisodeRefs owner episodeRefs d
  (linkedVersions owner.tenantRef owned d.recollectionBasis,
    linkedVersions owner.tenantRef owned d.seedBasis)

/-! ## Formation rules -/

/-- A Go map from refs to Episodes, filled in this order. -/
def episodeByRef (episodes : List EpisodeEvidence) (ref : String) : Option EpisodeEvidence :=
  episodes.reverse.find? (·.ref == ref)

def scopedSources (episode : EpisodeEvidence) : List String :=
  episode.sources.map fun s => episode.sessionRef ++ "\x00" ++ s.ref

def supportsFormation (episode : EpisodeEvidence) : Bool :=
  episodeHasFormationRoles episode && episodeHasSituationActor episode false

/-- At least two Episodes of at least two sessions that share no source. -/
def eligibleFormationBasis (refs : List String) (byRef : String → Option EpisodeEvidence) :
    Option (List String) :=
  if refs.length < 2 || !uniqueStableRefs refs then none
  else
    match (sortRefs refs).mapM byRef with
    | none => none
    | some episodes =>
      if !episodes.all supportsFormation || !decide (episodes.flatMap scopedSources).Nodup ||
          (episodes.map (·.sessionRef)).dedup.length < 2 then none
      else some (sortRefs refs)

def outcomeByRef (outcomes : List FeedbackOutcome) (ref : String) : Option FeedbackOutcome :=
  outcomes.find? (·.ref == ref)

/-- An Outcome of someone other than the agent. -/
def FeedbackOutcome.external (o : FeedbackOutcome) : Bool :=
  !o.actorKind.isEmpty && o.actorKind != .agent

/-- The Outcome belongs to a cited Episode that supports a formation. -/
def FeedbackOutcome.cited (byRef : String → Option EpisodeEvidence) (episodes : List String)
    (o : FeedbackOutcome) : Bool :=
  episodes.contains o.episodeRef && (byRef o.episodeRef).any supportsFormation

/-- The Episodes and the Outcomes of an inferred formation. -/
def eligibleDispositionFormationBasis (refs : List String)
    (byRef : String → Option EpisodeEvidence) (outcomes : List FeedbackOutcome) :
    Option (List String × List String) :=
  let outcomeRefs := refs.filter fun ref => (byRef ref).isNone
  if !uniqueStableRefs refs ||
      !outcomeRefs.all (fun ref => (outcomeByRef outcomes ref).any FeedbackOutcome.external) then none
  else
    match eligibleFormationBasis (refs.filter fun ref => (byRef ref).isSome) byRef with
    | none => none
    | some episodes =>
      if !outcomeRefs.all fun ref =>
          (outcomeByRef outcomes ref).any (FeedbackOutcome.cited byRef episodes) then none
      else some (episodes, sortRefs outcomeRefs)

def eligibleRecollectionBasis (refs : List String) (byRef : String → Option EpisodeEvidence) :
    Option (List String) :=
  if refs.isEmpty || !uniqueStableRefs refs || !refs.all fun ref => (byRef ref).isSome then none
  else some (sortRefs refs)

/-- One Episode with a user's Situation, of the current ones when they are given. -/
def eligibleAdaptationBasis (refs : List String) (byRef : String → Option EpisodeEvidence)
    (current : Option (List String)) : Option (List String) :=
  if refs.length != 1 then none
  else
    match eligibleRecollectionBasis refs byRef with
    | none => none
    | some basis =>
      if basis.any fun ref => current.all (·.contains ref) &&
          (byRef ref).any fun e => episodeHasSituationActor e true then some basis
      else none

/-- Some current Episode makes an eligible pair. -/
def hasFormationEvidence (current related : List EpisodeEvidence) : Bool :=
  current.any fun e => (current ++ related).any fun other =>
    (eligibleFormationBasis [e.ref, other.ref] (episodeByRef (current ++ related))).isSome

end ChoraMem
