/-
The feedback a window gives to Dispositions.

A Disposition is a target when a run of the window selected it through a Situation of
an Episode and a delivery of that run shows it, or when a current user Situation may
adapt it directly.  Episodes that were consumed as feedback before are left out, and
each target's anchors are read back as evidence of its own owner.

Go keeps the sets of a target in maps; here they are lists that are read as sets, and
`outcomes` pairs each attributed Outcome with its Episode.
-/
import ChoraMem.Storage.Evidence

namespace ChoraMem

open Txn

structure ActiveDisposition where
  seedRef : String
  versionNumber : Nat
  versionRef : String
  tendency : String
  owner : OwnerScope
  deriving DecidableEq, Repr

structure FeedbackTarget where
  owner : OwnerScope
  seedRef : String
  versionRef : String
  versionNumber : Nat
  tendency : String
  episodes : List String := []
  directEpisodes : List String := []
  receipts : List (String × String) := []
  outcomes : List (String × String) := []
  anchors : List String := []
  anchorEvidence : List EpisodeEvidence := []
  basisState : List String := []
  deriving DecidableEq, Repr

/-! ## Delivered memories of a run -/

/-- One row of the feedback query. -/
structure FeedbackRow where
  owner : OwnerScope
  seedRef : String
  versionRef : String
  versionNumber : Nat
  tendency : String
  receiptRef : String
  deriving DecidableEq, Repr

/-- A Situation of the Episode is the source an item was selected by. -/
def selectedBy (e : EpisodeEvidence) (item : ContextItemRow) (d : Db) : Bool :=
  d.links.any fun l => decide (l.group = e.group) && decide (l.episodeRef = e.ref) &&
    l.role == .situation && decide (l.sourceEventRef = item.querySourceRef)

/-- The active version of an item, with its Seed. -/
def itemVersions (item : ContextItemRow) (d : Db) : List (SeedVersionRow × SeedRow) :=
  (d.seedVersions.filter fun v => decide (v.tenantRef = item.tenantRef) &&
    decide (v.ref = item.memoryRef) && v.status == .active).flatMap fun v =>
      (d.seeds.filter fun s =>
        decide (s.owner.tenantRef = v.tenantRef) && decide (s.ref = v.seedRef)).map fun s => (v, s)

/-- The Dispositions that the run of an Episode was shown, with the deliveries. -/
def feedbackRows (e : EpisodeEvidence) (d : Db) : List FeedbackRow :=
  (d.contexts.filter fun c => decide (c.scope = e.scope) && decide (c.runRef = e.runRef)).flatMap
    fun c =>
      (d.contextItems.filter fun i => decide (i.tenantRef = c.scope.tenantRef) &&
        decide (i.contextRef = c.ref) && i.kind == .disposition && selectedBy e i d).flatMap fun i =>
          (d.deliveries.filter fun r => decide (r.scope.tenantRef = c.scope.tenantRef) &&
            decide (r.contextRef = c.ref) && decide (r.runRef = c.runRef) &&
            r.deliveredMemoryRefs.contains i.memoryRef).flatMap fun r =>
              (itemVersions i d).map fun vs =>
                { owner := vs.2.owner, seedRef := vs.1.seedRef, versionRef := vs.1.ref,
                  versionNumber := vs.1.number, tendency := vs.1.tendency, receiptRef := r.ref }

/-- Note that the Episode's run was shown the version. -/
def FeedbackTarget.deliver (episodeRef receiptRef : String) (t : FeedbackTarget) : FeedbackTarget :=
  { t with episodes := insertRow id episodeRef t.episodes,
           receipts := insertRow id (episodeRef, receiptRef) t.receipts }

def FeedbackRow.target (row : FeedbackRow) : FeedbackTarget :=
  { owner := row.owner, seedRef := row.seedRef, versionRef := row.versionRef,
    versionNumber := row.versionNumber, tendency := row.tendency }

/-- One version has one owner. -/
def offerRow (episodeRef : String) (targets : List FeedbackTarget) (row : FeedbackRow) :
    Except Fault (List FeedbackTarget) :=
  match targets.find? (·.versionRef == row.versionRef) with
  | none => .ok (targets ++ [row.target.deliver episodeRef row.receiptRef])
  | some t =>
    if t.owner ≠ row.owner then .error invalidWindow
    else .ok (updateRow FeedbackTarget.versionRef (t.deliver episodeRef row.receiptRef) targets)

def offerEpisode (d : Db) (targets : List FeedbackTarget) (e : EpisodeEvidence) :
    Except Fault (List FeedbackTarget) :=
  (feedbackRows e d).foldlM (offerRow e.ref) targets

/-! ## Direct requirements -/

/-- The current Episodes with a user's Situation. -/
def directEpisodes (episodes : List EpisodeEvidence) : List String :=
  (episodes.filter fun e => episodeHasSituationActor e true).map (·.ref)

def ActiveDisposition.target (disposition : ActiveDisposition) : FeedbackTarget :=
  { owner := disposition.owner, seedRef := disposition.seedRef, versionRef := disposition.versionRef,
    versionNumber := disposition.versionNumber, tendency := disposition.tendency }

/-- The window's owner; a window has an Episode. -/
def windowOwner (episodes : List EpisodeEvidence) : OwnerScope :=
  ((episodes.head?).map (·.owner)).getD .zero

/-- A Disposition of the window's owner may be adapted by the direct Episodes. -/
def offerDirect (owner : OwnerScope) (direct : List String) (targets : List FeedbackTarget)
    (disposition : ActiveDisposition) : List FeedbackTarget :=
  let target := (targets.find? (·.versionRef == disposition.versionRef)).getD disposition.target
  updateRow FeedbackTarget.versionRef
    (if target.owner = owner then { target with directEpisodes := direct } else target) targets

def offerDirects (episodes : List EpisodeEvidence) (dispositions : List ActiveDisposition)
    (targets : List FeedbackTarget) : List FeedbackTarget :=
  let direct := directEpisodes episodes
  if direct.isEmpty then targets
  else dispositions.foldl (offerDirect (windowOwner episodes) direct) targets

/-! ## The basis of a version -/

def feedbackBasisStateKey (kind role ref : String) : String :=
  kind ++ "\x00" ++ role ++ "\x00" ++ ref

/-- The rows of a version in a basis table. -/
def versionBasis (tenantRef versionRef : String) (basis : List BasisRow) : List BasisRow :=
  basis.filter fun b => decide (b.tenantRef = tenantRef) && decide (b.versionRef = versionRef)

def BasisRole.anchors : BasisRole → Bool
  | .formation | .revision => true
  | _ => false

/-- An Episode contributes feedback to a version once. -/
def BasisRole.consumes : BasisRole → Bool
  | .reenactment | .inhibition => true
  | _ => false

def basisRefs (p : BasisRole → Bool) (basis : List BasisRow) : List String :=
  (basis.filter fun b => p b.role).map (·.basisRef)

def FeedbackTarget.withBasis (episodeBasis outcomeBasis : List BasisRow) (t : FeedbackTarget) :
    FeedbackTarget :=
  let consumed := basisRefs BasisRole.consumes episodeBasis
  { t with
    episodes := t.episodes.filter fun ref => !consumed.contains ref
    receipts := t.receipts.filter fun r => !consumed.contains r.1
    anchors := basisRefs BasisRole.anchors episodeBasis
    basisState :=
      (episodeBasis.map fun b => feedbackBasisStateKey "episode" b.role.text b.basisRef) ++
        outcomeBasis.map fun b => feedbackBasisStateKey "outcome" b.role.text b.basisRef }

/-- The anchors must be Episodes of the target's owner. -/
def loadAnchors (d : Db) (t : FeedbackTarget) : Except Fault FeedbackTarget :=
  if t.anchors.isEmpty then .ok t
  else
    match loadConsolidationEpisodes (sortedKeys t.anchors) d with
    | .error _ => .error invalidWindow
    | .ok (anchors, owner) =>
      if owner ≠ t.owner then .error invalidWindow else .ok { t with anchorEvidence := anchors }

def loadBasisState (d : Db) (t : FeedbackTarget) : Except Fault FeedbackTarget :=
  loadAnchors d (t.withBasis (versionBasis t.owner.tenantRef t.versionRef d.seedBasis)
    (versionBasis t.owner.tenantRef t.versionRef d.seedOutcomeBasis))

/-! ## Outcomes -/

/-- The source of an Outcome. -/
def outcomeSource (o : OutcomeRow) (d : Db) : Option SourceRow :=
  d.sources.find? fun s => decide (s.key = (o.group.scope, o.sourceEventRef))

def OutcomeRow.feedback (o : OutcomeRow) (s : SourceRow) : FeedbackOutcome :=
  { ref := o.ref, episodeRef := o.episodeRef, text := s.event.text, actorKind := s.event.actorKind,
    actorRef := s.event.actorRef, deliveryRefs := o.deliveryReceiptRefs }

/-- An Outcome of the window: the owner's, and of one of its Episodes. -/
def loadFeedbackOutcome (episodes : List EpisodeEvidence) (d : Db) (ref : String) :
    Except Fault FeedbackOutcome :=
  match d.outcomes.find? fun o => decide (o.ref = ref) with
  | none => .error invalidWindow
  | some o =>
    match outcomeSource o d with
    | none => .error invalidWindow
    | some s =>
      if o.group.scope.owner ≠ windowOwner episodes ||
          !episodes.any (·.ref == o.episodeRef) then .error invalidWindow
      else .ok (o.feedback s)

/-- A delivery the Outcome names showed the version to the Outcome's Episode. -/
def FeedbackTarget.attributes (t : FeedbackTarget) (o : FeedbackOutcome) : Bool :=
  o.actorKind != .agent &&
    o.deliveryRefs.any fun ref => t.receipts.contains (o.episodeRef, ref)

def FeedbackTarget.attribute (outcomes : List FeedbackOutcome) (t : FeedbackTarget) :
    FeedbackTarget :=
  { t with outcomes := (outcomes.filter t.attributes).map fun o => (o.ref, o.episodeRef) }

def loadFeedbackState (episodes : List EpisodeEvidence) (outcomeRefs : List String)
    (dispositions : List ActiveDisposition) (d : Db) :
    Except Fault (List FeedbackTarget × List FeedbackOutcome) := do
  let offered ← episodes.foldlM (offerEpisode d) []
  let targets ← (offerDirects episodes dispositions offered).mapM (loadBasisState d)
  let outcomes ← outcomeRefs.mapM (loadFeedbackOutcome episodes d)
  return (targets.map (FeedbackTarget.attribute outcomes), outcomes)

/-! ## The digest of a state -/

def FeedbackTarget.outcomeRefs (t : FeedbackTarget) : List String := t.outcomes.map (·.1)

/-- The Episode of an attributed Outcome. -/
def FeedbackTarget.outcomeEpisode (t : FeedbackTarget) (ref : String) : String :=
  ((t.outcomes.find? (·.1 == ref)).map (·.2)).getD ""

def targetRefs (targets : List FeedbackTarget) : List String := sortedKeys (targets.map (·.versionRef))

def targetByRef (targets : List FeedbackTarget) (ref : String) : Option FeedbackTarget :=
  targets.find? (·.versionRef == ref)

/-- The targets of a map, by key. -/
def sortedTargets (targets : List FeedbackTarget) : List FeedbackTarget :=
  (targetRefs targets).filterMap (targetByRef targets)

def FeedbackTarget.hashFields (t : FeedbackTarget) : List String :=
  [t.owner.kind.text, t.owner.tenantRef, t.owner.agentRef, t.owner.relationshipRef, t.seedRef,
    t.versionRef, toString t.versionNumber, t.tendency] ++
  sortedKeys t.episodes ++ ["direct-episodes"] ++ sortedKeys t.directEpisodes ++ ["outcomes"] ++
  ((sortedKeys t.outcomeRefs).flatMap fun ref => [ref, t.outcomeEpisode ref]) ++ ["anchors"] ++
  sortedKeys t.anchors ++ ["basis-state"] ++ sortedKeys t.basisState ++
  (sortedKeys (t.receipts.map (·.1))).flatMap fun episodeRef =>
    ["receipts", episodeRef] ++
      sortedKeys ((t.receipts.filter (·.1 == episodeRef)).map (·.2))

def Store.hashFeedbackState (store : Store) (targets : List FeedbackTarget) : String :=
  store.hashFields ("feedback-state.v1" :: (sortedTargets targets).flatMap FeedbackTarget.hashFields)

end ChoraMem
