/-
The request of the consolidation worker.

The request says in text and in typed form what the window holds, and lists the refs
an answer may target and cite.  The lists are a function of the loaded state, so the
commit builds the request again and compares the digests.
-/
import ChoraMem.Storage.FormationPairs

namespace ChoraMem

open Txn

def dispositionApplication (owner : OwnerScope) : Application :=
  if owner.kind = .agent then .self else .relation

/-- What a window was loaded to, in one transaction. -/
structure WindowState where
  episodes : List EpisodeEvidence
  related : List EpisodeEvidence
  outcomes : List FeedbackOutcome
  targets : List FeedbackTarget
  dispositions : List ActiveDisposition
  recollections : List ActiveRecollection
  pairs : List DispositionFormationPair
  deriving DecidableEq, Repr

/-! ## Evidence -/

/-- Situations and acts; the other links stay behind. -/
def causalSources (episode : EpisodeEvidence) : List SourceEvidence :=
  episode.sources.filter fun s => s.role == .situation || s.role == .agentAct

def workerEvidenceEpisode (episode : EpisodeEvidence) : EvidenceEpisode :=
  { episodeRef := episode.ref, sessionRef := episode.sessionRef, origin := .unset,
    formationRole := none,
    sources := (causalSources episode).map fun s =>
      { sourceRef := s.ref, role := s.role, actorKind := s.actorKind, actorRef := s.actorRef,
        text := s.text } }

def workerEvidenceOutcome (o : FeedbackOutcome) : EvidenceOutcome :=
  { outcomeRef := o.ref, episodeRef := o.episodeRef, actorKind := o.actorKind,
    actorRef := o.actorRef, text := o.text }

def workerEvidenceRecollection (r : ActiveRecollection) : EvidenceRecollection :=
  { versionRef := r.versionRef, application := r.application, text := r.text }

/-- Only current Situation admissions choose the baseline, and the last of them
does. -/
def currentConstitution (episodes : List EpisodeEvidence) : Constitution :=
  ((situationSources episodes).foldl
    (fun (latest : Nat × Constitution) s =>
      if latest.1 < s.admissionOrder then (s.admissionOrder, s.constitution) else latest)
    (0, {})).2

namespace WindowState

variable (w : WindowState)

def canForm : Bool := hasFormationEvidence w.episodes w.related

/-- The Outcomes of Episodes that can support a formation, and those of the focused
one. -/
def eligibleFormationOutcomes : List String :=
  if !hasFormationEvidence w.episodes w.related then []
  else (w.outcomes.filter fun o => o.external &&
    (episodeByRef (w.episodes ++ w.related) o.episodeRef).any supportsFormation).map (·.ref)

def formationOutcomes : List String :=
  sortedKeys (w.eligibleFormationOutcomes ++ w.pairs.map (·.outcome.ref))

def eligibleOutcomes : List String :=
  sortedKeys (w.formationOutcomes ++ w.targets.flatMap FeedbackTarget.outcomeRefs)

/-! ## What may be targeted and cited -/

def allowedTargetRefs : List String :=
  (if w.episodes.isEmpty then [] else [targetNewRecollection]) ++
    (if w.canForm || !(directEpisodes w.episodes).isEmpty then [targetNewDisposition] else []) ++
    w.recollections.map (·.versionRef) ++ targetRefs w.targets

end WindowState

/-- A target that only a direct requirement reaches offers none of its history. -/
def FeedbackTarget.offeredAnchors (t : FeedbackTarget) : List String :=
  if t.episodes.isEmpty then [] else sortedKeys t.anchors

def FeedbackTarget.offeredBasis (t : FeedbackTarget) : List String :=
  sortedKeys t.episodes ++ sortedKeys t.outcomeRefs ++ t.offeredAnchors

namespace WindowState

variable (w : WindowState)

def allowedBasisRefs : List String :=
  firstPlaces (w.episodes.map (·.ref) ++ w.related.map (·.ref) ++ w.formationOutcomes ++
    (sortedTargets w.targets).flatMap FeedbackTarget.offeredBasis)

/-- The anchors of the targets with feedback. -/
def anchors : List EpisodeEvidence :=
  let offered := (sortedTargets w.targets).flatMap fun t =>
    t.offeredAnchors.filterMap (episodeByRef t.anchorEvidence)
  (sortedKeys (offered.map (·.ref))).filterMap (episodeByRef offered)

def evidence : WindowEvidence :=
  let evidence := assembleWindowEvidence (w.episodes.map workerEvidenceEpisode)
    (w.related.map workerEvidenceEpisode) (w.anchors.map workerEvidenceEpisode)
    ((w.eligibleOutcomes.filterMap (outcomeByRef w.outcomes)).map workerEvidenceOutcome)
  { markDispositionFormationRoles evidence w.pairs with
    recollections := w.recollections.map workerEvidenceRecollection }

end WindowState

/-! ## The text

Every piece below ends a line; a text it holds may have lines of its own. -/

/-- `strings.ToUpper` on the words of a role or an application. -/
def upperText (s : String) : String := String.ofList (s.toList.map Char.toUpper)

def renderSource (s : SourceEvidence) : List String :=
  [upperText s.role.text, "ACTOR " ++ s.actorKind.text ++ " " ++ s.actorRef, "SOURCE " ++ s.ref,
    s.text]

def renderEpisode (label : String) (e : EpisodeEvidence) : List String :=
  [label ++ " " ++ e.ref, "SESSION " ++ e.sessionRef] ++ (causalSources e).flatMap renderSource

/-- The Episodes, with an empty line between two. -/
def renderEpisodes (label : String) (episodes : List EpisodeEvidence) : List String :=
  ((episodes.map (renderEpisode label)).intersperse [""]).flatten

def renderHint (disposition : ActiveDisposition) : List String :=
  ["ACTIVE_DISPOSITION_HINT " ++ disposition.versionRef,
    "APPLICATION " ++ (dispositionApplication disposition.owner).text,
    "TEXT " ++ disposition.tendency]

/-- `renderConsolidationWindow` with the sources that feedback shows. -/
def renderFeedbackEpisodes (episodes : List EpisodeEvidence) (hints : List ActiveDisposition) :
    List String :=
  renderEpisodes "EPISODE" episodes ++
    if hints.isEmpty then [] else ["", "ACTIVE_DISPOSITION_HINTS"] ++ hints.flatMap renderHint

def renderRelatedEpisodes (episodes : List EpisodeEvidence) : List String :=
  renderEpisodes "RELATED_EPISODE" episodes

def renderDirect (episodeRefs : List String) : List String :=
  (sortedKeys episodeRefs).map ("DIRECT_EPISODE " ++ ·)

def renderRecollection (r : ActiveRecollection) : List String :=
  ["", "ELIGIBLE_RECOLLECTION " ++ r.versionRef, "APPLICATION " ++ upperText r.application,
    "TEXT " ++ r.text]

def renderOutcome (o : FeedbackOutcome) : List String :=
  ["", "OUTCOME " ++ o.ref, "OUTCOME_EPISODE " ++ o.episodeRef,
    "ACTOR " ++ o.actorKind.text ++ " " ++ o.actorRef, o.text]

/-- The head of a target, under the marker of what may be done with it. -/
def FeedbackTarget.heading (marker : String) (t : FeedbackTarget) : List String :=
  ["", marker ++ " " ++ t.versionRef, "APPLICATION " ++ (dispositionApplication t.owner).text,
    "TEXT " ++ t.tendency]

def renderTarget (t : FeedbackTarget) : List String :=
  (if t.directEpisodes.isEmpty then []
    else t.heading "ELIGIBLE_ADAPTATION" ++ renderDirect t.directEpisodes) ++
  (if t.episodes.isEmpty then [] else t.heading "ELIGIBLE_DISPOSITION") ++
  (sortedKeys t.episodes).map ("FEEDBACK_EPISODE " ++ ·) ++
  ((sortedKeys t.outcomeRefs).flatMap fun ref =>
    ["FEEDBACK_OUTCOME " ++ ref, "OUTCOME_EPISODE " ++ t.outcomeEpisode ref]) ++
  t.offeredAnchors.map ("REVISION_ANCHOR " ++ ·)

namespace WindowState

variable (w : WindowState)

/-- The Dispositions that are no targets. -/
def hints : List ActiveDisposition :=
  w.dispositions.filter fun a => (targetByRef w.targets a.versionRef).isNone

/-- The lines of the text after the constitution. -/
def windowLines : List String :=
  let application := "APPLICATION " ++ (dispositionApplication (windowOwner w.episodes)).text
  renderFeedbackEpisodes w.episodes w.hints ++
  (if w.related.isEmpty then [] else ["", "RELATED_EPISODES"] ++ renderRelatedEpisodes w.related) ++
  (if w.episodes.isEmpty then []
    else ["", "ELIGIBLE_NEW_RECOLLECTION NEW_RECOLLECTION",
      "APPLICATIONS SELF OTHER RELATION SITUATION"]) ++
  (if w.canForm then ["", "ELIGIBLE_NEW_DISPOSITION NEW_DISPOSITION", application] else []) ++
  (if (directEpisodes w.episodes).isEmpty then []
    else ["", "ELIGIBLE_NEW_ADAPTATION NEW_DISPOSITION", application] ++
      renderDirect (directEpisodes w.episodes)) ++
  w.recollections.flatMap renderRecollection ++
  (w.eligibleOutcomes.filterMap (outcomeByRef w.outcomes)).flatMap renderOutcome ++
  (sortedTargets w.targets).flatMap renderTarget ++
  (if w.anchors.isEmpty then []
    else ["", "REVISION_ANCHOR_EVIDENCE"] ++ renderFeedbackEpisodes w.anchors [])

def windowText : String :=
  renderConstitution (currentConstitution w.episodes) ++ joinLines w.windowLines

/-- `consolidationWorkerRequest`. -/
def workerRequest (jobRef : String) : WorkerRequest :=
  { jobRef := jobRef, windowText := w.windowText, allowedTargetRefs := w.allowedTargetRefs,
    allowedBasisRefs := w.allowedBasisRefs, evidence := w.evidence }

end WindowState

def Store.hashConsolidationWorkerRequest (store : Store) (request : WorkerRequest) : String :=
  store.hashFields (appendWorkerEvidenceHashFields
    (["consolidation-worker-request.v1", request.jobRef, request.windowText, "targets"] ++
      request.allowedTargetRefs ++ ["basis"] ++ request.allowedBasisRefs) request.evidence)

end ChoraMem
