/-
The window a consolidation worker sees.

A window names its Episodes and Outcomes.  The worker gets a rendered text, the refs
it may target and cite, and the same evidence in typed form.  Evidence carries no
write authority: what an answer may do is checked again when it is committed.
-/
import Mathlib.Algebra.Order.Ring.Nat
import ChoraMem.Core.Parser

namespace ChoraMem

/-! ## Values -/

structure Window where
  jobRef : String
  episodeRefs : List String
  outcomeEventRefs : List String
  deriving DecidableEq, Repr

/-- The effects committed for a frozen job. -/
structure Receipt where
  recollectionVersionRefs : List String := []
  dispositionVersionRefs : List String := []
  deriving DecidableEq, Repr

inductive EvidenceOrigin
  | unset
  | current
  | related
  | revisionAnchor
  deriving DecidableEq, Repr

def EvidenceOrigin.text : EvidenceOrigin → String
  | unset => ""
  | current => "current"
  | related => "related"
  | revisionAnchor => "revision_anchor"

inductive FormationRole
  | anchor
  | candidate
  deriving DecidableEq, Repr

def FormationRole.text : FormationRole → String
  | anchor => "anchor"
  | candidate => "candidate"

structure EvidenceSource where
  sourceRef : String
  role : SourceRole
  actorKind : ActorKind
  actorRef : String
  text : String
  deriving DecidableEq, Repr

/-- An Episode without a role is not part of a focused formation. -/
structure EvidenceEpisode where
  episodeRef : String
  sessionRef : String
  origin : EvidenceOrigin
  formationRole : Option FormationRole
  sources : List EvidenceSource
  deriving DecidableEq, Repr

structure EvidenceOutcome where
  outcomeRef : String
  episodeRef : String
  actorKind : ActorKind
  actorRef : String
  text : String
  deriving DecidableEq, Repr

structure EvidenceRecollection where
  versionRef : String
  application : String
  text : String
  deriving DecidableEq, Repr

structure WindowEvidence where
  episodes : List EvidenceEpisode
  outcomes : List EvidenceOutcome
  recollections : List EvidenceRecollection
  deriving DecidableEq, Repr

structure WorkerRequest where
  jobRef : String
  windowText : String
  allowedTargetRefs : List String
  allowedBasisRefs : List String
  evidence : WindowEvidence
  deriving DecidableEq, Repr

/-! ## Assembling -/

/-- Give the Episodes an origin and append those that are not there yet. -/
def appendEvidence (origin : EvidenceOrigin) (episodes : List EvidenceEpisode)
    (seen : List EvidenceEpisode) : List EvidenceEpisode :=
  episodes.foldl
    (fun acc episode =>
      if acc.any (·.episodeRef == episode.episodeRef) then acc
      else acc ++ [{ episode with origin := origin }])
    seen

/-- Current before related before revision anchors, each Episode once. -/
def assembleWindowEvidence (current related revisionAnchors : List EvidenceEpisode)
    (outcomes : List EvidenceOutcome) : WindowEvidence :=
  { episodes := appendEvidence .revisionAnchor revisionAnchors
      (appendEvidence .related related (appendEvidence .current current [])),
    outcomes := outcomes, recollections := [] }

/-! ## Focused formation -/

/-- Exactly one Episode is the anchor of a focused formation. -/
def hasDispositionFormationAnchor (evidence : WindowEvidence) : Bool :=
  (evidence.episodes.filter (·.formationRole == some .anchor)).length == 1

/-- The anchor and the candidates found so far. -/
structure FormationScan where
  anchor : Option EvidenceEpisode := none
  candidates : List EvidenceEpisode := []
  seenEpisodes : List String := []
  seenSessions : List String := []

def scanFormationEpisode (scan : FormationScan) (episode : EvidenceEpisode) :
    Option FormationScan :=
  match episode.formationRole with
  | none => some scan
  | some role =>
    if trimSpace episode.episodeRef == "" || trimSpace episode.sessionRef == "" then none
    else if scan.seenEpisodes.contains episode.episodeRef ||
        scan.seenSessions.contains episode.sessionRef then none
    else
      let seen := { scan with seenEpisodes := scan.seenEpisodes ++ [episode.episodeRef],
                              seenSessions := scan.seenSessions ++ [episode.sessionRef] }
      match role with
      | .anchor =>
        if scan.anchor.isSome || episode.origin != .current then none
        else some { seen with anchor := some episode }
      | .candidate =>
        if episode.origin != .current && episode.origin != .related then none
        else some { seen with candidates := scan.candidates ++ [episode] }

/-- Collect the one non-agent Outcome of each Episode. -/
def scanFormationOutcome (episodeRefs : List String) (outcomes : List EvidenceOutcome)
    (outcome : EvidenceOutcome) : Option (List EvidenceOutcome) :=
  if !episodeRefs.contains outcome.episodeRef || outcome.actorKind == .agent then some outcomes
  else if trimSpace outcome.outcomeRef == "" || trimSpace outcome.actorKind.text == "" ||
      trimSpace outcome.text == "" then none
  else if outcomes.any fun o =>
      o.episodeRef == outcome.episodeRef || o.outcomeRef == outcome.outcomeRef then none
  else some (outcomes ++ [outcome])

def pairedRefs (outcomes : List EvidenceOutcome) (episode : EvidenceEpisode) :
    Option (List String) :=
  (outcomes.find? (·.episodeRef == episode.episodeRef)).map fun o => [episode.episodeRef, o.outcomeRef]

/-- The refs of the focused formation: the anchor's pair, then each candidate's. -/
def dispositionFormationBasis (evidence : WindowEvidence) : Option (List String) := do
  let scan ← evidence.episodes.foldlM scanFormationEpisode {}
  let anchor ← scan.anchor
  if scan.candidates.isEmpty then none
  else do
    let outcomes ← evidence.outcomes.foldlM (scanFormationOutcome scan.seenEpisodes) []
    let pairs ← (anchor :: scan.candidates).mapM (pairedRefs outcomes)
    return pairs.flatten

/-! ## The request -/

/-- Below gRPC's default message ceiling. -/
def maxWorkerRequestBytes : Nat := 3 * 1024 * 1024

def textSize (fields : List String) : Nat := (fields.map (·.utf8ByteSize)).sum

def WindowEvidence.size (evidence : WindowEvidence) : Nat :=
  (evidence.episodes.map fun e =>
    textSize [e.episodeRef, e.sessionRef, e.origin.text] +
      (e.sources.map fun s =>
        textSize [s.sourceRef, s.role.text, s.actorKind.text, s.actorRef, s.text]).sum).sum +
  (evidence.outcomes.map fun o =>
    textSize [o.outcomeRef, o.episodeRef, o.actorKind.text, o.actorRef, o.text]).sum +
  (evidence.recollections.map fun r => textSize [r.versionRef, r.application, r.text]).sum

def fitsWorkerRequestLimit (request : WorkerRequest) : Bool :=
  textSize [request.jobRef, request.windowText] + textSize request.allowedTargetRefs +
    textSize request.allowedBasisRefs + request.evidence.size ≤ maxWorkerRequestBytes

/-- The fields of the evidence in the request's digest. -/
def appendWorkerEvidenceHashFields (fields : List String) (evidence : WindowEvidence) :
    List String :=
  fields ++ ["evidence-present", "episodes", toString evidence.episodes.length] ++
    (evidence.episodes.flatMap fun e =>
      ["episode", e.episodeRef, e.sessionRef, e.origin.text,
        (e.formationRole.map FormationRole.text).getD "", "sources", toString e.sources.length] ++
      e.sources.flatMap fun s =>
        ["source", s.sourceRef, s.role.text, s.actorKind.text, s.actorRef, s.text]) ++
    ["outcomes", toString evidence.outcomes.length] ++
    (evidence.outcomes.flatMap fun o =>
      ["outcome", o.outcomeRef, o.episodeRef, o.actorKind.text, o.actorRef, o.text]) ++
    ["recollections", toString evidence.recollections.length] ++
    evidence.recollections.flatMap fun r => ["recollection", r.versionRef, r.application, r.text]

/-! ## The constitution -/

/-- Every line after the first gets the prefix too, so the text cannot make a marker. -/
def quoteLines (text : String) : String :=
  "> " ++ String.ofList (text.toList.flatMap fun c => if c = '\n' then ['\n', '>', ' '] else [c])

def renderConstitution (c : Constitution) : String :=
  if c = {} then "CONSTITUTION\nUNKNOWN\n\n"
  else
    "CONSTITUTION\nMEMORY_REF " ++ c.memoryRef ++ "\n" ++ quoteLines c.text ++
      "\nEND_CONSTITUTION\n\n"

/-- The baseline's ref is also offered as a target or a basis. -/
def constitutionRefCollision (c : Constitution) (request : WorkerRequest) : Bool :=
  c.memoryRef != "" &&
    (request.allowedTargetRefs.contains c.memoryRef || request.allowedBasisRefs.contains c.memoryRef)

end ChoraMem
