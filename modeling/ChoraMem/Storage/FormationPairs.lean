/-
Focused formation of an inferred Disposition.

The last current Episode with exactly one external Outcome is the anchor.  Indexed
Episodes of other sessions with exactly one external Outcome of their own are its
candidates, at most two.  The index orders them; the store decides what they are.
-/
import ChoraMem.Storage.ActiveMemory

namespace ChoraMem

open Txn

def maxConsolidationIndexCandidates : Nat := 64

def maxDispositionFormationHistory : Nat := 2

structure DispositionFormationPair where
  episode : EpisodeEvidence
  outcome : FeedbackOutcome
  role : FormationRole
  deriving DecidableEq, Repr

/-! ## The anchor -/

/-- An external Outcome with a text. -/
def FeedbackOutcome.founding (o : FeedbackOutcome) : Bool := o.external && trimSpace o.text != ""

/-- The element of a list that has just one. -/
def onlyElement {α : Type} : List α → Option α
  | [a] => some a
  | _ => none

def uniqueNonAgentOutcomeFromMap (episodeRef : String) (outcomes : List FeedbackOutcome) :
    Option FeedbackOutcome :=
  onlyElement (outcomes.filter fun o => o.episodeRef == episodeRef && o.founding)

def anchorPair (outcomes : List FeedbackOutcome) (episode : EpisodeEvidence) :
    Option DispositionFormationPair :=
  match uniqueNonAgentOutcomeFromMap episode.ref outcomes with
  | none => none
  | some outcome =>
    if episode.sessionRef == "" || !supportsFormation episode then none
    else some { episode := episode, outcome := outcome, role := .anchor }

/-- The last Episode that pairs. -/
def currentDispositionFormationAnchor (episodes : List EpisodeEvidence)
    (outcomes : List FeedbackOutcome) : Option DispositionFormationPair :=
  episodes.reverse.findSome? (anchorPair outcomes)

/-! ## The search -/

def joinLines (lines : List String) : String := String.join (lines.map (· ++ "\n"))

/-- The texts of the Episode's own Situations and acts. -/
def DispositionFormationPair.conditions (pair : DispositionFormationPair) : List String :=
  ((pair.episode.sources.filter fun s => s.role == .situation && s.actorKind != .agent).map
    (·.text)).filter fun text => trimSpace text != ""

def DispositionFormationPair.responses (pair : DispositionFormationPair) : List String :=
  ((pair.episode.sources.filter (ownAct pair.episode)).map (·.text)).filter fun text =>
    trimSpace text != ""

def dispositionFormationQuery (pair : DispositionFormationPair) : String :=
  "USER_CONDITION\n" ++ joinLines pair.conditions ++ "AGENT_RESPONSE\n" ++ joinLines pair.responses ++
    "USER_OUTCOME\n" ++ pair.outcome.text

def dispositionFormationConditionQuery (pair : DispositionFormationPair) : String :=
  String.intercalate "\n" (pair.conditions.map trimSpace)

/-- The rankings of the causal view and of the condition alone. -/
def formationRankings (index : MemoryIndex) (scope : IndexScope) (pair : DispositionFormationPair)
    (causal : List IndexCandidate) : List (List IndexCandidate) :=
  let condition := dispositionFormationConditionQuery pair
  if condition == "" then [causal]
  else
    match index { scope := scope, text := condition, limit := maxConsolidationIndexCandidates } with
    | none => [causal]
    | some answers => [causal, answers]

/-- The fused refs; `none` leaves the window without a focused formation. -/
def searchDispositionFormationEpisodes (index : Option MemoryIndex) (owner : OwnerScope)
    (episodes : List EpisodeEvidence) (outcomes : List FeedbackOutcome) : Option (List String) := do
  let index ← index
  let anchor ← currentDispositionFormationAnchor episodes outcomes
  let causal ← index { scope := owner.index, text := dispositionFormationQuery anchor,
                       limit := maxConsolidationIndexCandidates }
  let refs := fuseEpisodeCandidateRanks maxConsolidationIndexCandidates
    (formationRankings index owner.index anchor causal)
  if refs.isEmpty then none else some refs

/-! ## The pairs -/

/-- The one founding Outcome of an Episode in the store. -/
def loadUniqueNonAgentFormationOutcome (owner : OwnerScope) (episodeRef : String) (d : Db) :
    Option FeedbackOutcome :=
  onlyElement (((d.outcomes.filter fun o =>
    decide (o.group.scope.owner = owner) && decide (o.episodeRef = episodeRef)).filterMap fun o =>
      (outcomeSource o d).map fun s => { o.feedback s with deliveryRefs := [] }).filter
        FeedbackOutcome.founding)

/-- An indexed Episode: a current one, or one the store has for the owner. -/
def formationCandidate (owner : OwnerScope) (current : List EpisodeEvidence) (d : Db)
    (ref : String) : Option EpisodeEvidence :=
  match episodeByRef current ref with
  | some e => some e
  | none =>
    match loadEpisode ref d with
    | none => none
    | some e => if e.owner = owner then some e else none

/-- The pairs so far, and the Episodes among them that are not current. -/
structure FormationPairs where
  pairs : List DispositionFormationPair
  related : List EpisodeEvidence

def addFormationCandidate (owner : OwnerScope) (current : List EpisodeEvidence) (d : Db)
    (found : FormationPairs) (ref : String) : FormationPairs :=
  if maxDispositionFormationHistory < found.pairs.length ||
      found.pairs.any (·.episode.ref == ref) then found
  else
    match formationCandidate owner current d ref with
    | none => found
    | some episode =>
      if episode.sessionRef == "" || !supportsFormation episode ||
          found.pairs.any (·.episode.sessionRef == episode.sessionRef) then found
      else
        match loadUniqueNonAgentFormationOutcome owner episode.ref d with
        | none => found
        | some outcome =>
          { pairs := found.pairs ++
              [{ episode := episode, outcome := outcome, role := .candidate }],
            related := if (episodeByRef current ref).isSome then found.related
              else found.related ++ [episode] }

def loadDispositionFormationPairs (owner : OwnerScope) (current : List EpisodeEvidence)
    (currentOutcomes : List FeedbackOutcome) (indexedRefs : List String) (d : Db) :
    FormationPairs :=
  match currentDispositionFormationAnchor current currentOutcomes with
  | none => ⟨[], []⟩
  | some anchor =>
    match loadUniqueNonAgentFormationOutcome owner anchor.episode.ref d with
    | none => ⟨[], []⟩
    | some canonical =>
      if canonical.ref != anchor.outcome.ref then ⟨[], []⟩
      else indexedRefs.foldl (addFormationCandidate owner current d)
        ⟨[{ anchor with outcome := canonical }], []⟩

/-! ## Merging -/

/-- Formation Episodes first, each Episode once. -/
def mergeRelated (formationRelated related : List EpisodeEvidence) : List EpisodeEvidence :=
  (formationRelated ++ related).foldl
    (fun acc e => if acc.any (·.ref == e.ref) then acc else acc ++ [e]) []

def mergeOutcomes (pairs : List DispositionFormationPair) (outcomes : List FeedbackOutcome) :
    List FeedbackOutcome :=
  pairs.foldl (fun acc pair => updateRow FeedbackOutcome.ref pair.outcome acc) outcomes

def formationRoleOf (pairs : List DispositionFormationPair) (ref : String) : Option FormationRole :=
  (pairs.reverse.find? (·.episode.ref == ref)).map (·.role)

def markDispositionFormationRoles (evidence : WindowEvidence)
    (pairs : List DispositionFormationPair) : WindowEvidence :=
  { evidence with episodes := evidence.episodes.map fun e =>
      { e with formationRole := formationRoleOf pairs e.episodeRef } }

def exactDispositionFormationBasis (evidence : WindowEvidence) (refs : List String) : Bool :=
  dispositionFormationBasis evidence == some refs

end ChoraMem
