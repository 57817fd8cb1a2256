/-
The acceptance of a batch of changes.

An answer is taken as a whole or not at all.  Every change is checked against the
state the window was loaded to: its target, its application and its basis, by the
kind of the target and the operation.
-/
import ChoraMem.Storage.WorkerRequest

namespace ChoraMem

open Txn

/-! ## Feedback bases -/

/-- A basis of feedback, split into its Episodes and its Outcomes. -/
def FeedbackTarget.splitBasis (t : FeedbackTarget) (allowAnchors : Bool) :
    List String → Option (List String × List String)
  | [] => some ([], [])
  | ref :: rest =>
    if t.episodes.contains ref || (allowAnchors && t.anchors.contains ref) then
      (t.splitBasis allowAnchors rest).map fun s => (ref :: s.1, s.2)
    else if t.outcomeRefs.contains ref then
      (t.splitBasis allowAnchors rest).map fun s => (s.1, ref :: s.2)
    else none

def classifyFeedbackBasis (t : FeedbackTarget) (refs : List String) (allowAnchors : Bool) :
    Option (List String × List String) :=
  (t.splitBasis allowAnchors refs).map fun s => (sortRefs s.1, sortRefs s.2)

/-- Each cited feedback Episode has a cited Outcome, and each cited Outcome a cited
feedback Episode. -/
def exactFeedbackEpisodeOutcomeMatch (t : FeedbackTarget) (episodeRefs outcomeRefs : List String) :
    Bool :=
  let cited := episodeRefs.filter t.episodes.contains
  !cited.isEmpty &&
    outcomeRefs.all (fun ref =>
      t.outcomeRefs.contains ref && cited.contains (t.outcomeEpisode ref)) &&
    cited.all fun ref => outcomeRefs.any fun o => t.outcomeEpisode o == ref

/-- The Episodes and Outcomes of an accepted revision or inhibition. -/
def feedbackBasis (t : FeedbackTarget) (refs : List String) (allowAnchors : Bool) :
    Option (List String × List String) :=
  match classifyFeedbackBasis t refs allowAnchors with
  | none => none
  | some (episodes, outcomes) =>
    if episodes.isEmpty || outcomes.isEmpty ||
        !exactFeedbackEpisodeOutcomeMatch t episodes outcomes then none
    else some (episodes, outcomes)

def basisIncludesCurrentEpisode (refs current : List String) : Bool := refs.any current.contains

/-! ## One change -/

def Change.blank (change : Change) : Bool := trimSpace change.text == ""

namespace WindowState

variable (w : WindowState)

/-- Whether a ref names a current or a related Episode. -/
def episodeOf (ref : String) : Option EpisodeEvidence := episodeByRef (w.episodes ++ w.related) ref

def currentRefs : List String := w.episodes.map (·.ref)

def recollectionOf (ref : String) : Option ActiveRecollection :=
  w.recollections.find? (·.versionRef == ref)

def validRecollectionFormation (change : Change) : Bool :=
  change.operation == .text && !change.blank &&
    (eligibleRecollectionBasis change.basisRefs w.episodeOf).isSome &&
    basisIncludesCurrentEpisode change.basisRefs w.currentRefs

/-- An ADAPT needs a user's current Situation, any other formation the evidence of
two sessions; where a focused formation was prepared, exactly that. -/
def eligibleFormation (change : Change) : Bool :=
  if change.operation = .adapt then
    (eligibleAdaptationBasis change.basisRefs w.episodeOf (some w.currentRefs)).isSome
  else
    (eligibleDispositionFormationBasis change.basisRefs w.episodeOf w.outcomes).isSome &&
      (!hasDispositionFormationAnchor w.evidence ||
        exactDispositionFormationBasis w.evidence change.basisRefs)

def validDispositionFormation (change : Change) : Bool :=
  (change.operation == .text || change.operation == .adapt) && !change.blank &&
    change.application == dispositionApplication (windowOwner w.episodes) &&
    w.eligibleFormation change && basisIncludesCurrentEpisode change.basisRefs w.currentRefs

def validRecollectionChange (change : Change) (r : ActiveRecollection) : Bool :=
  change.application.text == upperText r.application &&
    (eligibleRecollectionBasis change.basisRefs w.episodeOf).isSome &&
    basisIncludesCurrentEpisode change.basisRefs w.currentRefs &&
    (change.operation == .keep || (change.operation == .text && !change.blank))

/-- Only current or related evidence may be cited, or anchors that were offered. -/
def citable (t : FeedbackTarget) (ref : String) : Bool :=
  (w.episodeOf ref).isSome || (!t.episodes.isEmpty && t.anchors.contains ref)

def validAdaptation (change : Change) (t : FeedbackTarget) : Bool :=
  change.basisRefs.length == 1 && decide (t.owner = windowOwner w.episodes) && !change.blank &&
    basisIncludesCurrentEpisode change.basisRefs t.directEpisodes &&
    change.basisRefs.all (w.citable t)

def validDispositionChange (change : Change) (t : FeedbackTarget) : Bool :=
  change.application == dispositionApplication t.owner &&
    match change.operation with
    | .adapt => w.validAdaptation change t
    | .reenact => !change.basisRefs.isEmpty && change.basisRefs.all t.episodes.contains
    | .inhibit => (feedbackBasis t change.basisRefs false).isSome
    | .text => (feedbackBasis t change.basisRefs true).isSome && !change.blank
    | .keep => false

def validChange (change : Change) : Bool :=
  if change.target = targetNewRecollection then w.validRecollectionFormation change
  else if change.target = targetNewDisposition then w.validDispositionFormation change
  else
    match w.recollectionOf change.target with
    | some r => w.validRecollectionChange change r
    | none =>
      match targetByRef w.targets change.target with
      | some t => w.validDispositionChange change t
      | none => false

/-! ## The batch -/

/-- An existing target comes once in a batch. -/
def validConsolidationChanges (changes : List Change) : Bool :=
  changes.all fun change =>
    (change.isNew || changes.countP (fun other => other.target == change.target) == 1) &&
      uniqueStableRefs change.basisRefs && w.validChange change

end WindowState

end ChoraMem
