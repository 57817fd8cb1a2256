/-
The size of a request on the wire.

Core bounds the strings of a request, not its encoding.  The encoding adds a tag and a
length to every string and message and the formation roles.  Each string of the evidence
stands in the window text too, behind a label of its own, and the refs that Core makes are
long, so what is added is less than a third of what is counted.
-/
import ChoraMem.Proto.Wire
import Mathlib.Tactic.Linarith
import ChoraMem.Core.Formation
import ChoraMem.Storage.WorkerRequest

namespace ChoraMem

open Txn Proto

/-! ## Encoding -/

def EvidenceSource.encode (s : EvidenceSource) : List UInt8 :=
  stringField 1 s.sourceRef ++ stringField 2 s.role.text ++ stringField 3 s.actorKind.text ++
    stringField 4 s.actorRef ++ stringField 5 s.text

def EvidenceEpisode.encode (e : EvidenceEpisode) : List UInt8 :=
  stringField 1 e.episodeRef ++ stringField 2 e.sessionRef ++ stringField 3 e.origin.text ++
    repeatedField 4 EvidenceSource.encode e.sources ++
      stringField 5 ((e.formationRole.map FormationRole.text).getD "")

def EvidenceOutcome.encode (o : EvidenceOutcome) : List UInt8 :=
  stringField 1 o.outcomeRef ++ stringField 2 o.episodeRef ++ stringField 3 o.actorKind.text ++
    stringField 4 o.actorRef ++ stringField 5 o.text

def EvidenceRecollection.encode (r : EvidenceRecollection) : List UInt8 :=
  stringField 1 r.versionRef ++ stringField 2 r.application ++ stringField 3 r.text

def WindowEvidence.encode (evidence : WindowEvidence) : List UInt8 :=
  repeatedField 1 EvidenceEpisode.encode evidence.episodes ++
    repeatedField 2 EvidenceOutcome.encode evidence.outcomes ++
      repeatedField 3 EvidenceRecollection.encode evidence.recollections

/-- `ProcessConsolidationWindowRequest` as the client sends it. -/
def WorkerRequest.encode (request : WorkerRequest) : List UInt8 :=
  stringField 1 request.jobRef ++ stringField 2 request.windowText ++
    repeatedField 3 utf8 request.allowedTargetRefs ++ repeatedField 4 utf8 request.allowedBasisRefs ++
      field 5 request.evidence.encode

/-- gRPC's default message ceiling. -/
def maxMessageBytes : Nat := 4 * 1024 * 1024

/-! ## What Core admits -/

/-- The ref of an Episode ends with a digest, and that of a version holds half of one. -/
def EpisodeRefLong (ref : String) : Prop := 64 ≤ ref.utf8ByteSize

def VersionRefLong (ref : String) : Prop := 32 ≤ ref.utf8ByteSize

/-- The Episodes that a window renders. -/
def WindowState.rendered (w : WindowState) : List EpisodeEvidence := w.episodes ++ (w.related ++ w.anchors)

/-- What every window is loaded to: refs of Episodes and versions are made from digests,
sources were admitted by the ledger, and the Outcome of a formation pair is one of the
Outcomes. -/
structure WindowState.Admitted (w : WindowState) : Prop where
  episodes : ∀ e ∈ w.rendered, EpisodeRefLong e.ref
  sources : ∀ e ∈ w.rendered, ∀ s ∈ e.sources, s.ref ≠ "" ∧ s.actorRef ≠ "" ∧ validActorKind s.actorKind
  outcomes : ∀ o ∈ w.outcomes, EpisodeRefLong o.episodeRef
  targets : ∀ t ∈ w.targets, VersionRefLong t.versionRef
  pairs : ∀ p ∈ w.pairs, (outcomeByRef w.outcomes p.outcome.ref).isSome

/-! ## Sizes of messages -/

def EvidenceSource.size (s : EvidenceSource) : Nat :=
  textSize [s.sourceRef, s.role.text, s.actorKind.text, s.actorRef, s.text]

def EvidenceEpisode.ownSize (e : EvidenceEpisode) : Nat :=
  textSize [e.episodeRef, e.sessionRef, e.origin.text]

def EvidenceEpisode.sourceSize (e : EvidenceEpisode) : Nat := (e.sources.map EvidenceSource.size).sum

def EvidenceOutcome.size (o : EvidenceOutcome) : Nat :=
  textSize [o.outcomeRef, o.episodeRef, o.actorKind.text, o.actorRef, o.text]

def EvidenceRecollection.size (r : EvidenceRecollection) : Nat :=
  textSize [r.versionRef, r.application, r.text]

theorem textSize_cons (s : String) (rest : List String) :
    textSize (s :: rest) = s.utf8ByteSize + textSize rest := by
  rw [textSize, List.map_cons, List.sum_cons]
  rfl

theorem textSize_nil : textSize [] = 0 := rfl

theorem EvidenceSource.length_encode_le (s : EvidenceSource) :
    128 * s.encode.length ≤ 129 * s.size + 1280 := by
  have h₁ := length_stringField_le 1 s.sourceRef
  have h₂ := length_stringField_le 2 s.role.text
  have h₃ := length_stringField_le 3 s.actorKind.text
  have h₄ := length_stringField_le 4 s.actorRef
  have h₅ := length_stringField_le 5 s.text
  simp only [EvidenceSource.encode, EvidenceSource.size, List.length_append, textSize_cons, textSize_nil]
  omega

theorem EvidenceOutcome.length_encode_le (o : EvidenceOutcome) :
    128 * o.encode.length ≤ 129 * o.size + 1280 := by
  have h₁ := length_stringField_le 1 o.outcomeRef
  have h₂ := length_stringField_le 2 o.episodeRef
  have h₃ := length_stringField_le 3 o.actorKind.text
  have h₄ := length_stringField_le 4 o.actorRef
  have h₅ := length_stringField_le 5 o.text
  simp only [EvidenceOutcome.encode, EvidenceOutcome.size, List.length_append, textSize_cons, textSize_nil]
  omega

theorem EvidenceRecollection.length_encode_le (r : EvidenceRecollection) :
    128 * r.encode.length ≤ 129 * r.size + 768 := by
  have h₁ := length_stringField_le 1 r.versionRef
  have h₂ := length_stringField_le 2 r.application
  have h₃ := length_stringField_le 3 r.text
  simp only [EvidenceRecollection.encode, EvidenceRecollection.size, List.length_append, textSize_cons,
    textSize_nil]
  omega

theorem FormationRole.size_le (role : Option FormationRole) :
    ((role.map FormationRole.text).getD "").utf8ByteSize ≤ 9 := by
  rcases role with _ | _ | _ <;> decide

/-- A sum is bounded element by element. -/
theorem sum_le_of_forall {α : Type} {f g : α → Nat} {a b c : Nat} (h : ∀ x, a * f x ≤ b * g x + c)
    (l : List α) : a * (l.map f).sum ≤ b * (l.map g).sum + c * l.length := by
  induction l with
  | nil => simp
  | cons x rest ih =>
    have hx := h x
    rw [List.map_cons, List.map_cons, List.sum_cons, List.sum_cons, List.length_cons, Nat.mul_add,
      Nat.mul_add, Nat.mul_add]
    omega

/-- The sources of an Episode, with their own lengths. -/
theorem length_sources_le (sources : List EvidenceSource) :
    16384 * (repeatedField 4 EvidenceSource.encode sources).length ≤
      16641 * (sources.map EvidenceSource.size).sum + 197888 * sources.length := by
  have hfield := length_repeatedField_le 4 EvidenceSource.encode sources
  have hsum := sum_le_of_forall EvidenceSource.length_encode_le sources
  omega

theorem EvidenceEpisode.length_encode_le (e : EvidenceEpisode) : 16384 * e.encode.length ≤
    16512 * e.ownSize + 16641 * e.sourceSize + 197888 * e.sources.length + 279680 := by
  have h₁ := length_stringField_le 1 e.episodeRef
  have h₂ := length_stringField_le 2 e.sessionRef
  have h₃ := length_stringField_le 3 e.origin.text
  have h₄ := length_sources_le e.sources
  have h₅ := length_stringField_le 5 ((e.formationRole.map FormationRole.text).getD "")
  have hrole := FormationRole.size_le e.formationRole
  simp only [EvidenceEpisode.encode, EvidenceEpisode.ownSize, EvidenceEpisode.sourceSize,
    List.length_append, textSize_cons, textSize_nil]
  omega

/-! ## Sizes of the evidence -/

def WindowEvidence.ownSize (evidence : WindowEvidence) : Nat :=
  (evidence.episodes.map EvidenceEpisode.ownSize).sum

def WindowEvidence.sourceSize (evidence : WindowEvidence) : Nat :=
  (evidence.episodes.map EvidenceEpisode.sourceSize).sum

def WindowEvidence.sourceCount (evidence : WindowEvidence) : Nat :=
  (evidence.episodes.map (·.sources.length)).sum

def WindowEvidence.outcomeSize (evidence : WindowEvidence) : Nat :=
  (evidence.outcomes.map EvidenceOutcome.size).sum

def WindowEvidence.recollectionSize (evidence : WindowEvidence) : Nat :=
  (evidence.recollections.map EvidenceRecollection.size).sum

theorem WindowEvidence.size_eq (evidence : WindowEvidence) : evidence.size =
    evidence.ownSize + evidence.sourceSize + evidence.outcomeSize + evidence.recollectionSize := by
  have hepisodes : (evidence.episodes.map fun e => textSize [e.episodeRef, e.sessionRef, e.origin.text] +
      (e.sources.map fun s =>
        textSize [s.sourceRef, s.role.text, s.actorKind.text, s.actorRef, s.text]).sum).sum =
      evidence.ownSize + evidence.sourceSize := by
    rw [WindowEvidence.ownSize, WindowEvidence.sourceSize, ← List.sum_map_add]
    rfl
  rw [WindowEvidence.size, hepisodes]
  rfl

theorem WindowEvidence.length_episodes_le (evidence : WindowEvidence) :
    2097152 * (repeatedField 1 EvidenceEpisode.encode evidence.episodes).length ≤
      2130048 * evidence.ownSize + 2146689 * evidence.sourceSize + 25527552 * evidence.sourceCount +
        40273024 * evidence.episodes.length := by
  have hfield := length_repeatedField_le 1 EvidenceEpisode.encode evidence.episodes
  have hsum : 16384 * (evidence.episodes.map fun e => e.encode.length).sum ≤
      16512 * evidence.ownSize + 16641 * evidence.sourceSize + 197888 * evidence.sourceCount +
        279680 * evidence.episodes.length := by
    unfold WindowEvidence.ownSize WindowEvidence.sourceSize WindowEvidence.sourceCount
    induction evidence.episodes with
    | nil => simp
    | cons e rest ih =>
      have he := e.length_encode_le
      simp only [List.map_cons, List.sum_cons, List.length_cons]
      omega
  omega

theorem WindowEvidence.length_encode_le (evidence : WindowEvidence) :
    2097152 * evidence.encode.length ≤ 2130048 * evidence.ownSize + 2146689 * evidence.sourceSize +
      25527552 * evidence.sourceCount + 40273024 * evidence.episodes.length +
        2130048 * evidence.outcomeSize + 25329664 * evidence.outcomes.length +
          2130048 * evidence.recollectionSize + 16875520 * evidence.recollections.length := by
  have hepisodes := evidence.length_episodes_le
  have houtcomes := length_repeatedField_le 2 EvidenceOutcome.encode evidence.outcomes
  have houtcomes' := sum_le_of_forall EvidenceOutcome.length_encode_le evidence.outcomes
  have hrecollections := length_repeatedField_le 3 EvidenceRecollection.encode evidence.recollections
  have hrecollections' := sum_le_of_forall EvidenceRecollection.length_encode_le evidence.recollections
  simp only [WindowEvidence.encode, List.length_append]
  unfold WindowEvidence.outcomeSize WindowEvidence.recollectionSize
  omega

/-! ## Sizes of the window text -/

/-- The bytes of lines that are joined. -/
def linesSize (lines : List String) : Nat := (lines.map fun line => line.utf8ByteSize + 1).sum

theorem utf8ByteSize_joinLines (lines : List String) :
    (joinLines lines).utf8ByteSize = linesSize lines := by
  induction lines with
  | nil => rfl
  | cons line rest ih =>
    have hcons : joinLines (line :: rest) = line ++ "\n" ++ joinLines rest := by
      simp [joinLines, String.join_cons]
    rw [hcons, String.utf8ByteSize_append, String.utf8ByteSize_append, ih, linesSize, linesSize,
      List.map_cons, List.sum_cons]
    rfl

theorem linesSize_append (a b : List String) : linesSize (a ++ b) = linesSize a + linesSize b := by
  rw [linesSize, List.map_append, List.sum_append]
  rfl

theorem linesSize_cons (line : String) (rest : List String) :
    linesSize (line :: rest) = line.utf8ByteSize + 1 + linesSize rest := by
  rw [linesSize, List.map_cons, List.sum_cons]
  rfl

theorem linesSize_nil : linesSize [] = 0 := rfl

theorem linesSize_flatMap {α : Type} (render : α → List String) (l : List α) :
    linesSize (l.flatMap render) = (l.map fun a => linesSize (render a)).sum := by
  induction l with
  | nil => rfl
  | cons a rest ih =>
    rw [List.flatMap_cons, linesSize_append, ih, List.map_cons, List.sum_cons]

/-- Empty lines between the Episodes add to their sizes. -/
theorem linesSize_renderEpisodes (label : String) (episodes : List EpisodeEvidence) :
    (episodes.map fun e => linesSize (renderEpisode label e)).sum ≤
      linesSize (renderEpisodes label episodes) := by
  unfold renderEpisodes
  induction episodes with
  | nil => simp
  | cons e rest ih =>
    cases rest with
    | nil => simp
    | cons next rest =>
      simp only [List.map_cons, List.intersperse_cons_cons, List.flatten_cons, linesSize_append,
        List.sum_cons] at ih ⊢
      omega

theorem utf8ByteSize_upper {role : SourceRole} (h : (role == .situation || role == .agentAct) = true) :
    (upperText role.text).utf8ByteSize = 9 ∧ role.text.utf8ByteSize = 9 := by
  rcases Bool.or_eq_true_iff.mp h with h | h
  · rw [beq_iff_eq.mp h]
    decide
  · rw [beq_iff_eq.mp h]
    decide

/-- A source with its labels. -/
theorem linesSize_renderSource {s : SourceEvidence}
    (h : (s.role == .situation || s.role == .agentAct) = true) :
    linesSize (renderSource s) = 18 + EvidenceSource.size
      { sourceRef := s.ref, role := s.role, actorKind := s.actorKind, actorRef := s.actorRef,
        text := s.text } := by
  obtain ⟨hupper, hrole⟩ := utf8ByteSize_upper h
  have hactor : "ACTOR ".utf8ByteSize = 6 := rfl
  have hblank : " ".utf8ByteSize = 1 := rfl
  have hsource : "SOURCE ".utf8ByteSize = 7 := rfl
  simp only [renderSource, linesSize_cons, linesSize_nil, EvidenceSource.size, textSize_cons,
    textSize_nil, String.utf8ByteSize_append, hupper, hrole, hactor, hblank, hsource]
  omega

/-- An Episode with its labels. -/
theorem linesSize_renderEpisode {label : String} (hlabel : 7 ≤ label.utf8ByteSize) (e : EpisodeEvidence) :
    18 + e.ref.utf8ByteSize + (workerEvidenceEpisode e).sourceSize +
      18 * (workerEvidenceEpisode e).sources.length ≤ linesSize (renderEpisode label e) := by
  have hsources : linesSize ((causalSources e).flatMap renderSource) =
      (workerEvidenceEpisode e).sourceSize + 18 * (workerEvidenceEpisode e).sources.length := by
    have hall : ∀ l : List SourceEvidence, (∀ s ∈ l, (s.role == .situation || s.role == .agentAct) = true) →
        linesSize (l.flatMap renderSource) = ((l.map fun s => EvidenceSource.size
          { sourceRef := s.ref, role := s.role, actorKind := s.actorKind, actorRef := s.actorRef,
            text := s.text }).sum + 18 * l.length) := by
      intro l
      induction l with
      | nil => exact fun _ => rfl
      | cons s rest ih =>
        intro h
        rw [List.flatMap_cons, linesSize_append, linesSize_renderSource (h s List.mem_cons_self),
          ih fun t ht => h t (List.mem_cons_of_mem _ ht), List.map_cons, List.sum_cons, List.length_cons]
        omega
    rw [hall (causalSources e) fun s hs => (List.mem_filter.mp hs).2]
    simp [workerEvidenceEpisode, EvidenceEpisode.sourceSize, Function.comp_def]
  have hsession : "SESSION ".utf8ByteSize = 8 := rfl
  have hblank : " ".utf8ByteSize = 1 := rfl
  simp only [renderEpisode, linesSize_append, linesSize_cons, linesSize_nil, hsources,
    String.utf8ByteSize_append, hsession, hblank]
  omega

theorem linesSize_renderRecollection (r : ActiveRecollection) :
    43 ≤ linesSize (renderRecollection r) := by
  have hempty : "".utf8ByteSize = 0 := rfl
  have heligible : "ELIGIBLE_RECOLLECTION ".utf8ByteSize = 22 := rfl
  have happlication : "APPLICATION ".utf8ByteSize = 12 := rfl
  have htext : "TEXT ".utf8ByteSize = 5 := rfl
  simp only [renderRecollection, linesSize_cons, linesSize_nil, String.utf8ByteSize_append, hempty,
    heligible, happlication, htext]
  omega

theorem linesSize_renderOutcome (o : FeedbackOutcome) :
    linesSize (renderOutcome o) = 36 + (workerEvidenceOutcome o).size := by
  have hempty : "".utf8ByteSize = 0 := rfl
  have houtcome : "OUTCOME ".utf8ByteSize = 8 := rfl
  have hepisode : "OUTCOME_EPISODE ".utf8ByteSize = 16 := rfl
  have hactor : "ACTOR ".utf8ByteSize = 6 := rfl
  have hblank : " ".utf8ByteSize = 1 := rfl
  simp only [renderOutcome, linesSize_cons, linesSize_nil, String.utf8ByteSize_append, hempty,
    houtcome, hepisode, hactor, hblank, EvidenceOutcome.size, workerEvidenceOutcome, textSize_cons,
    textSize_nil]
  omega

theorem linesSize_labelled {label : String} {n : Nat} (h : n ≤ label.utf8ByteSize) (refs : List String) :
    (n + 1) * refs.length ≤ linesSize (refs.map (label ++ ·)) := by
  induction refs with
  | nil => simp
  | cons ref rest ih =>
    rw [List.map_cons, linesSize_cons, List.length_cons, Nat.mul_add, String.utf8ByteSize_append]
    omega

/-- Every ref that a target offers has a line. -/
theorem linesSize_renderTarget (t : FeedbackTarget) :
    17 * t.offeredBasis.length ≤ linesSize (renderTarget t) := by
  have hepisodes := @linesSize_labelled "FEEDBACK_EPISODE " 16 (by decide)
    (sortedKeys t.episodes)
  have hanchors := @linesSize_labelled "REVISION_ANCHOR " 16 (by decide)
    t.offeredAnchors
  have houtcomes : ∀ refs : List String, 17 * refs.length ≤ linesSize (refs.flatMap fun ref =>
      ["FEEDBACK_OUTCOME " ++ ref, "OUTCOME_EPISODE " ++ t.outcomeEpisode ref]) := by
    intro refs
    have hfeedback : "FEEDBACK_OUTCOME ".utf8ByteSize = 17 := rfl
    induction refs with
    | nil => simp
    | cons ref rest ih =>
      rw [List.flatMap_cons, linesSize_append, linesSize_cons, List.length_cons, Nat.mul_add,
        String.utf8ByteSize_append, hfeedback]
      omega
  have houtcomes := houtcomes (sortedKeys t.outcomeRefs)
  simp only [renderTarget, FeedbackTarget.offeredBasis, linesSize_append, List.length_append]
  omega

theorem utf8ByteSize_renderConstitution (c : Constitution) :
    22 ≤ (renderConstitution c).utf8ByteSize := by
  unfold renderConstitution
  by_cases h : c = {}
  · rw [if_pos h]
    decide
  · have hhead : "CONSTITUTION\nMEMORY_REF ".utf8ByteSize = 24 := rfl
    rw [if_neg h]
    simp only [String.utf8ByteSize_append, hhead]
    omega

section

variable (w : WindowState)

/-- The refs that the targets offer, counted. -/
def WindowState.offeredCount : Nat :=
  ((sortedTargets w.targets).map fun t => t.offeredBasis.length).sum

/-- The Outcomes that the window shows. -/
def WindowState.shownOutcomes : List FeedbackOutcome :=
  w.eligibleOutcomes.filterMap (outcomeByRef w.outcomes)

/-- What an Episode takes of the window text at least. -/
def episodeSize (e : EpisodeEvidence) : Nat :=
  18 + e.ref.utf8ByteSize + (workerEvidenceEpisode e).sourceSize +
    18 * (workerEvidenceEpisode e).sources.length

theorem sum_le_of_le {α : Type} {f g : α → Nat} (h : ∀ a, f a ≤ g a) (l : List α) :
    (l.map f).sum ≤ (l.map g).sum := by
  have hsum := sum_le_of_forall (f := f) (g := g) (a := 1) (b := 1) (c := 0)
    (fun a => by have := h a; omega) l
  omega

theorem linesSize_episodes {label : String} (hlabel : 7 ≤ label.utf8ByteSize)
    (episodes : List EpisodeEvidence) :
    (episodes.map episodeSize).sum ≤ linesSize (renderEpisodes label episodes) := by
  have hepisodes := sum_le_of_le (f := episodeSize) (fun e => linesSize_renderEpisode hlabel e) episodes
  have hrender := linesSize_renderEpisodes label episodes
  omega

/-- What the window text has at least. -/
theorem WindowState.windowText_size : 22 + (w.rendered.map episodeSize).sum + 43 * w.recollections.length +
    (w.shownOutcomes.map fun o => 36 + (workerEvidenceOutcome o).size).sum + 17 * w.offeredCount ≤
      w.windowText.utf8ByteSize := by
  have hcurrent := @linesSize_episodes "EPISODE" (by decide) w.episodes
  have hrelated := @linesSize_episodes "RELATED_EPISODE" (by decide) w.related
  have hanchors := @linesSize_episodes "EPISODE" (by decide) w.anchors
  have hconstitution := utf8ByteSize_renderConstitution (currentConstitution w.episodes)
  have hrecollections : 43 * w.recollections.length ≤ linesSize (w.recollections.flatMap renderRecollection) := by
    rw [linesSize_flatMap]
    have hsum := sum_le_of_le (f := fun _ => 43) linesSize_renderRecollection w.recollections
    rw [List.map_const', List.sum_replicate_nat] at hsum
    omega
  have houtcomes : (w.shownOutcomes.map fun o => 36 + (workerEvidenceOutcome o).size).sum ≤
      linesSize (w.shownOutcomes.flatMap renderOutcome) := by
    rw [linesSize_flatMap]
    exact sum_le_of_le (fun o => Nat.le_of_eq (linesSize_renderOutcome o).symm) _
  have htargets : 17 * w.offeredCount ≤ linesSize ((sortedTargets w.targets).flatMap renderTarget) := by
    rw [linesSize_flatMap]
    have hsum := sum_le_of_forall (f := fun t => t.offeredBasis.length)
      (g := fun t => linesSize (renderTarget t)) (a := 17) (b := 1) (c := 0)
      (fun t => by have := linesSize_renderTarget t; omega) (sortedTargets w.targets)
    unfold WindowState.offeredCount
    omega
  have hsplit : (w.rendered.map episodeSize).sum = (w.episodes.map episodeSize).sum +
      ((w.related.map episodeSize).sum + (w.anchors.map episodeSize).sum) := by
    rw [WindowState.rendered, List.map_append, List.map_append, List.sum_append, List.sum_append]
  have hrelated' : (w.related.map episodeSize).sum ≤ linesSize
      (if w.related.isEmpty then [] else ["", "RELATED_EPISODES"] ++ renderRelatedEpisodes w.related) := by
    by_cases hempty : w.related = []
    · simp [hempty]
    · rw [if_neg (by simpa using hempty), linesSize_append]
      exact Nat.le_trans hrelated (Nat.le_add_left _ _)
  have hanchors' : (w.anchors.map episodeSize).sum ≤ linesSize (if w.anchors.isEmpty then []
      else ["", "REVISION_ANCHOR_EVIDENCE"] ++ renderFeedbackEpisodes w.anchors []) := by
    by_cases hempty : w.anchors = []
    · simp [hempty]
    · rw [if_neg (by simpa using hempty), linesSize_append, renderFeedbackEpisodes, linesSize_append]
      omega
  rw [WindowState.windowText, String.utf8ByteSize_append, utf8ByteSize_joinLines]
  unfold WindowState.windowLines renderFeedbackEpisodes
  rw [renderFeedbackEpisodes] at hanchors'
  unfold WindowState.shownOutcomes at houtcomes ⊢
  simp only [linesSize_append]
  omega

end

/-! ## The evidence and what is rendered -/

section

variable {f : EvidenceEpisode → Nat} (hf : ∀ (e : EvidenceEpisode) (origin : EvidenceOrigin)
  (role : Option FormationRole), f { e with origin := origin, formationRole := role } = f e)

include hf

/-- An Episode that is there already adds nothing. -/
theorem sum_appendEvidence_le (origin : EvidenceOrigin) (episodes seen : List EvidenceEpisode) :
    ((appendEvidence origin episodes seen).map f).sum ≤ (seen.map f).sum + (episodes.map f).sum := by
  induction episodes generalizing seen with
  | nil => simp [appendEvidence]
  | cons e rest ih =>
    rw [appendEvidence, List.foldl_cons, ← appendEvidence]
    have hrest := ih (if seen.any (·.episodeRef == e.episodeRef) then seen
      else seen ++ [{ e with origin := origin }])
    have he := hf e origin e.formationRole
    rw [List.map_cons, List.sum_cons]
    by_cases h : seen.any (·.episodeRef == e.episodeRef) = true
    · rw [if_pos h] at hrest ⊢
      omega
    · rw [if_neg h] at hrest ⊢
      rw [List.map_append, List.sum_append, List.map_singleton, List.sum_singleton] at hrest
      omega

/-- The evidence holds no more Episodes than the text. -/
theorem WindowState.sum_evidence_le (w : WindowState) :
    (w.evidence.episodes.map f).sum ≤ (w.rendered.map fun e => f (workerEvidenceEpisode e)).sum := by
  have hanchors := sum_appendEvidence_le hf .revisionAnchor (w.anchors.map workerEvidenceEpisode)
    (appendEvidence .related (w.related.map workerEvidenceEpisode)
      (appendEvidence .current (w.episodes.map workerEvidenceEpisode) []))
  have hrelated := sum_appendEvidence_le hf .related (w.related.map workerEvidenceEpisode)
    (appendEvidence .current (w.episodes.map workerEvidenceEpisode) [])
  have hcurrent := sum_appendEvidence_le hf .current (w.episodes.map workerEvidenceEpisode) []
  have hmark : ∀ episodes : List EvidenceEpisode, ((episodes.map fun e =>
      { e with formationRole := formationRoleOf w.pairs e.episodeRef }).map f).sum =
        (episodes.map f).sum := by
    intro episodes
    rw [List.map_map]
    exact congrArg List.sum (List.map_congr_left fun e _ => hf e e.origin _)
  have hsplit : (w.rendered.map fun e => f (workerEvidenceEpisode e)).sum =
      ((w.episodes.map workerEvidenceEpisode).map f).sum +
        (((w.related.map workerEvidenceEpisode).map f).sum +
          ((w.anchors.map workerEvidenceEpisode).map f).sum) := by
    rw [WindowState.rendered, List.map_append, List.map_append, List.sum_append, List.sum_append,
      List.map_map, List.map_map, List.map_map]
    rfl
  rw [List.map_nil, List.sum_nil] at hcurrent
  rw [hsplit]
  refine Nat.le_trans (Nat.le_of_eq (hmark _)) ?_
  simp only [assembleWindowEvidence]
  omega

end

/-- The sources of an Episode of the evidence are those of a rendered one. -/
theorem WindowState.evidence_sources (w : WindowState) {e : EvidenceEpisode}
    (he : e ∈ w.evidence.episodes) :
    ∃ r ∈ w.rendered, e.sources = (workerEvidenceEpisode r).sources := by
  obtain ⟨e', he', rfl⟩ := List.mem_map.mp he
  unfold WindowState.rendered
  rcases mem_assembled he' with ⟨r, hr, rfl⟩ | ⟨r, hr, rfl, _⟩ | ⟨r, hr, rfl, _⟩
  · obtain ⟨x, hx, rfl⟩ := List.mem_map.mp hr
    exact ⟨x, List.mem_append_left _ hx, rfl⟩
  · obtain ⟨x, hx, rfl⟩ := List.mem_map.mp hr
    exact ⟨x, List.mem_append_right _ (List.mem_append_left _ hx), rfl⟩
  · obtain ⟨x, hx, rfl⟩ := List.mem_map.mp hr
    exact ⟨x, List.mem_append_right _ (List.mem_append_right _ hx), rfl⟩

/-! ## What is counted -/

section

variable {w : WindowState} (h : w.Admitted)

include h

theorem WindowState.Admitted.source_size {e : EpisodeEvidence} (he : e ∈ w.rendered) :
    15 * (workerEvidenceEpisode e).sources.length ≤ (workerEvidenceEpisode e).sourceSize := by
  have hsource : ∀ s ∈ causalSources e, 15 ≤ EvidenceSource.size
      { sourceRef := s.ref, role := s.role, actorKind := s.actorKind, actorRef := s.actorRef,
        text := s.text } := by
    intro s hs
    obtain ⟨hmem, hrole⟩ := List.mem_filter.mp hs
    obtain ⟨href, hactor, hkind⟩ := h.sources e he s hmem
    have hrole := (utf8ByteSize_upper hrole).2
    have href := Nat.pos_of_ne_zero (mt String.utf8ByteSize_eq_zero_iff.mp href)
    have hactor := Nat.pos_of_ne_zero (mt String.utf8ByteSize_eq_zero_iff.mp hactor)
    have hkind : 4 ≤ s.actorKind.text.utf8ByteSize := by
      cases hk : s.actorKind <;> simp [hk, validActorKind] at hkind <;> decide
    simp only [EvidenceSource.size, textSize_cons, textSize_nil]
    omega
  simp only [workerEvidenceEpisode, EvidenceEpisode.sourceSize, List.map_map, List.length_map]
  generalize causalSources e = sources at hsource
  induction sources with
  | nil => simp
  | cons s rest ih =>
    have hs := hsource s List.mem_cons_self
    have hrest := ih fun t ht => hsource t (List.mem_cons_of_mem _ ht)
    rw [List.map_cons, List.sum_cons, List.length_cons, Function.comp_apply]
    omega

/-- What the evidence holds of sources. -/
theorem WindowState.Admitted.sources_size : 15 * w.evidence.sourceCount ≤ w.evidence.sourceSize := by
  have hall : ∀ e ∈ w.evidence.episodes, 15 * e.sources.length ≤ e.sourceSize := by
    intro e he
    obtain ⟨r, hr, hsources⟩ := w.evidence_sources he
    have hsize := h.source_size hr
    rw [EvidenceEpisode.sourceSize, hsources]
    exact hsize
  unfold WindowEvidence.sourceCount WindowEvidence.sourceSize
  generalize w.evidence.episodes = episodes at hall
  induction episodes with
  | nil => simp
  | cons e rest ih =>
    have he := hall e List.mem_cons_self
    have hrest := ih fun t ht => hall t (List.mem_cons_of_mem _ ht)
    simp only [List.map_cons, List.sum_cons]
    omega

theorem WindowState.Admitted.outcomes_size :
    64 * w.evidence.outcomes.length ≤ w.evidence.outcomeSize := by
  have hall : ∀ o ∈ w.evidence.outcomes, 64 ≤ o.size := by
    intro o ho
    obtain ⟨shown, hshown, rfl⟩ := List.mem_map.mp ho
    obtain ⟨ref, -, hfound⟩ := List.mem_filterMap.mp hshown
    have hcore := h.outcomes shown (List.mem_of_find?_eq_some hfound)
    simp only [EpisodeRefLong] at hcore
    simp only [EvidenceOutcome.size, workerEvidenceOutcome, textSize_cons, textSize_nil]
    omega
  unfold WindowEvidence.outcomeSize
  generalize w.evidence.outcomes = outcomes at hall
  induction outcomes with
  | nil => simp
  | cons o rest ih =>
    have ho := hall o List.mem_cons_self
    have hrest := ih fun t ht => hall t (List.mem_cons_of_mem _ ht)
    rw [List.map_cons, List.sum_cons, List.length_cons]
    omega

theorem WindowState.Admitted.episodes_size : 64 * w.rendered.length + 18 * w.rendered.length +
    (w.rendered.map fun e => (workerEvidenceEpisode e).sourceSize).sum +
      18 * (w.rendered.map fun e => (workerEvidenceEpisode e).sources.length).sum ≤
        (w.rendered.map episodeSize).sum := by
  have hall := h.episodes
  generalize w.rendered = episodes at hall
  induction episodes with
  | nil => simp
  | cons e rest ih =>
    have he := hall e List.mem_cons_self
    have hrest := ih fun t ht => hall t (List.mem_cons_of_mem _ ht)
    simp only [EpisodeRefLong] at he
    simp only [List.map_cons, List.sum_cons, List.length_cons, episodeSize]
    omega

/-- An Outcome that may be cited is shown. -/
theorem WindowState.Admitted.formationOutcomes_le :
    w.formationOutcomes.length ≤ w.shownOutcomes.length := by
  have hfound : ∀ ref ∈ w.formationOutcomes, (outcomeByRef w.outcomes ref).isSome := by
    intro ref href
    rcases List.mem_append.mp (mem_sortedKeys.mp href) with href | href
    · unfold WindowState.eligibleFormationOutcomes at href
      by_cases hform : (!hasFormationEvidence w.episodes w.related) = true
      · rw [if_pos hform] at href
        exact absurd href List.not_mem_nil
      · rw [if_neg hform] at href
        obtain ⟨o, ho, rfl⟩ := List.mem_map.mp href
        exact List.find?_isSome.mpr ⟨o, (List.mem_filter.mp ho).1, by simp⟩
    · obtain ⟨p, hp, rfl⟩ := List.mem_map.mp href
      exact h.pairs p hp
  have hsub : w.formationOutcomes ⊆
      w.eligibleOutcomes.filter fun ref => (outcomeByRef w.outcomes ref).isSome := by
    intro ref href
    exact List.mem_filter.mpr
      ⟨mem_sortedKeys.mpr (List.mem_append_left _ href), hfound ref href⟩
  have hnodup : w.formationOutcomes.Nodup :=
    (List.perm_insertionSort _ _).nodup_iff.mpr (List.nodup_dedup _)
  have hlength : (w.eligibleOutcomes.filter fun ref => (outcomeByRef w.outcomes ref).isSome).length =
      w.shownOutcomes.length := by
    unfold WindowState.shownOutcomes
    induction w.eligibleOutcomes with
    | nil => rfl
    | cons ref rest ih =>
      cases hr : outcomeByRef w.outcomes ref <;> simp_all
  rw [← hlength]
  exact (List.subperm_of_subset hnodup hsub).length_le

end

theorem length_firstPlaces_le (refs : List String) : (firstPlaces refs).length ≤ refs.length := by
  suffices hacc : ∀ acc : List String, (refs.foldl (fun acc ref =>
      if acc.contains ref then acc else acc ++ [ref]) acc).length ≤ acc.length + refs.length by
    simpa [firstPlaces] using hacc []
  induction refs with
  | nil => simp
  | cons ref rest ih =>
    intro acc
    rw [List.foldl_cons, List.length_cons]
    by_cases hc : acc.contains ref = true
    · rw [if_pos hc]
      have := ih acc
      omega
    · rw [if_neg hc]
      have := ih (acc ++ [ref])
      rw [List.length_append, List.length_singleton] at this
      omega

theorem length_flatMap_offeredBasis (targets : List FeedbackTarget) :
    (targets.flatMap FeedbackTarget.offeredBasis).length =
      (targets.map fun t => t.offeredBasis.length).sum := by
  rw [List.length_flatMap]

theorem WindowState.allowedBasisRefs_length (w : WindowState) : w.allowedBasisRefs.length ≤
    w.rendered.length + w.formationOutcomes.length + w.offeredCount := by
  have hplaces := length_firstPlaces_le (w.episodes.map (·.ref) ++ w.related.map (·.ref) ++
    w.formationOutcomes ++ (sortedTargets w.targets).flatMap FeedbackTarget.offeredBasis)
  rw [List.length_append, List.length_append, List.length_append, List.length_map, List.length_map,
    length_flatMap_offeredBasis] at hplaces
  rw [WindowState.rendered, List.length_append, List.length_append]
  unfold WindowState.allowedBasisRefs WindowState.offeredCount
  omega

theorem textSize_append (a b : List String) : textSize (a ++ b) = textSize a + textSize b := by
  rw [textSize, List.map_append, List.sum_append]
  rfl

/-- At most two targets are not versions. -/
theorem WindowState.Admitted.allowedTargetRefs_size {w : WindowState} (h : w.Admitted) :
    32 * w.allowedTargetRefs.length ≤ 64 + 32 * w.recollections.length + textSize w.allowedTargetRefs := by
  have hversions : 32 * (targetRefs w.targets).length ≤ textSize (targetRefs w.targets) := by
    have hall : ∀ ref ∈ targetRefs w.targets, VersionRefLong ref := by
      intro ref href
      obtain ⟨t, ht, rfl⟩ := List.mem_map.mp (mem_sortedKeys.mp href)
      exact h.targets t ht
    generalize targetRefs w.targets = refs at hall
    induction refs with
    | nil => simp
    | cons ref rest ih =>
      have href := hall ref List.mem_cons_self
      have hrest := ih fun t ht => hall t (List.mem_cons_of_mem _ ht)
      simp only [VersionRefLong] at href
      rw [List.length_cons, textSize_cons]
      omega
  have hfirst : (if w.episodes.isEmpty then [] else [targetNewRecollection]).length ≤ 1 := by
    split <;> simp
  have hsecond : (if w.canForm || !(directEpisodes w.episodes).isEmpty then [targetNewDisposition]
      else []).length ≤ 1 := by
    split <;> simp
  unfold WindowState.allowedTargetRefs
  simp only [List.length_append, textSize_append, List.length_map]
  omega

/-- The evidence has the Outcomes that are shown. -/
theorem WindowState.outcomes_shown (w : WindowState) :
    (w.shownOutcomes.map fun o => 36 + (workerEvidenceOutcome o).size).sum =
      36 * w.shownOutcomes.length + w.evidence.outcomeSize := by
  have houtcomes : w.evidence.outcomes = w.shownOutcomes.map workerEvidenceOutcome := rfl
  unfold WindowEvidence.outcomeSize
  rw [houtcomes]
  induction w.shownOutcomes with
  | nil => rfl
  | cons o rest ih =>
    simp only [List.map_cons, List.sum_cons, List.length_cons]
    omega

/-! ## The request on the wire -/

theorem length_repeatedField_utf8_le (number : Nat) (refs : List String) :
    128 * (repeatedField number utf8 refs).length ≤ 129 * textSize refs + 256 * refs.length := by
  have hfield := length_repeatedField_le number utf8 refs
  have hsize : (refs.map fun ref => (utf8 ref).length).sum = textSize refs := by
    rw [textSize]
    exact congrArg List.sum (List.map_congr_left fun ref _ => length_utf8 ref)
  omega

/-- A request that Core lets through is not refused for its length. -/
theorem WindowState.Admitted.encode_length_le {w : WindowState} {jobRef : String} (h : w.Admitted)
    (hfits : fitsWorkerRequestLimit (w.workerRequest jobRef) = true) :
    (w.workerRequest jobRef).encode.length ≤ maxMessageBytes := by
  have hcount : textSize [jobRef, w.windowText] + textSize w.allowedTargetRefs +
      textSize w.allowedBasisRefs + w.evidence.size ≤ 3 * 1024 * 1024 := by
    exact of_decide_eq_true hfits
  have hjob := length_stringField_le 1 jobRef
  have htext := length_stringField_le 2 w.windowText
  have htargets := length_repeatedField_utf8_le 3 w.allowedTargetRefs
  have hbasis := length_repeatedField_utf8_le 4 w.allowedBasisRefs
  have hevidence := length_field_le 5 w.evidence.encode
  have hencode := w.evidence.length_encode_le
  have hwindow := w.windowText_size
  have hepisodes := h.episodes_size
  have hsources := h.sources_size
  have houtcomes := h.outcomes_size
  have htargetRefs := h.allowedTargetRefs_size
  have hbasisRefs := w.allowedBasisRefs_length
  have hformation := h.formationOutcomes_le
  have hcountEpisodes := w.sum_evidence_le (f := fun _ => 1) fun _ _ _ => rfl
  have hcountSources := w.sum_evidence_le (f := fun e => e.sources.length) fun _ _ _ => rfl
  have hsizeSources := w.sum_evidence_le (f := EvidenceEpisode.sourceSize) fun _ _ _ => rfl
  have hshown := w.outcomes_shown
  have houtcomeCount : w.evidence.outcomes.length = w.shownOutcomes.length := List.length_map _
  have hrecollections : w.evidence.recollections.length = w.recollections.length := by
    simp [WindowState.evidence]
  rw [w.evidence.size_eq] at hcount
  simp only [textSize_cons, textSize_nil] at hcount
  simp only [List.map_const', List.sum_replicate_nat] at hcountEpisodes
  change w.evidence.sourceCount ≤ _ at hcountSources
  change w.evidence.sourceSize ≤ _ at hsizeSources
  simp only [WorkerRequest.encode, WindowState.workerRequest, List.length_append, maxMessageBytes]
  linarith

end ChoraMem
