/-
Committed feedback is read back.

A selection reads the feedback of a Disposition through Episodes of the Disposition's own
owner.  A relationship's window may reenact or inhibit its agent's Disposition, and that
feedback is never read.  Without it, every inhibition of a version is among the anchors
of its candidate, and every reenactment is counted.
-/
import ChoraMem.World.Anchors

namespace ChoraMem

open Txn Versions

/-- The Episodes of a version's reenactments. -/
def reenactmentRefs (v : SeedVersionRow) (d : Db) : List String :=
  basisRefs (· == .reenactment) (versionBasis v.tenantRef v.ref d.seedBasis)

/-- Wherever an active version is a candidate, the Situations of its inhibitions are
anchors, and its reenactments are counted. -/
def FeedbackEffective (d : Db) : Prop :=
  ∀ v ∈ d.seedVersions, v.status = .active → ∀ scope limit refs,
    ∀ c ∈ loadDispositionCandidates scope limit refs d, c.versionRef = v.ref →
      (∀ ref ∈ basisRefs (· == .inhibition) (versionBasis v.tenantRef v.ref d.seedBasis),
        ∃ e, loadEpisode ref d = some e ∧ ∀ s ∈ e.sources, s.role = .situation →
          (⟨e.ref, s.ref, s.text⟩ : Anchor) ∈ c.inhibition) ∧
      c.reenactments = (reenactmentRefs v d).dedup.length

section

variable {d : Db} {owner : OwnerScope} {b : BasisRow} {x : Anchor}

theorem mem_situationAnchors {row : EpisodeRow} : x ∈ situationAnchors row d ↔
    ∃ s ∈ (episodeEvidence row d).sources, s.role = .situation ∧ x = ⟨row.ref, s.ref, s.text⟩ := by
  simp only [situationAnchors, List.mem_map, List.mem_filter, beq_iff_eq, and_assoc]
  constructor
  · rintro ⟨s, hs, hrole, rfl⟩
    exact ⟨s, hs, hrole, rfl⟩
  · rintro ⟨s, hs, hrole, rfl⟩
    exact ⟨s, hs, hrole, rfl⟩

/-- A complete Episode has a Situation. -/
theorem exists_situation {e : EpisodeEvidence} (h : episodeHasFormationRoles e = true) :
    ∃ s ∈ e.sources, s.role = .situation := by
  unfold episodeHasFormationRoles at h
  simp only [List.any_eq_true, Bool.and_eq_true, beq_iff_eq] at h
  obtain ⟨s, hs, hrole, _⟩ := h
  exact ⟨s, hs, hrole⟩

/-- A row of the owner's Episode has its Situations as anchors, at least one. -/
theorem basisAnchors_owned (h : OwnedEpisode owner b.basisRef d) :
    ∃ e, loadEpisode b.basisRef d = some e ∧ (∃ s ∈ e.sources, s.role = .situation) ∧
      ∀ s ∈ e.sources, s.role = .situation →
        (⟨e.ref, s.ref, s.text⟩ : Anchor) ∈ basisAnchors owner d b := by
  obtain ⟨e, he, howner⟩ := h
  obtain ⟨row, hrow, href, heq, _, hroles⟩ := loadEpisode_row he
  refine ⟨e, he, exists_situation hroles, fun s hs hrole => ?_⟩
  subst heq
  refine List.mem_flatMap.mpr ⟨row, List.mem_filter.mpr ⟨hrow, ?_⟩, ?_⟩
  · have hown : row.group.scope.owner = owner := howner
    simp [href, hown]
  · exact mem_situationAnchors.mpr ⟨s, hs, hrole, rfl⟩

theorem episodeRef_of_basisAnchors (h : x ∈ basisAnchors owner d b) : x.episodeRef = b.basisRef := by
  obtain ⟨row, hrow, hx⟩ := List.mem_flatMap.mp h
  obtain ⟨s, _, _, rfl⟩ := mem_situationAnchors.mp hx
  have href := (List.mem_filter.mp hrow).2
  simp only [Bool.and_eq_true, decide_eq_true_eq] at href
  exact href.2

theorem mem_sortBasis {basis : List BasisRow} : b ∈ sortBasis basis ↔ b ∈ basis :=
  List.mem_insertionSort _

theorem mem_boundedCatalogue_of {α : Type} {ref : α → String} {limit : Nat}
    {refs : Option (List String)} {catalogue : List α} {a : α}
    (h : a ∈ boundedCatalogue ref limit refs catalogue) : a ∈ catalogue :=
  (List.mem_filter.mp ((List.mem_insertionSort _).mp (List.mem_of_mem_take h))).1

/-- What a candidate of the catalogue is made of. -/
theorem dispositionCandidate_of {scope : Scope} {limit : Nat} {refs : Option (List String)}
    {c : Candidate} (h : c ∈ loadDispositionCandidates scope limit refs d) :
    ∃ owner, ∃ a ∈ ownedDispositions owner d, ∃ n, dispositionCandidate n d a = some c := by
  obtain ⟨o, _, hc⟩ := List.mem_flatMap.mp h
  obtain ⟨a, ha, hcandidate⟩ := List.mem_filterMap.mp hc
  exact ⟨o.1, a, mem_boundedCatalogue_of ha, o.2, hcandidate⟩

theorem fields_dispositionCandidate {a : ActiveDisposition} {n : Nat} {c : Candidate}
    (h : dispositionCandidate n d a = some c) : c.versionRef = a.versionRef ∧
      c.inhibition = (((sortBasis (versionBasis a.owner.tenantRef a.versionRef d.seedBasis)).filter
        fun b => b.role == .inhibition).flatMap (basisAnchors a.owner d)) ∧
      c.reenactments = ((((sortBasis (versionBasis a.owner.tenantRef a.versionRef
        d.seedBasis)).filter fun b => b.role == .reenactment).flatMap
          (basisAnchors a.owner d)).map (·.episodeRef)).dedup.length := by
  unfold dispositionCandidate at h
  dsimp only at h
  split at h
  · cases h
  · obtain rfl := Option.some.inj h
    exact ⟨rfl, rfl, rfl⟩

/-- Rows of the owner's Episodes are counted by their Episodes. -/
theorem length_dedup_anchors {rows : List BasisRow}
    (h : ∀ b ∈ rows, OwnedEpisode owner b.basisRef d) :
    ((rows.flatMap (basisAnchors owner d)).map (·.episodeRef)).dedup.length =
      (rows.map (·.basisRef)).dedup.length := by
  refine ((List.perm_ext_iff_of_nodup (List.nodup_dedup _) (List.nodup_dedup _)).mpr
    fun ref => ?_).length_eq
  rw [List.mem_dedup, List.mem_dedup, List.mem_map, List.mem_map]
  constructor
  · intro ⟨x, hx, href⟩
    obtain ⟨b, hb, hanchor⟩ := List.mem_flatMap.mp hx
    exact ⟨b, hb, (episodeRef_of_basisAnchors hanchor).symm.trans href⟩
  · intro ⟨b, hb, href⟩
    obtain ⟨e, _, ⟨s, hs, hrole⟩, hall⟩ := basisAnchors_owned (h b hb)
    have hx := hall s hs hrole
    exact ⟨_, List.mem_flatMap.mpr ⟨b, hb, hx⟩, (episodeRef_of_basisAnchors hx).trans href⟩

end

/-- When no REENACT and no INHIBIT that a commit accepts is about a Disposition of another
owner than the window's, committed feedback is read back. -/
theorem feedback_effective (store : Store) (hhash : Collisionless store) {s : MemorySys}
    (h : MemoryReachIf store (OwnCommits store BasisRole.consumes) s) : FeedbackEffective s.db := by
  have hlaw := (worldLaw_reach hhash h).memory
  have hown := ownBasis_reach hhash h
  intro v hv _ scope limit refs c hc hversion
  obtain ⟨owner, a, ha, n, hcandidate⟩ := dispositionCandidate_of hc
  obtain ⟨hca, hinhibition, hreenactments⟩ := fields_dispositionCandidate hcandidate
  obtain ⟨r, hr, rfl, v', hv', htenant, hroot, _, rfl⟩ := mem_ownedDispositions.mp ha
  have hsame : v' = v := hlaw.keys.seedVersions.eq hv' hv (hca.symm.trans hversion)
  subst hsame
  -- Every row of feedback of the version cites an Episode of its owner.
  have hrows : ∀ b ∈ versionBasis v'.tenantRef v'.ref s.db.seedBasis, b.role.consumes = true →
      OwnedEpisode r.owner b.basisRef s.db := by
    intro b hb hrole
    obtain ⟨hmem, _, href⟩ := mem_versionBasis.mp hb
    refine hown.owned hlaw hmem hrole hr (n := v'.number) ?_
    rw [href, ← hroot]
    exact hlaw.seedName hv
  dsimp only at hinhibition hreenactments
  rw [← htenant] at hinhibition hreenactments
  constructor
  · intro ref href
    obtain ⟨b, hb, hrole, rfl⟩ := mem_basisRefs.mp href
    have hrole' : b.role = .inhibition := by simpa using hrole
    obtain ⟨e, he, _, hall⟩ := basisAnchors_owned (hrows b hb (by rw [hrole']; rfl))
    refine ⟨e, he, fun s' hs' hsituation => ?_⟩
    rw [hinhibition]
    exact List.mem_flatMap.mpr ⟨b, List.mem_filter.mpr ⟨mem_sortBasis.mpr hb, hrole⟩,
      hall s' hs' hsituation⟩
  · rw [hreenactments, Int.natCast_inj]
    refine (@length_dedup_anchors _ r.owner _ ?_).trans ?_
    · intro b hb
      obtain ⟨hmem, hrole⟩ := List.mem_filter.mp hb
      have hrole' : b.role = .reenactment := by simpa using hrole
      exact hrows b (mem_sortBasis.mp hmem) (by rw [hrole']; rfl)
    · refine ((List.perm_ext_iff_of_nodup (List.nodup_dedup _) (List.nodup_dedup _)).mpr
        fun ref => ?_).length_eq
      rw [List.mem_dedup, List.mem_dedup]
      unfold reenactmentRefs
      rw [mem_basisRefs]
      simp only [List.mem_map, List.mem_filter, mem_sortBasis, and_assoc]

/-! The agent reenacts its own Disposition in one run, and inhibits it in another. -/

/-- Two runs of the agent itself are shown the adapted Disposition. -/
def selfCalls : List MemoryCommand :=
  feedbackCalls 4 agentScope "2" (adaptedRef 1) ++ feedbackCalls 8 agentScope "3" (adaptedRef 1)

/-- The Episode of the run is consolidated, and the Disposition is reenacted. -/
def reenactTask (n : Nat) (job : String) (scope : Scope) (run : String) : Task :=
  { call := n, jobRef := job, episodes := [sampleEpisodeRef scope run],
    changes := [⟨adaptedRef 1, .self, .reenact, "", [sampleEpisodeRef scope run]⟩] }

def selfReenact : Task := reenactTask 12 "k" agentScope "2"

def selfInhibit : Task := feedbackTask 13 "l" agentScope "3" (adaptedRef 1) .inhibit ""

def sampleShown : MemorySys := sampleStore.calls selfCalls sampleAdapted

def sampleReenacted : MemorySys := play [.task selfReenact] sampleShown

def sampleLearned : MemorySys := play [.task selfInhibit] sampleReenacted

def shownDb : Db := (played (selfCalls.map .call) adaptedDb).getD {}

def reenactedDb : Db := (selfReenact.after shownDb).getD {}

def learnedDb : Db := (selfInhibit.after reenactedDb).getD {}

/-- Everything that feedback on the window can be about is the window's owner's. -/
def OneOwner (t : Task) (d : Db) : Prop :=
  (loadConsolidationEpisodes t.episodes d).toOption.map (·.2) = some agentScope.owner ∧
    ∀ r ∈ d.seeds, r.owner = agentScope.owner

instance (t : Task) (d : Db) : Decidable (OneOwner t d) := inferInstanceAs (Decidable (_ ∧ _))

theorem own_of_oneOwner {roles : BasisRole → Bool} {t : Task} {d : Db} {p : Proposal}
    (h : OneOwner t d) (hp : Proposed sampleStore p d) (hwindow : p.window = t.window) :
    OwnFeedback roles d p t.changes := by
  obtain ⟨episodes, _, _, horigin⟩ := hp
  have hload := horigin.window
  rw [hwindow] at hload
  have howner : some p.owner = some agentScope.owner := by
    rw [← h.1, show loadConsolidationEpisodes t.episodes d = _ from hload]
    rfl
  exact ownFeedback_of_owners fun r hr => (h.2 r hr).trans (Option.some.inj howner).symm

theorem learnTasks_written : selfReenact.Written ∧ selfInhibit.Written := by
  decide +kernel

theorem learn_runs :
    (played (selfCalls.map .call) adaptedDb).isSome ∧ (selfReenact.after shownDb).isSome ∧
    (selfInhibit.after reenactedDb).isSome ∧ OneOwner selfReenact shownDb ∧
    OneOwner selfInhibit reenactedDb ∧ reenactedDb.seedBasis.length ≠ learnedDb.seedBasis.length ∧
    ((loadDispositionCandidates agentScope 10 none learnedDb).map fun c =>
      (c.versionRef, c.inhibition.map (·.episodeRef), c.reenactments)) =
        [(adaptedRef 1, [sampleEpisodeRef agentScope "3"], 1)] := by
  decide +kernel

theorem sampleShown_reach : MemoryReach sampleStore sampleShown ∧ sampleShown.Quiet :=
  reach_calls sampleAdapted_reach.2 sampleAdapted_reach.1 _

theorem sampleReenacted_reach : MemoryReach sampleStore sampleReenacted ∧ sampleReenacted.Quiet :=
  reach_calls sampleShown_reach.2 sampleShown_reach.1 _

theorem sampleShown_db : sampleShown.db = shownDb := by
  have h := play_db sampleAdapted_db (@written_calls selfCalls) (some_getD learn_runs.1 {})
  rw [play_calls] at h
  exact h

theorem sampleReenacted_db : sampleReenacted.db = reenactedDb :=
  play_db sampleShown_db (written_task learnTasks_written.1)
    (played_task (some_getD learn_runs.2.1 _))

theorem sampleLearned_db : sampleLearned.db = learnedDb :=
  play_db sampleReenacted_db (written_task learnTasks_written.2)
    (played_task (some_getD learn_runs.2.2.1 _))

theorem sampleLearned_own (roles : BasisRole → Bool) :
    MemoryReachIf sampleStore (OwnAnswers roles) sampleLearned := by
  obtain ⟨_, _, _, hreenact, hinhibit, _⟩ := learn_runs
  have hshown : MemoryReachIf sampleStore (OwnAnswers roles) sampleShown := by
    refine own_calls sampleAdapted_reach.2 (sampleAdapted_own roles) selfCalls ?_
    intro c hc index env window worker heq
    subst heq
    simp [selfCalls, feedbackCalls, deliveredCalls, observeCall, selectCall] at hc
  have hreenacted : MemoryReachIf sampleStore (OwnAnswers roles) sampleReenacted :=
    (reachIf_call sampleShown_reach.2 hshown selfReenact.command fun a d hrun =>
      ownAnswers_of_task learnTasks_written.1 hrun fun p hp hwindow =>
        own_of_oneOwner (by rw [sampleShown_db]; exact hreenact) hp hwindow).1
  exact (reachIf_call sampleReenacted_reach.2 hreenacted selfInhibit.command fun a d hrun =>
    ownAnswers_of_task learnTasks_written.2 hrun fun p hp hwindow =>
      own_of_oneOwner (by rw [sampleReenacted_db]; exact hinhibit) hp hwindow).1

/-- The candidate has the Situation of the one run as an anchor, and counts the other run. -/
theorem feedback_effective_learned :
    ((loadDispositionCandidates agentScope 10 none sampleLearned.db).map fun c =>
      (c.versionRef, c.inhibition.map (·.episodeRef), c.reenactments)) =
        [(adaptedRef 1, [sampleEpisodeRef agentScope "3"], 1)] ∧
    FeedbackEffective sampleLearned.db := by
  refine ⟨?_, feedback_effective sampleStore sampleStore_collisionless
    (ownCommits_of_answers sampleStore_collisionless (sampleLearned_own _))⟩
  rw [sampleLearned_db]
  exact learn_runs.2.2.2.2.2.2

/-! A relationship inhibits, or reenacts, its agent's Disposition. -/

def crossInhibit : Task := feedbackTask 8 "k" sampleScope "2" (adaptedRef 1) .inhibit ""

def crossReenact : Task := reenactTask 8 "k" sampleScope "2"

def sampleInhibitedAcross : MemorySys := play [.task crossInhibit] sampleFed

def sampleReenactedAcross : MemorySys := play [.task crossReenact] sampleFed

theorem crossTasks_written : crossInhibit.Written ∧ crossReenact.Written := by
  decide +kernel

/-- A version is a candidate without its feedback. -/
def FeedbackLost (d : Db) : Prop :=
  ∃ v ∈ d.seedVersions, v.status = .active ∧
    ∃ c ∈ loadDispositionCandidates sampleScope 10 none d, c.versionRef = v.ref ∧
      c.inhibition = [] ∧ c.reenactments = 0 ∧
      ((∃ ref ∈ basisRefs (· == .inhibition) (versionBasis v.tenantRef v.ref d.seedBasis),
          (loadEpisode ref d).any (fun e => e.sources.any (·.role == .situation)) = true) ∨
        reenactmentRefs v d ≠ [])

theorem FeedbackLost.not_effective {d : Db} (hlost : FeedbackLost d) : ¬FeedbackEffective d := by
  intro h
  obtain ⟨v, hv, hactive, c, hc, href, hinhibition, hreenactments, hbasis⟩ := hlost
  obtain ⟨hi, hr⟩ := h v hv hactive sampleScope 10 none c hc href
  rcases hbasis with ⟨ref, hmem, he⟩ | hbasis
  · obtain ⟨e, hload, hall⟩ := hi ref hmem
    rw [hload, Option.any_some] at he
    obtain ⟨s, hs, hrole⟩ := List.any_eq_true.mp he
    have hanchor := hall s hs (by simpa using hrole)
    rw [hinhibition] at hanchor
    cases hanchor
  · have hnil : (reenactmentRefs v d).dedup.length = 0 := by omega
    exact hbasis ((List.dedup_eq_nil _).mp (List.length_eq_zero_iff.mp hnil))

theorem cross_runs :
    (crossInhibit.after fedDb).isSome ∧ (crossReenact.after fedDb).isSome ∧
      FeedbackLost ((crossInhibit.after fedDb).getD {}) ∧
      FeedbackLost ((crossReenact.after fedDb).getD {}) := by
  unfold FeedbackLost
  decide +kernel

/-- A task on the feedback of the relationship leads here. -/
theorem across_db {t : Task} (hwritten : t.Written) (h : (t.after fedDb).isSome) :
    (play [.task t] sampleFed).db = (t.after fedDb).getD {} :=
  play_db sampleFed_db (written_task hwritten) (played_task (some_getD h _))

theorem feedback_effective_crossed :
    (MemoryReach sampleStore sampleInhibitedAcross ∧ ¬FeedbackEffective sampleInhibitedAcross.db) ∧
      MemoryReach sampleStore sampleReenactedAcross ∧
      ¬FeedbackEffective sampleReenactedAcross.db := by
  obtain ⟨hinhibit, hreenact, hlost, hlost'⟩ := cross_runs
  have hreach := fun t : Task =>
    (reach_calls sampleFed_reach.2 sampleFed_reach.1 [t.command]).1
  refine ⟨⟨hreach crossInhibit, FeedbackLost.not_effective ?_⟩, hreach crossReenact,
    FeedbackLost.not_effective ?_⟩
  · rw [sampleInhibitedAcross, across_db crossTasks_written.1 hinhibit]
    exact hlost
  · rw [sampleReenactedAcross, across_db crossTasks_written.2 hreenact]
    exact hlost'

end ChoraMem
