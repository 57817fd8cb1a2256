/-
What a proposed window holds.

The loaders look every ref up among the rows of the window's owner.  A window that is put
to a worker is described by where each of its parts came from: rows of Episodes, of
Outcomes and their reports, and of the Memory that the Episodes were shown or the index
found.
-/
import ChoraMem.World.Isolation

namespace ChoraMem

open Txn

section

variable {store : Store} {d : Db} {owner : OwnerScope} {episodes : List EpisodeEvidence}
variable {dispositions : List ActiveDisposition} {outcomes : List FeedbackOutcome}

/-! ## Anchors and pairs -/

/-- A target that is offered has no anchors yet. -/
theorem unanchored_offerEpisode {targets targets' : List FeedbackTarget} {e : EpisodeEvidence}
    (h : ∀ t ∈ targets, t.anchorEvidence = []) (hoffer : offerEpisode d targets e = .ok targets') :
    ∀ t ∈ targets', t.anchorEvidence = [] := by
  refine foldlM_keeps (P := fun ts : List FeedbackTarget => ∀ t ∈ ts, t.anchorEvidence = [])
    (fun ts row ts' _ hts hrow => ?_) hoffer h
  unfold offerRow at hrow
  split at hrow
  · obtain rfl := Except.ok.inj hrow
    intro t ht
    rcases List.mem_append.mp ht with ht | ht
    · exact hts t ht
    · rw [List.mem_singleton.mp ht]
      rfl
  · rename_i t₀ hfind
    split at hrow
    · cases hrow
    · obtain rfl := Except.ok.inj hrow
      intro t ht
      rcases mem_updateRow.mp ht with ⟨ht, _⟩ | rfl
      · exact hts t ht
      · exact hts t₀ (List.mem_of_find?_eq_some hfind)

theorem unanchored_offerDirects {targets : List FeedbackTarget}
    (h : ∀ t ∈ targets, t.anchorEvidence = []) :
    ∀ t ∈ offerDirects episodes dispositions targets, t.anchorEvidence = [] := by
  have hstep : ∀ (ts : List FeedbackTarget) (a : ActiveDisposition),
      (∀ t ∈ ts, t.anchorEvidence = []) → ∀ t ∈ offerDirect (windowOwner episodes)
        (directEpisodes episodes) ts a, t.anchorEvidence = [] := by
    intro ts a hts t ht
    have hbase : ((ts.find? (·.versionRef == a.versionRef)).getD a.target).anchorEvidence = [] := by
      cases hfind : ts.find? (·.versionRef == a.versionRef) with
      | none => rfl
      | some t₀ => exact hts t₀ (List.mem_of_find?_eq_some hfind)
    rcases mem_updateRow.mp (show t ∈ updateRow FeedbackTarget.versionRef _ ts from ht) with
      ⟨ht, _⟩ | rfl
    · exact hts t ht
    · split <;> exact hbase
  unfold offerDirects
  dsimp only
  split
  · exact h
  · clear * - hstep h
    induction dispositions generalizing targets with
    | nil => exact h
    | cons a rest ih => exact ih (hstep targets a h)

theorem anchors_of_loadBasisState {t t' : FeedbackTarget} (h : t.anchorEvidence = [])
    (hload : loadBasisState d t = .ok t') : ∀ e ∈ t'.anchorEvidence, loadEpisode e.ref d = some e := by
  unfold loadBasisState loadAnchors at hload
  split at hload
  · obtain rfl := Except.ok.inj hload
    intro e he
    have hnil : e ∈ t.anchorEvidence := he
    rw [h] at hnil
    exact absurd hnil List.not_mem_nil
  · split at hload
    · cases hload
    · rename_i anchors owner hanchors
      split at hload
      · cases hload
      · obtain rfl := Except.ok.inj hload
        exact (loadConsolidationEpisodes_ok hanchors).1.loaded

/-- The anchors of a target were loaded. -/
theorem loadFeedbackState_anchors {outcomeRefs : List String} {targets : List FeedbackTarget}
    (h : loadFeedbackState episodes outcomeRefs dispositions d = .ok (targets, outcomes)) :
    ∀ t ∈ targets, ∀ e ∈ t.anchorEvidence, loadEpisode e.ref d = some e := by
  unfold loadFeedbackState at h
  cases hoffer : episodes.foldlM (offerEpisode d) [] with
  | error e =>
    rw [hoffer] at h
    cases h
  | ok offered =>
    rw [hoffer] at h
    simp only [bind, Except.bind] at h
    cases hbasis : (offerDirects episodes dispositions offered).mapM (loadBasisState d) with
    | error e =>
      rw [hbasis] at h
      cases h
    | ok loaded =>
      rw [hbasis] at h
      simp only at h
      cases hout : outcomeRefs.mapM (loadFeedbackOutcome episodes d) with
      | error e =>
        rw [hout] at h
        cases h
      | ok found =>
        rw [hout] at h
        obtain ⟨rfl, rfl⟩ := Prod.mk.inj (Except.ok.inj h)
        intro t ht
        obtain ⟨t₁, ht₁, rfl⟩ := List.mem_map.mp ht
        obtain ⟨t₀, ht₀, hload⟩ := (mapM_ok hbasis).1 t₁ ht₁
        have hoffered : ∀ t ∈ offered, t.anchorEvidence = [] :=
          foldlM_keeps (P := fun ts : List FeedbackTarget => ∀ t ∈ ts, t.anchorEvidence = [])
            (fun ts e ts' _ hts he => unanchored_offerEpisode hts he) hoffer
            fun t ht => absurd ht List.not_mem_nil
        exact fun e he => anchors_of_loadBasisState (unanchored_offerDirects hoffered t₀ ht₀) hload e he

/-- The Outcome that founds with an Episode is a row of the Episode's. -/
theorem loadUniqueNonAgentFormationOutcome_row {ref : String} {o : FeedbackOutcome}
    (h : loadUniqueNonAgentFormationOutcome owner ref d = some o) :
    o.founding = true ∧ ∃ row ∈ d.outcomes, ∃ s, outcomeSource row d = some s ∧
      o = { row.feedback s with deliveryRefs := [] } ∧ row.group.scope.owner = owner ∧
        row.episodeRef = ref := by
  unfold loadUniqueNonAgentFormationOutcome at h
  have hmem : o ∈ ((d.outcomes.filter fun o =>
      decide (o.group.scope.owner = owner) && decide (o.episodeRef = ref)).filterMap fun o =>
        (outcomeSource o d).map fun s => { o.feedback s with deliveryRefs := [] }).filter
          FeedbackOutcome.founding := by
    revert h
    generalize List.filter FeedbackOutcome.founding _ = found
    intro h
    match found, h with
    | [_], rfl => exact List.mem_cons_self
  obtain ⟨hmem, hfounding⟩ := List.mem_filter.mp hmem
  obtain ⟨row, hrow, hsource⟩ := List.mem_filterMap.mp hmem
  obtain ⟨source, hs, rfl⟩ := Option.map_eq_some_iff.mp hsource
  obtain ⟨hrow, hkey⟩ := List.mem_filter.mp hrow
  simp only [Bool.and_eq_true, decide_eq_true_eq] at hkey
  exact ⟨hfounding, row, hrow, source, hs, rfl, hkey⟩

/-- The Outcome of a pair is the one that founds with its Episode. -/
theorem paired_load {refs : List String} :
    ∀ pair ∈ (loadDispositionFormationPairs owner episodes outcomes refs d).pairs,
      loadUniqueNonAgentFormationOutcome owner pair.episode.ref d = some pair.outcome := by
  have hstep : ∀ (found : FormationPairs) (ref : String),
      (∀ pair ∈ found.pairs,
        loadUniqueNonAgentFormationOutcome owner pair.episode.ref d = some pair.outcome) →
      ∀ pair ∈ (addFormationCandidate owner episodes d found ref).pairs,
        loadUniqueNonAgentFormationOutcome owner pair.episode.ref d = some pair.outcome := by
    intro found ref h
    unfold addFormationCandidate
    split
    · exact h
    split
    · exact h
    split
    · exact h
    split
    · exact h
    rename_i o ho
    intro pair hpair
    rcases List.mem_append.mp hpair with hpair | hpair
    · exact h pair hpair
    · rw [List.mem_singleton.mp hpair]
      exact ho
  have hfold : ∀ (l : List String) (found : FormationPairs),
      (∀ pair ∈ found.pairs,
        loadUniqueNonAgentFormationOutcome owner pair.episode.ref d = some pair.outcome) →
      ∀ pair ∈ (l.foldl (addFormationCandidate owner episodes d) found).pairs,
        loadUniqueNonAgentFormationOutcome owner pair.episode.ref d = some pair.outcome := by
    intro l
    induction l with
    | nil => exact fun found h => h
    | cons ref rest ih => exact fun found h => ih _ (hstep found ref h)
  unfold loadDispositionFormationPairs
  split
  · exact fun pair hpair => absurd hpair List.not_mem_nil
  split
  · exact fun pair hpair => absurd hpair List.not_mem_nil
  rename_i canonical hcanonical
  split
  · exact fun pair hpair => absurd hpair List.not_mem_nil
  · refine hfold refs _ fun pair hpair => ?_
    rw [List.mem_singleton.mp hpair]
    exact hcanonical

theorem mem_mergeOutcomes {pairs : List DispositionFormationPair} {outcomes : List FeedbackOutcome}
    {o : FeedbackOutcome} (h : o ∈ mergeOutcomes pairs outcomes) :
    o ∈ outcomes ∨ ∃ pair ∈ pairs, o = pair.outcome := by
  induction pairs generalizing outcomes with
  | nil => exact Or.inl h
  | cons pair rest ih =>
    rcases ih (show o ∈ mergeOutcomes rest _ from h) with h | ⟨pair', hpair', rfl⟩
    · rcases mem_updateRow.mp h with ⟨h, _⟩ | rfl
      · exact Or.inl h
      · exact Or.inr ⟨pair, List.mem_cons_self, rfl⟩
    · exact Or.inr ⟨pair', List.mem_cons_of_mem _ hpair', rfl⟩

/-- A ref that is there stays, and the ref of a pair gets there. -/
theorem mergeOutcomes_has {pairs : List DispositionFormationPair} {outcomes : List FeedbackOutcome}
    {ref : String} (h : (∃ o ∈ outcomes, o.ref = ref) ∨ ∃ pair ∈ pairs, pair.outcome.ref = ref) :
    ∃ o ∈ mergeOutcomes pairs outcomes, o.ref = ref := by
  induction pairs generalizing outcomes with
  | nil =>
    rcases h with h | ⟨_, hpair, _⟩
    · exact h
    · exact absurd hpair List.not_mem_nil
  | cons pair rest ih =>
    refine @ih (updateRow FeedbackOutcome.ref pair.outcome outcomes) ?_
    by_cases href : pair.outcome.ref = ref
    · exact Or.inl ⟨pair.outcome, self_mem_updateRow, href⟩
    · rcases h with ⟨o, ho, hor⟩ | ⟨pair', hpair', href'⟩
      · exact Or.inl ⟨o, mem_updateRow.mpr (Or.inl ⟨ho, fun heq => href (heq ▸ hor)⟩), hor⟩
      · rcases List.mem_cons.mp hpair' with rfl | hpair'
        · exact absurd href' href
        · exact Or.inr ⟨pair', hpair', href'⟩

/-! ## The window -/

/-- Where the parts of a window came from. -/
structure WindowState.Loaded (store : Store) (window : Window) (d : Db) (w : WindowState) :
    Prop where
  episodes : LoadedEpisodes window.episodeRefs d w.episodes (windowOwner w.episodes)
  related : ∀ e ∈ w.related, OwnEpisode (windowOwner w.episodes) d e
  dispositions : ∃ refs, w.dispositions =
    store.loadActiveDispositions (windowOwner w.episodes) w.episodes refs d
  recollections : ∃ refs, w.recollections =
    store.loadActiveRecollections (windowOwner w.episodes) w.episodes refs d
  targets : ∃ outcomes, (∀ o ∈ outcomes, ∃ o' ∈ w.outcomes, o'.ref = o.ref) ∧
    loadFeedbackState w.episodes window.outcomeEventRefs w.dispositions d = .ok (w.targets, outcomes)
  outcomes : ∀ o ∈ w.outcomes,
    (∃ ref ∈ window.outcomeEventRefs, loadFeedbackOutcome w.episodes d ref = .ok o) ∨
      ∃ pair ∈ w.pairs, o = pair.outcome
  pairs : ∀ pair ∈ w.pairs, pair.episode ∈ w.episodes ∨
    OwnEpisode (windowOwner w.episodes) d pair.episode
  unique : ∀ pair ∈ w.pairs, loadUniqueNonAgentFormationOutcome (windowOwner w.episodes)
    pair.episode.ref d = some pair.outcome
  paired : ∀ pair ∈ w.pairs, ∃ o ∈ w.outcomes, o.ref = pair.outcome.ref

/-- What the loaders return makes a window, whatever the index answered. -/
theorem loaded_window {window : Window} {dispositionRefs recollectionRefs : List String}
    {formation : Option (List String)} {related : List EpisodeEvidence}
    {targets : List FeedbackTarget} {outcomes : List FeedbackOutcome}
    (hepisodes : LoadedEpisodes window.episodeRefs d episodes (windowOwner episodes))
    (hrelated : ∀ e ∈ related, OwnEpisode (windowOwner episodes) d e)
    (hstate : loadFeedbackState episodes window.outcomeEventRefs
      (store.loadActiveDispositions (windowOwner episodes) episodes dispositionRefs d) d =
        .ok (targets, outcomes)) :
    (WindowState.withPairs
      { episodes := episodes, related := related, outcomes := outcomes, targets := targets,
        dispositions :=
          store.loadActiveDispositions (windowOwner episodes) episodes dispositionRefs d,
        recollections :=
          store.loadActiveRecollections (windowOwner episodes) episodes recollectionRefs d,
        pairs := [] }
      (formation.map fun refs =>
        loadDispositionFormationPairs (windowOwner episodes) episodes outcomes refs d)).Loaded
          store window d := by
  have hown : ∀ o ∈ outcomes, ∃ ref ∈ window.outcomeEventRefs,
      loadFeedbackOutcome episodes d ref = .ok o := (mapM_ok (loadFeedbackState_ok hstate).2).1
  cases formation with
  | none =>
    exact ⟨hepisodes, hrelated, ⟨_, rfl⟩, ⟨_, rfl⟩, ⟨outcomes, fun o ho => ⟨o, ho, rfl⟩, hstate⟩,
      fun o ho => Or.inl (hown o ho), fun pair hpair => absurd hpair List.not_mem_nil,
      fun pair hpair => absurd hpair List.not_mem_nil,
      fun pair hpair => absurd hpair List.not_mem_nil⟩
  | some refs =>
    have hpairs : (loadDispositionFormationPairs (windowOwner episodes) episodes outcomes refs d).Own
        (windowOwner episodes) episodes d := own_loadDispositionFormationPairs
    refine ⟨hepisodes, fun e he => ?_, ⟨_, rfl⟩, ⟨_, rfl⟩, ⟨outcomes, fun o ho => ?_, hstate⟩,
      fun o ho => ?_, hpairs.pairs, paired_load, fun pair hpair => ?_⟩
    · rcases mem_mergeRelated he with he | he
      · exact hpairs.related e he
      · exact hrelated e he
    · exact mergeOutcomes_has (Or.inl ⟨o, ho, rfl⟩)
    · rcases mem_mergeOutcomes ho with ho | hpair
      · exact Or.inl (hown o ho)
      · exact Or.inr hpair
    · exact mergeOutcomes_has (Or.inr ⟨pair, hpair, rfl⟩)

theorem loaded_propose {index : Option MemoryIndex} {window : Window} {found : MemoryIndexCandidates}
    {related : List EpisodeEvidence} {p : Proposal}
    (hepisodes : LoadedEpisodes window.episodeRefs d episodes (windowOwner episodes))
    (hrelated : ∀ e ∈ related, OwnEpisode (windowOwner episodes) d e)
    (h : store.propose index window episodes found related d = .ok p) :
    ∃ w : WindowState, w.Loaded store window d ∧ p.request = w.workerRequest window.jobRef := by
  simp only [Store.propose, bind, Except.bind, pure, Except.pure] at h
  split at h
  · cases h
  rename_i state hstate
  obtain ⟨targets, outcomes⟩ := state
  obtain rfl := Except.ok.inj h
  exact ⟨_, loaded_window hepisodes hrelated hstate, rfl⟩

/-- A commit loads its window the same way. -/
theorem loaded_reloaded {p : Proposal} {w : WindowState} (hvalid : p.window.valid = true)
    (h : store.reloaded p d = .ok w) : w.Loaded store p.window d := by
  unfold Store.reloaded at h
  split at h
  · cases h
  rename_i episodes owner hload
  split at h
  · cases h
  rename_i howner
  obtain rfl := of_not_not howner
  obtain ⟨hepisodes, hwindow⟩ := loadConsolidationEpisodes_ok hload
  have hnil := episodes_ne_nil hvalid hepisodes
  split at h
  · cases h
  rename_i targets outcomes hstate
  obtain rfl := Except.ok.inj h
  unfold Store.windowState
  rw [← hwindow hnil] at hepisodes hstate ⊢
  exact loaded_window hepisodes own_loadIndexed hstate

theorem loaded_snapshot {index : Option MemoryIndex} {window : Window} {p : Proposal}
    (h : store.snapshotWindow index window d = .ok (.proposed p)) :
    ∃ w : WindowState, w.Loaded store window d ∧ p.request = w.workerRequest window.jobRef := by
  obtain ⟨episodes, related, found, hload, hrelated, hpropose⟩ := snapshot_propose h
  exact loaded_propose hload hrelated hpropose

namespace WindowState.Loaded

variable {window : Window} {w : WindowState}

theorem rooted (h : w.Loaded store window d) (t : FeedbackTarget) (ht : t ∈ w.targets) :
    t.Rooted d := by
  obtain ⟨_, _, hstate⟩ := h.targets
  obtain ⟨refs, hdispositions⟩ := h.dispositions
  rw [hdispositions] at hstate
  exact (rooted_of_loaded ((loadFeedbackState_ok hstate).1 t ht)).elim id id

theorem loadAnchors (h : w.Loaded store window d) (e : EpisodeEvidence) (he : e ∈ w.anchors) :
    loadEpisode e.ref d = some e := by
  obtain ⟨_, _, hstate⟩ := h.targets
  obtain ⟨ref, _, hfound⟩ := List.mem_filterMap.mp he
  obtain ⟨t, ht, hanchor⟩ := List.mem_flatMap.mp (episodeByRef_some hfound).1
  obtain ⟨anchorRef, _, hanchor⟩ := List.mem_filterMap.mp hanchor
  obtain ⟨versionRef, _, ht⟩ := List.mem_filterMap.mp ht
  exact loadFeedbackState_anchors hstate t (List.mem_of_find?_eq_some ht) e
    (episodeByRef_some hanchor).1

/-- The Episode of an Outcome is one that the store has. -/
theorem outcomeEpisode (h : w.Loaded store window d) (o : FeedbackOutcome) (ho : o ∈ w.outcomes) :
    ∃ e, loadEpisode e.ref d = some e ∧ e.ref = o.episodeRef := by
  rcases h.outcomes o ho with ⟨ref, _, hfound⟩ | ⟨pair, hpair, rfl⟩
  · obtain ⟨e, he, href⟩ := (loadFeedbackOutcome_ok hfound).2.1
    exact ⟨e, h.episodes.loaded e he, href⟩
  · obtain ⟨_, row, _, _, _, hrow, _, href⟩ :=
      loadUniqueNonAgentFormationOutcome_row (h.unique pair hpair)
    refine ⟨pair.episode, ?_, ?_⟩
    · rcases h.pairs pair hpair with he | he
      · exact h.episodes.loaded _ he
      · exact he.2
    · rw [hrow]
      exact href.symm

end WindowState.Loaded

end

end ChoraMem
