/-
What a proposal promises.

A proposal is made from one state of the store.  Its locks are those of the window's
owner and of the owners of the targets in that state, and the digest it carries tells
whether a later state has a target of another owner.
-/
import ChoraMem.World.Sight

namespace ChoraMem

open Txn Versions

/-- What a proposal was made from. -/
structure Origin (store : Store) (p : Proposal) (x : Db) (episodes : List EpisodeEvidence)
    (targets : List FeedbackTarget) (outcomes : List FeedbackOutcome) : Prop where
  valid : p.window.valid = true
  window : loadConsolidationEpisodes p.window.episodeRefs x = .ok (episodes, p.owner)
  feedback : loadFeedbackState episodes p.window.outcomeEventRefs
    (store.loadActiveDispositions p.owner episodes p.found.dispositionRefs x) x =
      .ok (targets, outcomes)
  receipt : loadConsolidationReceipt p.owner.tenantRef p.window.jobRef p.requestHash x = .ok none
  locks : p.lockOwners = consolidationLockOwners p.owner targets
  state : p.stateHash = store.hashFeedbackState targets
  request : p.requestHash = store.consolidationWindowHash p.owner p.window

def Proposed (store : Store) (p : Proposal) (x : Db) : Prop :=
  ∃ episodes targets outcomes, Origin store p x episodes targets outcomes

theorem episodes_ne_nil {window : Window} {x : Db} {episodes : List EpisodeEvidence}
    {owner : OwnerScope} (hvalid : window.valid = true)
    (h : LoadedEpisodes window.episodeRefs x episodes owner) : episodes ≠ [] := by
  intro hnil
  have hrefs := h.refs
  rw [hnil] at hrefs
  simp [Window.valid, ← hrefs] at hvalid

theorem snapshot_proposed {store : Store} {index : Option MemoryIndex} {window : Window} {x : Db}
    {p : Proposal} (h : store.snapshotWindow index window x = .ok (.proposed p)) :
    p.window = window ∧ Proposed store p x := by
  unfold Store.snapshotWindow at h
  cases hvalid : window.valid with
  | false =>
    rw [hvalid] at h
    cases h
  | true =>
    rw [hvalid] at h
    simp only [Bool.not_true, Bool.false_eq_true, if_false, bind, Except.bind, pure, Except.pure] at h
    cases hload : loadConsolidationEpisodes window.episodeRefs x with
    | error e =>
      rw [hload] at h
      cases h
    | ok r =>
      obtain ⟨episodes, owner⟩ := r
      rw [hload] at h
      simp only at h
      obtain ⟨hep, howner⟩ := loadConsolidationEpisodes_ok hload
      have hown := howner (episodes_ne_nil hvalid hep)
      cases hreceipt : loadConsolidationReceipt owner.tenantRef window.jobRef
          (store.consolidationWindowHash owner window) x with
      | error e =>
        rw [hreceipt] at h
        cases h
      | ok found =>
        rw [hreceipt] at h
        cases found with
        | some receipt => cases h
        | none =>
          simp only [Store.propose, bind, Except.bind, pure, Except.pure] at h
          split at h
          · cases h
          rename_i p' hp
          obtain rfl := Snapshot.proposed.inj (Except.ok.inj h)
          split at hp
          · cases hp
          rename_i state hstate
          obtain ⟨targets, outcomes⟩ := state
          obtain rfl := Except.ok.inj hp
          refine ⟨rfl, episodes, targets, outcomes, ?_⟩
          simp only [Store.proposal, Sight.withPairs_episodes, Sight.withPairs_targets] at hstate ⊢
          constructor <;> simp only [hown] at hstate ⊢
          · exact hvalid
          · exact hload
          · exact hstate
          · exact hreceipt

section

variable {store : Store} {p : Proposal} {x e d : Db}

theorem mem_consolidationLockOwners {owner o : OwnerScope} {targets : List FeedbackTarget} :
    o ∈ consolidationLockOwners owner targets ↔ o = owner ∨ ∃ t ∈ targets, t.owner = o := by
  unfold consolidationLockOwners
  rw [List.mem_insertionSort, List.mem_dedup, List.mem_cons, List.mem_map]

theorem Proposed.valid (h : Proposed store p x) : p.window.valid = true := by
  obtain ⟨_, _, _, horigin⟩ := h
  exact horigin.valid

theorem Proposed.owner_locked (h : Proposed store p x) : p.locks p.owner := by
  obtain ⟨_, _, _, horigin⟩ := h
  unfold Proposal.locks
  rw [horigin.locks, mem_consolidationLockOwners]
  exact Or.inl rfl

theorem hashFeedbackState_fields {targets targets' : List FeedbackTarget}
    (hhash : Collisionless store)
    (h : store.hashFeedbackState targets = store.hashFeedbackState targets') :
    (sortedTargets targets).flatMap FeedbackTarget.hashFields =
      (sortedTargets targets').flatMap FeedbackTarget.hashFields :=
  (List.cons.inj (hhash _ _ h)).2

/-- The owner of an Episode that is loaded is a whole scope's. -/
theorem whole_of_loaded (hx : WorldLaw store x) {refs : List String}
    {episodes : List EpisodeEvidence} {owner : OwnerScope}
    (h : LoadedEpisodes refs x episodes owner) (hne : episodes ≠ []) :
    ∃ s : Scope, s.Whole ∧ s.owner = owner := by
  obtain ⟨r, hr⟩ := List.exists_mem_of_ne_nil _ hne
  obtain ⟨row, hrow, _, hev, _⟩ := loadEpisode_row (h.loaded r hr)
  refine ⟨row.group.scope, (hx.episodes row hrow).2, ?_⟩
  rw [← h.owned r hr, hev]
  rfl

/-- An owner of a target is the window's or its agent's baseline. -/
theorem baseline_of_shown {owner o : OwnerScope} (h : o ∈ shownOwners owner) (hne : o ≠ owner) :
    o = agentBaseline owner.tenantRef owner.agentRef := by
  simp only [shownOwners, List.mem_cons, List.not_mem_nil, or_false] at h
  exact h.resolve_left hne

/-- While the digest of the targets is the proposal's, their owners are locked. -/
theorem Sight.locked (s : Sight store p e d) (hd : WorldLaw store d) (hge : Gains e d)
    (hhash : Collisionless store) (hx : WorldLaw store x) (hp : Proposed store p x)
    (hstate : store.hashFeedbackState s.targets = p.stateHash) :
    ∀ t ∈ s.targets, p.locks t.owner := by
  obtain ⟨episodes, targets, outcomes, horigin⟩ := hp
  intro t ht
  have hlocks : ∀ o, p.locks o ↔ o = p.owner ∨ ∃ t ∈ targets, t.owner = o := by
    intro o
    unfold Proposal.locks
    rw [horigin.locks, mem_consolidationLockOwners]
  rw [hlocks]
  by_cases howner : t.owner = p.owner
  · exact Or.inl howner
  right
  have hbaseline := baseline_of_shown (s.target_owner ht) howner
  obtain ⟨hep, _⟩ := loadConsolidationEpisodes_ok horigin.window
  have hne := episodes_ne_nil horigin.valid hep
  obtain ⟨scope, hwhole, hscope⟩ := whole_of_loaded hx hep hne
  -- The window is a relationship's, as its owner is not the baseline.
  have hrel : p.owner.relationshipRef ≠ "" := by
    rcases hwhole.relationship with ⟨hk, hr⟩ | ⟨_, hr⟩
    · refine absurd ?_ howner
      rw [hbaseline, ← hscope]
      simp only [agentBaseline, Scope.owner, hk, hr]
    · rw [← hscope]
      exact hr
  -- The baseline's target puts an empty field into the digest, here and in the proposal's state.
  have hfields := hashFeedbackState_fields hhash (hstate.trans horigin.state)
  have hmem : ∃ t' ∈ sortedTargets s.targets, t'.owner = t.owner := by
    obtain ⟨t', hfind⟩ : ∃ t', targetByRef s.targets t.versionRef = some t' := by
      cases hf : targetByRef s.targets t.versionRef with
      | none =>
        have := List.find?_eq_none.mp hf t ht
        simp at this
      | some t' => exact ⟨t', rfl⟩
    obtain ⟨ht', hversion⟩ := targetByRef_some hfind
    refine ⟨t', List.mem_filterMap.mpr ⟨t.versionRef, ?_, hfind⟩, ?_⟩
    · exact mem_sortedKeys.mpr (List.mem_map_of_mem ht)
    · obtain ⟨y, hy, hr⟩ := s.target_rooted ht
      obtain ⟨y', hy', hr'⟩ := s.target_rooted ht'
      exact owner_of_version hd.memory (hge.seeds (hy'.gains.seeds hr'.2))
        (hge.seeds (hy.gains.seeds hr.2)) (hr'.name hy'.law.memory) (hr.name hy.law.memory) hversion
  obtain ⟨t', ht', howner'⟩ := hmem
  have hempty : "" ∈ (sortedTargets s.targets).flatMap FeedbackTarget.hashFields := by
    refine List.mem_flatMap.mpr ⟨t', ht', ?_⟩
    have hrel' : t'.owner.relationshipRef = "" := by
      rw [howner', hbaseline]
      rfl
    simp [FeedbackTarget.hashFields, hrel']
  rw [hfields] at hempty
  obtain ⟨t₀, ht₀, hempty₀⟩ := List.mem_flatMap.mp hempty
  have ht₀' : t₀ ∈ targets := by
    obtain ⟨ref, _, hfind⟩ := List.mem_filterMap.mp ht₀
    exact (targetByRef_some hfind).1
  obtain ⟨hloaded, hout⟩ := loadFeedbackState_ok horigin.feedback
  have hstable : uniqueStableRefs p.window.outcomeEventRefs = true := by
    have hvalid := horigin.valid
    simp only [Window.valid, Bool.and_eq_true] at hvalid
    exact hvalid.2
  have hrel₀ := relationship_of_empty_field hx hx ⟨scope, hwhole, hscope⟩ hep hout hstable
    (hloaded t₀ ht₀') hempty₀
  refine ⟨t₀, ht₀', ?_⟩
  have hshown₀ := owner_of_loaded hx hep.owned (hloaded t₀ ht₀')
  rw [baseline_of_shown hshown₀ (fun heq => hrel (heq ▸ hrel₀)), hbaseline]

end

end ChoraMem
