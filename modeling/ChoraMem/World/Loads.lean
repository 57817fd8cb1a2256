/-
What the loaders of a window return.

Everything that is added to a window by ref, be it a search result or a link, is looked
up again among the rows of the window's owner.
-/
import ChoraMem.World.Targets
import ChoraMem.World.Law

namespace ChoraMem

open Txn Versions

section

variable {store : Store} {d : Db} {owner : OwnerScope} {episodes : List EpisodeEvidence}
variable {refs : List String}

/-! ## Related Episodes -/

/-- An Episode of the owner that the store has. -/
def OwnEpisode (owner : OwnerScope) (d : Db) (e : EpisodeEvidence) : Prop :=
  e.owner = owner ∧ loadEpisode e.ref d = some e

theorem ownEpisode_of_load {ref : String} {e : EpisodeEvidence} (h : loadEpisode ref d = some e)
    (howner : e.owner = owner) : OwnEpisode owner d e := by
  refine ⟨howner, ?_⟩
  rw [loadEpisode_ref h]
  exact h

theorem own_addIndexedEpisode {l : List EpisodeEvidence} {ref : String}
    (h : ∀ e ∈ l, OwnEpisode owner d e) :
    ∀ e ∈ addIndexedEpisode owner episodes d l ref, OwnEpisode owner d e := by
  unfold addIndexedEpisode
  split
  · exact h
  split
  · exact h
  rename_i e he
  split
  · rename_i howner
    intro e' he'
    rcases List.mem_append.mp he' with he' | he'
    · exact h e' he'
    · rw [List.mem_singleton.mp he']
      exact ownEpisode_of_load he howner
  · exact h

theorem own_loadIndexed :
    ∀ e ∈ loadIndexedConsolidationEpisodes owner refs episodes d, OwnEpisode owner d e := by
  have hfold : ∀ (l : List String) (acc : List EpisodeEvidence), (∀ e ∈ acc, OwnEpisode owner d e) →
      ∀ e ∈ l.foldl (addIndexedEpisode owner episodes d) acc, OwnEpisode owner d e := by
    intro l
    induction l with
    | nil => exact fun acc h => h
    | cons ref rest ih => exact fun acc h => ih _ (own_addIndexedEpisode h)
  exact hfold refs [] fun e he => absurd he List.not_mem_nil

/-- The Episodes of focused pairs are current or the owner's. -/
structure FormationPairs.Own (owner : OwnerScope) (current : List EpisodeEvidence) (d : Db)
    (found : FormationPairs) : Prop where
  pairs : ∀ pair ∈ found.pairs, pair.episode ∈ current ∨ OwnEpisode owner d pair.episode
  related : ∀ e ∈ found.related, OwnEpisode owner d e

theorem own_formationCandidate {ref : String} {e : EpisodeEvidence}
    (h : formationCandidate owner episodes d ref = some e) :
    e ∈ episodes ∨ OwnEpisode owner d e := by
  unfold formationCandidate at h
  split at h
  · rename_i e' he'
    obtain rfl := Option.some.inj h
    exact Or.inl (episodeByRef_some he').1
  · split at h
    · cases h
    · rename_i e' he'
      split at h
      · rename_i howner
        obtain rfl := Option.some.inj h
        exact Or.inr (ownEpisode_of_load he' howner)
      · cases h

theorem own_addFormationCandidate {found : FormationPairs} {ref : String}
    (h : found.Own owner episodes d) :
    (addFormationCandidate owner episodes d found ref).Own owner episodes d := by
  unfold addFormationCandidate
  split
  · exact h
  split
  · exact h
  rename_i e hcandidate
  split
  · exact h
  split
  · exact h
  refine ⟨fun pair hp => ?_, fun e' he' => ?_⟩
  · rcases List.mem_append.mp hp with hp | hp
    · exact h.pairs pair hp
    · rw [List.mem_singleton.mp hp]
      exact own_formationCandidate hcandidate
  · split at he'
    · exact h.related e' he'
    · rename_i hnew
      rcases List.mem_append.mp he' with he' | he'
      · exact h.related e' he'
      · rw [List.mem_singleton.mp he']
        unfold formationCandidate at hcandidate
        have hnone : episodeByRef episodes ref = none := by simpa using hnew
        rw [hnone] at hcandidate
        simp only at hcandidate
        split at hcandidate
        · cases hcandidate
        · rename_i e'' he''
          split at hcandidate
          · rename_i howner
            obtain rfl := Option.some.inj hcandidate
            exact ownEpisode_of_load he'' howner
          · cases hcandidate

theorem anchor_current {outcomes : List FeedbackOutcome} {anchor : DispositionFormationPair}
    (h : currentDispositionFormationAnchor episodes outcomes = some anchor) :
    anchor.episode ∈ episodes := by
  obtain ⟨e, he, hpair⟩ := List.exists_of_findSome?_eq_some h
  unfold anchorPair at hpair
  split at hpair
  · cases hpair
  · split at hpair
    · cases hpair
    · rw [← Option.some.inj hpair]
      exact List.mem_reverse.mp he

theorem own_loadDispositionFormationPairs {outcomes : List FeedbackOutcome} :
    (loadDispositionFormationPairs owner episodes outcomes refs d).Own owner episodes d := by
  have hfold : ∀ (l : List String) (found : FormationPairs), found.Own owner episodes d →
      (l.foldl (addFormationCandidate owner episodes d) found).Own owner episodes d := by
    intro l
    induction l with
    | nil => exact fun found h => h
    | cons ref rest ih => exact fun found h => ih _ (own_addFormationCandidate h)
  have hempty : (⟨[], []⟩ : FormationPairs).Own owner episodes d :=
    ⟨fun _ h => absurd h List.not_mem_nil, fun _ h => absurd h List.not_mem_nil⟩
  unfold loadDispositionFormationPairs
  split
  · exact hempty
  rename_i anchor hanchor
  split
  · exact hempty
  rename_i canonical _
  split
  · exact hempty
  · refine hfold refs _ ⟨fun pair hp => ?_, fun e he => absurd he List.not_mem_nil⟩
    rw [List.mem_singleton.mp hp]
    left
    have hcurrent : anchor.episode ∈ episodes := anchor_current hanchor
    exact hcurrent

/-! ## Active Memory -/

theorem mem_loadActiveDispositions {a : ActiveDisposition}
    (h : a ∈ store.loadActiveDispositions owner episodes refs d) : a ∈ ownedDispositions owner d := by
  unfold Store.loadActiveDispositions Store.hintedDispositions sortDispositions at h
  rcases List.mem_append.mp ((List.mem_insertionSort _).mp h) with h | h
  · exact (List.mem_insertionSort _).mp ((List.mem_insertionSort _).mp (List.mem_of_mem_take
      ((List.mem_insertionSort _).mp h)))
  · exact (List.mem_filter.mp h).1

theorem mem_loadActiveRecollections {r : ActiveRecollection}
    (h : r ∈ store.loadActiveRecollections owner episodes refs d) :
    ∃ a ∈ ownedRecollections owner d, r = a.withBasis d.recollectionBasis := by
  unfold Store.loadActiveRecollections Store.boundedActiveRecollections Store.rankRecollections
    sortRecollections at h
  obtain ⟨a, ha, rfl⟩ := List.mem_map.mp h
  refine ⟨a, ?_, rfl⟩
  rcases List.mem_append.mp ((List.mem_insertionSort _).mp ha) with ha | ha
  · exact (List.mem_insertionSort _).mp ((List.mem_insertionSort _).mp (List.mem_of_mem_take ha))
  · exact (List.mem_filter.mp ha).1

/-! ## Rows of the feedback query -/

/-- What a row of the feedback query joins. -/
structure Shows (d : Db) (e : EpisodeEvidence) (row : FeedbackRow) (c : ContextRow)
    (i : ContextItemRow) (r : DeliveryRow) (v : SeedVersionRow) (s : SeedRow) : Prop where
  context : c ∈ d.contexts ∧ c.scope = e.scope ∧ c.runRef = e.runRef
  item : i ∈ d.contextItems ∧ i.tenantRef = c.scope.tenantRef ∧ i.contextRef = c.ref ∧
    i.kind = .disposition
  selected : selectedBy e i d = true
  delivery : r ∈ d.deliveries ∧ r.scope.tenantRef = c.scope.tenantRef ∧ r.contextRef = c.ref ∧
    r.runRef = c.runRef ∧ i.memoryRef ∈ r.deliveredMemoryRefs
  version : v ∈ d.seedVersions ∧ v.tenantRef = i.tenantRef ∧ v.ref = i.memoryRef ∧ v.status = .active
  seed : s ∈ d.seeds ∧ s.owner.tenantRef = v.tenantRef ∧ s.ref = v.seedRef
  joined : row = ⟨s.owner, v.seedRef, v.ref, v.number, v.tendency, r.ref⟩

theorem mem_feedbackRows {e : EpisodeEvidence} {row : FeedbackRow} (h : row ∈ feedbackRows e d) :
    ∃ c i r v s, Shows d e row c i r v s := by
  unfold feedbackRows at h
  simp only [itemVersions, List.mem_flatMap, List.mem_filter, List.mem_map, Bool.and_eq_true,
    decide_eq_true_eq, beq_iff_eq, List.contains_eq_mem] at h
  obtain ⟨c, ⟨hc, hscope, hrun⟩, i, ⟨hi, ⟨⟨ht, hctx⟩, hkind⟩, hsel⟩, r,
    ⟨hr, ⟨⟨hrt, hrc⟩, hrr⟩, hdel⟩, vs, ⟨v, ⟨hv, ⟨hvt, hvr⟩, hva⟩, s, ⟨hs, hst, hsr⟩, rfl⟩, rfl⟩ := h
  exact ⟨c, i, r, v, s, ⟨hc, hscope, hrun⟩, ⟨hi, ht, hctx, hkind⟩, hsel, ⟨hr, hrt, hrc, hrr, hdel⟩,
    ⟨hv, hvt, hvr, hva⟩, ⟨hs, hst, hsr⟩, rfl⟩

/-- A run is shown only what it may be shown. -/
theorem Shows.shown {e : EpisodeEvidence} {row : FeedbackRow} {c : ContextRow} {i : ContextItemRow}
    {r : DeliveryRow} {v : SeedVersionRow} {s : SeedRow} (h : Shows d e row c i r v s)
    (hd : WorldLaw store d) : s.owner ∈ selectionOwners e.scope := by
  obtain ⟨c', hc', href, _, hmemory⟩ := hd.items i h.item.1
  obtain rfl := hd.contexts.eq hc' h.context.1 (href.trans h.item.2.2.1)
  rw [h.item.2.2.2] at hmemory
  obtain ⟨s', hs', n, hname, howner⟩ := hmemory
  have hv := hd.memory.seeds.named v h.version.1
  have hroot := (versionRefOf_inj (hv.symm.trans (h.version.2.2.1.trans hname))).1
  have hs := hd.memory.keys.seeds.eq h.seed.1 hs' (h.seed.2.2.trans hroot)
  rw [hs, ← h.context.2.1]
  exact howner

end

/-! ## Later stores -/

/-- The same Episode with more sources. -/
structure EpisodeEvidence.Within (e e' : EpisodeEvidence) : Prop where
  same : { e' with sources := e.sources } = e
  sources : e.sources ⊆ e'.sources

section

variable {store : Store} {x d : Db}

theorem EpisodeEvidence.Within.owner {e e' : EpisodeEvidence} (h : e.Within e') :
    e'.owner = e.owner := by
  rw [← h.same]

theorem linkedSource_later (hd : WorldLaw store d) (hg : Gains x d) {l : LinkRow}
    {s : SourceEvidence} (h : linkedSource x l = some s) : linkedSource d l = some s := by
  unfold linkedSource at h ⊢
  obtain ⟨row, hrow, rfl⟩ := Option.map_eq_some_iff.mp h
  have hkey := List.find?_some hrow
  have hmem := hg.sources (List.mem_of_find?_eq_some hrow)
  exact Option.map_eq_some_iff.mpr ⟨row, hd.sources.find hmem (of_decide_eq_true hkey), rfl⟩

/-- The sources of an Episode stay with it. -/
theorem episodeSources_later (hd : WorldLaw store d) (hg : Gains x d) (hl : KeepsLinks store x d)
    {row : EpisodeRow} (href : row.ref = store.episodeRef row.group) :
    episodeSources row x ⊆ episodeSources row d := by
  intro s hs
  unfold episodeSources at hs ⊢
  obtain ⟨l, hmem, hsource⟩ := List.mem_filterMap.mp hs
  have hlink := List.mem_filter.mp ((List.mem_insertionSort _).mp hmem)
  have hof : l.group = row.group ∧ l.episodeRef = row.ref := by simpa using hlink.2
  have hstays := hl l hlink.1 (by rw [hof.1, hof.2, href])
  refine List.mem_filterMap.mpr ⟨l, (List.mem_insertionSort _).mpr ?_, linkedSource_later hd hg hsource⟩
  exact List.mem_filter.mpr ⟨hstays, by simp [hof]⟩

theorem hasFormationRoles_mono {e e' : EpisodeEvidence} (h : e.Within e')
    (hroles : episodeHasFormationRoles e = true) : episodeHasFormationRoles e' = true := by
  unfold episodeHasFormationRoles at hroles ⊢
  simp only [List.any_eq_true, Bool.and_eq_true] at hroles ⊢
  obtain ⟨situation, hs, hrole, act, ha, hown, hne⟩ := hroles
  have hown' : ownAct e' act = true := by
    unfold ownAct at hown ⊢
    rw [h.owner]
    exact hown
  exact ⟨situation, h.sources hs, hrole, act, h.sources ha, hown', hne⟩

/-- A complete Episode stays complete. -/
theorem loadEpisode_later (hx : WorldLaw store x) (hd : WorldLaw store d)
    (hhash : Collisionless store) (hg : Gains x d) (hl : KeepsLinks store x d) {ref : String}
    {e : EpisodeEvidence} (h : loadEpisode ref x = some e) :
    ∃ e', loadEpisode ref d = some e' ∧ e.Within e' := by
  obtain ⟨row, hrow, href, rfl, hne, hroles⟩ := loadEpisode_row h
  have hwithin : (episodeEvidence row x).Within (episodeEvidence row d) :=
    ⟨rfl, episodeSources_later hd hg hl (hx.episodes row hrow).1⟩
  have hroles' := hasFormationRoles_mono hwithin hroles
  refine ⟨episodeEvidence row d, ?_, hwithin⟩
  have hfind : d.episodes.find? (fun e => decide (e.ref = ref)) = some row :=
    find_only (hg.episodes hrow) (decide_eq_true href) fun row' hmem href' =>
      hd.episode_eq hhash hmem (hg.episodes hrow) ((of_decide_eq_true href').trans href.symm)
  unfold loadEpisode
  rw [hfind]
  simp [hne, hroles']

end

end ChoraMem
