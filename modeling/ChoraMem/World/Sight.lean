/-
What a commit knows of its window.

A commit loads its window in several queries, each on the store of its moment.  The
locks it holds keep the Memory of their owners still from the first locked query to the
commit, so the loaded targets are those of the store it commits in.  The locks were
chosen from the targets of the proposal, and the digest of the state that the worker was
asked about shows that no target of another owner has come since.
-/
import ChoraMem.World.Effects
import ChoraMem.World.Loads

namespace ChoraMem

open Txn Versions

/-! ## The owners of targets -/

/-- The owners whose Dispositions a window of this owner can be shown. -/
def shownOwners (owner : OwnerScope) : List OwnerScope :=
  [owner, agentBaseline owner.tenantRef owner.agentRef]

theorem mem_shownOwners {scope : Scope} {owner : OwnerScope} (h : owner ∈ selectionOwners scope) :
    owner ∈ shownOwners scope.owner := by
  unfold selectionOwners at h
  unfold shownOwners
  rcases List.mem_cons.mp h with rfl | h
  · exact List.mem_cons_of_mem _ (List.mem_singleton.mpr rfl)
  · split at h
    · rw [List.mem_singleton.mp h]
      exact List.mem_cons_self
    · cases h

theorem tenant_of_shown {owner o : OwnerScope} (h : o ∈ shownOwners owner) :
    o.tenantRef = owner.tenantRef ∧ o.agentRef = owner.agentRef := by
  simp only [shownOwners, List.mem_cons, List.not_mem_nil, or_false] at h
  rcases h with rfl | rfl
  · exact ⟨rfl, rfl⟩
  · exact ⟨rfl, rfl⟩

/-- The version of a target and its root. -/
def FeedbackTarget.Rooted (t : FeedbackTarget) (x : Db) : Prop :=
  (∃ v ∈ x.seedVersions, v.ref = t.versionRef ∧ v.seedRef = t.seedRef ∧ v.number = t.versionNumber ∧
    v.tendency = t.tendency ∧ v.status = .active) ∧ (⟨t.owner, t.seedRef⟩ : SeedRow) ∈ x.seeds

section

variable {store : Store} {x y d : Db} {owner : OwnerScope} {episodes : List EpisodeEvidence}
variable {outcomes : List FeedbackOutcome} {refs : List String} {t : FeedbackTarget}

theorem bare_eq {t t' : FeedbackTarget} (h : t.bare = t') : t.owner = t'.owner ∧
    t.seedRef = t'.seedRef ∧ t.versionRef = t'.versionRef ∧ t.versionNumber = t'.versionNumber ∧
    t.tendency = t'.tendency := by
  subst h
  exact ⟨rfl, rfl, rfl, rfl, rfl⟩

theorem rooted_of_row {e : EpisodeEvidence} {row : FeedbackRow} (h : row ∈ feedbackRows e x)
    (ht : t.bare = row.target) : t.Rooted x := by
  obtain ⟨c, i, r, v, s, hshows⟩ := mem_feedbackRows h
  obtain ⟨h₁, h₂, h₃, h₄, h₅⟩ := bare_eq ht
  have hrow := hshows.joined
  subst hrow
  refine ⟨⟨v, hshows.version.1, h₃.symm, h₂.symm, h₄.symm, h₅.symm, hshows.version.2.2.2⟩, ?_⟩
  have hs : s = ⟨t.owner, t.seedRef⟩ := by
    rw [h₁, h₂]
    show s = ⟨s.owner, v.seedRef⟩
    rw [← hshows.seed.2.2]
  exact hs ▸ hshows.seed.1

theorem rooted_of_disposition {a : ActiveDisposition} (h : a ∈ ownedDispositions owner x)
    (ht : t.bare = a.target) : t.Rooted x := by
  obtain ⟨s, hs, rfl, v, hv, _, hroot, hactive, rfl⟩ := mem_ownedDispositions.mp h
  obtain ⟨h₁, h₂, h₃, h₄, h₅⟩ := bare_eq ht
  refine ⟨⟨v, hv, h₃.symm, h₂.symm, h₄.symm, h₅.symm, hactive⟩, ?_⟩
  have hseed : s = ⟨t.owner, t.seedRef⟩ := by
    rw [h₁, h₂]
    show s = ⟨s.owner, v.seedRef⟩
    rw [hroot]
  exact hseed ▸ hs

theorem rooted_of_loaded
    (h : t.Loaded episodes outcomes (store.loadActiveDispositions owner episodes refs x) y) :
    t.Rooted x ∨ t.Rooted y := by
  rcases h.origin with ⟨e, _, row, hrow, ht⟩ | ⟨a, ha, ht⟩
  · exact Or.inr (rooted_of_row hrow ht)
  · exact Or.inl (rooted_of_disposition (mem_loadActiveDispositions ha) ht)

theorem owner_of_loaded (hy : WorldLaw store y) (hep : ∀ e ∈ episodes, e.owner = owner)
    (h : t.Loaded episodes outcomes (store.loadActiveDispositions owner episodes refs x) y) :
    t.owner ∈ shownOwners owner := by
  rcases h.origin with ⟨e, he, row, hrow, ht⟩ | ⟨a, ha, ht⟩
  · obtain ⟨c, i, r, v, s, hshows⟩ := mem_feedbackRows hrow
    have howner := mem_shownOwners (hshows.shown hy)
    have hscope : e.scope.owner = owner := (show e.scope.owner = e.owner from rfl).trans (hep e he)
    have hrow' := hshows.joined
    subst hrow'
    rw [(bare_eq ht).1, ← hscope]
    exact howner
  · obtain ⟨_, _, _, _, _, _, _, _, rfl⟩ := mem_ownedDispositions.mp (mem_loadActiveDispositions ha)
    rw [(bare_eq ht).1]
    exact List.mem_cons_self

theorem FeedbackTarget.Rooted.name (h : t.Rooted x) (hx : MemoryLaw x) :
    t.versionRef = versionRefOf t.seedRef t.versionNumber := by
  obtain ⟨⟨v, hv, href, hroot, hnumber, _⟩, _⟩ := h
  rw [← href, ← hroot, ← hnumber]
  exact hx.seeds.named v hv

/-- The version stays active while its owner is locked. -/
theorem FeedbackTarget.Rooted.current {o : OwnerScope → Prop} (h : t.Rooted x) (ho : o t.owner)
    (hx : MemoryLaw x) (hd : MemoryLaw d) (hg : Gains x d) (hs : SameMemory o x d) : t.Current d := by
  have hname := h.name hx
  obtain ⟨⟨v, hv, href, _, _, htext, hactive⟩, hseed⟩ := h
  have hfree : FreeSeedVersion o d v.ref := by
    refine ⟨t.seedRef, t.versionNumber, href.trans hname, fun s hs' heq => ?_⟩
    rw [hd.keys.seeds.eq hs' (hg.seeds hseed) heq]
    exact ho
  exact ⟨v, ((hs.agree hx hd hg).seedVersions v hfree).mp hv, href, hactive, htext⟩

end

/-! ## The digest shows the owners -/

section

variable {store : Store} {x y : Db} {owner : OwnerScope} {episodes : List EpisodeEvidence}
variable {outcomes : List FeedbackOutcome} {refs : List String} {t : FeedbackTarget}
variable {outcomeRefs : List String}

theorem stable_ne_empty {ref : String} (h : stableFeedbackRef ref = true) : ref ≠ "" := by
  rintro rfl
  exact absurd h (by decide)

theorem toString_ne_empty (n : Nat) : toString n ≠ "" := by
  intro h
  have hl := congrArg String.toList h
  rw [Nat.toString_eq_ofList_toDigits, String.toList_ofList] at hl
  exact Nat.toDigits_ne_nil hl

theorem loadFeedbackOutcome_ok {d : Db} {ref : String} {o : FeedbackOutcome}
    (h : loadFeedbackOutcome episodes d ref = .ok o) :
    o.ref = ref ∧ (∃ e ∈ episodes, e.ref = o.episodeRef) ∧
      ∃ row ∈ d.outcomes, ∃ s, outcomeSource row d = some s ∧ o = row.feedback s ∧ row.ref = ref ∧
        row.group.scope.owner = windowOwner episodes := by
  unfold loadFeedbackOutcome at h
  split at h
  · cases h
  rename_i row hrow
  split at h
  · cases h
  rename_i s hs
  split at h
  · cases h
  rename_i hno
  obtain rfl := Except.ok.inj h
  have href := List.find?_some hrow
  simp only [ne_eq, Bool.or_eq_true, decide_eq_true_eq, not_or, not_not, Bool.not_eq_true',
    Bool.not_eq_false, List.any_eq_true, beq_iff_eq] at hno
  exact ⟨by simpa [OutcomeRow.feedback] using href, hno.2, row, List.mem_of_find?_eq_some hrow, s, hs,
    rfl, by simpa using href, hno.1⟩

/-- The kind of a whole scope has a text. -/
theorem Scope.Whole.kind_text {s : Scope} (h : s.Whole) : s.kind.text ≠ "" := by
  rcases h.relationship with ⟨hk, _⟩ | ⟨hk, _⟩ <;> rw [hk] <;> decide

/-- Only a Seed without a relationship puts an empty field into the digest. -/
theorem relationship_of_empty_field (hx : WorldLaw store x) (hy : WorldLaw store y)
    (hwhole : ∃ s : Scope, s.Whole ∧ s.owner = owner)
    (hep : LoadedEpisodes refs y episodes owner)
    (hout : outcomeRefs.mapM (loadFeedbackOutcome episodes y) = .ok outcomes)
    (hstable : uniqueStableRefs outcomeRefs = true) {hints : List String}
    (h : t.Loaded episodes outcomes (store.loadActiveDispositions owner episodes hints x) y)
    (hempty : "" ∈ t.hashFields) : t.owner.relationshipRef = "" := by
  obtain ⟨s, hs, howner⟩ := hwhole
  have hshown := owner_of_loaded hy hep.owned h
  obtain ⟨htenant, hagent⟩ := tenant_of_shown hshown
  have hkind : t.owner.kind.text ≠ "" := by
    simp only [shownOwners, List.mem_cons, List.not_mem_nil, or_false] at hshown
    rcases hshown with heq | heq
    · rw [heq, ← howner]
      exact hs.kind_text
    · rw [heq]
      show ScopeKind.agent.text ≠ ""
      decide
  have htenant' : t.owner.tenantRef ≠ "" := by
    rw [htenant, ← howner]
    exact hs.tenant
  have hagent' : t.owner.agentRef ≠ "" := by
    rw [hagent, ← howner]
    exact hs.agent
  have hversion : t.seedRef ≠ "" ∧ t.versionRef ≠ "" ∧ t.tendency ≠ "" := by
    have hrooted : ∀ z, WorldLaw store z → t.Rooted z →
        t.seedRef ≠ "" ∧ t.versionRef ≠ "" ∧ t.tendency ≠ "" := by
      intro z hz hr
      refine ⟨hz.seedRefs _ hr.2, ?_, ?_⟩
      · rw [hr.name hz.memory]
        exact versionRefOf_ne_empty _ _
      · obtain ⟨⟨v, hv, _, _, _, htext, _⟩, _⟩ := hr
        rw [← htext]
        exact hz.memory.tendency hv
    rcases rooted_of_loaded h with hr | hr
    · exact hrooted x hx hr
    · exact hrooted y hy hr
  have hepisode : ∀ e ∈ episodes, e.ref ≠ "" := by
    intro e he
    obtain ⟨_, _, _, _, hne, _⟩ := loadEpisode_row (hep.loaded e he)
    exact hne
  have hdirect : ∀ ref ∈ t.directEpisodes, ref ≠ "" := by
    intro ref hr
    obtain ⟨e, he, rfl⟩ := List.mem_map.mp (h.direct ref hr).2
    exact hepisode e (List.mem_filter.mp he).1
  have hdelivered : ∀ ref ∈ t.episodes, ref ≠ "" := by
    intro ref hr
    obtain ⟨e, he, rfl, _⟩ := h.delivered ref hr
    exact hepisode e he
  have houtcome : ∀ r ∈ t.outcomes, r.1 ≠ "" ∧ r.2 ≠ "" := by
    intro r hr
    obtain ⟨o, ho, href, hepref, _⟩ := h.attributed r hr
    obtain ⟨ref, hmem, hload⟩ := (mapM_ok hout).1 o ho
    obtain ⟨hoRef, ⟨e, he, heref⟩, _⟩ := loadFeedbackOutcome_ok hload
    constructor
    · rw [← href, hoRef]
      exact stable_ne_empty ((uniqueStableRefs_iff.mp hstable).2 ref hmem)
    · rw [← hepref, ← heref]
      exact hepisode e he
  have hanchor : ∀ ref ∈ t.anchors, ref ≠ "" := by
    intro ref hr
    obtain ⟨e, he, _⟩ := h.owned ref hr
    obtain ⟨_, _, _, _, hne, _⟩ := loadEpisode_row he
    exact hne
  have hreceipt : ∀ r ∈ t.receipts, r.1 ≠ "" ∧ r.2 ≠ "" := by
    intro r hr
    obtain ⟨e, he, heref, row, hrow, _, hrref⟩ := h.receipted r hr
    obtain ⟨c, i, rec, v, s', hshows⟩ := mem_feedbackRows hrow
    refine ⟨heref ▸ hepisode e he, ?_⟩
    rw [← hrref, hshows.joined]
    exact hy.deliveries rec hshows.delivery.1
  have houtcomeEpisode : ∀ ref ∈ t.outcomeRefs, t.outcomeEpisode ref ≠ "" := by
    intro ref href
    obtain ⟨r, hr, rfl⟩ := List.mem_map.mp href
    unfold FeedbackTarget.outcomeEpisode
    cases hfind : t.outcomes.find? (·.1 == r.1) with
    | none =>
      have := List.find?_eq_none.mp hfind r hr
      simp at this
    | some r' => exact (houtcome r' (List.mem_of_find?_eq_some hfind)).2
  by_contra hrel
  simp only [FeedbackTarget.hashFields, List.mem_append, List.mem_cons, List.not_mem_nil, or_false,
    List.mem_flatMap, mem_sortedKeys, List.mem_map, List.mem_filter] at hempty
  have hnumber := toString_ne_empty t.versionNumber
  have hrefs : ∀ ref ∈ t.outcomeRefs, ref ≠ "" := by
    intro ref href
    obtain ⟨r, hr, rfl⟩ := List.mem_map.mp href
    exact (houtcome r hr).1
  have hstate : "" ∉ t.basisState := fun hempty => absurd (h.state _ hempty) (by decide)
  rcases hempty with (((((((((hf | hf) | hf) | hf) | hf) | hf) | hf) | hf) | hf) | hf) | hf
  · simp only [eq_comm (a := "")] at hf
    grind
  · exact hdelivered "" hf rfl
  · exact absurd hf (by decide)
  · exact hdirect "" hf rfl
  · exact absurd hf (by decide)
  · obtain ⟨ref, hr, hf | hf⟩ := hf
    · exact hrefs ref hr hf.symm
    · exact houtcomeEpisode ref hr hf.symm
  · exact absurd hf (by decide)
  · exact hanchor "" hf rfl
  · exact absurd hf (by decide)
  · exact hstate hf
  · obtain ⟨ref, ⟨r, hr, rfl⟩, (hf | hf) | hf⟩ := hf
    · exact absurd hf (by decide)
    · exact (hreceipt r hr).1 hf.symm
    · obtain ⟨r', ⟨hr', _⟩, hf⟩ := hf
      exact (hreceipt r' hr').2 hf

/-- Targets that agree on the version agree on the owner. -/
theorem owner_of_version {d : Db} (hd : MemoryLaw d) {t t' : FeedbackTarget}
    (hroot : (⟨t.owner, t.seedRef⟩ : SeedRow) ∈ d.seeds)
    (hroot' : (⟨t'.owner, t'.seedRef⟩ : SeedRow) ∈ d.seeds)
    (hname : t.versionRef = versionRefOf t.seedRef t.versionNumber)
    (hname' : t'.versionRef = versionRefOf t'.seedRef t'.versionNumber)
    (hversion : t.versionRef = t'.versionRef) : t.owner = t'.owner := by
  have hseed := (versionRefOf_inj ((hname.symm.trans hversion).trans hname')).1
  have := hd.keys.seeds.eq hroot hroot' hseed
  exact congrArg SeedRow.owner this

end

/-! ## Sight -/

/-- An earlier store in which the Memory of some owners is what it is in `d`. -/
structure Seen (store : Store) (o : OwnerScope → Prop) (e d x : Db) : Prop where
  law : WorldLaw store x
  gains : Gains x e
  links : KeepsLinks store x e
  same : SameMemory o x d

/-- The owners a commit has locked. -/
abbrev Proposal.locks (p : Proposal) (owner : OwnerScope) : Prop := owner ∈ p.lockOwners

/-- The stores that the queries of a commit saw, and what they returned.  The Episodes
come before the locks. -/
structure Sight (store : Store) (p : Proposal) (e d : Db) where
  forEpisodes : Db
  forRelated : Db
  forDispositions : Db
  forFeedback : Db
  forPairs : Db
  forRecollections : Db
  episodes : List EpisodeEvidence
  targets : List FeedbackTarget
  outcomes : List FeedbackOutcome
  seenEpisodes : Seen store (fun _ => False) e d forEpisodes
  seenRelated : Seen store (fun _ => False) e d forRelated
  seenDispositions : Seen store p.locks e d forDispositions
  seenFeedback : Seen store p.locks e d forFeedback
  seenPairs : Seen store p.locks e d forPairs
  seenRecollections : Seen store p.locks e d forRecollections
  later : Gains forEpisodes forFeedback
  loadedEpisodes : loadConsolidationEpisodes p.window.episodeRefs forEpisodes =
    .ok (episodes, p.owner)
  loadedFeedback : loadFeedbackState episodes p.window.outcomeEventRefs
    (store.loadActiveDispositions p.owner episodes p.found.dispositionRefs forDispositions)
      forFeedback = .ok (targets, outcomes)

namespace Sight

variable {store : Store} {p : Proposal} {e d : Db}

def window (s : Sight store p e d) : WindowState :=
  store.windowState p s.episodes
    (loadIndexedConsolidationEpisodes p.owner p.found.episodeRefs s.episodes s.forRelated)
    s.targets s.outcomes s.forDispositions s.forPairs s.forRecollections

theorem withPairs_episodes (w : WindowState) (found : Option FormationPairs) :
    (w.withPairs found).episodes = w.episodes := by
  cases found <;> rfl

theorem withPairs_targets (w : WindowState) (found : Option FormationPairs) :
    (w.withPairs found).targets = w.targets := by
  cases found <;> rfl

theorem withPairs_recollections (w : WindowState) (found : Option FormationPairs) :
    (w.withPairs found).recollections = w.recollections := by
  cases found <;> rfl

@[simp] theorem window_episodes (s : Sight store p e d) : s.window.episodes = s.episodes :=
  withPairs_episodes _ _

@[simp] theorem window_targets (s : Sight store p e d) : s.window.targets = s.targets :=
  withPairs_targets _ _

@[simp] theorem window_recollections (s : Sight store p e d) : s.window.recollections =
    store.loadActiveRecollections p.owner s.episodes p.found.recollectionRefs s.forRecollections :=
  withPairs_recollections _ _

theorem loaded (s : Sight store p e d) :
    LoadedEpisodes p.window.episodeRefs s.forEpisodes s.episodes p.owner :=
  (loadConsolidationEpisodes_ok s.loadedEpisodes).1

theorem owner (s : Sight store p e d) (h : p.window.valid = true) :
    windowOwner s.episodes = p.owner := by
  refine (loadConsolidationEpisodes_ok s.loadedEpisodes).2 ?_
  intro hnil
  have hrefs := s.loaded.refs
  rw [hnil] at hrefs
  simp only [Window.valid, ← hrefs, List.map_nil, List.isEmpty_nil, Bool.not_true, Bool.and_false,
    Bool.false_and, Bool.false_eq_true] at h

theorem loadedTarget (s : Sight store p e d) {t : FeedbackTarget} (ht : t ∈ s.targets) :
    t.Loaded s.episodes s.outcomes (store.loadActiveDispositions p.owner s.episodes
      p.found.dispositionRefs s.forDispositions) s.forFeedback :=
  (loadFeedbackState_ok s.loadedFeedback).1 t ht

/-- A related Episode is the owner's, in the store it was found in. -/
theorem related (s : Sight store p e d) {r : EpisodeEvidence} (hr : r ∈ s.window.related) :
    OwnEpisode p.owner s.forRelated r ∨ OwnEpisode p.owner s.forPairs r := by
  unfold window Store.windowState WindowState.withPairs at hr
  cases hf : p.formation with
  | none =>
    rw [hf] at hr
    exact Or.inl (own_loadIndexed r hr)
  | some refs =>
    rw [hf] at hr
    rcases mem_mergeRelated hr with hr | hr
    · exact Or.inr (own_loadDispositionFormationPairs.related r hr)
    · exact Or.inl (own_loadIndexed r hr)

theorem known_of_load {x : Db} {r : EpisodeEvidence} {owner : OwnerScope}
    (hload : loadEpisode r.ref x = some r) (howner : r.owner = owner) :
    Known owner.tenantRef r.ref x := by
  obtain ⟨row, hrow, href, hev, _⟩ := loadEpisode_row hload
  refine ⟨row, hrow, href, ?_⟩
  rw [← howner, hev]
  rfl

/-- An Episode that a change may cite is in the store. -/
theorem known_episode (s : Sight store p e d) {ref : String} (h : (s.window.episodeOf ref).isSome) :
    Known p.owner.tenantRef ref e := by
  obtain ⟨r, hr⟩ := Option.isSome_iff_exists.mp h
  obtain ⟨hmem, rfl⟩ := episodeByRef_some hr
  rcases List.mem_append.mp hmem with hmem | hmem
  · rw [window_episodes] at hmem
    exact (known_of_load (s.loaded.loaded r hmem) (s.loaded.owned r hmem)).mono s.seenEpisodes.gains
  · rcases s.related hmem with ho | ho
    · exact (known_of_load ho.2 ho.1).mono s.seenRelated.gains
    · exact (known_of_load ho.2 ho.1).mono s.seenPairs.gains

theorem target_owner (s : Sight store p e d) {t : FeedbackTarget} (ht : t ∈ s.targets) :
    t.owner ∈ shownOwners p.owner :=
  owner_of_loaded s.seenFeedback.law s.loaded.owned (s.loadedTarget ht)

theorem target_rooted (s : Sight store p e d) {t : FeedbackTarget} (ht : t ∈ s.targets) :
    ∃ x, Seen store p.locks e d x ∧ t.Rooted x := by
  rcases rooted_of_loaded (s.loadedTarget ht) with h | h
  · exact ⟨_, s.seenDispositions, h⟩
  · exact ⟨_, s.seenFeedback, h⟩

theorem known_target (s : Sight store p e d) {t : FeedbackTarget} (ht : t ∈ s.targets)
    {ref : String} (h : ref ∈ t.episodes ∨ ref ∈ t.anchors ∨ ref ∈ t.directEpisodes) :
    Known t.owner.tenantRef ref e := by
  have hl := s.loadedTarget ht
  have htenant := (tenant_of_shown (s.target_owner ht)).1
  have hwindow : ∀ r ∈ s.episodes, Known t.owner.tenantRef r.ref e := by
    intro r hr
    rw [htenant]
    exact (known_of_load (s.loaded.loaded r hr) (s.loaded.owned r hr)).mono s.seenEpisodes.gains
  rcases h with h | h | h
  · obtain ⟨r, hr, rfl, _⟩ := hl.delivered ref h
    exact hwindow r hr
  · obtain ⟨b, hb, htb, _, rfl, _⟩ := (hl.anchored ref).mp h
    rw [← htb]
    exact (s.seenFeedback.law.cited b hb).mono s.seenFeedback.gains
  · obtain ⟨r, hr, rfl⟩ := List.mem_map.mp (hl.direct ref h).2
    exact hwindow r (List.mem_filter.mp hr).1

/-- A window whose targets are of locked owners is held. -/
theorem held (s : Sight store p e d) (hge : Gains e d)
    (hvalid : p.window.valid = true) (howner : p.locks p.owner)
    (htargets : ∀ t ∈ s.targets, p.locks t.owner) :
    s.window.Held p.locks d (fun tenantRef ref => Known tenantRef ref e) := by
  have hown : windowOwner s.window.episodes = p.owner := by
    rw [window_episodes]
    exact s.owner hvalid
  refine ⟨by rw [hown]; exact howner, fun t ht => ?_, fun r hr => ?_, fun ref hr => ?_⟩
  · rw [window_targets] at ht
    obtain ⟨x, hx, hr⟩ := s.target_rooted ht
    exact ⟨htargets t ht, hge.seeds (hx.gains.seeds hr.2), hr.name hx.law.memory,
      fun ref h => s.known_target ht h⟩
  · rw [window_recollections] at hr
    obtain ⟨a, ha, rfl⟩ := mem_loadActiveRecollections hr
    obtain ⟨row, hrow, hrown, v, hv, _, href, _, rfl⟩ := mem_ownedRecollections.mp ha
    have hmem := hge.recollections (s.seenRecollections.gains.recollections hrow)
    have hrow' : row = ⟨p.owner, v.recollectionRef⟩ := by rw [href, ← hrown]
    exact ⟨howner, hrow' ▸ hmem, s.seenRecollections.law.memory.recollections.named v hv⟩
  · rw [hown]
    exact s.known_episode hr

/-- What the changes of a window are about is in the store as it was loaded. -/
theorem finds (s : Sight store p e d) (hd : WorldLaw store d) (hge : Gains e d)
    (howner : p.locks p.owner) (htargets : ∀ t ∈ s.targets, p.locks t.owner) (change : Change) :
    s.window.Finds change d := by
  unfold WindowState.Finds
  cases haddr : s.window.addressee change.target with
  | disposition t =>
    have ht := (WindowState.target_addressee haddr).1
    rw [window_targets] at ht
    obtain ⟨x, hx, hr⟩ := s.target_rooted ht
    exact hr.current (htargets t ht) hx.law.memory hd.memory (hx.gains.trans hge) hx.same
  | recollection r =>
    have hr := (WindowState.recollectionOf_addressee haddr).1
    rw [window_recollections] at hr
    obtain ⟨a, ha, rfl⟩ := mem_loadActiveRecollections hr
    obtain ⟨row, hrow, hrown, v, hv, _, href, hactive, rfl⟩ := mem_ownedRecollections.mp ha
    have hx := s.seenRecollections
    have hfree : FreeRecollectionVersion p.locks d v.ref := by
      refine ⟨v.recollectionRef, v.number, hx.law.memory.recollections.named v hv, fun s' hs' heq => ?_⟩
      rw [hd.memory.keys.recollections.eq hs' (hge.recollections (hx.gains.recollections hrow))
        (heq.trans href), hrown]
      exact howner
    have hagree := hx.same.agree hx.law.memory hd.memory (hx.gains.trans hge)
    exact ⟨v, (hagree.recollectionVersions v hfree).mp hv, rfl, hactive⟩
  | newRecollection => exact trivial
  | newDisposition => exact trivial
  | nobody => exact trivial

end Sight

end ChoraMem
