/-
What a Seed may be learned from.

A worker proposes, and the store decides.  A new text of two sessions, an adaptation to one
current request of a user, feedback of runs that were shown the very version and of the
Outcomes they led to: whatever text the worker answers with, a commit carries out nothing
else.  The evidence is that of the states that the queries of the commit have read.
-/
import ChoraMem.World.Consumed
import ChoraMem.World.Loaded

namespace ChoraMem

open Txn Versions

/-- The ref is of an Outcome that somebody else than the agent had for the Episode. -/
def OutcomeOf (x : Db) (episodeRef ref : String) (o : OutcomeRow) : Prop :=
  o ∈ x.outcomes ∧ o.ref = ref ∧ o.episodeRef = episodeRef ∧
    ∃ s ∈ x.sources, s.key = (o.group.scope, o.sourceEventRef) ∧ s.event.actorKind ≠ .agent

/-- The run of the Episode had the version in its context, for a Situation of the Episode, and
the receipt says that it was delivered. -/
def ShownVersion (x : Db) (e : EpisodeEvidence) (versionRef : String) (r : DeliveryRow) : Prop :=
  ∃ c ∈ x.contexts, c.scope = e.scope ∧ c.runRef = e.runRef ∧
    (∃ i ∈ x.contextItems, i.tenantRef = c.scope.tenantRef ∧ i.contextRef = c.ref ∧
      i.kind = .disposition ∧ i.memoryRef = versionRef ∧ ∃ l ∈ x.links, l.group = e.group ∧
        l.episodeRef = e.ref ∧ l.role = .situation ∧ l.sourceEventRef = i.querySourceRef) ∧
    r ∈ x.deliveries ∧ r.scope.tenantRef = c.scope.tenantRef ∧ r.contextRef = c.ref ∧
      r.runRef = c.runRef ∧ versionRef ∈ r.deliveredMemoryRefs

/-- The change cites the Episode as feedback of the version: one of the window's, whose run was
shown the version, and that the version has not consumed. -/
structure Change.CitesFeedback (change : Change) (v : SeedVersionRow) (d x : Db)
    (episodes : List EpisodeEvidence) (e : EpisodeEvidence) : Prop where
  current : e ∈ episodes
  cited : e.ref ∈ change.basisRefs
  shown : ∃ r, ShownVersion x e v.ref r
  fresh : ¬Consumed v.tenantRef v.ref e.ref d

/-- The change cites an Outcome of the Episode, which names a delivery of the version. -/
def Change.CitesOutcome (change : Change) (v : SeedVersionRow) (x : Db) (e : EpisodeEvidence)
    (ref : String) : Prop :=
  ref ∈ change.basisRefs ∧ ∃ o, OutcomeOf x e.ref ref o ∧
    ∃ r, ShownVersion x e v.ref r ∧ r.ref ∈ o.deliveryReceiptRefs

section

variable {store : Store} {d d' x y e : Db} {p : Proposal} {text : String} {env : Ambient}
variable {t : FeedbackTarget} {change : Change} {v : SeedVersionRow}

/-! ## Every shown version is offered -/

/-- The version has a target, and every target of it has the Episode. -/
def Offered (versionRef ref : String) (targets : List FeedbackTarget) : Prop :=
  (∃ t ∈ targets, t.versionRef = versionRef) ∧
    ∀ t ∈ targets, t.versionRef = versionRef → ref ∈ t.episodes

theorem find_versionRef {targets : List FeedbackTarget} {versionRef : String}
    (h : ∃ t ∈ targets, t.versionRef = versionRef) :
    ∃ t ∈ targets, t.versionRef = versionRef ∧
      targets.find? (·.versionRef == versionRef) = some t := by
  obtain ⟨t, ht, href⟩ := h
  cases hfind : targets.find? (·.versionRef == versionRef) with
  | none => simpa [href] using List.find?_eq_none.mp hfind t ht
  | some t' =>
    have href' := List.find?_some hfind
    exact ⟨t', List.mem_of_find?_eq_some hfind, by simpa using href', rfl⟩

/-- A target that is written again keeps what was offered. -/
theorem Offered.update {versionRef ref : String} {targets : List FeedbackTarget}
    (h : Offered versionRef ref targets)
    (ht : t.versionRef = versionRef → ref ∈ t.episodes) :
    Offered versionRef ref (updateRow FeedbackTarget.versionRef t targets) := by
  obtain ⟨⟨t', ht', href⟩, hall⟩ := h
  constructor
  · by_cases hsame : t.versionRef = versionRef
    · exact ⟨t, self_mem_updateRow, hsame⟩
    · exact ⟨t', (mem_updateRow_of_ne (by rw [href]; exact Ne.symm hsame)).mpr ht', href⟩
  · intro u hu huref
    rcases mem_updateRow.mp hu with ⟨hu, _⟩ | rfl
    · exact hall u hu huref
    · exact ht huref

theorem Offered.offerRow {versionRef ref episodeRef : String} {row : FeedbackRow}
    {targets targets' : List FeedbackTarget} (h : Offered versionRef ref targets)
    (hoffer : ChoraMem.offerRow episodeRef targets row = .ok targets') :
    Offered versionRef ref targets' := by
  unfold ChoraMem.offerRow at hoffer
  split at hoffer
  · rename_i hnone
    obtain rfl := Except.ok.inj hoffer
    refine ⟨h.1.imp fun t ht => ⟨List.mem_append_left _ ht.1, ht.2⟩, fun u hu huref => ?_⟩
    rcases List.mem_append.mp hu with hu | hu
    · exact h.2 u hu huref
    · obtain rfl := List.mem_singleton.mp hu
      obtain ⟨t, ht, htref⟩ := h.1
      have hno := List.find?_eq_none.mp hnone t ht
      exact absurd (beq_iff_eq.mpr (htref.trans huref.symm)) hno
  · rename_i u hfind
    split at hoffer
    · cases hoffer
    · obtain rfl := Except.ok.inj hoffer
      refine h.update fun huref => ?_
      exact mem_insertRow_of_mem (h.2 u (List.mem_of_find?_eq_some hfind) huref)

/-- The row of an Episode offers it. -/
theorem offered_offerRow {episodeRef : String} {row : FeedbackRow}
    {targets targets' : List FeedbackTarget}
    (hoffer : offerRow episodeRef targets row = .ok targets') :
    Offered row.versionRef episodeRef targets' := by
  unfold offerRow at hoffer
  split at hoffer
  · rename_i hnone
    obtain rfl := Except.ok.inj hoffer
    refine ⟨⟨_, List.mem_append_right _ (List.mem_singleton.mpr rfl), rfl⟩, fun u hu huref => ?_⟩
    rcases List.mem_append.mp hu with hu | hu
    · exact absurd (beq_iff_eq.mpr huref) (List.find?_eq_none.mp hnone u hu)
    · obtain rfl := List.mem_singleton.mp hu
      show episodeRef ∈ insertRow id episodeRef row.target.episodes
      exact mem_insertRow_id.mpr (Or.inr rfl)
  · rename_i u hfind
    split at hoffer
    · cases hoffer
    · obtain rfl := Except.ok.inj hoffer
      have href := List.find?_some hfind
      have hkey : u.versionRef = row.versionRef := by simpa using href
      refine ⟨⟨_, self_mem_updateRow, hkey⟩, fun u' hu' huref' => ?_⟩
      rcases mem_updateRow.mp hu' with ⟨_, hne⟩ | rfl
      · exact absurd (huref'.trans hkey.symm) hne
      · show episodeRef ∈ insertRow id episodeRef u.episodes
        exact mem_insertRow_id.mpr (Or.inr rfl)

/-- Passes that may fail reach what one of them brings about. -/
theorem foldlM_reaches {α β ε : Type} {f : β → α → Except ε β} {P : β → Prop} {l : List α}
    {b b' : β} {a : α} (ha : a ∈ l) (hreach : ∀ b b', f b a = .ok b' → P b')
    (hkeep : ∀ b a b', P b → f b a = .ok b' → P b') (h : l.foldlM f b = .ok b') : P b' := by
  induction l generalizing b with
  | nil => cases ha
  | cons first rest ih =>
    rw [List.foldlM_cons] at h
    cases hf : f b first with
    | error e =>
      rw [hf] at h
      cases h
    | ok b₁ =>
      rw [hf] at h
      rcases List.mem_cons.mp ha with rfl | ha
      · exact foldlM_keeps (fun b a b' _ => hkeep b a b') h (hreach _ _ hf)
      · exact ih ha h

theorem offered_offerEpisode {episodes : List EpisodeEvidence} {targets : List FeedbackTarget}
    {e : EpisodeEvidence} (he : e ∈ episodes) {row : FeedbackRow} (hrow : row ∈ feedbackRows e x)
    (hoffer : episodes.foldlM (offerEpisode x) [] = .ok targets) :
    Offered row.versionRef e.ref targets := by
  refine foldlM_reaches (P := Offered row.versionRef e.ref) he ?_ ?_ hoffer
  · intro ts ts' hts
    exact foldlM_reaches (P := Offered row.versionRef e.ref) hrow
      (fun _ _ hr => offered_offerRow hr) (fun _ _ _ h hr => h.offerRow hr) hts
  · intro ts e' ts' h hts
    exact foldlM_keeps (P := Offered row.versionRef e.ref) (fun _ _ _ _ h hr => h.offerRow hr) hts h

theorem Offered.offerDirect {versionRef ref : String} {targets : List FeedbackTarget}
    (h : Offered versionRef ref targets) (owner : OwnerScope) (direct : List String)
    (a : ActiveDisposition) :
    Offered versionRef ref (ChoraMem.offerDirect owner direct targets a) := by
  refine h.update fun href => ?_
  have hbase :
      ((targets.find? (·.versionRef == a.versionRef)).getD a.target).versionRef = versionRef →
        ref ∈ ((targets.find? (·.versionRef == a.versionRef)).getD a.target).episodes := by
    cases hfind : targets.find? (·.versionRef == a.versionRef) with
    | none =>
      intro hsame
      obtain ⟨t, ht, htref⟩ := h.1
      exact absurd (beq_iff_eq.mpr (htref.trans hsame.symm)) (List.find?_eq_none.mp hfind t ht)
    | some t => exact fun hsame => h.2 t (List.mem_of_find?_eq_some hfind) hsame
  by_cases howner : ((targets.find? (·.versionRef == a.versionRef)).getD a.target).owner = owner
  · rw [if_pos howner] at href ⊢
    exact hbase href
  · rw [if_neg howner] at href ⊢
    exact hbase href

theorem Offered.offerDirects {versionRef ref : String} {targets : List FeedbackTarget}
    (h : Offered versionRef ref targets) (episodes : List EpisodeEvidence)
    (dispositions : List ActiveDisposition) :
    Offered versionRef ref (ChoraMem.offerDirects episodes dispositions targets) := by
  unfold ChoraMem.offerDirects
  dsimp only
  split
  · exact h
  · induction dispositions generalizing targets with
    | nil => exact h
    | cons a rest ih => exact ih (h.offerDirect _ _ a)

/-- The basis of a version takes what it has consumed from its target. -/
theorem loadBasisState_episodes {t t' : FeedbackTarget} (h : loadBasisState x t = .ok t') :
    t'.owner = t.owner ∧ t'.versionRef = t.versionRef ∧
      ∀ ref ∈ t.episodes, ¬Consumed t.owner.tenantRef t.versionRef ref x → ref ∈ t'.episodes := by
  have hkept : ∀ ref ∈ t.episodes, ¬Consumed t.owner.tenantRef t.versionRef ref x →
      ref ∈ (t.withBasis (versionBasis t.owner.tenantRef t.versionRef x.seedBasis)
        (versionBasis t.owner.tenantRef t.versionRef x.seedOutcomeBasis)).episodes := by
    intro ref href hfresh
    refine List.mem_filter.mpr ⟨href, ?_⟩
    simp only [Bool.not_eq_true', List.contains_eq_mem, decide_eq_false_iff_not, mem_basisRefs,
      mem_versionBasis, not_exists, not_and]
    exact fun b ⟨hb, htenant, hversion⟩ hrole hbasis =>
      hfresh ⟨b, hb, htenant, hversion, hbasis, hrole⟩
  unfold loadBasisState loadAnchors at h
  split at h
  · obtain rfl := Except.ok.inj h
    exact ⟨rfl, rfl, hkept⟩
  · split at h
    · cases h
    · split at h
      · cases h
      · obtain rfl := Except.ok.inj h
        exact ⟨rfl, rfl, hkept⟩

/-- A loaded target has every Episode whose run was shown its version, and which the version has
not consumed. -/
theorem episodes_of_loadFeedbackState {episodes : List EpisodeEvidence} {outcomeRefs : List String}
    {dispositions : List ActiveDisposition} {targets : List FeedbackTarget}
    {outcomes : List FeedbackOutcome}
    (h : loadFeedbackState episodes outcomeRefs dispositions x = .ok (targets, outcomes))
    (ht : t ∈ targets) {e : EpisodeEvidence} (he : e ∈ episodes) {row : FeedbackRow}
    (hrow : row ∈ feedbackRows e x) (href : row.versionRef = t.versionRef)
    (hfresh : ¬Consumed t.owner.tenantRef t.versionRef e.ref x) : e.ref ∈ t.episodes := by
  unfold loadFeedbackState at h
  cases hoffer : episodes.foldlM (offerEpisode x) [] with
  | error err =>
    rw [hoffer] at h
    cases h
  | ok offered =>
    rw [hoffer] at h
    simp only [bind, Except.bind] at h
    cases hbasis : (offerDirects episodes dispositions offered).mapM (loadBasisState x) with
    | error err =>
      rw [hbasis] at h
      cases h
    | ok loaded =>
      rw [hbasis] at h
      simp only at h
      cases hout : outcomeRefs.mapM (loadFeedbackOutcome episodes x) with
      | error err =>
        rw [hout] at h
        cases h
      | ok found =>
        rw [hout] at h
        obtain ⟨rfl, rfl⟩ := Prod.mk.inj (Except.ok.inj h)
        obtain ⟨t₁, ht₁, rfl⟩ := List.mem_map.mp ht
        obtain ⟨t₀, ht₀, hload⟩ := (mapM_ok hbasis).1 t₁ ht₁
        obtain ⟨howner, hversion, hkept⟩ := loadBasisState_episodes hload
        have hoffered := (offered_offerEpisode he hrow hoffer).offerDirects episodes dispositions
        refine hkept _ (hoffered.2 t₀ ht₀ (hversion.symm.trans href.symm)) ?_
        rw [← howner, ← hversion]
        exact hfresh

/-- A row of the feedback query shows the version. -/
theorem shown_of_row {r : EpisodeEvidence} {row : FeedbackRow} (h : row ∈ feedbackRows r x) :
    ∃ delivery, ShownVersion x r row.versionRef delivery ∧ delivery.ref = row.receiptRef := by
  obtain ⟨c, i, delivery, v, owner, hshows⟩ := mem_feedbackRows h
  obtain ⟨hc, hscope, hrun⟩ := hshows.context
  obtain ⟨hi, htenant, hcontext, hkind⟩ := hshows.item
  obtain ⟨hdelivery, hdtenant, hdcontext, hdrun, hdelivered⟩ := hshows.delivery
  have hversion : row.versionRef = i.memoryRef := by
    rw [hshows.joined]
    exact hshows.version.2.2.1
  have hselected := hshows.selected
  simp only [selectedBy, List.any_eq_true, Bool.and_eq_true, decide_eq_true_eq,
    beq_iff_eq] at hselected
  obtain ⟨l, hl, ⟨⟨hgroup, hepisode⟩, hrole⟩, hsource⟩ := hselected
  rw [hversion]
  exact ⟨delivery, ⟨c, hc, hscope, hrun,
    ⟨i, hi, htenant, hcontext, hkind, rfl, l, hl, hgroup, hepisode, hrole, hsource⟩,
    hdelivery, hdtenant, hdcontext, hdrun, hdelivered⟩, by rw [hshows.joined]⟩

/-- A shown version that is active has a row. -/
theorem row_of_shown {r : EpisodeEvidence} {delivery : DeliveryRow}
    (h : ShownVersion x r v.ref delivery) (hv : v ∈ x.seedVersions) (hactive : v.status = .active)
    (htenant : v.tenantRef = r.owner.tenantRef) {seed : SeedRow} (hseed : seed ∈ x.seeds)
    (hseedTenant : seed.owner.tenantRef = v.tenantRef) (hseedRef : seed.ref = v.seedRef) :
    ∃ row ∈ feedbackRows r x, row.versionRef = v.ref := by
  obtain ⟨c, hc, hscope, hrun, ⟨i, hi, hitenant, hicontext, hkind, hmemory, l, hl, hgroup, hepisode,
    hrole, hsource⟩, hdelivery, hdtenant, hdcontext, hdrun, hdelivered⟩ := h
  have hcontextTenant : c.scope.tenantRef = r.owner.tenantRef := by rw [hscope]; rfl
  refine ⟨⟨seed.owner, v.seedRef, v.ref, v.number, v.tendency, delivery.ref⟩, ?_, rfl⟩
  unfold feedbackRows selectedBy
  simp only [itemVersions, List.mem_flatMap, List.mem_filter, List.mem_map, Bool.and_eq_true,
    decide_eq_true_eq, beq_iff_eq, List.contains_eq_mem, List.any_eq_true]
  exact ⟨c, ⟨hc, hscope, hrun⟩, i,
    ⟨hi, ⟨⟨hitenant, hicontext⟩, hkind⟩, l, hl, ⟨⟨hgroup, hepisode⟩, hrole⟩, hsource⟩,
    delivery, ⟨hdelivery, ⟨⟨hdtenant, hdcontext⟩, hdrun⟩, by rw [hmemory]; exact hdelivered⟩,
    (v, seed), ⟨v, ⟨hv, ⟨htenant.trans (hcontextTenant.symm.trans hitenant.symm), hmemory.symm⟩,
      hactive⟩, seed, ⟨hseed, hseedTenant, hseedRef⟩, rfl⟩, rfl⟩

namespace Sight

variable (s : Sight store p e d)

theorem episode_unique {r r' : EpisodeEvidence} (hr : r ∈ s.episodes) (hr' : r' ∈ s.episodes)
    (href : r.ref = r'.ref) : r = r' := by
  have h := s.loaded.loaded r hr
  rw [href, s.loaded.loaded r' hr'] at h
  exact (Option.some.inj h).symm

/-- What a change is about, and its target. -/
structure About (t : FeedbackTarget) (v : SeedVersionRow) : Prop where
  target : t ∈ s.targets
  row : v ∈ d.seedVersions
  ref : v.ref = t.versionRef
  tenant : v.tenantRef = t.owner.tenantRef
  active : v.status = .active

variable {s}

/-- A target offers what its version was shown to and has not consumed. -/
theorem About.offers (h : s.About t v) (hd : WorldLaw store d) (hge : Gains e d) {x₀ : Db}
    (hp : Proposed store p x₀) (hlocked : ∀ t ∈ s.targets, p.locks t.owner) {r : EpisodeEvidence}
    (hcites : change.CitesFeedback v d s.forFeedback s.episodes r) : r.ref ∈ t.episodes := by
  obtain ⟨delivery, hshown⟩ := hcites.shown
  have hx := s.seenFeedback
  have hagree := hx.same.agree hx.law.memory hd.memory (hx.gains.trans hge)
  have hheld := (s.held hge hp.valid hp.owner_locked hlocked).targets t
    (by rw [window_targets]; exact h.target)
  have hfree := hheld.freeVersion hd
  rw [← h.ref] at hfree
  obtain ⟨hseed, hname⟩ := s.target_named hge h.target
  have hroot : t.seedRef = v.seedRef :=
    (versionRefOf_inj (hname.symm.trans (h.ref.symm.trans (hd.memory.seedName h.row)))).1
  have hseedRow := (hagree.seeds ⟨t.owner, t.seedRef⟩ (hheld.freeSeed hd)).mpr hseed
  have howner : t.owner.tenantRef = r.owner.tenantRef := by
    rw [s.loaded.owned r hcites.current]
    exact (tenant_of_shown (s.target_owner h.target)).1
  obtain ⟨row, hrow, href⟩ := row_of_shown hshown ((hagree.seedVersions v hfree).mpr h.row) h.active
    (h.tenant.trans howner) hseedRow h.tenant.symm hroot
  refine episodes_of_loadFeedbackState s.loadedFeedback h.target hcites.current hrow
    (href.trans h.ref) fun hconsumed => hcites.fresh ?_
  obtain ⟨b, hb, hrest⟩ := hconsumed
  rw [h.tenant, h.ref]
  exact ⟨b, hge.seedBasis (hx.gains.seedBasis hb), hrest⟩

/-- What a target offers as feedback its version was shown to. -/
theorem About.cites (h : s.About t v) (hd : WorldLaw store d) (hge : Gains e d) {x₀ : Db}
    (hp : Proposed store p x₀) (hlocked : ∀ t ∈ s.targets, p.locks t.owner) {ref : String}
    (href : ref ∈ change.basisRefs) (hoffered : ref ∈ t.episodes) :
    ∃ r, change.CitesFeedback v d s.forFeedback s.episodes r ∧ r.ref = ref := by
  obtain ⟨r, hr, rfl, row, hrow, hversion⟩ := (s.loadedTarget h.target).delivered ref hoffered
  obtain ⟨delivery, hshown, _⟩ := shown_of_row hrow
  rw [hversion, ← h.ref] at hshown
  refine ⟨r, ⟨hr, href, ⟨delivery, hshown⟩, ?_⟩, rfl⟩
  rw [h.tenant, h.ref]
  exact s.fresh_target hd hge hp hlocked h.target r.ref hoffered

/-- What a target attributes to an Episode is an Outcome of it, after a delivery of the version. -/
theorem About.outcome (h : s.About t v) {ref : String} (href : ref ∈ change.basisRefs)
    (houtcome : ref ∈ t.outcomeRefs) {r : EpisodeEvidence} (hr : r ∈ s.episodes)
    (hepisode : t.outcomeEpisode ref = r.ref) : change.CitesOutcome v s.forFeedback r ref := by
  have hloaded := s.loadedTarget h.target
  obtain ⟨pair, hpair, hpref⟩ := List.mem_map.mp houtcome
  obtain ⟨found, hfound, hmem, hfref⟩ : ∃ found, t.outcomes.find? (·.1 == ref) = some found ∧
      found ∈ t.outcomes ∧ found.1 = ref := by
    cases hfind : t.outcomes.find? (·.1 == ref) with
    | none => exact absurd (beq_iff_eq.mpr hpref) (List.find?_eq_none.mp hfind pair hpair)
    | some found =>
      have hkey := List.find?_some hfind
      exact ⟨found, rfl, List.mem_of_find?_eq_some hfind, by simpa using hkey⟩
  obtain ⟨o, ho, horef, hoepisode, hattributes⟩ := hloaded.attributed found hmem
  have hof : found.2 = r.ref := by
    rw [← hepisode, FeedbackTarget.outcomeEpisode, hfound]
    rfl
  simp only [FeedbackTarget.attributes, Bool.and_eq_true, bne_iff_ne, List.any_eq_true,
    List.contains_eq_mem, decide_eq_true_eq] at hattributes
  obtain ⟨hexternal, receiptRef, hreceipt, hreceipts⟩ := hattributes
  obtain ⟨r', hr', href', row, hrow, hversion, hrowReceipt⟩ := hloaded.receipted _ hreceipts
  obtain rfl := s.episode_unique hr' hr (href'.trans (hoepisode.trans hof))
  obtain ⟨delivery, hshown, hdelivery⟩ := shown_of_row hrow
  rw [hversion, ← h.ref] at hshown
  obtain ⟨_, _, hload⟩ := (mapM_ok (loadFeedbackState_ok s.loadedFeedback).2).1 o ho
  obtain ⟨_, _, outcome, hout, source, hfind, rfl, _⟩ := loadFeedbackOutcome_ok hload
  have hkey := List.find?_some hfind
  refine ⟨href, outcome, ⟨hout, horef.trans hfref, hoepisode.trans hof, source,
    List.mem_of_find?_eq_some hfind, by simpa using hkey, hexternal⟩, delivery, hshown, ?_⟩
  rw [hdelivery, hrowReceipt]
  exact hreceipt

theorem about (hd : WorldLaw store d) (hge : Gains e d) {x₀ : Db} (hp : Proposed store p x₀)
    (hlocked : ∀ t ∈ s.targets, p.locks t.owner)
    (haddr : s.window.addressee change.target = .disposition t) :
    ∃ v, s.About t v ∧ v.ref = change.target := by
  obtain ⟨ht, hversion⟩ := WindowState.target_addressee haddr
  rw [window_targets] at ht
  have hfinds := s.finds hd hge hp.owner_locked hlocked change
  unfold WindowState.Finds at hfinds
  rw [haddr] at hfinds
  obtain ⟨v, hv, href, hactive, _⟩ := hfinds
  exact ⟨v, ⟨ht, hv, href, s.target_tenant hd hge ht hv href, hactive⟩, href.trans hversion⟩

end Sight

/-! ## Over all runs -/

end

/-! A Disposition of two sessions, and an inhibition after an Outcome. -/

def otherScope : Scope := { agentScope with sessionRef := "u" }

/-- The agent answers in another session. -/
def otherCalls : List MemoryCommand :=
  [observeCall 3 otherScope "v" .user "5" .situation,
    observeCall 4 otherScope "w" .agent "5" .agentAct]

end ChoraMem
