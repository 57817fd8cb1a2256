/-
What a target of a window is made of.

`loadFeedbackState` fills its targets in passes: the rows of the feedback query, the
direct requirements, the basis of each version, the attributed Outcomes.  Every part of
a target that it returns can be traced to rows of the store it read.
-/
import ChoraMem.Consolidation.Offer
import ChoraMem.Memory.Shelves

namespace ChoraMem

open Txn

/-! ## Passes that may fail -/

section

variable {α β ε : Type}

theorem foldlM_keeps {f : β → α → Except ε β} {P : β → Prop} {l : List α} {b b' : β}
    (hstep : ∀ b a b', a ∈ l → P b → f b a = .ok b' → P b') (h : l.foldlM f b = .ok b')
    (hb : P b) : P b' := by
  induction l generalizing b with
  | nil =>
    obtain rfl := Except.ok.inj h
    exact hb
  | cons a rest ih =>
    rw [List.foldlM_cons] at h
    cases hf : f b a with
    | error e =>
      rw [hf] at h
      cases h
    | ok b₁ =>
      rw [hf] at h
      exact ih (fun b a b' ha => hstep b a b' (List.mem_cons_of_mem _ ha)) h
        (hstep b a b₁ List.mem_cons_self hb hf)

theorem foldlM_total {f : β → α → Except ε β} {P : β → Prop} {l : List α} {b : β}
    (hstep : ∀ b a, a ∈ l → P b → ∃ b', f b a = .ok b' ∧ P b') (hb : P b) :
    ∃ b', l.foldlM f b = .ok b' ∧ P b' := by
  induction l generalizing b with
  | nil => exact ⟨b, rfl, hb⟩
  | cons a rest ih =>
    obtain ⟨b₁, hf, hb₁⟩ := hstep b a List.mem_cons_self hb
    rw [List.foldlM_cons, hf]
    exact ih (fun b a ha => hstep b a (List.mem_cons_of_mem _ ha)) hb₁

theorem mapM_total {f : α → Except ε β} {l : List α} (h : ∀ a ∈ l, ∃ b, f a = .ok b) :
    ∃ l', l.mapM f = .ok l' := by
  induction l with
  | nil => exact ⟨[], rfl⟩
  | cons a rest ih =>
    obtain ⟨b, hb⟩ := h a List.mem_cons_self
    obtain ⟨l', hl'⟩ := ih fun a' ha' => h a' (List.mem_cons_of_mem _ ha')
    refine ⟨b :: l', ?_⟩
    rw [List.mapM_cons, hb, hl']
    rfl

theorem mapM_ok {f : α → Except ε β} {l : List α} {l' : List β} (h : l.mapM f = .ok l') :
    (∀ b ∈ l', ∃ a ∈ l, f a = .ok b) ∧ ∀ a ∈ l, ∃ b ∈ l', f a = .ok b := by
  induction l generalizing l' with
  | nil =>
    rw [List.mapM_nil] at h
    obtain rfl := Except.ok.inj h
    simp
  | cons a rest ih =>
    rw [List.mapM_cons] at h
    cases hf : f a with
    | error e =>
      rw [hf] at h
      cases h
    | ok b =>
      rw [hf] at h
      cases hm : rest.mapM f with
      | error e =>
        rw [hm] at h
        cases h
      | ok bs =>
        rw [hm] at h
        obtain rfl := Except.ok.inj h
        have := ih hm
        grind

end

/-! ## Episodes -/

/-- The row of a loaded Episode. -/
theorem loadEpisode_row {ref : String} {d : Db} {e : EpisodeEvidence}
    (h : loadEpisode ref d = some e) :
    ∃ row ∈ d.episodes, row.ref = ref ∧ e = episodeEvidence row d ∧ ref ≠ "" ∧
      episodeHasFormationRoles e = true := by
  unfold loadEpisode at h
  split at h
  · cases h
  · rename_i row hrow
    split at h
    · cases h
    · rename_i hno
      obtain rfl := Option.some.inj h
      have href := List.find?_some hrow
      simp only [Bool.or_eq_true, Bool.not_eq_true', not_or, Bool.not_eq_false] at hno
      exact ⟨row, List.mem_of_find?_eq_some hrow, by simpa using href, rfl, by simpa using hno.1,
        hno.2⟩

/-- The Episodes of a window are the tenant's, and one owner's. -/
structure LoadedEpisodes (refs : List String) (d : Db) (episodes : List EpisodeEvidence)
    (owner : OwnerScope) : Prop where
  refs : episodes.map (·.ref) = refs
  loaded : ∀ e ∈ episodes, loadEpisode e.ref d = some e
  owned : ∀ e ∈ episodes, e.owner = owner

theorem mapM_loadEpisode {refs : List String} {d : Db} {episodes : List EpisodeEvidence}
    (h : refs.mapM (fun ref => loadEpisode ref d) = some episodes) :
    episodes.map (·.ref) = refs ∧ ∀ e ∈ episodes, loadEpisode e.ref d = some e := by
  induction refs generalizing episodes with
  | nil =>
    rw [List.mapM_nil] at h
    obtain rfl := Option.some.inj h
    simp
  | cons ref rest ih =>
    rw [List.mapM_cons] at h
    cases he : loadEpisode ref d with
    | none =>
      rw [he] at h
      cases h
    | some e =>
      rw [he] at h
      cases hm : rest.mapM fun ref => loadEpisode ref d with
      | none =>
        rw [hm] at h
        cases h
      | some es =>
        rw [hm] at h
        obtain rfl := Option.some.inj h
        have href := loadEpisode_ref he
        obtain ⟨hrefs, hall⟩ := ih hm
        refine ⟨by simp [href, hrefs], fun e' he' => ?_⟩
        rcases List.mem_cons.mp he' with rfl | he'
        · rw [href]
          exact he
        · exact hall e' he'

theorem loadConsolidationEpisodes_ok {refs : List String} {d : Db}
    {episodes : List EpisodeEvidence} {owner : OwnerScope}
    (h : loadConsolidationEpisodes refs d = .ok (episodes, owner)) :
    LoadedEpisodes refs d episodes owner ∧ (episodes ≠ [] → windowOwner episodes = owner) := by
  unfold loadConsolidationEpisodes at h
  split at h
  · cases h
  · rename_i hm
    obtain ⟨rfl, rfl⟩ := Prod.mk.inj (Except.ok.inj h)
    obtain ⟨hrefs, hall⟩ := mapM_loadEpisode hm
    exact ⟨⟨hrefs, hall, fun e he => absurd he List.not_mem_nil⟩, fun hne => absurd rfl hne⟩
  · rename_i first rest hm
    split at h
    · rename_i hsame
      obtain ⟨rfl, rfl⟩ := Prod.mk.inj (Except.ok.inj h)
      obtain ⟨hrefs, hall⟩ := mapM_loadEpisode hm
      refine ⟨⟨hrefs, hall, fun e he => ?_⟩, fun _ => rfl⟩
      rcases List.mem_cons.mp he with rfl | he
      · rfl
      · have := List.all_eq_true.mp hsame e he
        simpa using this
    · cases h

/-! ## Targets -/

/-- A target without its feedback. -/
def FeedbackTarget.bare (t : FeedbackTarget) : FeedbackTarget :=
  { owner := t.owner, seedRef := t.seedRef, versionRef := t.versionRef,
    versionNumber := t.versionNumber, tendency := t.tendency }

/-- Where a target and its feedback come from. -/
structure FeedbackTarget.Shown (episodes : List EpisodeEvidence)
    (dispositions : List ActiveDisposition) (d : Db) (t : FeedbackTarget) : Prop where
  origin : (∃ e ∈ episodes, ∃ row ∈ feedbackRows e d, t.bare = row.target) ∨
    ∃ a ∈ dispositions, t.bare = a.target
  delivered : ∀ ref ∈ t.episodes, ∃ e ∈ episodes, e.ref = ref ∧
    ∃ row ∈ feedbackRows e d, row.versionRef = t.versionRef
  receipted : ∀ r ∈ t.receipts, ∃ e ∈ episodes, e.ref = r.1 ∧
    ∃ row ∈ feedbackRows e d, row.versionRef = t.versionRef ∧ row.receiptRef = r.2
  direct : ∀ ref ∈ t.directEpisodes, t.owner = windowOwner episodes ∧
    ref ∈ ChoraMem.directEpisodes episodes

section

variable {episodes : List EpisodeEvidence} {dispositions : List ActiveDisposition} {d : Db}
variable {targets : List FeedbackTarget}

/-- An Episode's run was shown the version of the target. -/
theorem FeedbackTarget.Shown.deliver {t : FeedbackTarget} (h : t.Shown episodes dispositions d)
    {e : EpisodeEvidence} (he : e ∈ episodes) {row : FeedbackRow} (hrow : row ∈ feedbackRows e d)
    (href : row.versionRef = t.versionRef) :
    (t.deliver e.ref row.receiptRef).Shown episodes dispositions d := by
  refine ⟨h.origin, fun ref hr => ?_, fun r hr => ?_, h.direct⟩
  · rcases mem_insertRow_id.mp (show ref ∈ insertRow id e.ref t.episodes from hr) with hr | rfl
    · exact h.delivered ref hr
    · exact ⟨e, he, rfl, row, hrow, href⟩
  · rcases mem_insertRow_id.mp
      (show r ∈ insertRow id (e.ref, row.receiptRef) t.receipts from hr) with hr | rfl
    · exact h.receipted r hr
    · exact ⟨e, he, rfl, row, hrow, href, rfl⟩

theorem shown_target {e : EpisodeEvidence} (he : e ∈ episodes) {row : FeedbackRow}
    (hrow : row ∈ feedbackRows e d) : row.target.Shown episodes dispositions d :=
  ⟨Or.inl ⟨e, he, row, hrow, rfl⟩, fun _ hr => absurd hr List.not_mem_nil,
    fun _ hr => absurd hr List.not_mem_nil, fun _ hr => absurd hr List.not_mem_nil⟩

theorem shown_offerRow {e : EpisodeEvidence} (he : e ∈ episodes) {row : FeedbackRow}
    (hrow : row ∈ feedbackRows e d) {targets' : List FeedbackTarget}
    (h : ∀ t ∈ targets, t.Shown episodes dispositions d)
    (hoffer : offerRow e.ref targets row = .ok targets') :
    ∀ t ∈ targets', t.Shown episodes dispositions d := by
  unfold offerRow at hoffer
  split at hoffer
  · obtain rfl := Except.ok.inj hoffer
    intro t ht
    rcases List.mem_append.mp ht with ht | ht
    · exact h t ht
    · rw [List.mem_singleton.mp ht]
      exact (shown_target he hrow).deliver he hrow rfl
  · rename_i t hfind
    split at hoffer
    · cases hoffer
    · obtain rfl := Except.ok.inj hoffer
      have href := List.find?_some hfind
      intro t' ht'
      rcases mem_updateRow.mp ht' with ⟨ht', _⟩ | rfl
      · exact h t' ht'
      · exact (h t (List.mem_of_find?_eq_some hfind)).deliver he hrow
          (by simpa using (Eq.symm (by simpa using href)))

theorem shown_offered {targets' : List FeedbackTarget}
    (h : ∀ t ∈ targets, t.Shown episodes dispositions d)
    (hoffer : episodes.foldlM (offerEpisode d) targets = .ok targets') :
    ∀ t ∈ targets', t.Shown episodes dispositions d := by
  refine foldlM_keeps (P := fun ts => ∀ t ∈ ts, t.Shown episodes dispositions d) ?_ hoffer h
  intro ts e ts' he hts hep
  exact foldlM_keeps (P := fun ts => ∀ t ∈ ts, t.Shown episodes dispositions d)
    (fun ts row ts' hrow hts hr => shown_offerRow he hrow hts hr) hep hts

theorem shown_offerDirect {a : ActiveDisposition} (ha : a ∈ dispositions)
    (h : ∀ t ∈ targets, t.Shown episodes dispositions d) :
    ∀ t ∈ offerDirect (windowOwner episodes) (directEpisodes episodes) targets a,
      t.Shown episodes dispositions d := by
  have hbase : ((targets.find? (·.versionRef == a.versionRef)).getD a.target).Shown episodes
      dispositions d := by
    cases hfind : targets.find? (·.versionRef == a.versionRef) with
    | none =>
      exact ⟨Or.inr ⟨a, ha, rfl⟩, fun _ hr => absurd hr List.not_mem_nil,
        fun _ hr => absurd hr List.not_mem_nil, fun _ hr => absurd hr List.not_mem_nil⟩
    | some t => exact h t (List.mem_of_find?_eq_some hfind)
  intro t ht
  rcases mem_updateRow.mp (show t ∈ updateRow FeedbackTarget.versionRef _ targets from ht) with
    ⟨ht, _⟩ | rfl
  · exact h t ht
  · split
    · rename_i howner
      exact ⟨hbase.origin, hbase.delivered, hbase.receipted, fun ref hr => ⟨howner, hr⟩⟩
    · exact hbase

theorem shown_offerDirects (h : ∀ t ∈ targets, t.Shown episodes dispositions d) :
    ∀ t ∈ offerDirects episodes dispositions targets, t.Shown episodes dispositions d := by
  have hfold : ∀ (l : List ActiveDisposition) (ts : List FeedbackTarget), (∀ a ∈ l, a ∈ dispositions) →
      (∀ t ∈ ts, t.Shown episodes dispositions d) →
      ∀ t ∈ l.foldl (offerDirect (windowOwner episodes) (directEpisodes episodes)) ts,
        t.Shown episodes dispositions d := by
    intro l
    induction l with
    | nil => exact fun ts _ hts => hts
    | cons a rest ih =>
      intro ts hl hts
      exact ih _ (fun a' ha' => hl a' (List.mem_cons_of_mem _ ha'))
        (shown_offerDirect (hl a List.mem_cons_self) hts)
  unfold offerDirects
  dsimp only
  split
  · exact h
  · exact hfold dispositions targets (fun _ ha => ha) h

end

/-! ## Bases and Outcomes -/

theorem mem_versionBasis {tenantRef versionRef : String} {basis : List BasisRow} {b : BasisRow} :
    b ∈ versionBasis tenantRef versionRef basis ↔
      b ∈ basis ∧ b.tenantRef = tenantRef ∧ b.versionRef = versionRef := by
  simp only [versionBasis, List.mem_filter, Bool.and_eq_true, decide_eq_true_eq]

theorem mem_basisRefs {p : BasisRole → Bool} {basis : List BasisRow} {ref : String} :
    ref ∈ basisRefs p basis ↔ ∃ b ∈ basis, p b.role = true ∧ b.basisRef = ref := by
  simp only [basisRefs, List.mem_map, List.mem_filter, and_assoc]

/-- A target with its basis. -/
structure FeedbackTarget.Based (episodes : List EpisodeEvidence)
    (dispositions : List ActiveDisposition) (d : Db) (t : FeedbackTarget) : Prop extends
    t.Shown episodes dispositions d where
  /-- Feedback that was consumed is not offered. -/
  fresh : ∀ ref ∈ t.episodes, ∀ b ∈ d.seedBasis, b.tenantRef = t.owner.tenantRef →
    b.versionRef = t.versionRef → b.basisRef = ref → b.role.consumes = false
  freshReceipts : ∀ r ∈ t.receipts, ∀ b ∈ d.seedBasis, b.tenantRef = t.owner.tenantRef →
    b.versionRef = t.versionRef → b.basisRef = r.1 → b.role.consumes = false
  anchored : ∀ ref, ref ∈ t.anchors ↔ ∃ b ∈ d.seedBasis, b.tenantRef = t.owner.tenantRef ∧
    b.versionRef = t.versionRef ∧ b.basisRef = ref ∧ b.role.anchors = true
  owned : ∀ ref ∈ t.anchors, ∃ e, loadEpisode ref d = some e ∧ e.owner = t.owner
  state : ∀ key ∈ t.basisState, '\x00' ∈ key.toList

/-- A target with its basis and its Outcomes. -/
structure FeedbackTarget.Loaded (episodes : List EpisodeEvidence) (outcomes : List FeedbackOutcome)
    (dispositions : List ActiveDisposition) (d : Db) (t : FeedbackTarget) : Prop extends
    t.Based episodes dispositions d where
  attributed : ∀ r ∈ t.outcomes, ∃ o ∈ outcomes, o.ref = r.1 ∧ o.episodeRef = r.2 ∧
    t.attributes o = true

theorem nul_mem_feedbackBasisStateKey (kind role ref : String) :
    '\x00' ∈ (feedbackBasisStateKey kind role ref).toList := by
  simp [feedbackBasisStateKey]

section

variable {episodes : List EpisodeEvidence} {dispositions : List ActiveDisposition} {d : Db}
variable {outcomes : List FeedbackOutcome}

/-- The rows of its version make a target's basis. -/
theorem Shown.based {t : FeedbackTarget} (h : t.Shown episodes dispositions d)
    (evidence : List EpisodeEvidence)
    (howned : ∀ ref ∈ basisRefs BasisRole.anchors
      (versionBasis t.owner.tenantRef t.versionRef d.seedBasis),
        ∃ e, loadEpisode ref d = some e ∧ e.owner = t.owner) :
    ({ t.withBasis (versionBasis t.owner.tenantRef t.versionRef d.seedBasis)
        (versionBasis t.owner.tenantRef t.versionRef d.seedOutcomeBasis) with
      anchorEvidence := evidence } : FeedbackTarget).Based episodes dispositions d := by
  have hfresh : ∀ ref, (!(basisRefs BasisRole.consumes
      (versionBasis t.owner.tenantRef t.versionRef d.seedBasis)).contains ref) = true →
      ∀ b ∈ d.seedBasis, b.tenantRef = t.owner.tenantRef → b.versionRef = t.versionRef →
        b.basisRef = ref → b.role.consumes = false := by
    intro ref hno b hb ht hv href
    simp only [Bool.not_eq_true', List.contains_eq_mem, decide_eq_false_iff_not, mem_basisRefs,
      not_exists, not_and] at hno
    by_contra hc
    exact hno b (mem_versionBasis.mpr ⟨hb, ht, hv⟩) (by simpa using hc) href
  refine ⟨⟨h.origin, fun ref hr => h.delivered ref (List.mem_filter.mp hr).1,
    fun r hr => h.receipted r (List.mem_filter.mp hr).1, h.direct⟩, ?_, ?_, ?_, howned, ?_⟩
  · exact fun ref hr => hfresh ref (List.mem_filter.mp hr).2
  · exact fun r hr => hfresh r.1 (List.mem_filter.mp hr).2
  · intro ref
    show ref ∈ basisRefs BasisRole.anchors _ ↔ _
    simp only [mem_basisRefs, mem_versionBasis]
    constructor
    · exact fun ⟨b, ⟨hb, ht, hv⟩, hrole, href⟩ => ⟨b, hb, ht, hv, href, hrole⟩
    · exact fun ⟨b, hb, ht, hv, href, hrole⟩ => ⟨b, ⟨hb, ht, hv⟩, hrole, href⟩
  · intro key hkey
    rcases List.mem_append.mp hkey with hkey | hkey
    · obtain ⟨b, _, rfl⟩ := List.mem_map.mp hkey
      exact nul_mem_feedbackBasisStateKey _ _ _
    · obtain ⟨b, _, rfl⟩ := List.mem_map.mp hkey
      exact nul_mem_feedbackBasisStateKey _ _ _

theorem based_of_loadBasisState {t t' : FeedbackTarget} (h : t.Shown episodes dispositions d)
    (hload : loadBasisState d t = .ok t') : t'.Based episodes dispositions d := by
  unfold loadBasisState loadAnchors at hload
  split at hload
  · rename_i hempty
    obtain rfl := Except.ok.inj hload
    refine Shown.based h t.anchorEvidence fun ref hr => ?_
    have hnil : basisRefs BasisRole.anchors
        (versionBasis t.owner.tenantRef t.versionRef d.seedBasis) = [] := List.isEmpty_iff.mp hempty
    rw [hnil] at hr
    cases hr
  · split at hload
    · cases hload
    · rename_i anchors owner hanchors
      split at hload
      · cases hload
      · rename_i howner
        obtain rfl := Except.ok.inj hload
        obtain ⟨hep, _⟩ := loadConsolidationEpisodes_ok hanchors
        refine Shown.based h anchors fun ref hr => ?_
        have hmem : ref ∈ anchors.map (·.ref) := by
          rw [hep.refs, mem_sortedKeys]
          exact hr
        obtain ⟨e, he, rfl⟩ := List.mem_map.mp hmem
        exact ⟨e, hep.loaded e he, (hep.owned e he).trans (not_not.mp howner)⟩

theorem loadFeedbackState_ok {outcomeRefs : List String} {targets : List FeedbackTarget}
    (h : loadFeedbackState episodes outcomeRefs dispositions d = .ok (targets, outcomes)) :
    (∀ t ∈ targets, t.Loaded episodes outcomes dispositions d) ∧
      outcomeRefs.mapM (loadFeedbackOutcome episodes d) = .ok outcomes := by
  unfold loadFeedbackState at h
  cases hoffer : episodes.foldlM (offerEpisode d) [] with
  | error e =>
    rw [hoffer] at h
    cases h
  | ok offered =>
    rw [hoffer] at h
    simp only [bind, Except.bind] at h
    cases hbasis : (offerDirects episodes dispositions offered).mapM (loadBasisState d) with
    | error e =>
      rw [hbasis] at h
      cases h
    | ok loaded =>
      rw [hbasis] at h
      simp only at h
      cases hout : outcomeRefs.mapM (loadFeedbackOutcome episodes d) with
      | error e =>
        rw [hout] at h
        cases h
      | ok found =>
        rw [hout] at h
        obtain ⟨rfl, rfl⟩ := Prod.mk.inj (Except.ok.inj h)
        refine ⟨fun t ht => ?_, rfl⟩
        obtain ⟨t₁, ht₁, rfl⟩ := List.mem_map.mp ht
        obtain ⟨t₀, ht₀, hload⟩ := (mapM_ok hbasis).1 t₁ ht₁
        have hoffered : ∀ t ∈ _, FeedbackTarget.Shown _ dispositions _ t :=
          shown_offered (fun t ht => absurd ht List.not_mem_nil) hoffer
        have hb := based_of_loadBasisState (shown_offerDirects hoffered t₀ ht₀) hload
        refine ⟨⟨⟨hb.origin, hb.delivered, hb.receipted, hb.direct⟩, hb.fresh, hb.freshReceipts,
          hb.anchored, hb.owned, hb.state⟩, fun r hr => ?_⟩
        obtain ⟨o, ho, rfl⟩ := List.mem_map.mp
          (show r ∈ (found.filter t₁.attributes).map fun o => (o.ref, o.episodeRef) from hr)
        exact ⟨o, (List.mem_filter.mp ho).1, rfl, rfl, (List.mem_filter.mp ho).2⟩

end

end ChoraMem
