/-
Changes of a loaded window, applied among other transactions.

`WindowState.Held` is what the commit knows of a window it has loaded under its locks:
every Memory the window may change is of a locked owner, and every Episode it may cite
is in the store.  A change of a held window does one licensed deed on the store that
its transaction commits in.
-/
import ChoraMem.World.Replay
import ChoraMem.Consolidation.Offer

namespace ChoraMem

open Txn Versions

/-! ## What is held -/

structure FeedbackTarget.Held (o : OwnerScope → Prop) (d : Db) (known : String → String → Prop)
    (t : FeedbackTarget) : Prop where
  owner : o t.owner
  root : (⟨t.owner, t.seedRef⟩ : SeedRow) ∈ d.seeds
  name : t.versionRef = versionRefOf t.seedRef t.versionNumber
  known : ∀ ref, ref ∈ t.episodes ∨ ref ∈ t.anchors ∨ ref ∈ t.directEpisodes →
    known t.owner.tenantRef ref

structure ActiveRecollection.Held (o : OwnerScope → Prop) (d : Db) (r : ActiveRecollection) :
    Prop where
  owner : o r.owner
  root : (⟨r.owner, r.recollection⟩ : RecollectionRow) ∈ d.recollections
  name : r.versionRef = versionRefOf r.recollection r.versionNumber

structure WindowState.Held (o : OwnerScope → Prop) (d : Db) (known : String → String → Prop)
    (w : WindowState) : Prop where
  owner : o (windowOwner w.episodes)
  targets : ∀ t ∈ w.targets, t.Held o d known
  recollections : ∀ r ∈ w.recollections, r.Held o d
  known : ∀ ref, (w.episodeOf ref).isSome → known (windowOwner w.episodes).tenantRef ref

section

variable {store : Store} {o : OwnerScope → Prop} {d : Db} {known : String → String → Prop}
variable {l : Local Write String} {e : Db}

theorem FeedbackTarget.Held.freeSeed {t : FeedbackTarget} (h : t.Held o d known)
    (hd : WorldLaw store d) : FreeSeed o d t.seedRef := by
  intro s hs href
  rw [hd.memory.keys.seeds.eq hs h.root href]
  exact h.owner

theorem FeedbackTarget.Held.freeVersion {t : FeedbackTarget} (h : t.Held o d known)
    (hd : WorldLaw store d) : FreeSeedVersion o d t.versionRef :=
  ⟨_, _, h.name, h.freeSeed hd⟩

theorem ActiveRecollection.Held.freeRecollection {r : ActiveRecollection} (h : r.Held o d)
    (hd : WorldLaw store d) : FreeRecollection o d r.recollection := by
  intro s hs href
  rw [hd.memory.keys.recollections.eq hs h.root href]
  exact h.owner

theorem ActiveRecollection.Held.freeVersion {r : ActiveRecollection} (h : r.Held o d)
    (hd : WorldLaw store d) : FreeRecollectionVersion o d r.versionRef :=
  ⟨_, _, h.name, h.freeRecollection hd⟩

/-! ## Bases -/

theorem mem_feedbackBasis {t : FeedbackTarget} {refs : List String} {allow : Bool}
    {episodes outcomes : List String} (h : feedbackBasis t refs allow = some (episodes, outcomes)) :
    ∀ ref ∈ episodes, ref ∈ refs ∧ (ref ∈ t.episodes ∨ (allow = true ∧ ref ∈ t.anchors)) := by
  obtain ⟨hclass, _⟩ := feedbackBasis_some h
  obtain ⟨s, hs, heq⟩ := Option.map_eq_some_iff.mp hclass
  obtain ⟨rfl, rfl⟩ := Prod.mk.inj heq
  intro ref href
  exact (splitBasis_some hs).2.1 ref (mem_sortRefs.mp href)

theorem mem_revisionBasis {t : FeedbackTarget} {change : Change} {episodes outcomes : List String}
    (h : revisionBasis t change = some (episodes, outcomes)) :
    ∀ ref ∈ episodes, ref ∈ t.episodes ∨ ref ∈ t.anchors ∨ ref ∈ t.directEpisodes := by
  unfold revisionBasis at h
  split at h
  · split at h
    · cases h
    rename_i hno
    obtain ⟨rfl, rfl⟩ := Prod.mk.inj (Option.some.inj h)
    simp only [Bool.or_eq_true, bne_iff_ne, not_or, not_not, Bool.not_eq_true',
      Bool.not_eq_false] at hno
    obtain ⟨ref, hrefs⟩ := List.length_eq_one_iff.mp hno.1
    have hdirect := hno.2
    rw [hrefs] at hdirect ⊢
    intro r hr
    obtain rfl : r = ref := by simpa [sortRefs] using hr
    right; right
    simpa [basisIncludesCurrentEpisode] using hdirect
  · intro ref href
    rcases (mem_feedbackBasis h ref href).2 with he | ⟨_, ha⟩
    · exact Or.inl he
    · exact Or.inr (Or.inl ha)
  · cases h

theorem mem_formationBasis {w : WindowState} {change : Change} {episodes outcomes : List String}
    (h : formationBasis w change = some (episodes, outcomes)) :
    ∀ ref ∈ episodes, (w.episodeOf ref).isSome := by
  unfold formationBasis at h
  split at h
  · obtain ⟨basis, hb, heq⟩ := Option.map_eq_some_iff.mp h
    obtain ⟨rfl, rfl⟩ := Prod.mk.inj heq
    obtain ⟨ref, e, _, rfl, he, _⟩ := eligibleAdaptationBasis_some hb
    intro r hr
    rw [List.mem_singleton.mp hr, he]
    rfl
  · obtain ⟨_, _, heq, _⟩ := eligibleDispositionFormationBasis_some h
    obtain ⟨rfl, rfl⟩ := Prod.mk.inj heq
    intro ref href
    exact (List.mem_filter.mp (mem_sortRefs.mp href)).2

/-! ## Statements of a change -/

theorem replays_applyRecollectionKeep {r : ActiveRecollection} {refs : List String}
    (h : Ready store o d known l e) (hd : WorldLaw store d) (hr : r.Held o d) :
    (memoryPact store).Replays d (Store.applyRecollectionKeep r refs) (Ready store o d known) l e :=
  Pact.Replays.bind (replays_insertRecollectionBasis h hd (hr.freeVersion hd))
    fun _ _ _ _ h' => Pact.Replays.ret h'

theorem replays_insertRevisedRecollection {env : Ambient} {jobRef text : String}
    {r : ActiveRecollection} (h : Ready store o d known l e) (hd : WorldLaw store d)
    (hr : r.Held o d) :
    (memoryPact store).Replays d (Store.insertRevisedRecollection env jobRef text r)
      (Ready store o d known) l e := by
  refine Pact.Replays.bind (replays_supersedeRecollectionVersion h hd (hr.freeVersion hd))
    fun _ l₁ e₁ _ h₁ => ?_
  refine Pact.Ends.conseq (replays_insertFresh h₁ (fun b hb => by cases hb) fun e' hb _ ht =>
    ⟨rfl, ?_⟩) fun _ l₂ e₂ h₂ => ⟨h₂.1, h₂.2.1⟩
  rw [← (h₁.agree hd hb).recollectionVersionConflict (h₁.readable hd hb) (h₁.readable_end hd) rfl
    (hr.freeRecollection hd)]
  exact ht

theorem replays_applyRecollectionRevision {env : Ambient} {jobRef : String}
    {r : ActiveRecollection} {change : Change} (h : Ready store o d known l e)
    (hd : WorldLaw store d) (hr : r.Held o d) :
    (memoryPact store).Replays d (Store.applyRecollectionRevision env jobRef r change)
      (Ready store o d known) l e := by
  unfold Store.applyRecollectionRevision
  dsimp only
  split
  · exact Pact.Replays.ret h
  refine h.select (fun e' hb => (h.agree hd hb).activeText (h.readable hd hb) (h.readable_end hd)
    hr.owner _ _ _) fun e₁ h₁ => ?_
  split
  · exact Pact.Replays.ret h₁
  refine Pact.Replays.bind (replays_insertRevisedRecollection h₁ hd hr) fun _ l₂ e₂ _ h₂ => ?_
  exact Pact.Replays.bind (replays_insertRecollectionBasis h₂ hd
    ⟨_, _, rfl, hr.freeRecollection hd⟩) fun _ l₃ e₃ _ h₃ => Pact.Replays.ret h₃

theorem replays_reenactable {t : FeedbackTarget} {refs : List String}
    (h : Ready store o d known l e) (hd : WorldLaw store d) (ht : t.Held o d known) :
    (memoryPact store).Replays d (reenactable t refs)
      (fun l' e' => Ready store o d known l' e') l e := by
  induction refs generalizing e with
  | nil => exact Pact.Replays.ret h
  | cons ref rest ih =>
    unfold reenactable
    split
    · exact Pact.Replays.ret h
    refine h.select (fun e' hb => (h.agree hd hb).alreadyBasis (ht.freeVersion hd) ref)
      fun e₁ h₁ => ?_
    split
    · exact Pact.Replays.ret h₁
    · exact ih h₁

theorem replays_appendReenactments {t : FeedbackTarget} {refs : List String} {applied : Bool}
    (h : Ready store o d known l e) (hd : WorldLaw store d) (hhash : Collisionless store)
    (ht : t.Held o d known) (hknown : ∀ ref ∈ refs, known t.owner.tenantRef ref) :
    (memoryPact store).Replays d (appendReenactments t refs applied) (Ready store o d known) l e := by
  induction refs generalizing applied l e with
  | nil => exact Pact.Replays.ret h
  | cons ref rest ih =>
    have hrest : ∀ r ∈ rest, known t.owner.tenantRef r := fun r hr =>
      hknown r (List.mem_cons_of_mem _ hr)
    refine h.select (fun e' hb => ?_) fun e₁ h₁ => ?_
    · refine (h.agree hd hb).alreadyContributed (ht.freeVersion hd) ?_ ?_ (h.knownBasis hb) ?_
      · rw [episodes_of_rows h.rows, episodes_of_rows h.rows]
        exact hb.before.gains.episodes
      · rw [episodes_of_rows h.rows]
        exact fun a ha b hb => hd.episode_eq hhash ha hb
      · exact ((h.later hb).known _ _ (hknown ref List.mem_cons_self)).mono
          (gains_applyAll e' l.log)
    · split
      · exact ih h₁ hrest
      refine Pact.Replays.bind (replays_insertBasis h₁ hd (fun x y hagree =>
        hagree.seedBasis _ (ht.freeVersion hd)) trivial ?_) fun _ l₂ e₂ _ h₂ => ih h₂ hrest
      intro b hb
      obtain rfl := Write.insertSeedBasis.inj hb
      exact hknown ref List.mem_cons_self

theorem replays_applyReenactment {t : FeedbackTarget} {refs : List String}
    (h : Ready store o d known l e) (hd : WorldLaw store d) (hhash : Collisionless store)
    (ht : t.Held o d known) (hknown : ∀ ref ∈ refs, known t.owner.tenantRef ref) :
    (memoryPact store).Replays d (applyReenactment t refs) (Ready store o d known) l e := by
  refine Pact.Replays.bind (replays_reenactable h hd ht) fun allowed l₁ e₁ _ h₁ => ?_
  split
  · exact Pact.Replays.ret h₁
  refine Pact.Replays.bind (replays_appendReenactments h₁ hd hhash ht fun ref href => ?_)
    fun _ l₂ e₂ _ h₂ => Pact.Replays.ret h₂
  exact hknown ref (mem_sortRefs.mp href)

theorem replays_applyInhibition {t : FeedbackTarget} {refs : List String}
    (h : Ready store o d known l e) (hd : WorldLaw store d) (ht : t.Held o d known) :
    (memoryPact store).Replays d (applyInhibition t refs) (Ready store o d known) l e := by
  unfold applyInhibition
  cases hbasis : feedbackBasis t refs false with
  | none => exact Pact.Replays.ret h
  | some basis =>
    obtain ⟨episodes, outcomes⟩ := basis
    refine Pact.Replays.bind (replays_insertEpisodeBasis h hd (ht.freeVersion hd) fun ref href => ?_)
      fun _ l₁ e₁ _ h₁ => ?_
    · rcases (mem_feedbackBasis hbasis ref href).2 with he | ⟨hfalse, _⟩
      · exact ht.known ref (Or.inl he)
      · cases hfalse
    · exact Pact.Replays.bind (replays_insertOutcomeBasis h₁ hd (ht.freeVersion hd))
        fun _ l₂ e₂ _ h₂ => Pact.Replays.ret h₂

theorem replays_insertRevisedSeed {jobRef text : String} {t : FeedbackTarget}
    (h : Ready store o d known l e) (hd : WorldLaw store d) (ht : t.Held o d known) :
    (memoryPact store).Replays d (insertRevisedSeed jobRef text t) (Ready store o d known) l e := by
  refine Pact.Replays.bind (replays_supersedeSeedVersion h hd (ht.freeVersion hd))
    fun _ l₁ e₁ _ h₁ => ?_
  refine Pact.Ends.conseq (replays_insertFresh h₁ (fun b hb => by cases hb) fun e' hb _ ht' =>
    ⟨rfl, ?_⟩) fun _ l₂ e₂ h₂ => ⟨h₂.1, h₂.2.1⟩
  rw [← (h₁.agree hd hb).seedVersionConflict (h₁.readable hd hb) (h₁.readable_end hd) rfl
    (ht.freeSeed hd)]
  exact ht'

theorem replays_applyRevision {jobRef : String} {t : FeedbackTarget} {change : Change}
    (h : Ready store o d known l e) (hd : WorldLaw store d) (ht : t.Held o d known) :
    (memoryPact store).Replays d (applyRevision jobRef t change) (Ready store o d known) l e := by
  unfold applyRevision
  split
  · exact Pact.Replays.ret h
  cases hbasis : revisionBasis t change with
  | none => exact Pact.Replays.ret h
  | some basis =>
    obtain ⟨episodes, outcomes⟩ := basis
    refine h.select (fun e' hb => (h.agree hd hb).activeTendency (h.readable hd hb)
      (h.readable_end hd) ht.owner _ _) fun e₁ h₁ => ?_
    split
    · exact Pact.Replays.ret h₁
    refine Pact.Replays.bind (replays_insertRevisedSeed h₁ hd ht) fun _ l₂ e₂ _ h₂ => ?_
    have hfree : FreeSeedVersion o d (versionRefOf t.seedRef (t.versionNumber + 1)) :=
      ⟨_, _, rfl, ht.freeSeed hd⟩
    refine Pact.Replays.bind (replays_insertEpisodeBasis h₂ hd hfree fun ref href =>
      ht.known ref (mem_revisionBasis hbasis ref href)) fun _ l₃ e₃ _ h₃ => ?_
    exact Pact.Replays.bind (replays_insertOutcomeBasis h₃ hd hfree)
      fun _ l₄ e₄ _ h₄ => Pact.Replays.ret h₄

theorem replays_applyRecollectionFormation {env : Ambient} {jobRef : String} {w : WindowState}
    {change : Change} (h : Ready store o d known l e) (hd : WorldLaw store d)
    (hw : w.Held o d known) :
    (memoryPact store).Replays d (store.applyRecollectionFormation env w jobRef change)
      (Ready store o d known) l e := by
  unfold Store.applyRecollectionFormation
  cases eligibleRecollectionBasis change.basisRefs w.episodeOf with
  | none => exact Pact.Replays.ret h
  | some basis =>
    dsimp only
    split
    · exact Pact.Replays.ret h
    · exact replays_formRecollection h hd hw.owner

theorem replays_applyDispositionFormation {jobRef : String} {w : WindowState} {change : Change}
    (h : Ready store o d known l e) (hd : WorldLaw store d) (hw : w.Held o d known) :
    (memoryPact store).Replays d (store.applyDispositionFormation w jobRef change)
      (Ready store o d known) l e := by
  unfold Store.applyDispositionFormation
  dsimp only
  split
  · exact Pact.Replays.ret h
  cases hbasis : formationBasis w change with
  | none => exact Pact.Replays.ret h
  | some basis =>
    obtain ⟨episodes, outcomes⟩ := basis
    exact replays_formSeed h hd hw.owner fun ref href =>
      hw.known ref (mem_formationBasis hbasis ref href)

end

end ChoraMem
