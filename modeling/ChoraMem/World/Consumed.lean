/-
Feedback is consumed once.

A version is reenacted by a run once, and an Episode that was taken as feedback of a version,
as reenactment or as inhibition, is not offered for it again and not applied to it again.
The rows are checked and written under the lock of the version's owner, so what one batch
adds is decided by the rows that its commit finds.
-/
import ChoraMem.World.Effective
import ChoraMem.World.Isolation
import ChoraMem.World.Sizes

namespace ChoraMem

open Txn Versions

/-- The Episode was consumed as feedback of the version. -/
def Consumed (tenantRef versionRef ref : String) (d : Db) : Prop :=
  ∃ b ∈ d.seedBasis, b.tenantRef = tenantRef ∧ b.versionRef = versionRef ∧ b.basisRef = ref ∧
    b.role.consumes = true

def BasisRow.SameVersion (b b' : BasisRow) : Prop :=
  b.tenantRef = b'.tenantRef ∧ b.versionRef = b'.versionRef

/-- The row cites an Episode of the run. -/
def BasisRow.OfRun (b : BasisRow) (scope : Scope) (runRef : String) (d : Db) : Prop :=
  ∃ e ∈ d.episodes, e.ref = b.basisRef ∧ e.group.scope.tenantRef = b.tenantRef ∧
    e.group.scope = scope ∧ e.group.runRef = runRef

/-- A run has at most one reenactment of a version. -/
def RunsOnce (d : Db) : Prop :=
  ∀ b ∈ d.seedBasis, ∀ b' ∈ d.seedBasis, b.SameVersion b' → b.role = .reenactment →
    b'.role = .reenactment → ∀ scope runRef, b.OfRun scope runRef d → b'.OfRun scope runRef d →
      b = b'

/-- An Episode is feedback of a version once, as a reenactment or as an inhibition. -/
def EpisodesOnce (d : Db) : Prop :=
  ∀ b ∈ d.seedBasis, ∀ b' ∈ d.seedBasis, b.SameVersion b' → b.basisRef = b'.basisRef →
    b.role.consumes = true → b'.role.consumes = true → b = b'

structure FeedbackOnce (d : Db) : Prop where
  runs : RunsOnce d
  episodes : EpisodesOnce d

/-- Neither an Episode that a version consumed nor an Outcome of one is offered for it. -/
def WindowState.OffersFresh (w : WindowState) (d : Db) : Prop :=
  ∀ t ∈ w.targets, (∀ ref ∈ t.episodes, ¬Consumed t.owner.tenantRef t.versionRef ref d) ∧
    ∀ r ∈ t.outcomes, ¬Consumed t.owner.tenantRef t.versionRef r.2 d

/-- What a change cites as feedback of a version: Episodes, and in a new text no anchors. -/
structure Change.Feeds (change : Change) (p : Proposal) (v : SeedVersionRow) (ref : String)
    (d : Db) : Prop where
  target : v.ref = change.target
  cited : ref ∈ change.basisRefs
  episode : ref ∉ p.window.outcomeEventRefs
  operation : change.operation = .reenact ∨ change.operation = .inhibit ∨
    change.operation = .text ∧ ∀ b ∈ d.seedBasis, b.tenantRef = v.tenantRef →
      b.versionRef = v.ref → b.basisRef = ref → b.role.anchors = false

/-- What the change feeds to a version was not consumed yet. -/
def Change.FeedsFresh (change : Change) (p : Proposal) (d : Db) : Prop :=
  ∀ v ∈ d.seedVersions, ∀ ref, change.Feeds p v ref d → ¬Consumed v.tenantRef v.ref ref d

/-- Feedback is consumed once: in the store, in what a window offers of it, and in what a commit
applies to it. -/
structure ConsumesOnce (store : Store) (s : MemorySys) : Prop where
  once : FeedbackOnce s.db
  offers : ∀ index window p, store.snapshotWindow index window s.db = .ok (.proposed p) →
    ∃ found formation w, p = store.proposal window found formation w ∧ w.OffersFresh s.db
  applies : ∀ i env p text receipt s', Commits s i (.consolidated env p text receipt) s' →
    ∃ changes, CarriedOut store env p text s.db s'.db changes ∧
      ∀ change ∈ changes, change.FeedsFresh p s.db

section

variable {store : Store} {d d' x y e : Db} {p : Proposal} {text jobRef : String} {env : Ambient}
variable {t : FeedbackTarget} {ref : String}

/-! ## Runs -/

/-- A run that reenacted the version has contributed. -/
theorem contributed_of_row {b : BasisRow} (hb : b ∈ x.seedBasis)
    (htenant : b.tenantRef = t.owner.tenantRef)
    (hversion : b.versionRef = t.versionRef) (hrole : b.role = .reenactment) {scope : Scope}
    {runRef : String} (hrun : b.OfRun scope runRef x) {e : EpisodeRow} (he : e ∈ x.episodes)
    (href : e.ref = ref) (hetenant : e.group.scope.tenantRef = t.owner.tenantRef)
    (hescope : e.group.scope = scope) (herun : e.group.runRef = runRef) :
    alreadyContributed t ref x = true := by
  obtain ⟨prior, hprior, hpref, hptenant, hpscope, hprun⟩ := hrun
  refine List.any_eq_true.mpr ⟨b, mem_versionBasis.mpr ⟨hb, htenant, hversion⟩, ?_⟩
  rw [hrole, beq_self_eq_true, Bool.true_and]
  refine List.any_eq_true.mpr ⟨prior,
    mem_tenantEpisodes.mpr ⟨hprior, hptenant.trans htenant, hpref⟩, ?_⟩
  refine List.any_eq_true.mpr ⟨e, mem_tenantEpisodes.mpr ⟨he, hetenant, href⟩, ?_⟩
  rw [hpscope, hescope, hprun, herun]
  simp

/-- One more reenactment, of a run that has none. -/
theorem RunsOnce.insert (h : RunsOnce x) (hnew : alreadyContributed t ref x = false) :
    RunsOnce (x.apply (.insertSeedBasis ⟨t.owner.tenantRef, t.versionRef, ref, .reenactment⟩)) := by
  have hother : ∀ b ∈ x.seedBasis,
      b.SameVersion ⟨t.owner.tenantRef, t.versionRef, ref, .reenactment⟩ →
      b.role = .reenactment → ∀ scope runRef, b.OfRun scope runRef x →
      ¬BasisRow.OfRun ⟨t.owner.tenantRef, t.versionRef, ref, .reenactment⟩ scope runRef x := by
    intro b hb hversion hrole scope runRef hrun ⟨e, he, href, htenant, hscope, hrunRef⟩
    have hcontributed := contributed_of_row hb hversion.1 hversion.2 hrole hrun he href htenant
      hscope hrunRef
    rw [hnew] at hcontributed
    cases hcontributed
  intro b hb b' hb' hversion hrole hrole' scope runRef hrun hrun'
  rcases mem_insertRow_id.mp (show b ∈ insertRow id _ x.seedBasis from hb) with hb | rfl
  · rcases mem_insertRow_id.mp (show b' ∈ insertRow id _ x.seedBasis from hb') with hb' | rfl
    · exact h b hb b' hb' hversion hrole hrole' scope runRef hrun hrun'
    · exact absurd hrun' (hother b hb hversion hrole scope runRef hrun)
  · rcases mem_insertRow_id.mp (show b' ∈ insertRow id _ x.seedBasis from hb') with hb' | rfl
    · exact absurd hrun (hother b' hb' ⟨hversion.1.symm, hversion.2.symm⟩ hrole' scope runRef hrun')
    · rfl

theorem RunsOnce.reenact {refs : List String} (h : RunsOnce x) (hnew : NewRuns t x refs) :
    RunsOnce (applyAll x ((basisRows t.owner.tenantRef t.versionRef .reenactment refs).map
      Write.insertSeedBasis)) := by
  induction refs generalizing x with
  | nil => exact h
  | cons ref refs ih => exact ih (h.insert hnew.1) hnew.2

/-- A store with no further reenactment and the same Episodes. -/
theorem RunsOnce.mono (h : RunsOnce x)
    (hrows : ∀ b ∈ y.seedBasis, b.role = .reenactment → b ∈ x.seedBasis)
    (hepisodes : y.episodes = x.episodes) : RunsOnce y := by
  intro b hb b' hb' hversion hrole hrole' scope runRef hrun hrun'
  unfold BasisRow.OfRun at hrun hrun'
  rw [hepisodes] at hrun hrun'
  exact h b (hrows b hb hrole) b' (hrows b' hb' hrole') hversion hrole hrole' scope runRef hrun
    hrun'

theorem Licensed.runsOnce {w : WindowState} {change : Change} {a : Applied} {deed : Deed}
    (h : Licensed store env jobRef w change x a deed) (hx : RunsOnce x) :
    RunsOnce (applyAll x deed.writes) := by
  have hother : (∀ b, .insertSeedBasis b ∈ deed.writes → b.role ≠ .reenactment) →
      RunsOnce (applyAll x deed.writes) := by
    intro hrole
    refine hx.mono (fun b hb hreenacts => ?_)
      (beside_applyAll (fun w hw => deed.memoryRows w hw) x).episodes
    rcases of_mem_seedBasis hb with hb | hb
    · exact hb
    · exact absurd hreenacts (hrole b hb)
  cases h with
  | reenact _ _ _ _ _ hnew =>
    simp only [Deed.writes, basisRows, List.map_nil, List.append_nil]
    exact hx.reenact hnew
  | _ =>
    refine hother fun b hb hreenacts => ?_
    simp [Deed.writes, basisRows] at hb
    try obtain ⟨_, _, rfl⟩ := hb
    try cases hreenacts

/-! ## Feedback of a batch -/

/-- Feedback rows were there, or a change of the batch adds them of what it was offered. -/
def FeedbackFrom (w : WindowState) (changes : List Change) (d z : Db) : Prop :=
  ∀ b ∈ z.seedBasis, b.role.consumes = true → b ∈ d.seedBasis ∨
    ∃ change ∈ changes, ∃ t, w.addressee change.target = .disposition t ∧
      b.tenantRef = t.owner.tenantRef ∧ b.versionRef = t.versionRef ∧ b.basisRef ∈ t.episodes ∧
      change.operation.feedbackRole = some b.role

theorem feedbackFrom_refl (w : WindowState) (changes : List Change) (d : Db) :
    FeedbackFrom w changes d d := fun _ hb _ => Or.inl hb

theorem Licensed.feedbackFrom {w : WindowState} {changes : List Change} {change : Change}
    {a : Applied} {deed : Deed} (h : Licensed store env jobRef w change x a deed)
    (hmem : change ∈ changes) (hx : FeedbackFrom w changes d x) :
    FeedbackFrom w changes d (applyAll x deed.writes) := by
  intro b hb hrole
  rcases of_mem_seedBasis hb with hb | hb
  · exact hx b hb hrole
  right
  cases h with
  | reenact _ ht hop hall hadded =>
    simp only [Deed.writes, basisRows, List.map_nil, List.append_nil, List.map_map, List.mem_map,
      Function.comp_apply] at hb
    obtain ⟨ref, href, hb⟩ := hb
    obtain rfl := Write.insertSeedBasis.inj hb
    exact ⟨change, hmem, _, ht, rfl, rfl, (hall ref (mem_sortRefs.mp (hadded.subset href))).1,
      by rw [hop]; rfl⟩
  | inhibit _ ht hop hbasis =>
    simp only [Deed.writes, basisRows, List.map_map, List.mem_append, List.mem_map,
      Function.comp_apply] at hb
    obtain ⟨ref, href, hb⟩ | ⟨ref, _, hb⟩ := hb
    · obtain rfl := Write.insertSeedBasis.inj hb
      refine ⟨change, hmem, _, ht, rfl, rfl, ?_, by rw [hop]; rfl⟩
      rcases (mem_feedbackBasis hbasis ref href).2 with he | ⟨hfalse, _⟩
      · exact he
      · cases hfalse
    · cases hb
  | _ =>
    simp [Deed.writes, basisRows] at hb
    try obtain ⟨_, _, rfl⟩ := hb
    try cases hrole

/-- A version's ref names no formation. -/
theorem old_of_version (hd : MemoryLaw d) {v : SeedVersionRow} (hv : v ∈ d.seedVersions) :
    v.ref ≠ targetNewRecollection ∧ v.ref ≠ targetNewDisposition := by
  have hname : v.ref = versionRefOf v.seedRef v.number := hd.seedName hv
  have hat : '@' ∈ v.ref.toList := by
    rw [hname]
    simp [versionRefOf]
  constructor <;> exact fun h => absurd (h ▸ hat) (by decide)

theorem WindowState.addressee_old {w : WindowState} {target : String}
    (h : target ≠ targetNewRecollection ∧ target ≠ targetNewDisposition) :
    w.addressee target ≠ .newRecollection ∧ w.addressee target ≠ .newDisposition := by
  unfold WindowState.addressee
  rw [if_neg h.1, if_neg h.2]
  constructor <;>
  · split
    · simp
    · split <;> simp

theorem notConsumed_of_rows (h : ∀ b ∈ d.seedBasis, b.tenantRef = t.owner.tenantRef →
    b.versionRef = t.versionRef → b.basisRef = ref → b.role.consumes = false) :
    ¬Consumed t.owner.tenantRef t.versionRef ref d := by
  intro ⟨b, hb, htenant, hversion, hbasis, hrole⟩
  have hno := h b hb htenant hversion hbasis
  rw [hrole] at hno
  cases hno

/-- A loaded target offers neither what was consumed nor an Outcome about it. -/
theorem FeedbackTarget.Loaded.fresh_offers {episodes : List EpisodeEvidence}
    {outcomes : List FeedbackOutcome} {dispositions : List ActiveDisposition}
    (h : t.Loaded episodes outcomes dispositions d) :
    (∀ ref ∈ t.episodes, ¬Consumed t.owner.tenantRef t.versionRef ref d) ∧
      ∀ r ∈ t.outcomes, ¬Consumed t.owner.tenantRef t.versionRef r.2 d := by
  refine ⟨fun ref href => notConsumed_of_rows (h.fresh ref href), fun r hr => ?_⟩
  obtain ⟨o, _, _, hepisode, hattributes⟩ := h.attributed r hr
  simp only [FeedbackTarget.attributes, Bool.and_eq_true, List.any_eq_true, List.contains_eq_mem,
    decide_eq_true_eq] at hattributes
  obtain ⟨_, receipt, _, hmem⟩ := hattributes
  rw [← hepisode]
  exact notConsumed_of_rows (h.freshReceipts _ hmem)

/-- What a valid change feeds its target offers. -/
theorem Change.Feeds.offered {w : WindowState} {change : Change} {v : SeedVersionRow}
    (h : change.Feeds p v ref d) (hvalid : w.validDispositionChange change t = true)
    (houtcome : ref ∉ t.outcomeRefs) (hanchor : change.operation = .text → ref ∉ t.anchors) :
    ref ∈ t.episodes := by
  have hfeedback : ∀ allow, (allow = true → change.operation = .text) →
      (feedbackBasis t change.basisRefs allow).isSome = true → ref ∈ t.episodes := by
    intro allow hallow hbasis
    obtain ⟨basis, hbasis⟩ := Option.isSome_iff_exists.mp hbasis
    obtain ⟨split, hsplit, _⟩ := Option.map_eq_some_iff.mp (feedbackBasis_some hbasis).1
    rcases (splitBasis_some hsplit).1 ref h.cited with h | ⟨htrue, h⟩ | h
    · exact h
    · exact absurd h (hanchor (hallow htrue))
    · exact absurd h houtcome
  simp only [WindowState.validDispositionChange, Bool.and_eq_true] at hvalid
  rcases h.operation with hop | hop | ⟨hop, _⟩
  · simp only [hop, Bool.and_eq_true, List.all_eq_true, List.contains_eq_mem,
      decide_eq_true_eq] at hvalid
    exact hvalid.2.2 ref h.cited
  · simp only [hop] at hvalid
    exact hfeedback false (fun h => by cases h) hvalid.2
  · simp only [hop, Bool.and_eq_true] at hvalid
    exact hfeedback true (fun _ => hop) hvalid.2.1

/-- A batch has one change of an existing version. -/
theorem Orderly.eq {changes : List Change} (h : Orderly changes) {c c' : Change} (hc : c ∈ changes)
    (hc' : c' ∈ changes) (hnew : c.isNew = false) (htarget : c.target = c'.target) : c = c' := by
  have hnew' : c'.isNew = false := by
    rw [← hnew, Change.isNew, Change.isNew, htarget]
  induction changes with
  | nil => cases hc
  | cons first rest ih =>
    obtain ⟨hfirst, hrest⟩ := List.pairwise_cons.mp h
    rcases List.mem_cons.mp hc with hf | hr
    · rcases List.mem_cons.mp hc' with hf' | hr'
      · exact hf.trans hf'.symm
      · subst hf
        exact absurd htarget.symm (hfirst c' hr' hnew)
    · rcases List.mem_cons.mp hc' with hf' | hr'
      · subst hf'
        exact absurd htarget (hfirst c hr hnew')
      · exact ih hrest hr hr'

namespace Sight

variable (s : Sight store p e d)

/-- A row of a locked target's version is there when the commit comes just if it was loaded. -/
theorem row_loaded (hd : WorldLaw store d) (hge : Gains e d) {x₀ : Db}
    (hp : Proposed store p x₀) (hlocked : ∀ t ∈ s.targets, p.locks t.owner) (ht : t ∈ s.targets)
    {b : BasisRow} (hversion : b.versionRef = t.versionRef) :
    b ∈ s.forFeedback.seedBasis ↔ b ∈ d.seedBasis := by
  have hx := s.seenFeedback
  have hagree := hx.same.agree hx.law.memory hd.memory (hx.gains.trans hge)
  have hheld := (s.held hge hp.valid hp.owner_locked hlocked).targets t (by rwa [window_targets])
  have hfree := hheld.freeVersion hd
  rw [← hversion] at hfree
  exact hagree.seedBasis b hfree

/-- What a target offers as Outcomes are Outcomes of the window. -/
theorem outcome_ref (ht : t ∈ s.targets) (h : ref ∈ t.outcomeRefs) :
    ref ∈ p.window.outcomeEventRefs := by
  obtain ⟨r, hr, rfl⟩ := List.mem_map.mp h
  obtain ⟨o, ho, href, _⟩ := (s.loadedTarget ht).attributed r hr
  obtain ⟨a, ha, hload⟩ := (mapM_ok (loadFeedbackState_ok s.loadedFeedback).2).1 o ho
  rw [← href, (loadFeedbackOutcome_ok hload).1]
  exact ha

theorem fresh_target (hd : WorldLaw store d) (hge : Gains e d) {x₀ : Db}
    (hp : Proposed store p x₀) (hlocked : ∀ t ∈ s.targets, p.locks t.owner) (ht : t ∈ s.targets) :
    ∀ ref ∈ t.episodes, ¬Consumed t.owner.tenantRef t.versionRef ref d := by
  intro ref href hconsumed
  obtain ⟨b, hb, htenant, hversion, hbasis, hrole⟩ := hconsumed
  have hloaded := (s.row_loaded hd hge hp hlocked ht hversion).mpr hb
  have hno := (s.loadedTarget ht).fresh ref href b hloaded htenant hversion hbasis
  rw [hrole] at hno
  cases hno

/-- A batch adds feedback that is not there yet. -/
theorem feedbackOnce (hd : WorldLaw store d) (hge : Gains e d) {x₀ : Db} (hp : Proposed store p x₀)
    (hlocked : ∀ t ∈ s.targets, p.locks t.owner) {effects : List (Change × Applied)}
    (hbatch : Batch store env p.window.jobRef s.window (s.window.accepted text) d effects y)
    (h : FeedbackOnce d) : FeedbackOnce y := by
  have hkeeps := (s.keeps hd hge hp hlocked hbatch
    (P := fun z _ => RunsOnce z ∧ FeedbackFrom s.window (s.window.accepted text) d z)
    ⟨h.runs, feedbackFrom_refl _ _ _⟩ fun x _ change a deed z hmem hstep hx => ?_).1
  · obtain ⟨hruns, hfrom⟩ := hkeeps
    have hfresh : ∀ {t : FeedbackTarget} {change : Change},
        s.window.addressee change.target = .disposition t →
        ∀ ref ∈ t.episodes, ¬Consumed t.owner.tenantRef t.versionRef ref d := by
      intro t change ht
      have hmem := (WindowState.target_addressee ht).1
      rw [window_targets] at hmem
      exact s.fresh_target hd hge hp hlocked hmem
    refine ⟨hruns, fun b hb b' hb' hversion hbasis hrole hrole' => ?_⟩
    rcases hfrom b hb hrole with hold | ⟨c, hc, t, ht, htenant, href, hepisode, hop⟩
    · rcases hfrom b' hb' hrole' with hold' | ⟨c', hc', t', ht', htenant', href', hepisode', hop'⟩
      · exact h.episodes b hold b' hold' hversion hbasis hrole hrole'
      · exact absurd ⟨b, hold, hversion.1.trans htenant', hversion.2.trans href', hbasis, hrole⟩
          (hfresh ht' _ hepisode')
    · rcases hfrom b' hb' hrole' with hold' | ⟨c', hc', t', ht', htenant', href', hepisode', hop'⟩
      · exact absurd ⟨b', hold', hversion.1.symm.trans htenant, hversion.2.symm.trans href,
          hbasis.symm, hrole'⟩ (hfresh ht _ hepisode)
      · have htarget := (WindowState.target_addressee ht).2
        have htarget' := (WindowState.target_addressee ht').2
        have hnew : c.isNew = false := isNew_false_of_addressee (w := s.window)
          (by rw [ht]; exact ⟨by simp, by simp⟩)
        obtain rfl := (orderly_accepted _ _).eq hc hc' hnew
          (htarget.symm.trans (href.symm.trans (hversion.2.trans (href'.trans htarget'))))
        have hsame : b.role = b'.role := Option.some.inj (hop.symm.trans hop')
        obtain ⟨_, _, _, _⟩ := b
        obtain ⟨_, _, _, _⟩ := b'
        simp_all [BasisRow.SameVersion]
  · obtain ⟨operations, rfl⟩ := hstep.carried.did
    exact ⟨hstep.carried.licensed.runsOnce hx.1, hstep.carried.licensed.feedbackFrom hmem hx.2⟩

theorem target_tenant (hd : WorldLaw store d) (hge : Gains e d) (ht : t ∈ s.targets)
    {v : SeedVersionRow} (hv : v ∈ d.seedVersions) (hsame : v.ref = t.versionRef) :
    v.tenantRef = t.owner.tenantRef := by
  obtain ⟨hroot, hname⟩ := s.target_named hge ht
  refine hd.memory.seedTenant hv hroot ?_
  exact (versionRefOf_inj (hname.symm.trans (hsame.symm.trans (hd.memory.seedName hv)))).1

/-- What is fed in a new text is no anchor that was loaded. -/
theorem not_anchor (hd : WorldLaw store d) (hge : Gains e d) {x₀ : Db}
    (hp : Proposed store p x₀) (hlocked : ∀ t ∈ s.targets, p.locks t.owner) (ht : t ∈ s.targets)
    {change : Change} {v : SeedVersionRow} (hsame : v.ref = t.versionRef)
    (htenant : v.tenantRef = t.owner.tenantRef) (hfeeds : change.Feeds p v ref d)
    (htext : change.operation = .text) : ref ∉ t.anchors := by
  intro hanchor
  obtain ⟨b, hb, hbtenant, hbversion, hbasis, hrole⟩ :=
    ((s.loadedTarget ht).anchored ref).mp hanchor
  have hrow := (s.row_loaded hd hge hp hlocked ht hbversion).mp hb
  rcases hfeeds.operation with hop | hop | ⟨_, hno⟩
  · rw [hop] at htext
    cases htext
  · rw [hop] at htext
    cases htext
  · have hfalse := hno b hrow (hbtenant.trans htenant.symm) (hbversion.trans hsame.symm) hbasis
    rw [hrole] at hfalse
    cases hfalse

/-- An accepted change feeds nothing that was consumed. -/
theorem feedsFresh (hd : WorldLaw store d) (hnamed : d.Named) (hge : Gains e d) {x₀ : Db}
    (hp : Proposed store p x₀) (hlocked : ∀ t ∈ s.targets, p.locks t.owner) {change : Change}
    (hmem : change ∈ s.window.accepted text) : change.FeedsFresh p d := by
  intro v hv ref hfeeds
  obtain ⟨changes, _, heq, hchanges⟩ := mem_accepted hmem
  rw [heq] at hmem
  have hchange := validChange_of_valid hchanges hmem
  rw [WindowState.validChange_addressee] at hchange
  have hold := WindowState.addressee_old (w := s.window)
    (hfeeds.target ▸ old_of_version hd.memory hv)
  have hfinds := s.finds hd hge hp.owner_locked hlocked change
  unfold WindowState.Finds at hfinds
  cases haddr : s.window.addressee change.target with
  | nobody =>
    rw [haddr] at hchange
    cases hchange
  | newRecollection => exact absurd haddr hold.1
  | newDisposition => exact absurd haddr hold.2
  | recollection r =>
    rw [haddr] at hfinds
    obtain ⟨u, hu, href, _⟩ := hfinds
    exact absurd (href.trans ((WindowState.recollectionOf_addressee haddr).2.trans
      hfeeds.target.symm)) (hnamed.apart hd.memory hv hu)
  | disposition t =>
    rw [haddr] at hchange
    obtain ⟨htmem, hversion⟩ := WindowState.target_addressee haddr
    rw [window_targets] at htmem
    have hsame : v.ref = t.versionRef := hfeeds.target.trans hversion.symm
    have htenant := s.target_tenant hd hge htmem hv hsame
    rw [htenant, hsame]
    refine s.fresh_target hd hge hp hlocked htmem ref ?_
    exact hfeeds.offered hchange (fun hout => hfeeds.episode (s.outcome_ref htmem hout))
      (s.not_anchor hd hge hp hlocked htmem hsame htenant hfeeds)

end Sight

/-! ## Over all runs -/

theorem feedbackOnce_empty : FeedbackOnce {} :=
  ⟨fun _ hb => absurd hb List.not_mem_nil, fun _ hb => absurd hb List.not_mem_nil⟩

/-- The Episodes of the rows that were there stay what they were. -/
theorem FeedbackOnce.of_rows (h : FeedbackOnce d) (hd : WorldLaw store d) (hd' : WorldLaw store d')
    (hhash : Collisionless store) (hg : Gains d d') (hrows : d'.seedBasis = d.seedBasis) :
    FeedbackOnce d' := by
  have hrun : ∀ b ∈ d.seedBasis, ∀ scope runRef, b.OfRun scope runRef d' →
      b.OfRun scope runRef d := by
    intro b hb scope runRef ⟨e, he, href, htenant, hof⟩
    obtain ⟨e₀, he₀, href₀, _⟩ := hd.cited b hb
    obtain rfl := hd'.episode_eq hhash he (hg.episodes he₀) (href.trans href₀.symm)
    exact ⟨e, he₀, href, htenant, hof⟩
  constructor
  · intro b hb b' hb' hversion hrole hrole' scope runRef hb₁ hb₂
    rw [hrows] at hb hb'
    exact h.runs b hb b' hb' hversion hrole hrole' scope runRef (hrun b hb scope runRef hb₁)
      (hrun b' hb' scope runRef hb₂)
  · unfold EpisodesOnce
    rw [hrows]
    exact h.episodes

theorem CarriedOut.feedbackOnce {changes : List Change}
    (h : CarriedOut store env p text d y changes) (hd : WorldLaw store d) {x₀ : Db}
    (hp : Proposed store p x₀) (honce : FeedbackOnce d) : FeedbackOnce y := by
  cases h with
  | nothing hsame =>
    rw [hsame]
    exact honce
  | accepted sight hge _ hlocked _ hbatch hsame =>
    obtain ⟨hruns, hepisodes⟩ := sight.feedbackOnce hd hge hp hlocked hbatch honce
    rw [hsame]
    exact ⟨hruns, hepisodes⟩

/-- What a commit carries out feeds nothing that was consumed. -/
theorem CarriedOut.feedsFresh {changes : List Change} (h : CarriedOut store env p text d y changes)
    (hd : WorldLaw store d) (hnamed : d.Named) {x₀ : Db} (hp : Proposed store p x₀) :
    ∀ change ∈ changes, change.FeedsFresh p d := by
  cases h with
  | nothing _ => exact fun _ hmem => absurd hmem List.not_mem_nil
  | accepted sight hge _ hlocked _ _ _ =>
    exact fun change hmem => sight.feedsFresh hd hnamed hge hp hlocked hmem

theorem feedbackOnce_reach (hhash : Collisionless store) {s : MemorySys} (h : MemoryReach store s) :
    FeedbackOnce s.db := by
  refine memory_keeps (C := fun _ _ _ => True) hhash feedbackOnce_empty ?_
    (h.mono fun _ _ _ _ _ _ _ _ _ => trivial)
  intro d a l hd _ hdone honce
  have hplain : ∀ (hl : ∀ w ∈ l.log, store.Plain w), FeedbackOnce (applyAll d l.log) := by
    intro hl
    obtain ⟨hlaw, hsame⟩ := worldLaw_plains hd hl
    exact honce.of_rows hd hlaw hhash (gains_applyAll d l.log) hsame.seedBasis
  cases a with
  | selected request context =>
    obtain ⟨hlaw, hsame⟩ := Selected.keeps hdone hd
    exact honce.of_rows hd hlaw hhash (gains_applyAll d l.log) hsame.seedBasis
  | frozen window receipt =>
    rw [hdone.1, applyAll_nil]
    exact honce
  | consolidated env p text receipt =>
    obtain ⟨⟨index, window, x, _, hsnapshot⟩, hconcluded, _⟩ := hdone
    obtain ⟨changes, hcarried, _⟩ := hconcluded.carriedOut
    exact hcarried.feedbackOnce hd (snapshot_proposed hsnapshot).2 honce
  | intake reply => exact hplain hdone
  | leased job => exact hplain hdone
  | acknowledged => exact hplain hdone

/-- A proposed window offers no feedback that was consumed. -/
theorem offersFresh_propose {index : Option MemoryIndex} {window : Window}
    {episodes related : List EpisodeEvidence} {found : MemoryIndexCandidates}
    (h : store.propose index window episodes found related d = .ok p) :
    ∃ formation w, p = store.proposal window found formation w ∧ w.OffersFresh d := by
  simp only [Store.propose, bind, Except.bind, pure, Except.pure] at h
  split at h
  · cases h
  rename_i state hload
  obtain ⟨targets, outcomes⟩ := state
  obtain rfl := Except.ok.inj h
  refine ⟨_, _, rfl, ?_⟩
  unfold WindowState.OffersFresh
  rw [Sight.withPairs_targets]
  intro t ht
  exact ((loadFeedbackState_ok hload).1 t ht).fresh_offers

/-- In every reached state feedback is consumed once, and what was consumed stays so. -/
theorem feedback_once (store : Store) (hhash : Collisionless store) {s s' : MemorySys}
    (h : MemoryReach store s) (h' : Reach .readCommitted store.Calls s s') :
    ConsumesOnce store s ∧
      ∀ tenantRef versionRef ref, Consumed tenantRef versionRef ref s.db →
        Consumed tenantRef versionRef ref s'.db := by
  refine ⟨⟨feedbackOnce_reach hhash h, fun index window p hp => ?_,
      fun i env p text receipt s₁ hc => ?_⟩,
    fun tenantRef versionRef ref ⟨b, hb, hrow⟩ => ?_⟩
  · obtain ⟨episodes, related, found, _, _, hpropose⟩ := snapshot_propose hp
    obtain ⟨formation, w, hproposal, hfresh⟩ := offersFresh_propose hpropose
    exact ⟨found, formation, w, hproposal, hfresh⟩
  · obtain ⟨l, hdb, ⟨index, window, x, _, hsnapshot⟩, hconcluded, _⟩ := commits_done_of hhash h hc
    obtain ⟨changes, hcarried, _⟩ := hconcluded.carriedOut
    rw [hdb]
    exact ⟨changes, hcarried, hcarried.feedsFresh (worldLaw_reach hhash h) (named_reach h)
      (snapshot_proposed hsnapshot).2⟩
  · exact ⟨b, (earlier_reach hhash h h').gains.seedBasis hb, hrow⟩

end

/-! A run has two Episodes, and both are reenacted.  A late Outcome brings the one that counted
to a window again. -/

/-- The run goes on in another source group. -/
def groupCalls : List MemoryCommand :=
  [("a2", ActorKind.user, SourceRole.situation, 12), ("c2", .agent, .agentAct, 13)].map
    fun (ref, kind, role, n) =>
      .intake (.observe (plainAmbient n) (ref ++ "h")
        { ref := ref, scope := agentScope, actorRef := "a", text := ref, constitution := {},
          actorKind := kind }
        ⟨"2", "h", role⟩)

def groupEpisodeRef : String := sampleStore.episodeRef ⟨agentScope, "2", "h"⟩

def bothTask : Task :=
  { call := 14, jobRef := "k", episodes := [sampleEpisodeRef agentScope "2", groupEpisodeRef],
    changes := [⟨adaptedRef 1, .self, .reenact, "",
      [sampleEpisodeRef agentScope "2", groupEpisodeRef]⟩] }

def lateReport : OutcomeReport :=
  { sampleReport agentScope "2" with
    idempotencyKey := "p2", sourceGroupRef := "h", relatedSourceEventRefs := ["c2"],
    event := { (sampleReport agentScope "2").event with ref := "p2" } }

def lateCall : MemoryCommand := .intake (.reportOutcome (plainAmbient 15) lateReport)

/-- The window of the late Outcome, with an Episode of another run. -/
def lateTask : Task :=
  { call := 16, jobRef := "l", episodes := [groupEpisodeRef, sampleEpisodeRef agentScope "3"],
    outcomes := [sampleStore.outcomeEventRef lateReport],
    changes := [⟨adaptedRef 1, .self, .inhibit, "",
      [groupEpisodeRef, sampleStore.outcomeEventRef lateReport]⟩] }

def sampleGrouped : MemorySys := sampleStore.calls groupCalls sampleShown

def samplePaired : MemorySys := play [.task bothTask] sampleGrouped

def sampleLate : MemorySys := play [.call lateCall, .task lateTask] samplePaired

def groupedDb : Db := (played (groupCalls.map .call) shownDb).getD {}

def pairedDb : Db := (bothTask.after groupedDb).getD {}

def lateDb : Db := (played [.call lateCall, .task lateTask] pairedDb).getD {}

/-- The Episodes and Outcomes that a window offers, for each version. -/
def feedbackOffered (window : Window) (d : Db) : List (String × List String × List String) :=
  match loadConsolidationEpisodes window.episodeRefs d with
  | .error _ => []
  | .ok (episodes, _) =>
    match loadFeedbackState episodes window.outcomeEventRefs [] d with
    | .error _ => []
    | .ok (targets, _) => targets.map fun t => (t.versionRef, t.episodes, t.outcomeRefs)

/-- The rows of feedback. -/
def consumedRows (d : Db) : List (String × String × BasisRole) :=
  (d.seedBasis.filter (·.role.consumes)).map fun b => (b.versionRef, b.basisRef, b.role)

theorem lateTasks_written : bothTask.Written ∧ lateTask.Written := by
  decide +kernel

set_option synthInstance.maxSize 400 in
/-- Both Episodes are offered, and one of them counts.  The late Outcome would bring it again,
had it not been consumed. -/
theorem late_runs :
    (played (groupCalls.map .call) shownDb).isSome ∧ (bothTask.after groupedDb).isSome ∧
    (played [.call lateCall, .task lateTask] pairedDb).isSome ∧
    lateDb.receipts.length = pairedDb.receipts.length + 1 ∧
    (feedbackOffered bothTask.window groupedDb,
        feedbackOffered lateTask.window (sampleStore.calls [lateCall] ⟨groupedDb, []⟩).db,
        feedbackOffered lateTask.window lateDb) =
      ([(adaptedRef 1, [sampleEpisodeRef agentScope "2", groupEpisodeRef], [])],
        [(adaptedRef 1, [groupEpisodeRef, sampleEpisodeRef agentScope "3"],
          [sampleStore.outcomeEventRef lateReport])],
        [(adaptedRef 1, [sampleEpisodeRef agentScope "3"], [])]) ∧
    consumedRows pairedDb = [(adaptedRef 1, groupEpisodeRef, .reenactment)] ∧
    consumedRows lateDb = [(adaptedRef 1, groupEpisodeRef, .reenactment)] := by
  decide +kernel

theorem sampleGrouped_reach : MemoryReach sampleStore sampleGrouped ∧ sampleGrouped.Quiet :=
  reach_calls sampleShown_reach.2 sampleShown_reach.1 _

theorem samplePaired_reach : MemoryReach sampleStore samplePaired ∧ samplePaired.Quiet :=
  reach_calls sampleGrouped_reach.2 sampleGrouped_reach.1 _

theorem sampleGrouped_db : sampleGrouped.db = groupedDb := by
  have h := play_db sampleShown_db (@written_calls groupCalls) (some_getD late_runs.1 {})
  rw [play_calls] at h
  exact h

theorem samplePaired_db : samplePaired.db = pairedDb :=
  play_db sampleGrouped_db (written_task lateTasks_written.1)
    (played_task (some_getD late_runs.2.1 _))

theorem sampleLate_db : sampleLate.db = lateDb := by
  refine play_db samplePaired_db ?_ (some_getD late_runs.2.2.1 _)
  intro part hpart
  simp only [List.mem_cons, List.not_mem_nil, or_false] at hpart
  rcases hpart with rfl | rfl
  · exact trivial
  · exact lateTasks_written.2

/-- The version keeps its one link of the run, and what a window of the consumed Episode offers
is of the other run. -/
theorem feedback_once_late :
    consumedRows samplePaired.db = [(adaptedRef 1, groupEpisodeRef, .reenactment)] ∧
    feedbackOffered lateTask.window sampleLate.db =
      [(adaptedRef 1, [sampleEpisodeRef agentScope "3"], [])] ∧
    consumedRows sampleLate.db = [(adaptedRef 1, groupEpisodeRef, .reenactment)] ∧
    ConsumesOnce sampleStore samplePaired ∧
      ∀ tenantRef versionRef ref, Consumed tenantRef versionRef ref samplePaired.db →
        Consumed tenantRef versionRef ref sampleLate.db := by
  obtain ⟨_, _, _, _, hoffers, hpaired, hlate⟩ := late_runs
  rw [Prod.mk.injEq, Prod.mk.injEq] at hoffers
  refine ⟨?_, ?_, ?_, feedback_once sampleStore sampleStore_collisionless samplePaired_reach.1
    (reach_calls samplePaired_reach.2 .start _).1⟩
  · rw [samplePaired_db]
    exact hpaired
  · rw [sampleLate_db]
    exact hoffers.2.2
  · rw [sampleLate_db]
    exact hlate

end ChoraMem
