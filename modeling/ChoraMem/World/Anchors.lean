/-
The anchors of a Disposition can be loaded.

A formation or a revision is an anchor of the version it made, and every window that is
shown the version loads its anchors as Episodes of the Seed's owner.  A relationship's
window may revise its agent's Disposition, and the relationship's Episode is then an
anchor of the agent's version: from then on no window that is shown it can be loaded,
and a job of the queue with such a window fails on every retry.  Without such a revision
every anchor is its owner's, and every window and every job loads.
-/
import ChoraMem.World.Bases
import ChoraMem.World.Jobs

namespace ChoraMem

open Txn Versions

/-- The formation and revision rows of active versions cite Episodes of the Seed's owner. -/
def AnchorsOwn (d : Db) : Prop :=
  ∀ v ∈ d.seedVersions, v.status = .active → ∀ r ∈ d.seeds, r.ref = v.seedRef →
    ∀ b ∈ d.seedBasis, b.versionRef = v.ref → b.role.anchors = true →
      ∃ e ∈ d.episodes, e.ref = b.basisRef ∧ e.group.scope.owner = r.owner

/-- A window of materialized Episodes of one owner with Outcomes of those Episodes has a
feedback state, and its snapshot is not refused as an invalid window. -/
def WindowsLoad (store : Store) (d : Db) : Prop :=
  ∀ (window : Window) (episodes : List EpisodeEvidence) (owner : OwnerScope)
    (outcomes : List FeedbackOutcome), window.valid = true →
    loadConsolidationEpisodes window.episodeRefs d = .ok (episodes, owner) →
    window.outcomeEventRefs.mapM (loadFeedbackOutcome episodes d) = .ok outcomes →
      (∀ refs, ∃ targets, loadFeedbackState episodes window.outcomeEventRefs
        (store.loadActiveDispositions owner episodes refs d) d = .ok (targets, outcomes)) ∧
      ∀ index, store.snapshotWindow index window d ≠ .error invalidWindow

/-- The ref of the job has the receipt of another window. -/
def JobRow.Overtaken (store : Store) (d : Db) (j : JobRow) : Prop :=
  ∃ r ∈ d.receipts, r.key = (j.owner.tenantRef, j.jobRef) ∧
    r.requestHash ≠ store.consolidationWindowHash j.owner j.window

instance (store : Store) (d : Db) (j : JobRow) : Decidable (j.Overtaken store d) :=
  inferInstanceAs (Decidable (∃ r ∈ d.receipts, _ ∧ _))

/-- A frozen job has a snapshot, whatever the index answers. -/
def JobsLoad (store : Store) (d : Db) : Prop :=
  ∀ j ∈ d.jobs, j.windowHash.isSome → j.Stable → ¬j.Overtaken store d → ∀ index,
    ∃ snapshot, store.snapshotWindow index j.window d = .ok snapshot

section

variable {store : Store} {d : Db} {owner : OwnerScope} {episodes : List EpisodeEvidence}
variable {dispositions : List ActiveDisposition} {t : FeedbackTarget}

/-! ## Loading goes through -/

theorem mapM_loadEpisode_owned {refs : List String} (h : ∀ ref ∈ refs, OwnedEpisode owner ref d) :
    ∃ es, (refs.mapM fun ref => loadEpisode ref d) = some es ∧ es.length = refs.length ∧
      ∀ e ∈ es, e.owner = owner := by
  induction refs with
  | nil => exact ⟨[], rfl, rfl, fun e he => absurd he List.not_mem_nil⟩
  | cons ref rest ih =>
    obtain ⟨e, he, howner⟩ := h ref List.mem_cons_self
    obtain ⟨es, hes, hlength, howners⟩ := ih fun r hr => h r (List.mem_cons_of_mem _ hr)
    refine ⟨e :: es, ?_, by simp [hlength], ?_⟩
    · rw [List.mapM_cons, he, hes]
      rfl
    · intro e' he'
      rcases List.mem_cons.mp he' with rfl | he'
      · exact howner
      · exact howners e' he'

/-- Episodes of one owner load together. -/
theorem loadConsolidationEpisodes_owned {refs : List String} (hne : refs ≠ [])
    (h : ∀ ref ∈ refs, OwnedEpisode owner ref d) :
    ∃ es, loadConsolidationEpisodes refs d = .ok (es, owner) := by
  obtain ⟨es, hes, hlength, howners⟩ := mapM_loadEpisode_owned h
  unfold loadConsolidationEpisodes
  rw [hes]
  cases es with
  | nil =>
    rw [List.length_nil] at hlength
    exact absurd (List.length_eq_zero_iff.mp hlength.symm) hne
  | cons first rest =>
    have hfirst : first.owner = owner := howners first List.mem_cons_self
    have hall : (rest.all fun e => decide (e.owner = first.owner)) = true := by
      refine List.all_eq_true.mpr fun e he => ?_
      rw [howners e (List.mem_cons_of_mem _ he), hfirst]
      simp
    refine ⟨first :: rest, ?_⟩
    dsimp only
    rw [hall, if_pos rfl, hfirst]

theorem rooted_of_shown (h : t.Shown episodes dispositions d)
    (howned : ∀ a ∈ dispositions, a ∈ ownedDispositions owner d) : t.Rooted d := by
  rcases h.origin with ⟨e, _, row, hrow, ht⟩ | ⟨a, ha, ht⟩
  · exact rooted_of_row hrow ht
  · exact rooted_of_disposition (howned a ha) ht

/-- One version has one owner, so a row is always offered. -/
theorem offerRow_total (hd : WorldLaw store d)
    (howned : ∀ a ∈ dispositions, a ∈ ownedDispositions owner d) {e : EpisodeEvidence}
    (he : e ∈ episodes) {row : FeedbackRow} (hrow : row ∈ feedbackRows e d)
    {targets : List FeedbackTarget} (h : ∀ t ∈ targets, t.Shown episodes dispositions d) :
    ∃ targets', offerRow e.ref targets row = .ok targets' ∧
      ∀ t ∈ targets', t.Shown episodes dispositions d := by
  have hok : ∃ targets', offerRow e.ref targets row = .ok targets' := by
    unfold offerRow
    cases hfind : targets.find? (·.versionRef == row.versionRef) with
    | none => exact ⟨_, rfl⟩
    | some t =>
      have hversion := List.find?_some hfind
      have ht := rooted_of_shown (h t (List.mem_of_find?_eq_some hfind)) howned
      have hr : row.target.Rooted d := rooted_of_row hrow rfl
      have hversion' : t.versionRef = row.target.versionRef := beq_iff_eq.mp hversion
      have hsame : t.owner = row.owner := owner_of_version hd.memory ht.2 hr.2 (ht.name hd.memory)
        (hr.name hd.memory) hversion'
      refine ⟨updateRow FeedbackTarget.versionRef (t.deliver e.ref row.receiptRef) targets, ?_⟩
      simp only [hsame, ne_eq, not_true_eq_false, if_false]
  obtain ⟨targets', hoffer⟩ := hok
  exact ⟨targets', hoffer, shown_offerRow he hrow h hoffer⟩

theorem offerEpisodes_total (hd : WorldLaw store d)
    (howned : ∀ a ∈ dispositions, a ∈ ownedDispositions owner d) :
    ∃ targets, episodes.foldlM (offerEpisode d) [] = .ok targets ∧
      ∀ t ∈ targets, t.Shown episodes dispositions d := by
  refine foldlM_total (P := fun ts : List FeedbackTarget => ∀ t ∈ ts, t.Shown episodes dispositions d) ?_
    fun t ht => absurd ht List.not_mem_nil
  intro ts e he hts
  exact foldlM_total (P := fun ts : List FeedbackTarget => ∀ t ∈ ts, t.Shown episodes dispositions d)
    (fun ts row hrow hts => offerRow_total hd howned he hrow hts) hts

theorem loadAnchors_total (h : ∀ ref ∈ t.anchors, OwnedEpisode t.owner ref d) :
    ∃ t', loadAnchors d t = .ok t' := by
  unfold loadAnchors
  split
  · exact ⟨_, rfl⟩
  rename_i hne
  have hsome : sortedKeys t.anchors ≠ [] := by
    intro hnil
    obtain ⟨ref, href⟩ := List.exists_mem_of_ne_nil _ (fun h => hne (List.isEmpty_iff.mpr h))
    have hmem := mem_sortedKeys.mpr href
    rw [hnil] at hmem
    cases hmem
  obtain ⟨es, hes⟩ := loadConsolidationEpisodes_owned hsome fun ref href =>
    h ref (mem_sortedKeys.mp href)
  rw [hes]
  exact ⟨{ t with anchorEvidence := es }, by simp⟩

/-- A target whose anchors are its owner's has a basis state. -/
theorem loadBasisState_total (hd : MemoryLaw d) (hown : OwnBasis BasisRole.anchors d)
    (ht : t.Rooted d) : ∃ t', loadBasisState d t = .ok t' := by
  refine loadAnchors_total fun ref href => ?_
  obtain ⟨b, hb, hrole, rfl⟩ := mem_basisRefs.mp (show ref ∈ basisRefs BasisRole.anchors _ from href)
  obtain ⟨hmem, _, hversion⟩ := mem_versionBasis.mp hb
  exact hown.owned hd hmem hrole ht.2 (hversion.trans (ht.name hd))

theorem loadFeedbackState_total (hd : WorldLaw store d) (hown : OwnBasis BasisRole.anchors d)
    (howned : ∀ a ∈ dispositions, a ∈ ownedDispositions owner d) {outcomeRefs : List String}
    {outcomes : List FeedbackOutcome}
    (hout : outcomeRefs.mapM (loadFeedbackOutcome episodes d) = .ok outcomes) :
    ∃ targets, loadFeedbackState episodes outcomeRefs dispositions d = .ok (targets, outcomes) := by
  obtain ⟨offered, hoffer, hshown⟩ := offerEpisodes_total hd howned
  obtain ⟨loaded, hload⟩ : ∃ ts,
      (offerDirects episodes dispositions offered).mapM (loadBasisState d) = .ok ts := by
    refine mapM_total fun t ht => ?_
    exact loadBasisState_total hd.memory hown (rooted_of_shown (shown_offerDirects hshown t ht) howned)
  unfold loadFeedbackState
  rw [hoffer]
  simp only [bind, Except.bind]
  rw [hload]
  simp only
  rw [hout]
  exact ⟨_, rfl⟩

/-- A window is refused for its feedback, or for the receipt of another window. -/
theorem snapshotWindow_loads {index : Option MemoryIndex} {window : Window}
    (hvalid : window.valid = true)
    (hload : loadConsolidationEpisodes window.episodeRefs d = .ok (episodes, owner))
    (hstate : ∀ refs, ∃ state, loadFeedbackState episodes window.outcomeEventRefs
      (store.loadActiveDispositions owner episodes refs d) d = .ok state) :
    (∃ snapshot, store.snapshotWindow index window d = .ok snapshot) ∨
      (store.snapshotWindow index window d = .error ⟨.windowConflict, window.jobRef, ""⟩ ∧
        ∃ r ∈ d.receipts, r.key = (owner.tenantRef, window.jobRef) ∧
          r.requestHash ≠ store.consolidationWindowHash owner window) := by
  have howner := (loadConsolidationEpisodes_ok hload).2
    (episodes_ne_nil hvalid (loadConsolidationEpisodes_ok hload).1)
  obtain ⟨state, hs⟩ := hstate (addLinkedRefs owner
    (searchConsolidationMemoryIndex index owner episodes) d).dispositionRefs
  unfold Store.snapshotWindow
  simp only [hvalid, Bool.not_true, Bool.false_eq_true, if_false, bind, Except.bind, pure,
    Except.pure, hload]
  unfold loadConsolidationReceipt
  cases hfind : d.receipts.find? fun r => decide (r.key = (owner.tenantRef, window.jobRef)) with
  | none =>
    left
    simp only [Store.propose, bind, Except.bind, pure, Except.pure, howner, hs]
    exact ⟨_, rfl⟩
  | some r =>
    by_cases hrequest : r.requestHash = store.consolidationWindowHash owner window
    · left
      simp [hrequest]
    · right
      have hkey := List.find?_some hfind
      simp only [bne_iff_ne, ne_eq, hrequest, not_false_eq_true, if_true]
      exact ⟨trivial, r, List.mem_of_find?_eq_some hfind, of_decide_eq_true hkey, hrequest⟩

/-- The Episodes and the Outcomes of a job load. -/
theorem load_of_job {q : QueueState} (hq : ServiceOk store q) (hhash : Collisionless store)
    (hsources : KeysUnique SourceRow.key q.db.sources) {j : JobRow} (hj : j ∈ q.db.jobs) :
    ∃ episodes outcomes, loadConsolidationEpisodes j.episodeRefs q.db = .ok (episodes, j.owner) ∧
      j.outcomeEventRefs.mapM (loadFeedbackOutcome episodes q.db) = .ok outcomes := by
  have hrow := hq.queue.consistent.jobs.rows j hj
  have howned : ∀ ref ∈ j.episodeRefs, OwnedEpisode j.owner ref q.db := by
    intro ref href
    obtain ⟨e, he, rfl, howner⟩ := hrow.episodes ref href
    obtain ⟨r, hr, hrowner⟩ :=
      loadEpisode_of_consistent hq.queue.consistent hq.backed hhash hsources he
    exact ⟨r, hr, hrowner.trans howner⟩
  obtain ⟨episodes, hload⟩ := loadConsolidationEpisodes_owned hrow.nonempty howned
  obtain ⟨hloaded, hfirst⟩ := loadConsolidationEpisodes_ok hload
  have hne : episodes ≠ [] := by
    intro hnil
    have hrefs := hloaded.refs
    rw [hnil] at hrefs
    exact hrow.nonempty hrefs.symm
  obtain ⟨outcomes, hout⟩ := mapM_total fun ref href =>
    loadFeedbackOutcome_of_job hq.backed.outcomes hq.queue.outcomeRefs hsources hrow hloaded.refs
      (hfirst hne) href
  exact ⟨episodes, outcomes, hload, hout⟩

end

/-! ## In every run without a revision across owners -/

/-- When no TEXT that a commit accepts is about a Disposition of another owner than the
window's, the anchors are their owners', the windows load, and the queue's jobs with them. -/
theorem anchors_own (store : Store) (hhash : Collisionless store) {s : MemorySys}
    (h : MemoryReachIf store (OwnCommits store BasisRole.anchors) s) :
    AnchorsOwn s.db ∧ WindowsLoad store s.db ∧ (InTurn store s.db → JobsLoad store s.db) := by
  have hlaw := worldLaw_reach hhash h
  have hown := ownBasis_reach hhash h
  have hfeedback : ∀ (window : Window) (episodes : List EpisodeEvidence) (owner : OwnerScope)
      (outcomes : List FeedbackOutcome),
      window.outcomeEventRefs.mapM (loadFeedbackOutcome episodes s.db) = .ok outcomes →
        ∀ refs, ∃ targets, loadFeedbackState episodes window.outcomeEventRefs
          (store.loadActiveDispositions owner episodes refs s.db) s.db = .ok (targets, outcomes) :=
    fun window episodes owner outcomes hout refs =>
      loadFeedbackState_total hlaw hown (fun a ha => mem_loadActiveDispositions ha) hout
  refine ⟨?_, ?_, ?_⟩
  · intro v hv _ r hr hroot b hb hversion hrole
    have hname : b.versionRef = versionRefOf r.ref v.number := by
      rw [hversion, hroot]
      exact hlaw.memory.seedName hv
    obtain ⟨e, he, howner⟩ := hown.owned hlaw.memory hb hrole hr hname
    obtain ⟨row, hrow, href, rfl, _⟩ := loadEpisode_row he
    exact ⟨row, hrow, href, howner⟩
  · intro window episodes owner outcomes hvalid hload hout
    have hstate := hfeedback window episodes owner outcomes hout
    refine ⟨hstate, fun index => ?_⟩
    rcases @snapshotWindow_loads store _ _ _ index _ hvalid hload fun refs =>
        (hstate refs).elim fun targets h => ⟨(targets, outcomes), h⟩ with ⟨snapshot, hs⟩ | ⟨hs, _⟩
    · rw [hs]
      exact nofun
    · rw [hs]
      simp [invalidWindow]
  · rintro ⟨q, hrun, hdb⟩ j hj hfrozen hstable hfree index
    have hq := hrun.ok fun _ _ _ => episodeRef_injective hhash
    rw [← hdb] at hj hfree ⊢
    obtain ⟨episodes, outcomes, hload, hout⟩ :=
      load_of_job hq hhash (by rw [hdb]; exact hlaw.sources) hj
    have hvalid := (hq.queue.consistent.jobs.rows j hj).window_valid hstable
    rcases @snapshotWindow_loads store _ _ _ index j.window hvalid hload (fun refs => by
        rw [hdb] at hout ⊢
        exact ⟨_, (hfeedback j.window episodes j.owner outcomes hout refs).choose_spec⟩) with
      hs | ⟨_, r, hr, hkey, hhashes⟩
    · exact hs
    · exact absurd ⟨r, hr, hkey, hhashes⟩ hfree

/-! ## Runs in turn -/

/-- What a part draws is new.  No part is a lease. -/
def Part.drawn : Part → Db → Bool
  | call (.intake c), d => d.jobs.all fun j => decide (j.jobOrder < c.env.jobOrder)
  | call (.select _ _), _ => true
  | call _, _ => false
  | task _, _ => true

def drawnIn : List Part → Db → Bool
  | [], _ => true
  | part :: rest, d => part.drawn d && (part.after d).any (drawnIn rest)

/-- Calls in turn lead to this store, and no lease is among them. -/
def LedTo (d : Db) : Prop := ∃ q, ServiceRun sampleStore q ∧ q.issued = [] ∧ q.db = d

theorem LedTo.part {part : Part} {d d' : Db} (h : LedTo d) (hwritten : part.Written)
    (hdrawn : part.drawn d = true) (hafter : part.after d = some d') : LedTo d' := by
  obtain ⟨q, hq, hissued, rfl⟩ := h
  have hdb := @turn_part part ⟨q.db, []⟩ q.db d' rfl hwritten hafter
  rw [turn_after] at hdb
  cases part with
  | task t =>
    exact ⟨_, hq.consolidate none (plainAmbient t.call) t.window fun _ => some (renderChanges t.changes),
      hissued, hdb⟩
  | call c =>
    cases c with
    | intake c =>
      have hnew : ∀ j ∈ q.db.jobs, j.jobOrder < c.env.jobOrder := by
        simpa [Part.drawn] using hdrawn
      exact ⟨_, hq.queue (.intake c) hnew, hissued, (after_ret _ _ _).symm.trans hdb⟩
    | select index request =>
      exact ⟨_, hq.select index request, hissued, (after_ret _ _ _).symm.trans hdb⟩
    | lease | complete | retry | consolidate => cases hdrawn

theorem LedTo.parts {parts : List Part} {d d' : Db} (h : LedTo d)
    (hwritten : ∀ part ∈ parts, part.Written) (hdrawn : drawnIn parts d = true)
    (hplayed : played parts d = some d') : LedTo d' := by
  induction parts generalizing d with
  | nil =>
    obtain rfl := Option.some.inj hplayed
    exact h
  | cons part rest ih =>
    obtain ⟨d₁, hd₁, hrest⟩ := Option.bind_eq_some_iff.mp hplayed
    unfold drawnIn at hdrawn
    rw [hd₁, Option.any_some, Bool.and_eq_true] at hdrawn
    exact ih (h.part (hwritten part List.mem_cons_self) hdrawn.1 hd₁)
      (fun part hmem => hwritten part (List.mem_cons_of_mem _ hmem)) hdrawn.2 hrest

theorem LedTo.lease {d : Db} (h : LedTo d) {env : Ambient} {request : LeaseRequest}
    (hdrawn : Drawn ⟨d, [], []⟩ (.lease env request)) :
    InTurn sampleStore ((sampleStore.leaseConsolidationJob env request).after d) := by
  obtain ⟨q, hq, hissued, rfl⟩ := h
  have hnew : Drawn q (.lease env request) := ⟨hdrawn.1, hdrawn.2.1, by
    rw [hissued]
    exact List.not_mem_nil⟩
  exact ⟨_, hq.queue (.lease env request) hnew, next_lease_db q env request⟩

/-- A job is leased at the end of a run. -/
def leaseRequest : LeaseRequest :=
  { quietBefore := 20, leaseUntil := 30, maxEpisodes := 2, overlap := 0 }

def leaseCall : MemoryCommand := .lease (plainAmbient 20) leaseRequest

def leasedDb (d : Db) : Db := (sampleStore.leaseConsolidationJob (plainAmbient 20) leaseRequest).after d

theorem lease_db {s : MemorySys} {d : Db} (hs : s.db = d) :
    (sampleStore.calls [leaseCall] s).db = leasedDb d := by
  subst hs
  exact (turn_after s _).trans (after_ret _ _ _)

/-- The lease draws new values. -/
def leaseDrawn (d : Db) : Bool :=
  d.jobs.all fun j => j.jobRef != (plainAmbient 20).remainderRef &&
    decide (j.jobOrder < (plainAmbient 20).remainderOrder)

theorem drawn_of_leaseDrawn {d : Db} (h : leaseDrawn d = true) :
    Drawn ⟨d, [], []⟩ (.lease (plainAmbient 20) leaseRequest) := by
  have hall : ∀ j ∈ d.jobs, j.jobRef ≠ (plainAmbient 20).remainderRef ∧
      j.jobOrder < (plainAmbient 20).remainderOrder := by
    simpa [leaseDrawn] using h
  exact ⟨⟨fun j hj => (hall j hj).1, fun j hj => (hall j hj).2⟩, by decide +kernel, List.not_mem_nil⟩

theorem sampleMet_led : LedTo sampleMet.db := by
  have hfacts : (played (metCalls.map .call) {}).isSome ∧ drawnIn (metCalls.map .call) {} = true := by
    decide +kernel
  have hplayed := some_getD hfacts.1 {}
  have hdb : sampleMet.db = _ :=
    @play_db (metCalls.map .call) ⟨{}, []⟩ {} _ rfl written_calls hplayed
  rw [hdb]
  exact LedTo.parts ⟨{}, .start, rfl, rfl⟩ written_calls hfacts.2 hplayed

theorem adaptedDb_led : LedTo adaptedDb :=
  @LedTo.part (.task adaptTask) _ _ sampleMet_led adaptTask_written rfl adaptTask_after

/-! A relationship revises its agent's Disposition, and no window of the agent loads. -/

def sampleBlocked : MemorySys := sampleStore.calls [leaseCall] sampleRevised

theorem anchors_own_revised :
    MemoryReach sampleStore sampleBlocked ∧ InTurn sampleStore sampleBlocked.db ∧
      ¬AnchorsOwn sampleBlocked.db ∧ ¬WindowsLoad sampleStore sampleBlocked.db ∧
      ¬JobsLoad sampleStore sampleBlocked.db := by
  have hfacts : drawnIn ((feedbackCalls 4 sampleScope "2" (adaptedRef 1)).map .call) adaptedDb = true ∧
      leaseDrawn revisedDb = true ∧ ¬AnchorsOwn (leasedDb revisedDb) ∧ agentWindow.valid = true ∧
      loadConsolidationEpisodes agentWindow.episodeRefs (leasedDb revisedDb) =
        .ok ([episodeEvidence ⟨⟨agentScope, "1", "g"⟩, sampleEpisodeRef agentScope "1"⟩
          (leasedDb revisedDb)], agentScope.owner) ∧
      sampleStore.snapshotWindow none agentWindow (leasedDb revisedDb) = .error invalidWindow ∧
      ∃ j ∈ (leasedDb revisedDb).jobs, j.windowHash.isSome ∧ j.Stable ∧
        ¬j.Overtaken sampleStore (leasedDb revisedDb) ∧
        sampleStore.snapshotWindow none j.window (leasedDb revisedDb) = .error invalidWindow := by
    unfold AnchorsOwn
    decide +kernel
  obtain ⟨hdrawn, hlease, hanchors, hvalid, hload, hrefused, j, hj, hfrozen, hstable, hfree, hjob⟩ :=
    hfacts
  have hturn : LedTo revisedDb :=
    @LedTo.part (.task reviseTask) _ _
      (adaptedDb_led.parts written_calls hdrawn (some_getD sample_runs.2.1 _))
      sampleTasks_written.2 rfl (some_getD sample_runs.2.2.1 _)
  have hdb : sampleBlocked.db = leasedDb revisedDb := lease_db sampleRevised_db
  refine ⟨(reach_calls sampleRevised_reach.2 sampleRevised_reach.1 _).1, ?_⟩
  rw [hdb]
  refine ⟨hturn.lease (drawn_of_leaseDrawn hlease), hanchors, ?_, ?_⟩
  · intro h
    exact (h agentWindow _ _ [] hvalid hload rfl).2 none hrefused
  · intro h
    obtain ⟨snapshot, hs⟩ := h j hj hfrozen hstable hfree none
    rw [hjob] at hs
    cases hs

/-- Calls without an answer. -/
theorem own_calls {store : Store} {roles : BasisRole → Bool} {s : MemorySys} (hs : s.Quiet)
    (h : MemoryReachIf store (OwnAnswers roles) s) (cs : List MemoryCommand)
    (hc : ∀ c ∈ cs, ∀ index env window worker, c ≠ .consolidate index env window worker) :
    MemoryReachIf store (OwnAnswers roles) (store.calls cs s) :=
  (reachIf_calls hs h cs fun c hmem _ _ _ hrun _ => ownAnswers_of_replies (replies_perform hrun)
    (hc c hmem)).1

/-- The run up to the agent's adaptation stays with its owner. -/
theorem sampleAdapted_own (roles : BasisRole → Bool) :
    MemoryReachIf sampleStore (OwnAnswers roles) sampleAdapted := by
  have hmet : MemoryReachIf sampleStore (OwnAnswers roles) sampleMet := by
    refine own_calls (fun _ ht => absurd ht List.not_mem_nil) .start metCalls ?_
    intro c hc index env window worker heq
    subst heq
    simp [metCalls, observeCall] at hc
  refine (reachIf_call sampleMet_reach.2 hmet adaptTask.command fun a d hrun =>
    ownAnswers_of_task adaptTask_written hrun fun p _ _ => ownFeedback_of_roles fun change hmem => ?_).1
  rw [List.mem_singleton.mp hmem]
  rfl

/-- The agent has adapted, and the job of its Episode is leased. -/
def sampleHeld : MemorySys := sampleStore.calls [leaseCall] sampleAdapted

theorem anchors_own_adapted :
    (sampleHeld.db.seedBasis.map fun b => (b.versionRef, b.role)) = [(adaptedRef 1, .formation)] ∧
    (∃ j ∈ sampleHeld.db.jobs, j.windowHash.isSome ∧ j.Stable ∧
      ¬j.Overtaken sampleStore sampleHeld.db) ∧
    AnchorsOwn sampleHeld.db ∧ WindowsLoad sampleStore sampleHeld.db ∧
    JobsLoad sampleStore sampleHeld.db := by
  have hfacts : leaseDrawn adaptedDb = true ∧
      ((leasedDb adaptedDb).seedBasis.map fun b => (b.versionRef, b.role)) =
        [(adaptedRef 1, .formation)] ∧
      ∃ j ∈ (leasedDb adaptedDb).jobs, j.windowHash.isSome ∧ j.Stable ∧
        ¬j.Overtaken sampleStore (leasedDb adaptedDb) := by
    decide +kernel
  have hdb : sampleHeld.db = leasedDb adaptedDb := lease_db sampleAdapted_db
  have hown : MemoryReachIf sampleStore (OwnAnswers BasisRole.anchors) sampleHeld :=
    own_calls sampleAdapted_reach.2 (sampleAdapted_own _) [leaseCall] fun c hc _ _ _ _ heq => by
      rw [List.mem_singleton.mp hc] at heq
      cases heq
  obtain ⟨hanchors, hwindows, hjobs⟩ := anchors_own sampleStore sampleStore_collisionless
    (ownCommits_of_answers sampleStore_collisionless hown)
  have hturn := adaptedDb_led.lease (drawn_of_leaseDrawn hfacts.1)
  refine ⟨?_, ?_, hanchors, hwindows, hjobs ?_⟩
  · rw [hdb]
    exact hfacts.2.1
  · rw [hdb]
    exact hfacts.2.2
  · rw [hdb]
    exact hturn

end ChoraMem
