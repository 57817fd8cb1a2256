/-
One lease.

On a store that obeys the law of the queue a lease does not fail.  It finds no
ready job and changes nothing, or it takes the ready job of lowest order: a frozen
job keeps its window, a collecting one is frozen and may leave a new collecting job
behind.  Either way the law of the queue holds again.
-/
import ChoraMem.Queue.Freeze

namespace ChoraMem

open Txn

/-- What a lease assumes of its random ref and of the sequence of job orders. -/
structure FreshRemainder (env : Ambient) (d : Db) : Prop where
  ref : ∀ j ∈ d.jobs, j.jobRef ≠ env.remainderRef
  order : ∀ j ∈ d.jobs, j.jobOrder < env.remainderOrder

/-- The rows a lease puts. -/
def remainderWrites (env : Ambient) (owner : OwnerScope) (w : FrozenWindow) : List Write :=
  if w.remainderEpisodes.isEmpty then []
  else [.insertJob (newJob env env.remainderOrder env.remainderRef owner w.remainderEpisodes
    w.remainderOutcomes)]

def leaseWrites (env : Ambient) (request : LeaseRequest) (j : JobRow) (w : FrozenWindow) :
    List Write :=
  .updateJob (j.lease env request w) :: remainderWrites env j.owner w

/-- The window of a leased job: the one it was frozen with, or one frozen now. -/
def Windowed (store : Store) (request : LeaseRequest) (j : JobRow) (d : Db) (w : FrozenWindow) :
    Prop :=
  (∃ hash, j.windowHash = some hash ∧ w = j.frozenWindow hash) ∨
    (j.windowHash = none ∧ Frozen store request j d w)

/-- The result of a lease and the store after it. -/
inductive Leased (store : Store) (env : Ambient) (request : LeaseRequest) (d : Db) :
    Option Job → Db → Prop
  | idle (h : readyJob env.now request d = none) : Leased store env request d none d
  | taken {j : JobRow} {w : FrozenWindow} (h : readyJob env.now request d = some j)
      (hw : Windowed store request j d w) :
      Leased store env request d
        (some { ref := j.jobRef, episodeRefs := w.episodeRefs, outcomeEventRefs := w.outcomeEventRefs,
                leaseToken := env.leaseToken })
        (applyAll d (leaseWrites env request j w))

section

variable {store : Store} {env : Ambient} {request : LeaseRequest} {d : Db} {j : JobRow}

theorem readyJob_some {now : Nat} (h : readyJob now request d = some j) :
    j ∈ d.jobs ∧ leasable now request d j = true := by
  have hm := List.mem_of_mem_head? (by rw [← readyJob]; exact h)
  rw [List.mem_insertionSort, List.mem_filter] at hm
  exact hm

theorem readyJob_incomplete {now : Nat} (h : readyJob now request d = some j) :
    j.completedAt = none := by
  have hl := (readyJob_some h).2
  simp only [leasable, Bool.and_eq_true, Option.isNone_iff_eq_none] at hl
  exact hl.1.1.1.1

/-- No incomplete job of the owner comes before the one that is leased. -/
theorem readyJob_lowest {now : Nat} (h : readyJob now request d = some j) {j' : JobRow}
    (hj' : j' ∈ d.jobs) (ho : j'.owner = j.owner) (hc : j'.completedAt = none) :
    j.jobOrder ≤ j'.jobOrder := by
  have hl := (readyJob_some h).2
  simp only [leasable, Bool.and_eq_true, Bool.not_eq_true', List.any_eq_false, decide_eq_true_eq,
    Option.isNone_iff_eq_none] at hl
  have := hl.1.2 j' hj'
  by_contra hlt
  exact this ⟨⟨ho, hc⟩, by omega⟩

/-- The keys of the remainder are free once the job is frozen. -/
theorem remainder_free (hjobs : JobsOk none d) (hj : j ∈ d.jobs)
    (hopen : j.collecting) (hfresh : FreshRemainder env d) (w : FrozenWindow) :
    jobConflict env.remainderRef j.owner (d.apply (.updateJob (j.lease env request w))) = false := by
  refine List.any_eq_false.mpr fun i hi => ?_
  simp only [Bool.or_eq_true, Bool.and_eq_true, decide_eq_true_eq, not_or]
  rcases mem_updateRow.mp hi with ⟨hi, hne⟩ | rfl
  · refine ⟨hfresh.ref i hi, fun ⟨ho, hc⟩ => hne ?_⟩
    rw [hjobs.collecting i hi j hj hc hopen ho]
    rfl
  · refine ⟨hfresh.ref j hj, fun ⟨_, hc⟩ => ?_⟩
    simp [JobRow.collecting, JobRow.lease] at hc

theorem carryRemainder_wp {owner : OwnerScope} {w : FrozenWindow}
    (hfree : w.remainderEpisodes ≠ [] → jobConflict env.remainderRef owner d = false) :
    (carryRemainder env owner w).wp (fun _ d' => d' = applyAll d (remainderWrites env owner w))
      (fun _ => False) d := by
  unfold carryRemainder remainderWrites
  cases hempty : w.remainderEpisodes.isEmpty with
  | true => exact rfl
  | false =>
    have hfree' := hfree (List.isEmpty_eq_false_iff.mp hempty)
    simp only [Bool.false_eq_true, if_false, insertFresh, Prog.wp, hfree']

theorem leaseConsolidationJob_wp (hk : KeysOk d) (hjobs : JobsOk none d)
    (hu : OutcomeRefsUnique d) (hvalid : request.Valid) (hfresh : FreshRemainder env d) :
    (store.leaseConsolidationJob env request).wp (fun r d' => Leased store env request d r d')
      (fun _ => False) d := by
  have hargs : ¬(decide (request.maxEpisodes < 2) || decide (request.overlap < 0) ||
      request.leaseUntil == 0) = true := by
    have := hvalid.episodes
    have := hvalid.overlap
    have := hvalid.deadline
    simp
    omega
  unfold Store.leaseConsolidationJob
  rw [if_neg hargs]
  refine Prog.wp_statement.mpr ?_
  cases hready : readyJob env.now request d with
  | none => exact .idle hready
  | some j =>
    obtain ⟨hj, _⟩ := readyJob_some hready
    have htouch : applyAll d (touchJob (some j)) = d := by
      change { d with jobs := updateRow JobRow.jobRef j d.jobs } = d
      rw [updateRow_self hk.jobs hj]
    rw [htouch]
    have hwindow : (store.leasedWindow request j).wp
        (fun w d' => d' = d ∧ Windowed store request j d w) (fun _ => False) d := by
      unfold Store.leasedWindow
      cases hhash : j.windowHash with
      | some hash => exact ⟨rfl, Or.inl ⟨hash, hhash, rfl⟩⟩
      | none =>
        exact (freezeWindow_wp hjobs hu hj hvalid).conseq fun w d' ⟨hd', hw⟩ =>
          ⟨hd', Or.inr ⟨hhash, hw⟩⟩
    refine Prog.wp_bind.mpr (hwindow.conseq ?_)
    rintro w d' ⟨rfl, hw⟩
    refine Prog.wp_statement.mpr ?_
    have hrows : updateJobs (fun x => decide (x.jobRef = j.jobRef)) (JobRow.lease env request w) d' =
        [Write.updateJob (j.lease env request w)] := by
      unfold updateJobs
      rw [filter_key hk.jobs hj]
      rfl
    rw [hrows]
    refine Prog.wp_bind.mpr ((carryRemainder_wp fun hne => ?_).conseq ?_)
    · refine remainder_free hjobs hj ?_ hfresh w
      rcases hw with ⟨hash, _, rfl⟩ | ⟨hhash, _⟩
      · exact absurd rfl hne
      · simp [JobRow.collecting, hhash, readyJob_incomplete hready]
    · rintro _ d'' rfl
      exact .taken hready hw

/-! ## The law of the queue after a lease -/

theorem leaseWrites_tables (env : Ambient) (request : LeaseRequest) (j : JobRow) (w : FrozenWindow)
    (d : Db) :
    (applyAll d (leaseWrites env request j w)).episodes = d.episodes ∧
      (applyAll d (leaseWrites env request j w)).links = d.links ∧
      (applyAll d (leaseWrites env request j w)).outcomes = d.outcomes := by
  unfold leaseWrites remainderWrites
  split <;> exact ⟨rfl, rfl, rfl⟩

/-- The jobs after a lease. -/
theorem mem_leased (hj : j ∈ d.jobs) (hfresh : ∀ i ∈ d.jobs, i.jobRef ≠ env.remainderRef)
    (request : LeaseRequest) (w : FrozenWindow) (i : JobRow) :
    i ∈ (applyAll d (leaseWrites env request j w)).jobs ↔
      (i ∈ d.jobs ∧ i.jobRef ≠ j.jobRef) ∨ i = j.lease env request w ∨
        (w.remainderEpisodes ≠ [] ∧ i = newJob env env.remainderOrder env.remainderRef j.owner
          w.remainderEpisodes w.remainderOutcomes) := by
  unfold leaseWrites remainderWrites
  cases hempty : w.remainderEpisodes.isEmpty with
  | true =>
    rw [List.isEmpty_iff] at hempty
    change i ∈ updateRow JobRow.jobRef _ d.jobs ↔ _
    rw [mem_updateRow]
    simp [hempty, JobRow.lease]
  | false =>
    have hne := List.isEmpty_eq_false_iff.mp hempty
    change i ∈ updateRow JobRow.jobRef _ (updateRow JobRow.jobRef _ d.jobs) ↔ _
    rw [mem_updateRow, mem_updateRow]
    constructor
    · rintro (⟨⟨hi, hr⟩ | rfl, _⟩ | rfl)
      · exact Or.inl ⟨hi, hr⟩
      · exact Or.inr (Or.inl rfl)
      · exact Or.inr (Or.inr ⟨hne, rfl⟩)
    · rintro (⟨hi, hr⟩ | rfl | ⟨_, rfl⟩)
      · exact Or.inl ⟨Or.inl ⟨hi, hr⟩, hfresh i hi⟩
      · exact Or.inl ⟨Or.inr rfl, hfresh j hj⟩
      · exact Or.inr rfl

/-- The leased job and its remainder hold what the job held. -/
theorem Windowed.covers {w : FrozenWindow} (hw : Windowed store request j d w) :
    (∀ ref ∈ j.episodeRefs, ref ∈ w.episodeRefs ∨ ref ∈ w.remainderEpisodes) ∧
      ∀ o ∈ d.outcomes, o.ref ∈ j.outcomeEventRefs → o.episodeRef ∈ j.episodeRefs →
        (o.ref ∈ w.outcomeEventRefs ∧ o.episodeRef ∈ w.episodeRefs) ∨
          (o.ref ∈ w.remainderOutcomes ∧ o.episodeRef ∈ w.remainderEpisodes) := by
  rcases hw with ⟨hash, _, rfl⟩ | ⟨_, hf⟩
  · exact ⟨fun _ hr => Or.inl hr, fun _ _ hr hep => Or.inl ⟨hr, hep⟩⟩
  · exact ⟨hf.episodes, fun o ho hr _ => hf.outcomes o ho hr⟩

theorem Windowed.window {w : FrozenWindow} (hw : Windowed store request j d w)
    (hjobs : JobsOk none d) (hj : j ∈ d.jobs) : JobRowOk d (j.lease env request w) := by
  rcases hw with ⟨hash, _, rfl⟩ | ⟨_, hf⟩
  · obtain ⟨h₁, h₂, h₃, h₄, h₅, h₆⟩ := hjobs.rows j hj
    exact ⟨h₁, h₂, h₃, h₄, h₅, h₆⟩
  · exact hf.window _ rfl rfl rfl

/-- Only a job that was collecting leaves a remainder. -/
theorem Windowed.open_of_rest {w : FrozenWindow} (hw : Windowed store request j d w)
    (hne : w.remainderEpisodes ≠ []) : j.windowHash = none ∧ Frozen store request j d w := by
  rcases hw with ⟨hash, _, rfl⟩ | hf
  · exact absurd rfl hne
  · exact hf

theorem jobsOk_leased {w : FrozenWindow} (hk : KeysOk d) (hjobs : JobsOk none d) (hj : j ∈ d.jobs)
    (hopen : j.completedAt = none) (hfresh : ∀ i ∈ d.jobs, i.jobRef ≠ env.remainderRef)
    (hw : Windowed store request j d w) :
    JobsOk none (applyAll d (leaseWrites env request j w)) := by
  obtain ⟨he, _, ho⟩ := leaseWrites_tables env request j w d
  have hmem := mem_leased hj hfresh request w
  have hframe : ∀ {i}, JobRowOk d i → JobRowOk (applyAll d (leaseWrites env request j w)) i :=
    fun hi => hi.mono (fun e hm => he ▸ hm) fun o hm _ => ho ▸ hm
  have hkept : ∀ i ∈ d.jobs, i = j ∨ i ∈ (applyAll d (leaseWrites env request j w)).jobs := by
    intro i hi
    by_cases hr : i.jobRef = j.jobRef
    · exact Or.inl (hk.jobs.eq hi hj hr)
    · exact Or.inr ((hmem i).mpr (Or.inl ⟨hi, hr⟩))
  have hleased : j.lease env request w ∈ (applyAll d (leaseWrites env request j w)).jobs :=
    (hmem _).mpr (Or.inr (Or.inl rfl))
  have hrest : w.remainderEpisodes ≠ [] → newJob env env.remainderOrder env.remainderRef j.owner
      w.remainderEpisodes w.remainderOutcomes ∈ (applyAll d (leaseWrites env request j w)).jobs :=
    fun hne => (hmem _).mpr (Or.inr (Or.inr ⟨hne, rfl⟩))
  refine ⟨fun i hi => ?_, fun i hi i' hi' hc hc' how => ?_, fun e hm hp => ?_,
    fun o hm hne hp => ?_, fun o hm => hjobs.named o (ho ▸ hm)⟩
  · rcases (hmem i).mp hi with ⟨hi, _⟩ | rfl | ⟨hne, rfl⟩
    · exact hframe (hjobs.rows i hi)
    · exact hframe (hw.window hjobs hj)
    · exact hframe ((hw.open_of_rest hne).2.rest hne _ rfl rfl rfl)
  · -- The frozen job collects no more, so its owner's remainder is the only new one.
    have hfrozen : ¬(j.lease env request w).collecting := by simp [JobRow.collecting, JobRow.lease]
    have hother : ∀ x ∈ d.jobs, x.jobRef ≠ j.jobRef → x.collecting → x.owner = j.owner →
        ¬w.remainderEpisodes ≠ [] := by
      intro x hx hne hxc hxo hrem
      have hjc : j.collecting := by simp [JobRow.collecting, (hw.open_of_rest hrem).1, hopen]
      exact hne (by rw [hjobs.collecting x hx j hj hxc hjc hxo])
    rcases (hmem i).mp hi with ⟨hi, hr⟩ | rfl | ⟨hne, rfl⟩
    · rcases (hmem i').mp hi' with ⟨hi', _⟩ | rfl | ⟨hne, rfl⟩
      · exact hjobs.collecting i hi i' hi' hc hc' how
      · exact absurd hc' hfrozen
      · exact absurd hne (hother i hi hr hc how)
    · exact absurd hc hfrozen
    · rcases (hmem i').mp hi' with ⟨hi', hr⟩ | rfl | ⟨_, rfl⟩
      · exact absurd hne (hother i' hi' hr hc' how.symm)
      · exact absurd hc' hfrozen
      · rfl
  · rw [he] at hm
    obtain ⟨i, hi, how, href⟩ := hjobs.covered e hm hp
    rcases hkept i hi with rfl | hi
    · rcases hw.covers.1 _ href with hin | hin
      · exact ⟨_, hleased, how, hin⟩
      · exact ⟨_, hrest (List.ne_nil_of_mem hin), how, hin⟩
    · exact ⟨i, hi, how, href⟩
  · rw [ho] at hm
    obtain ⟨i, hi, how, href, hout⟩ := hjobs.coveredOutcome o hm hne hp
    rcases hkept i hi with rfl | hi
    · rcases hw.covers.2 o hm hout href with ⟨h₁, h₂⟩ | ⟨h₁, h₂⟩
      · exact ⟨_, hleased, how, h₂, h₁⟩
      · exact ⟨_, hrest (List.ne_nil_of_mem h₂), how, h₂, h₁⟩
    · exact ⟨i, hi, how, href, hout⟩

/-! ## Ending a lease -/

/-- An acknowledgement changes the one row it matches, and never its window. -/
structure Acknowledges (f : JobRow → JobRow) : Prop where
  ref : ∀ j, (f j).jobRef = j.jobRef
  order : ∀ j, (f j).jobOrder = j.jobOrder
  owner : ∀ j, (f j).owner = j.owner
  episodes : ∀ j, (f j).episodeRefs = j.episodeRefs
  outcomes : ∀ j, (f j).outcomeEventRefs = j.outcomeEventRefs
  hash : ∀ j, (f j).windowHash = j.windowHash
  released : ∀ j, (f j).leaseToken = ""
  completed : ∀ j, (f j).completedAt = none → j.completedAt = none

theorem endLease_wp {f : JobRow → JobRow} (hk : KeysOk d) (jobRef token : String) :
    (endLease jobRef token f).wp
      (fun _ d' => ∃ j ∈ d.jobs, heldLease jobRef token j = true ∧ d' = d.apply (.updateJob (f j)))
      (fun e => e = ⟨.leaseLost, "", ""⟩ ∧ ∀ j ∈ d.jobs, heldLease jobRef token j = false) d := by
  unfold endLease
  refine Prog.wp_statement.mpr ?_
  by_cases hheld : ∃ j ∈ d.jobs, heldLease jobRef token j = true
  · obtain ⟨j, hj, hh⟩ := hheld
    have hfilter : d.jobs.filter (heldLease jobRef token) = [j] := by
      rw [← filter_key hk.jobs hj]
      refine List.filter_congr fun x hx => ?_
      have hr : j.jobRef = jobRef := by
        simp only [heldLease, Bool.and_eq_true, decide_eq_true_eq] at hh
        exact hh.1.1
      by_cases hxr : x.jobRef = j.jobRef
      · rw [hk.jobs.eq hx hj hxr, hh]
        simp
      · simp [heldLease, hxr, ← hr]
    unfold updateJobs
    rw [hfilter]
    exact ⟨j, hj, hh, rfl⟩
  · have hnone : ∀ j ∈ d.jobs, heldLease jobRef token j = false := fun j hj =>
      Bool.eq_false_iff.mpr fun hh => hheld ⟨j, hj, hh⟩
    have hfilter : d.jobs.filter (heldLease jobRef token) = [] :=
      List.filter_eq_nil_iff.mpr fun j hj => by rw [hnone j hj]; exact Bool.false_ne_true
    rw [hfilter]
    exact ⟨rfl, hnone⟩

theorem jobsOk_acknowledged {f : JobRow → JobRow} (hf : Acknowledges f) (hk : KeysOk d)
    (hjobs : JobsOk none d) (hj : j ∈ d.jobs) : JobsOk none (d.apply (.updateJob (f j))) := by
  have hcol : (f j).collecting → j.collecting := by
    simp only [JobRow.collecting, Bool.and_eq_true, Option.isNone_iff_eq_none, hf.hash]
    exact fun h => ⟨h.1, hf.completed j h.2⟩
  have hmem : ∀ i, i ∈ (d.apply (.updateJob (f j))).jobs ↔
      (i ∈ d.jobs ∧ i.jobRef ≠ j.jobRef) ∨ i = f j := fun i => by
    change i ∈ updateRow JobRow.jobRef (f j) d.jobs ↔ _
    rw [mem_updateRow, hf.ref]
  have hkept : ∀ i ∈ d.jobs, i = j ∨ i ∈ (d.apply (.updateJob (f j))).jobs := by
    intro i hi
    by_cases hr : i.jobRef = j.jobRef
    · exact Or.inl (hk.jobs.eq hi hj hr)
    · exact Or.inr ((hmem i).mpr (Or.inl ⟨hi, hr⟩))
  refine ⟨fun i hi => ?_, fun i hi i' hi' hc hc' how => ?_, fun e hm hp => ?_,
    fun o hm hne hp => ?_, hjobs.named⟩
  · rcases (hmem i).mp hi with ⟨hi, _⟩ | rfl
    · exact (hjobs.rows i hi).mono (fun _ hm => hm) fun _ hm _ => hm
    · obtain ⟨h₁, h₂, h₃, h₄, h₅, h₆⟩ := hjobs.rows j hj
      constructor <;> simp only [hf.episodes, hf.outcomes, hf.owner]
      · exact h₁
      · exact h₂
      · exact h₃
      · exact h₄
      · exact h₅
      · exact h₆
  · rcases (hmem i).mp hi with ⟨hi, hr⟩ | rfl
    · rcases (hmem i').mp hi' with ⟨hi', _⟩ | rfl
      · exact hjobs.collecting i hi i' hi' hc hc' how
      · exact absurd (congrArg JobRow.jobRef (hjobs.collecting i hi j hj hc (hcol hc')
          (how.trans (hf.owner j)))) hr
    · rcases (hmem i').mp hi' with ⟨hi', hr⟩ | rfl
      · exact absurd (congrArg JobRow.jobRef (hjobs.collecting i' hi' j hj hc' (hcol hc)
          (how.symm.trans (hf.owner j)))) hr
      · rfl
  · obtain ⟨i, hi, how, href⟩ := hjobs.covered e hm hp
    rcases hkept i hi with rfl | hi
    · exact ⟨f i, (hmem _).mpr (Or.inr rfl), (hf.owner i).trans how, by rw [hf.episodes]; exact href⟩
    · exact ⟨i, hi, how, href⟩
  · obtain ⟨i, hi, how, href, hout⟩ := hjobs.coveredOutcome o hm hne hp
    rcases hkept i hi with rfl | hi
    · exact ⟨f i, (hmem _).mpr (Or.inr rfl), (hf.owner i).trans how, by rw [hf.episodes]; exact href,
        by rw [hf.outcomes]; exact hout⟩
    · exact ⟨i, hi, how, href, hout⟩

end

end ChoraMem
