/-
The queue as a state machine.

A state is the store with two things the store does not keep: the lease tokens
handed out so far, and for every frozen job the size limit of the lease that froze
it.  A step is one whole call: an intake call, a lease, a completion or a retry, at
any time of the clock.  Each call is one transaction whose row locks keep the
others out, so calls run one after the other.  What a call draws at random or from
a sequence is new.
-/
import ChoraMem.Queue.Lease

namespace ChoraMem

open Txn

structure QueueState where
  db : Db := {}
  issued : List String := []
  limits : List (String × Int) := []

inductive QueueCommand
  | intake (c : IntakeCommand)
  | lease (env : Ambient) (request : LeaseRequest)
  | complete (env : Ambient) (jobRef leaseToken : String)
  | retry (env : Ambient) (jobRef leaseToken : String) (notBefore : Nat)

/-- The job was frozen by an earlier lease. -/
def frozenBefore (jobRef : String) (d : Db) : Bool :=
  d.jobs.any fun j => decide (j.jobRef = jobRef) && j.windowHash.isSome

def QueueState.next (store : Store) (s : QueueState) : QueueCommand → QueueState
  | .intake c => { s with db := (store.intake c).after s.db }
  | .lease env request =>
    match (store.leaseConsolidationJob env request).run s.db with
    | .ok (some job, d) =>
      { db := d, issued := env.leaseToken :: s.issued,
        limits := if frozenBefore job.ref s.db then s.limits
          else (job.ref, request.maxEpisodes) :: s.limits }
    | .ok (none, d) => { s with db := d }
    | .error _ => s
  | .complete env jobRef leaseToken =>
    { s with db := (completeConsolidationJob env jobRef leaseToken).after s.db }
  | .retry env jobRef leaseToken notBefore =>
    { s with db := (retryConsolidationJob env jobRef leaseToken notBefore).after s.db }

/-- The refs, tokens and sequence values a call draws are new. -/
def Drawn (s : QueueState) : QueueCommand → Prop
  | .intake c => ∀ j ∈ s.db.jobs, j.jobOrder < c.env.jobOrder
  | .lease env _ => FreshRemainder env s.db ∧ env.leaseToken ≠ "" ∧ env.leaseToken ∉ s.issued
  | _ => True

/-- The states that calls lead to. -/
inductive QueueRun (store : Store) (s : QueueState) : QueueState → Prop
  | refl : QueueRun store s s
  | step {s' : QueueState} (h : QueueRun store s s') (c : QueueCommand) (hdrawn : Drawn s' c) :
      QueueRun store s (s'.next store c)

/-- A token that was handed out stays so. -/
theorem QueueRun.issued {store : Store} {s s' : QueueState} (h : QueueRun store s s')
    {token : String} (ht : token ∈ s.issued) : token ∈ s'.issued := by
  induction h with
  | refl => exact ht
  | step _ c _ ih =>
    cases c with
    | lease env request =>
      simp only [QueueState.next]
      split
      · exact List.mem_cons_of_mem _ ih
      · exact ih
      · exact ih
    | intake c => exact ih
    | complete env jobRef token => exact ih
    | retry env jobRef token notBefore => exact ih

/-- The states reached from the empty store. -/
abbrev QueueReach (store : Store) (s : QueueState) : Prop := QueueRun store {} s

/-! ## The invariant -/

/-- An incomplete job that a lease has frozen. -/
def JobRow.running (j : JobRow) : Prop := j.windowHash.isSome ∧ j.completedAt = none

structure QueueOk (store : Store) (s : QueueState) : Prop where
  consistent : Consistent store s.db
  outcomeRefs : OutcomeRefsUnique s.db
  orders : KeysUnique JobRow.jobOrder s.db.jobs
  lowest : ∀ j ∈ s.db.jobs, j.running → ∀ j' ∈ s.db.jobs, j'.owner = j.owner →
    j'.completedAt = none → j.jobOrder ≤ j'.jobOrder
  leased : ∀ j ∈ s.db.jobs, j.leaseToken ≠ "" → j.running ∧ j.leaseToken ∈ s.issued
  issued : "" ∉ s.issued
  hashed : ∀ j ∈ s.db.jobs, ∀ hash, j.windowHash = some hash →
    hash = store.consolidationQueueWindowHash j.owner j.episodeRefs j.outcomeEventRefs
  limited : ∀ j ∈ s.db.jobs, j.windowHash.isSome → ∃ limit, (j.jobRef, limit) ∈ s.limits
  fits : ∀ p ∈ s.limits, ∃ j ∈ s.db.jobs, j.jobRef = p.1 ∧ j.windowHash.isSome ∧
    (j.episodeRefs.length : Int) ≤ p.2

theorem queueOk_empty (store : Store) : QueueOk store {} where
  consistent := consistent_empty store
  outcomeRefs := List.nodup_nil
  orders := List.nodup_nil
  lowest := fun j hj => by cases hj
  leased := fun j hj => by cases hj
  issued := List.not_mem_nil
  hashed := fun j hj => by cases hj
  limited := fun j hj => by cases hj
  fits := fun p hp => by cases hp

/-- A frozen job and what a later call may leave of it. -/
structure SameWindow (j j' : JobRow) : Prop where
  ref : j'.jobRef = j.jobRef
  order : j'.jobOrder = j.jobOrder
  owner : j'.owner = j.owner
  episodes : j'.episodeRefs = j.episodeRefs
  outcomes : j'.outcomeEventRefs = j.outcomeEventRefs
  hash : j'.windowHash = j.windowHash

theorem SameWindow.refl (j : JobRow) : SameWindow j j := ⟨rfl, rfl, rfl, rfl, rfl, rfl⟩

theorem SameWindow.trans {j j' j'' : JobRow} (h : SameWindow j j') (h' : SameWindow j' j'') :
    SameWindow j j'' :=
  ⟨h'.ref.trans h.ref, h'.order.trans h.order, h'.owner.trans h.owner,
    h'.episodes.trans h.episodes, h'.outcomes.trans h.outcomes, h'.hash.trans h.hash⟩

/-- The token was handed out, and the job's row does not carry it. -/
structure Superseded (s : QueueState) (jobRef token : String) : Prop where
  issued : token ∈ s.issued
  lost : ∀ j ∈ s.db.jobs, j.jobRef = jobRef → j.leaseToken ≠ token

/-! ## What a step keeps -/

structure StepOk (store : Store) (s s' : QueueState) : Prop where
  ok : QueueOk store s'
  frozen : ∀ j ∈ s.db.jobs, j.windowHash.isSome → ∃ j' ∈ s'.db.jobs, SameWindow j j'
  superseded : ∀ ref token, Superseded s ref token → Superseded s' ref token

theorem StepOk.refl {store : Store} {s : QueueState} (h : QueueOk store s) : StepOk store s s :=
  ⟨h, fun j hj _ => ⟨j, hj, SameWindow.refl j⟩, fun _ _ h => h⟩

theorem StepOk.trans {store : Store} {s s' s'' : QueueState} (h : StepOk store s s')
    (h' : StepOk store s' s'') : StepOk store s s'' := by
  refine ⟨h'.ok, fun j hj hf => ?_, fun ref token hs => h'.superseded ref token (h.superseded ref token hs)⟩
  obtain ⟨j', hj', hsame⟩ := h.frozen j hj hf
  obtain ⟨j'', hj'', hsame'⟩ := h'.frozen j' hj' (hsame.hash ▸ hf)
  exact ⟨j'', hj'', hsame.trans hsame'⟩

section

variable {store : Store} {s : QueueState}

/-! ### Intake -/

theorem Extended.fields {env : Ambient} {j j' : JobRow} (h : Extended env j j') :
    j'.jobRef = j.jobRef ∧ j'.jobOrder = j.jobOrder ∧ j'.owner = j.owner ∧
      j'.windowHash = j.windowHash ∧ j'.completedAt = j.completedAt ∧ j'.leaseToken = j.leaseToken := by
  rcases h with rfl | ⟨_, e, o, rfl⟩ <;> exact ⟨rfl, rfl, rfl, rfl, rfl, rfl⟩

/-- A frozen job is not extended. -/
theorem Extended.of_frozen {env : Ambient} {j j' : JobRow} (h : Extended env j j')
    (hf : j'.windowHash.isSome) : j' = j := by
  rcases h with rfl | ⟨hc, e, o, rfl⟩
  · rfl
  · simp only [JobRow.collecting, Bool.and_eq_true, Option.isNone_iff_eq_none] at hc
    have hnone : (j.extend env e o).windowHash = none := hc.1
    rw [hnone] at hf
    cases hf

theorem intake_consistent_alone (hdistinct : RefsDistinct store) {d : Db} (h : Consistent store d)
    (c : IntakeCommand) : Consistent store ((store.intake c).after d) := by
  unfold Prog.after
  cases hr : Prog.run (store.intake c) d with
  | ok r =>
    obtain ⟨log, hx, hd'⟩ := Prog.run_ok hr
    obtain ⟨held, hs⟩ := Rely.Safe.exec h (intake_safe hdistinct h c) hx
    have hlast := (Mid.commits hs h).1
    change (intakeRely store).inv (applyAll d log) at hlast
    rw [← hd'] at hlast
    exact hlast
  | error e => exact h

theorem QueueOk.intake (hdistinct : RefsDistinct store) (h : QueueOk store s) (c : IntakeCommand)
    (hdrawn : Drawn s (.intake c)) : StepOk store s (s.next store (.intake c)) := by
  have hg : Growth c.env c.owner s.db ((store.intake c).after s.db) :=
    (intake_keeps (growth_kept store fun j hj => Nat.ne_of_lt (hdrawn j hj))
      (Growth.start h.consistent.keys.jobs h.orders)).after
      (Growth.start h.consistent.keys.jobs h.orders)
  have hfresh : ∀ {j}, Fresh c.env c.owner j → j.windowHash = none ∧ j.leaseToken = "" ∧
      j.jobOrder = c.env.jobOrder := by
    rintro j ⟨ref, e, o, rfl⟩
    exact ⟨rfl, rfl, rfl⟩
  have hold : ∀ j ∈ ((store.intake c).after s.db).jobs, j.windowHash.isSome → j ∈ s.db.jobs := by
    intro j hj hf
    rcases hg.origin j hj with ⟨i, hi, he⟩ | hnew
    · rw [he.of_frozen hf]
      exact hi
    · rw [(hfresh hnew).1] at hf
      cases hf
  have hfrozen : ∀ j ∈ s.db.jobs, j.windowHash.isSome →
      ∃ j' ∈ ((store.intake c).after s.db).jobs, SameWindow j j' := by
    intro j hj hf
    obtain ⟨j', hj', he⟩ := hg.kept j hj
    have hf' : j'.windowHash.isSome := he.fields.2.2.2.1 ▸ hf
    exact ⟨j', hj', by rw [he.of_frozen hf']; exact SameWindow.refl j⟩
  refine ⟨⟨intake_consistent_alone hdistinct h.consistent c,
    (intake_keeps (outcomeRefs_kept store c.env c.owner) h.outcomeRefs).after h.outcomeRefs, hg.orders,
    fun j hj hr j' hj' how hc => ?_, fun j hj ht => ?_, h.issued,
    fun j hj hash hh => h.hashed j (hold j hj (by rw [hh]; rfl)) hash hh,
    fun j hj hf => h.limited j (hold j hj hf) hf, fun p hp => ?_⟩, hfrozen,
    fun ref token hs => ⟨hs.issued, fun j hj href => ?_⟩⟩
  · have hjs := hold j hj hr.1
    rcases hg.origin j' hj' with ⟨i, hi, he⟩ | hnew
    · obtain ⟨_, hord, ho, _, hcomp, _⟩ := he.fields
      rw [hord]
      exact h.lowest j hjs hr i hi (ho.symm.trans how) (hcomp.symm.trans hc)
    · rw [(hfresh hnew).2.2]
      exact Nat.le_of_lt (hdrawn j hjs)
  · rcases hg.origin j hj with ⟨i, hi, he⟩ | hnew
    · obtain ⟨_, _, _, hhash, hcomp, htok⟩ := he.fields
      rw [htok] at ht ⊢
      have hi' := h.leased i hi ht
      exact ⟨⟨hhash ▸ hi'.1.1, hcomp.trans hi'.1.2⟩, hi'.2⟩
    · exact absurd (hfresh hnew).2.1 ht
  · obtain ⟨j, hj, href, hf, hlen⟩ := h.fits p hp
    obtain ⟨j', hj', hsame⟩ := hfrozen j hj hf
    exact ⟨j', hj', hsame.ref.trans href, hsame.hash ▸ hf, hsame.episodes ▸ hlen⟩
  · rcases hg.origin j hj with ⟨i, hi, he⟩ | hnew
    · obtain ⟨hr, _, _, _, _, htok⟩ := he.fields
      rw [htok]
      exact hs.lost i hi (hr.symm.trans href)
    · rw [(hfresh hnew).2.1]
      exact fun hz => h.issued (hz ▸ hs.issued)

/-! ### Lease -/

theorem lease_next {env : Ambient} {request : LeaseRequest} (h : QueueOk store s)
    (hvalid : request.Valid) (hdrawn : Drawn s (.lease env request)) :
    ∃ r d', (store.leaseConsolidationJob env request).run s.db = .ok (r, d') ∧
      Leased store env request s.db r d' :=
  (leaseConsolidationJob_wp h.consistent.keys h.consistent.jobs h.outcomeRefs hvalid hdrawn.1).total

/-- A request that is not valid is refused. -/
theorem lease_invalid {env : Ambient} {request : LeaseRequest} (hvalid : ¬request.Valid) (d : Db) :
    (store.leaseConsolidationJob env request).run d =
      .error ⟨.plain, "invalid consolidation lease request", ""⟩ := by
  have hargs : (decide (request.maxEpisodes < 2) || decide (request.overlap < 0) ||
      request.leaseUntil == 0) = true := by
    by_contra hno
    simp only [Bool.or_eq_true, decide_eq_true_eq, beq_iff_eq, not_or] at hno
    exact hvalid ⟨by omega, by omega, hno.2⟩
  unfold Store.leaseConsolidationJob
  rw [if_pos hargs]
  rfl

theorem frozenBefore_iff {d : Db} (hk : KeysOk d) {j : JobRow} (hj : j ∈ d.jobs) :
    frozenBefore j.jobRef d = true ↔ j.windowHash.isSome = true := by
  simp only [frozenBefore, List.any_eq_true, Bool.and_eq_true, decide_eq_true_eq]
  constructor
  · rintro ⟨i, hi, hr, hf⟩
    rw [← hk.jobs.eq hi hj hr]
    exact hf
  · exact fun hf => ⟨j, hj, rfl, hf⟩

/-- A job that was frozen before is leased with the window it has. -/
theorem Windowed.of_frozen {request : LeaseRequest} {j : JobRow} {d : Db} {w : FrozenWindow}
    (hw : Windowed store request j d w) (hf : j.windowHash.isSome) (env : Ambient) :
    SameWindow j (j.lease env request w) := by
  rcases hw with ⟨hash, hh, rfl⟩ | ⟨hnone, _⟩
  · exact ⟨rfl, rfl, rfl, rfl, rfl, hh.symm⟩
  · rw [hnone] at hf
    cases hf

theorem orders_leased {env : Ambient} {request : LeaseRequest} {j : JobRow} {w : FrozenWindow}
    {d : Db} (hk : KeysOk d) (ho : KeysUnique JobRow.jobOrder d.jobs) (hj : j ∈ d.jobs)
    (hfresh : FreshRemainder env d) :
    KeysUnique JobRow.jobOrder (applyAll d (leaseWrites env request j w)).jobs := by
  have hleased : KeysUnique JobRow.jobOrder
      (updateRow JobRow.jobRef (j.lease env request w) d.jobs) :=
    ho.replace hk.jobs hj rfl rfl
  unfold leaseWrites remainderWrites
  split
  · exact hleased
  · change KeysUnique JobRow.jobOrder (updateRow JobRow.jobRef _ (updateRow JobRow.jobRef _ d.jobs))
    have hold : ∀ x ∈ updateRow JobRow.jobRef (j.lease env request w) d.jobs,
        ∃ i ∈ d.jobs, x.jobRef = i.jobRef ∧ x.jobOrder = i.jobOrder := by
      intro x hx
      rcases mem_updateRow.mp hx with ⟨hx, _⟩ | rfl
      · exact ⟨x, hx, rfl, rfl⟩
      · exact ⟨j, hj, rfl, rfl⟩
    have hnew : ¬∃ x ∈ updateRow JobRow.jobRef (j.lease env request w) d.jobs,
        x.jobRef = (newJob env env.remainderOrder env.remainderRef j.owner w.remainderEpisodes
          w.remainderOutcomes).jobRef := by
      rintro ⟨x, hx, hr⟩
      obtain ⟨i, hi, hir, _⟩ := hold x hx
      exact hfresh.ref i hi (hir.symm.trans hr)
    rw [updateRow, if_neg hnew]
    refine keysUnique_append hleased ?_
    rintro ⟨x, hx, hr⟩
    obtain ⟨i, hi, _, hio⟩ := hold x hx
    exact absurd (hio.symm.trans hr) (Nat.ne_of_lt (hfresh.order i hi))

theorem QueueOk.taken {env : Ambient} {request : LeaseRequest} (h : QueueOk store s)
    (hdrawn : Drawn s (.lease env request)) {j : JobRow} {w : FrozenWindow}
    (hready : readyJob env.now request s.db = some j) (hw : Windowed store request j s.db w) :
    StepOk store s
      { db := applyAll s.db (leaseWrites env request j w), issued := env.leaseToken :: s.issued,
        limits := if frozenBefore j.jobRef s.db then s.limits
          else (j.jobRef, request.maxEpisodes) :: s.limits } := by
  obtain ⟨hj, _⟩ := readyJob_some hready
  have hopen := readyJob_incomplete hready
  have hk := h.consistent.keys
  obtain ⟨_, _, ho⟩ := leaseWrites_tables env request j w s.db
  have hmem := mem_leased hj hdrawn.1.ref request w
  have hleased := (hmem _).mpr (Or.inr (Or.inl rfl))
  have hgroup : ∀ x ∈ leaseWrites env request j w, x.group = none := by
    unfold leaseWrites remainderWrites
    intro x hx
    rcases List.mem_cons.mp hx with rfl | hx
    · rfl
    · split at hx
      · cases hx
      · rw [List.mem_singleton.mp hx]
        rfl
  have hwindow : ∀ i ∈ s.db.jobs, i.windowHash.isSome →
      ∃ i' ∈ (applyAll s.db (leaseWrites env request j w)).jobs, SameWindow i i' := by
    intro i hi hf
    by_cases hr : i.jobRef = j.jobRef
    · obtain rfl := hk.jobs.eq hi hj hr
      exact ⟨_, hleased, hw.of_frozen hf env⟩
    · exact ⟨i, (hmem i).mpr (Or.inl ⟨hi, hr⟩), SameWindow.refl i⟩
  refine ⟨⟨⟨hk.applyAll _, fun g => (h.consistent.groups g).congr (sameGroup_applyAll _
      fun x hx hg => by rw [hgroup x hx] at hg; cases hg).symm,
      jobsOk_leased hk h.consistent.jobs hj hopen hdrawn.1.ref hw⟩, ?_,
    orders_leased hk h.orders hj hdrawn.1, fun i hi hr i' hi' how hc => ?_, fun i hi ht => ?_, ?_,
    fun i hi hash hh => ?_, fun i hi hf => ?_, fun p hp => ?_⟩, hwindow,
    fun ref token hs => ⟨List.mem_cons_of_mem _ hs.issued, fun i hi href => ?_⟩⟩
  · unfold OutcomeRefsUnique
    rw [ho]
    exact h.outcomeRefs
  · -- The remainder comes after every job, and nothing incomplete before the leased one.
    rcases (hmem i).mp hi with ⟨hi, _⟩ | rfl | ⟨_, rfl⟩
    · rcases (hmem i').mp hi' with ⟨hi', _⟩ | rfl | ⟨_, rfl⟩
      · exact h.lowest i hi hr i' hi' how hc
      · exact h.lowest i hi hr j hj how hopen
      · exact Nat.le_of_lt (hdrawn.1.order i hi)
    · rcases (hmem i').mp hi' with ⟨hi', _⟩ | rfl | ⟨_, rfl⟩
      · exact readyJob_lowest hready hi' how hc
      · exact Nat.le_refl _
      · exact Nat.le_of_lt (hdrawn.1.order j hj)
    · cases hr.1
  · rcases (hmem i).mp hi with ⟨hi, _⟩ | rfl | ⟨_, rfl⟩
    · exact ⟨(h.leased i hi ht).1, List.mem_cons_of_mem _ (h.leased i hi ht).2⟩
    · exact ⟨⟨rfl, hopen⟩, List.mem_cons_self⟩
    · exact absurd rfl ht
  · intro hz
    rcases List.mem_cons.mp hz with hz | hz
    · exact hdrawn.2.1 hz.symm
    · exact h.issued hz
  · rcases (hmem i).mp hi with ⟨hi, _⟩ | rfl | ⟨_, rfl⟩
    · exact h.hashed i hi hash hh
    · rcases hw with ⟨hash', hh', rfl⟩ | ⟨_, hf⟩
      · exact h.hashed j hj hash (hh'.trans hh)
      · exact (Option.some.inj hh).symm.trans hf.hash
    · cases hh
  · have hcons : ∀ p ∈ s.limits, p ∈ (if frozenBefore j.jobRef s.db = true then s.limits
        else (j.jobRef, request.maxEpisodes) :: s.limits) := by
      intro p hp
      split
      · exact hp
      · exact List.mem_cons_of_mem _ hp
    rcases (hmem i).mp hi with ⟨hi, _⟩ | rfl | ⟨_, rfl⟩
    · obtain ⟨limit, hlim⟩ := h.limited i hi hf
      exact ⟨limit, hcons _ hlim⟩
    · by_cases hb : frozenBefore j.jobRef s.db = true
      · obtain ⟨limit, hlim⟩ := h.limited j hj ((frozenBefore_iff hk hj).mp hb)
        exact ⟨limit, hcons _ hlim⟩
      · exact ⟨request.maxEpisodes, by
          rw [if_neg hb]
          exact List.mem_cons_self⟩
    · cases hf
  · have hold : p ∈ s.limits → ∃ i ∈ (applyAll s.db (leaseWrites env request j w)).jobs,
        i.jobRef = p.1 ∧ i.windowHash.isSome ∧ (i.episodeRefs.length : Int) ≤ p.2 := by
      intro hp
      obtain ⟨i, hi, href, hf, hlen⟩ := h.fits p hp
      obtain ⟨i', hi', hsame⟩ := hwindow i hi hf
      exact ⟨i', hi', hsame.ref.trans href, hsame.hash ▸ hf, hsame.episodes ▸ hlen⟩
    by_cases hb : frozenBefore j.jobRef s.db = true
    · exact hold (by simpa only [hb, if_true] using hp)
    · rcases List.mem_cons.mp (by simpa only [hb, Bool.false_eq_true, if_false] using hp) with rfl | hp
      · rcases hw with ⟨hash, hh, _⟩ | ⟨_, hf⟩
        · exact absurd ((frozenBefore_iff hk hj).mpr (by rw [hh]; rfl)) hb
        · exact ⟨_, hleased, rfl, rfl, hf.fits⟩
      · exact hold hp
  · rcases (hmem i).mp hi with ⟨hi, _⟩ | rfl | ⟨_, rfl⟩
    · exact hs.lost i hi href
    · intro hz
      have htok : env.leaseToken = token := hz
      exact hdrawn.2.2 (htok ▸ hs.issued)
    · intro hz
      have htok : "" = token := hz
      exact h.issued (htok ▸ hs.issued)

theorem QueueOk.lease {env : Ambient} {request : LeaseRequest} (h : QueueOk store s)
    (hdrawn : Drawn s (.lease env request)) : StepOk store s (s.next store (.lease env request)) := by
  by_cases hvalid : request.Valid
  · obtain ⟨r, d', hrun, hleased⟩ := lease_next h hvalid hdrawn
    simp only [QueueState.next, hrun]
    cases hleased with
    | idle hready => exact StepOk.refl h
    | taken hready hw => exact h.taken hdrawn hready hw
  · simp only [QueueState.next, lease_invalid hvalid]
    exact StepOk.refl h

/-! ### Completion and retry -/

theorem acknowledges_complete (env : Ambient) :
    Acknowledges fun j =>
      { j with completedAt := some env.now, leaseToken := "", leaseUntil := none, updatedAt := env.now } :=
  ⟨fun _ => rfl, fun _ => rfl, fun _ => rfl, fun _ => rfl, fun _ => rfl, fun _ => rfl, fun _ => rfl,
    fun _ h => by cases h⟩

theorem acknowledges_retry (env : Ambient) (notBefore : Nat) :
    Acknowledges fun j =>
      { j with notBefore := notBefore, leaseToken := "", leaseUntil := none, updatedAt := env.now } :=
  ⟨fun _ => rfl, fun _ => rfl, fun _ => rfl, fun _ => rfl, fun _ => rfl, fun _ => rfl, fun _ => rfl,
    fun _ h => h⟩

theorem QueueOk.acknowledged {f : JobRow → JobRow} (hf : Acknowledges f) (h : QueueOk store s)
    {j : JobRow} (hj : j ∈ s.db.jobs) : StepOk store s { s with db := s.db.apply (.updateJob (f j)) } := by
  have hk := h.consistent.keys
  have hmem : ∀ i, i ∈ (s.db.apply (.updateJob (f j))).jobs ↔
      (i ∈ s.db.jobs ∧ i.jobRef ≠ j.jobRef) ∨ i = f j := fun i => by
    change i ∈ updateRow JobRow.jobRef (f j) s.db.jobs ↔ _
    rw [mem_updateRow, hf.ref]
  have hsame : SameWindow j (f j) :=
    ⟨hf.ref j, hf.order j, hf.owner j, hf.episodes j, hf.outcomes j, hf.hash j⟩
  have hwindow : ∀ i ∈ s.db.jobs, i.windowHash.isSome →
      ∃ i' ∈ (s.db.apply (.updateJob (f j))).jobs, SameWindow i i' := by
    intro i hi _
    by_cases hr : i.jobRef = j.jobRef
    · obtain rfl := hk.jobs.eq hi hj hr
      exact ⟨_, (hmem _).mpr (Or.inr rfl), hsame⟩
    · exact ⟨i, (hmem i).mpr (Or.inl ⟨hi, hr⟩), SameWindow.refl i⟩
  -- Every job now there was there, with the same window and no earlier completion.
  have horigin : ∀ i ∈ (s.db.apply (.updateJob (f j))).jobs, ∃ i₀ ∈ s.db.jobs, SameWindow i₀ i ∧
      (i.completedAt = none → i₀.completedAt = none) ∧ (i.leaseToken ≠ "" → i = i₀) := by
    intro i hi
    rcases (hmem i).mp hi with ⟨hi, _⟩ | rfl
    · exact ⟨i, hi, SameWindow.refl i, id, fun _ => rfl⟩
    · exact ⟨j, hj, hsame, hf.completed j, fun ht => absurd (hf.released j) ht⟩
  have hgroup : ∀ g, SameGroup g (s.db.apply (.updateJob (f j))) s.db := fun g =>
    sameGroup_apply s.db fun hg => by cases hg
  refine ⟨⟨⟨hk.apply (.updateJob (f j)), fun g => (h.consistent.groups g).congr (hgroup g).symm,
      jobsOk_acknowledged hf hk h.consistent.jobs hj⟩, h.outcomeRefs,
    h.orders.replace hk.jobs hj (hf.ref j) (hf.order j), fun i hi hr i' hi' how hc => ?_,
    fun i hi ht => ?_, h.issued, fun i hi hash hh => ?_, fun i hi hh => ?_, fun p hp => ?_⟩, hwindow,
    fun ref token hs => ⟨hs.issued, fun i hi href => ?_⟩⟩
  · obtain ⟨i₀, hi₀, hw, hcomp, _⟩ := horigin i hi
    obtain ⟨i₁, hi₁, hw', hcomp', _⟩ := horigin i' hi'
    rw [hw.order, hw'.order]
    exact h.lowest i₀ hi₀ ⟨hw.hash ▸ hr.1, hcomp hr.2⟩ i₁ hi₁
      (hw'.owner.symm.trans (how.trans hw.owner)) (hcomp' hc)
  · obtain ⟨i₀, hi₀, _, _, htok⟩ := horigin i hi
    obtain rfl := htok ht
    exact h.leased i hi₀ ht
  · obtain ⟨i₀, hi₀, hw, _⟩ := horigin i hi
    rw [hw.owner, hw.episodes, hw.outcomes]
    exact h.hashed i₀ hi₀ hash (hw.hash ▸ hh)
  · obtain ⟨i₀, hi₀, hw, _⟩ := horigin i hi
    rw [hw.ref]
    exact h.limited i₀ hi₀ (hw.hash ▸ hh)
  · obtain ⟨i, hi, href, hh, hlen⟩ := h.fits p hp
    obtain ⟨i', hi', hsame'⟩ := hwindow i hi hh
    exact ⟨i', hi', hsame'.ref.trans href, hsame'.hash ▸ hh, hsame'.episodes ▸ hlen⟩
  · obtain ⟨i₀, hi₀, hw, _, htok⟩ := horigin i hi
    by_cases ht : i.leaseToken = ""
    · exact fun hz => h.issued (by rw [← ht, hz]; exact hs.issued)
    · obtain rfl := htok ht
      exact hs.lost i hi₀ href

theorem QueueOk.endLease {f : JobRow → JobRow} (hf : Acknowledges f) (h : QueueOk store s)
    (jobRef token : String) :
    StepOk store s { s with db := (ChoraMem.endLease jobRef token f).after s.db } := by
  have hwp := endLease_wp (f := f) h.consistent.keys jobRef token
  unfold Prog.after
  cases hr : Prog.run (ChoraMem.endLease jobRef token f) s.db with
  | ok r =>
    obtain ⟨j, hj, _, hd⟩ := hwp.ok hr
    have hstep := h.acknowledged hf hj
    rw [← hd] at hstep
    exact hstep
  | error e => exact StepOk.refl h

/-! ### Any command -/

theorem QueueOk.next (hdistinct : RefsDistinct store) (h : QueueOk store s) (c : QueueCommand)
    (hdrawn : Drawn s c) : StepOk store s (s.next store c) := by
  cases c with
  | intake c => exact h.intake hdistinct c hdrawn
  | lease env request => exact h.lease hdrawn
  | complete env jobRef token => exact h.endLease (acknowledges_complete env) jobRef token
  | retry env jobRef token notBefore => exact h.endLease (acknowledges_retry env notBefore) jobRef token

theorem QueueRun.ok (hdistinct : RefsDistinct store) (h : QueueOk store s) {s' : QueueState}
    (hrun : QueueRun store s s') : StepOk store s s' := by
  induction hrun with
  | refl => exact StepOk.refl h
  | step _ c hdrawn ih => exact ih.trans (ih.ok.next hdistinct c hdrawn)

end

end ChoraMem
