/-
Conservation and lease safety of the queue.

Both are read off the invariant of the state machine: nothing that was
materialized or attached is ever missing from the queue, and a lease belongs to the
first incomplete job of an owner and to the holder of its current token.  A job that
is not under lease carries the empty token, and to an acknowledgement that is a token
like any other: it ends a lease that nobody holds.
-/
import ChoraMem.Queue.World

namespace ChoraMem

open Txn

theorem refsDistinct_postgres {store : Store} (h : store.dialect = .postgres) :
    RefsDistinct store := fun hm => by
  rw [h] at hm
  cases hm

/-! A question, its answer, and a lease of the Episode they make. -/

def sampleObserve (n : Nat) (event : SourceEvent) (role : SourceRole) : IntakeCommand :=
  .observe (plainAmbient n) ("k" ++ toString n) event ⟨"run", "g", role⟩

def sampleRequest : LeaseRequest :=
  { quietBefore := 10, leaseUntil := 20, maxEpisodes := 2, overlap := 1 }

def sampleAsked : QueueState :=
  ({} : QueueState).next (plainStore .postgres)
    (.intake (sampleObserve 1 sampleSituation .situation))

def sampleAnswered : QueueState :=
  sampleAsked.next (plainStore .postgres) (.intake (sampleObserve 2 sampleAct .agentAct))

def sampleLeased : QueueState :=
  sampleAnswered.next (plainStore .postgres) (.lease (plainAmbient 3) sampleRequest)

theorem sampleAnswered_reach : QueueReach (plainStore .postgres) sampleAnswered := by
  have h₁ : QueueReach (plainStore .postgres) sampleAsked :=
    .step .refl _ (show ∀ j ∈ ({} : Db).jobs, _ from fun j hj => by cases hj)
  exact h₁.step _ (show ∀ j ∈ sampleAsked.db.jobs, j.jobOrder < 4 by decide)

theorem sampleLeased_reach : QueueReach (plainStore .postgres) sampleLeased := by
  have hrefs : ∀ j ∈ sampleAnswered.db.jobs, j.jobRef ≠ "rest-3" := by decide
  have horders : ∀ j ∈ sampleAnswered.db.jobs, j.jobOrder < 7 := by decide
  have htoken : "token-3" ≠ "" ∧ "token-3" ∉ sampleAnswered.issued := by decide
  exact sampleAnswered_reach.step _ ⟨⟨hrefs, horders⟩, htoken⟩

/-! ## Conservation -/

structure Conserved (s : QueueState) : Prop where
  /-- Every Episode is in a job of its owner. -/
  episodes : ∀ e ∈ s.db.episodes, ∃ j ∈ s.db.jobs, j.owner = e.group.scope.owner ∧ e.ref ∈ j.episodeRefs
  /-- Every Outcome of a materialized group is in a job of its owner with its Episode. -/
  outcomes : ∀ e ∈ s.db.episodes, ∀ o ∈ s.db.outcomes, o.group = e.group → o.episodeRef = e.ref ∧
    ∃ j ∈ s.db.jobs, j.owner = e.group.scope.owner ∧ e.ref ∈ j.episodeRefs ∧ o.ref ∈ j.outcomeEventRefs
  /-- An Outcome with an Episode ref belongs to a materialized group. -/
  attached : ∀ o ∈ s.db.outcomes, o.episodeRef ≠ "" → ∃ e ∈ s.db.episodes, e.group = o.group
  /-- Every Outcome of a job has its Episode in the job. -/
  together : ∀ j ∈ s.db.jobs, ∀ ref ∈ j.outcomeEventRefs,
    ∃ o ∈ s.db.outcomes, o.ref = ref ∧ o.episodeRef ∈ j.episodeRefs
  collecting : ∀ j ∈ s.db.jobs, ∀ j' ∈ s.db.jobs, j.collecting → j'.collecting → j.owner = j'.owner →
    j = j'
  nodup : ∀ j ∈ s.db.jobs, j.episodeRefs.Nodup ∧ j.outcomeEventRefs.Nodup
  nonempty : ∀ j ∈ s.db.jobs, j.episodeRefs ≠ []
  /-- A frozen job is within the limit of the lease that froze it. -/
  bounded : ∀ j ∈ s.db.jobs, j.windowHash.isSome →
    (∃ limit, (j.jobRef, limit) ∈ s.limits) ∧
      ∀ limit, (j.jobRef, limit) ∈ s.limits → (j.episodeRefs.length : Int) ≤ limit

/-- What a lease that freezes `j` makes of it: its window, and what did not fit in
the remainder. -/
def SplitInto (remainderRef : String) (limit : Int) (j : JobRow) (d : Db) : Prop :=
  ∃ window ∈ d.jobs, window.jobRef = j.jobRef ∧ window.owner = j.owner ∧ window.windowHash.isSome ∧
    (window.episodeRefs.length : Int) ≤ limit ∧
    (∀ ref ∈ j.episodeRefs, ref ∈ window.episodeRefs ∨
      ∃ rest ∈ d.jobs, rest.jobRef = remainderRef ∧ rest.owner = j.owner ∧ rest.collecting ∧
        ref ∈ rest.episodeRefs) ∧
    ∀ ref ∈ j.outcomeEventRefs, ref ∈ window.outcomeEventRefs ∨
      ∃ rest ∈ d.jobs, rest.jobRef = remainderRef ∧ rest.owner = j.owner ∧ rest.collecting ∧
        ref ∈ rest.outcomeEventRefs

section

variable {store : Store} {s : QueueState}

theorem QueueOk.conserved (h : QueueOk store s) : Conserved s where
  episodes := fun e he => h.consistent.jobs.covered e he fun hz => by cases hz
  outcomes := fun e he o ho hg => by
    have hok := h.consistent.groups e.group
    have href := hok.ref e he rfl
    have hep := (hok.bound ⟨e, he, rfl⟩).2 o ho hg
    obtain ⟨j, hj, how, hin, hout⟩ := h.consistent.jobs.coveredOutcome o ho
      (hep ▸ store.episodeRef_ne e.group) fun hz => by cases hz
    rw [hg] at how
    rw [hep, ← href] at hin
    exact ⟨hep.trans href.symm, j, hj, how, hin, hout⟩
  attached := fun o ho hne => by
    by_contra hno
    exact hne (((h.consistent.groups o.group).unbound hno).2 o ho rfl)
  together := fun j hj ref hr => by
    obtain ⟨o, ho, href, _, hep⟩ := (h.consistent.jobs.rows j hj).outcomes ref hr
    exact ⟨o, ho, href, hep⟩
  collecting := h.consistent.jobs.collecting
  nodup := fun j hj => ⟨(h.consistent.jobs.rows j hj).nodup, (h.consistent.jobs.rows j hj).outcomesNodup⟩
  nonempty := fun j hj => (h.consistent.jobs.rows j hj).nonempty
  bounded := fun j hj hf => ⟨h.limited j hj hf, fun limit hl => by
    obtain ⟨i, hi, href, _, hlen⟩ := h.fits _ hl
    rw [← h.consistent.keys.jobs.eq hi hj href]
    exact hlen⟩

theorem Leased.split {env : Ambient} {request : LeaseRequest} {d d' : Db} {job : Job}
    (hk : KeysOk d) (hjobs : JobsOk none d) (hfresh : FreshRemainder env d)
    (h : Leased store env request d (some job) d') {j : JobRow} (hj : j ∈ d.jobs)
    (href : j.jobRef = job.ref) (hc : j.collecting) :
    SplitInto env.remainderRef request.maxEpisodes j d' := by
  cases h with
  | @taken i w hready hw =>
    obtain ⟨hi, _⟩ := readyJob_some hready
    obtain rfl := hk.jobs.eq hj hi href
    have hmem := mem_leased hi hfresh.ref request w
    simp only [JobRow.collecting, Bool.and_eq_true, Option.isNone_iff_eq_none] at hc
    rcases hw with ⟨hash, hh, _⟩ | ⟨_, hf⟩
    · rw [hc.1] at hh
      cases hh
    have hrest : w.remainderEpisodes ≠ [] → newJob env env.remainderOrder env.remainderRef j.owner
        w.remainderEpisodes w.remainderOutcomes ∈ (applyAll d (leaseWrites env request j w)).jobs :=
      fun hne => (hmem _).mpr (Or.inr (Or.inr ⟨hne, rfl⟩))
    refine ⟨_, (hmem _).mpr (Or.inr (Or.inl rfl)), rfl, rfl, rfl, hf.fits, fun ref hr => ?_,
      fun ref hr => ?_⟩
    · exact (hf.episodes ref hr).imp id fun hin =>
        ⟨_, hrest (List.ne_nil_of_mem hin), rfl, rfl, rfl, hin⟩
    · obtain ⟨o, ho, horef, _, _⟩ := (hjobs.rows j hj).outcomes ref hr
      rw [← horef] at hr ⊢
      exact (hf.outcomes o ho hr).imp And.left fun hin =>
        ⟨_, hrest (List.ne_nil_of_mem hin.2), rfl, rfl, rfl, hin.1⟩

/-- In every state of the queue nothing is lost, and a lease of it does not fail and
splits what it freezes without loss. -/
theorem queue_conserves (hpg : store.dialect = .postgres) (h : QueueReach store s) :
    Conserved s ∧
      ∀ env request, request.Valid → Drawn s (.lease env request) →
        ∃ job d, (store.leaseConsolidationJob env request).run s.db = .ok (job, d) ∧
          ∀ leased, job = some leased → ∀ j ∈ s.db.jobs, j.jobRef = leased.ref → j.collecting →
            SplitInto env.remainderRef request.maxEpisodes j d := by
  have hok := (h.ok (refsDistinct_postgres hpg) (queueOk_empty store)).ok
  refine ⟨hok.conserved, fun env request hvalid hdrawn => ?_⟩
  obtain ⟨job, d, hrun, hleased⟩ := lease_next hok hvalid hdrawn
  refine ⟨job, d, hrun, ?_⟩
  rintro leased rfl j hj href hc
  exact hleased.split hok.consistent.keys hok.consistent.jobs hdrawn.1 hj href hc

theorem queue_conserves_sample :
    Conserved sampleLeased ∧ ∃ j ∈ sampleLeased.db.jobs, j.windowHash.isSome :=
  ⟨(queue_conserves rfl sampleLeased_reach).1, by decide⟩

end

/-! ## Lease safety -/

/-- The job is under lease: a token was handed out for it and not given back. -/
def JobRow.underLease (j : JobRow) : Prop := j.leaseToken ≠ "" ∧ j.completedAt = none

/-- No incomplete job of the owner comes before this one. -/
def Lowest (d : Db) (j : JobRow) : Prop :=
  ∀ j' ∈ d.jobs, j'.owner = j.owner → j'.completedAt = none → j.jobOrder ≤ j'.jobOrder

/-- The token is the current one of a job under lease. -/
def LiveLease (d : Db) (jobRef token : String) : Prop :=
  ∃ j ∈ d.jobs, j.jobRef = jobRef ∧ j.leaseToken = token ∧ j.underLease

/-- The job is open and nobody holds a lease of it. -/
def Unleased (d : Db) (jobRef : String) : Prop :=
  ∃ j ∈ d.jobs, j.jobRef = jobRef ∧ j.leaseToken = "" ∧ j.completedAt = none

/-- An acknowledgement went through for the job of this ref. -/
def Acknowledged (d : Db) (p : Tx Unit) : Prop := ∃ d', p.run d = .ok ((), d')

/-- A call that ends the lease of a job, or takes it over. -/
def Ends (store : Store) (s : QueueState) (j : JobRow) : QueueCommand → Prop
  | .intake _ => False
  | .lease env request => ∃ leased d,
    (store.leaseConsolidationJob env request).run s.db = .ok (some leased, d) ∧ leased.ref = j.jobRef
  | .complete _ jobRef token | .retry _ jobRef token _ => jobRef = j.jobRef ∧ token = j.leaseToken

/-- The job's row does not carry the token. -/
def Lost (s : QueueState) (jobRef token : String) : Prop :=
  ∀ j ∈ s.db.jobs, j.jobRef = jobRef → j.leaseToken ≠ token

structure LeaseSafe (store : Store) (s : QueueState) : Prop where
  /-- A lease takes the lowest incomplete job of its owner. -/
  takesLowest : ∀ env request leased d,
    (store.leaseConsolidationJob env request).run s.db = .ok (some leased, d) →
      Drawn s (.lease env request) →
        ∃ j ∈ s.db.jobs, j.jobRef = leased.ref ∧ j.completedAt = none ∧ Lowest s.db j
  /-- Whatever is under lease is lowest, so an owner has one job under lease. -/
  lowest : ∀ j ∈ s.db.jobs, j.underLease → Lowest s.db j
  exclusive : ∀ j ∈ s.db.jobs, ∀ j' ∈ s.db.jobs, j.underLease → j'.underLease → j.owner = j'.owner →
    j = j'
  /-- A frozen job keeps its refs and its hash in every later state. -/
  frozen : ∀ s', QueueRun store s s' → ∀ j ∈ s.db.jobs, j.windowHash.isSome →
    ∃ j' ∈ s'.db.jobs, SameWindow j j'
  /-- Completion and retry need the token of a live lease, unless the token is empty and
  the job is not under lease. -/
  completes : ∀ env jobRef token,
    (Acknowledged s.db (completeConsolidationJob env jobRef token) → LiveLease s.db jobRef token) ↔
      ¬(token = "" ∧ Unleased s.db jobRef)
  retries : ∀ env jobRef token notBefore,
    (Acknowledged s.db (retryConsolidationJob env jobRef token notBefore) →
        LiveLease s.db jobRef token) ↔
      ¬(token = "" ∧ Unleased s.db jobRef)
  /-- A re-lease, a retry or a completion takes the token from the job's row. -/
  ends : ∀ j ∈ s.db.jobs, j.underLease → ∀ c, Drawn s c → Ends store s j c →
    Lost (s.next store c) j.jobRef j.leaseToken
  /-- Once the row of a job under lease has lost the token, the token is refused in
  every later state, and the refusal changes nothing. -/
  superseded : ∀ j ∈ s.db.jobs, j.underLease → ∀ s', QueueRun store s s' →
    Lost s' j.jobRef j.leaseToken →
      ∀ s'', QueueRun store s' s'' → ∀ env notBefore,
        (completeConsolidationJob env j.jobRef j.leaseToken).run s''.db =
            .error ⟨.leaseLost, "", ""⟩ ∧
          s''.next store (.complete env j.jobRef j.leaseToken) = s'' ∧
        (retryConsolidationJob env j.jobRef j.leaseToken notBefore).run s''.db =
            .error ⟨.leaseLost, "", ""⟩ ∧
          s''.next store (.retry env j.jobRef j.leaseToken notBefore) = s''

section

variable {store : Store} {s : QueueState}

/-- An acknowledgement goes through for an open job whose row carries the token. -/
theorem endLease_iff {f : JobRow → JobRow} {d : Db} (hk : KeysOk d) {jobRef token : String} :
    Acknowledged d (endLease jobRef token f) ↔
      ∃ j ∈ d.jobs, j.jobRef = jobRef ∧ j.leaseToken = token ∧ j.completedAt = none := by
  have hwp := endLease_wp (f := f) hk jobRef token
  constructor
  · rintro ⟨d', hr⟩
    obtain ⟨j, hj, hh, _⟩ := hwp.ok hr
    simp only [heldLease, Bool.and_eq_true, decide_eq_true_eq, Option.isNone_iff_eq_none] at hh
    exact ⟨j, hj, hh.1.1, hh.1.2, hh.2⟩
  · rintro ⟨j, hj, href, htoken, hopen⟩
    cases hr : (endLease jobRef token f).run d with
    | ok r => exact ⟨r.2, hr⟩
    | error e =>
      have hno := (hwp.error hr).2 j hj
      simp [heldLease, href, htoken, hopen] at hno

/-- What carries a token that is not empty is under lease. -/
theorem endLease_live {f : JobRow → JobRow} {d : Db} (hk : KeysOk d) {jobRef token : String} :
    (Acknowledged d (endLease jobRef token f) → LiveLease d jobRef token) ↔
      ¬(token = "" ∧ Unleased d jobRef) := by
  rw [endLease_iff hk]
  constructor
  · rintro hlive ⟨rfl, hidle⟩
    obtain ⟨j, _, _, htoken, hne, _⟩ := hlive hidle
    exact hne htoken
  · rintro hno ⟨j, hj, href, htoken, hopen⟩
    refine ⟨j, hj, href, htoken, fun hempty => hno ?_, hopen⟩
    exact ⟨htoken.symm.trans hempty, j, hj, href, hempty, hopen⟩

theorem endLease_refused {f : JobRow → JobRow} {d : Db} (hk : KeysOk d) {jobRef token : String}
    (h : ∀ j ∈ d.jobs, j.jobRef = jobRef → j.leaseToken ≠ token) :
    (endLease jobRef token f).run d = .error ⟨.leaseLost, "", ""⟩ := by
  have hwp := endLease_wp (f := f) hk jobRef token
  cases hr : (endLease jobRef token f).run d with
  | ok r =>
    obtain ⟨j, hj, hh, _⟩ := hwp.ok hr
    simp only [heldLease, Bool.and_eq_true, decide_eq_true_eq] at hh
    exact absurd hh.1.2 (h j hj hh.1.1)
  | error e => rw [(hwp.error hr).1]

/-- After an acknowledgement with the current token the row carries none. -/
theorem endLease_loses {f : JobRow → JobRow} (hf : Acknowledges f) {d : Db} (hk : KeysOk d)
    {j : JobRow} (hj : j ∈ d.jobs) (hl : j.underLease) :
    ∀ i ∈ ((endLease j.jobRef j.leaseToken f).after d).jobs, i.jobRef = j.jobRef →
      i.leaseToken ≠ j.leaseToken := by
  have hheld : heldLease j.jobRef j.leaseToken j = true := by simp [heldLease, hl.2]
  have hwp := endLease_wp (f := f) hk j.jobRef j.leaseToken
  unfold Prog.after
  cases hr : (endLease j.jobRef j.leaseToken f).run d with
  | ok r =>
    obtain ⟨i, hi, hh, hd⟩ := hwp.ok hr
    simp only [heldLease, Bool.and_eq_true, decide_eq_true_eq] at hh
    obtain rfl := hk.jobs.eq hi hj hh.1.1
    intro x hx href
    dsimp only at hx
    rw [hd] at hx
    rcases mem_updateRow.mp hx with ⟨_, hne⟩ | rfl
    · rw [hf.ref] at hne
      exact absurd href hne
    · rw [hf.released]
      exact fun hz => hl.1 hz.symm
  | error e =>
    rw [(hwp.error hr).2 j hj] at hheld
    cases hheld

theorem QueueOk.leaseSafe (hdistinct : RefsDistinct store) (h : QueueOk store s) :
    LeaseSafe store s where
  takesLowest := fun env request leased d hr hdrawn => by
    by_cases hvalid : request.Valid
    · obtain ⟨r, d', hrun, hleased⟩ := lease_next h hvalid hdrawn
      rw [hr] at hrun
      cases hrun
      cases hleased with
      | @taken j w hready hw =>
        exact ⟨j, (readyJob_some hready).1, rfl, readyJob_incomplete hready,
          fun j' hj' ho hc => readyJob_lowest hready hj' ho hc⟩
    · rw [lease_invalid hvalid] at hr
      cases hr
  lowest := fun j hj hl => h.lowest j hj (h.leased j hj hl.1).1
  exclusive := fun j hj j' hj' hl hl' ho => by
    have h₁ := h.lowest j hj (h.leased j hj hl.1).1 j' hj' ho.symm hl'.2
    have h₂ := h.lowest j' hj' (h.leased j' hj' hl'.1).1 j hj ho hl.2
    exact h.orders.eq hj hj' (Nat.le_antisymm h₁ h₂)
  frozen := fun s' hrun => (hrun.ok hdistinct h).frozen
  ends := fun j hj hl c hdrawn hends => by
    cases c with
    | intake c => exact hends.elim
    | lease env request =>
      obtain ⟨leased, d, hr, href⟩ := hends
      by_cases hvalid : request.Valid
      · obtain ⟨r, d', hrun, hleased⟩ := lease_next h hvalid hdrawn
        rw [hr] at hrun
        cases hrun
        simp only [QueueState.next, hr]
        cases hleased with
        | @taken i w hready hw =>
          have hi := (readyJob_some hready).1
          intro x hx hxr
          rcases (mem_leased hi hdrawn.1.ref request w x).mp hx with ⟨_, hne⟩ | rfl | ⟨_, rfl⟩
          · exact absurd (hxr.trans href.symm) hne
          · intro hz
            have htok : env.leaseToken = j.leaseToken := hz
            exact hdrawn.2.2 (htok ▸ (h.leased j hj hl.1).2)
          · exact fun hz => hl.1 hz.symm
      · rw [lease_invalid hvalid] at hr
        cases hr
    | complete env jobRef token =>
      obtain ⟨rfl, rfl⟩ := hends
      exact endLease_loses (acknowledges_complete env) h.consistent.keys hj hl
    | retry env jobRef token notBefore =>
      obtain ⟨rfl, rfl⟩ := hends
      exact endLease_loses (acknowledges_retry env notBefore) h.consistent.keys hj hl
  completes := fun _ _ _ => endLease_live h.consistent.keys
  retries := fun _ _ _ _ => endLease_live h.consistent.keys
  superseded := fun j hj hl s' hrun hlost s'' hrun' env notBefore => by
    have hstep := hrun.ok hdistinct h
    have hissued : j.leaseToken ∈ s'.issued := hrun.issued (h.leased j hj hl.1).2
    have hsup : Superseded s' j.jobRef j.leaseToken := ⟨hissued, hlost⟩
    have hlater := hrun'.ok hdistinct hstep.ok
    have hrow := (hlater.superseded _ _ hsup).lost
    have hk := hlater.ok.consistent.keys
    have hc : (completeConsolidationJob env j.jobRef j.leaseToken).run s''.db = _ :=
      endLease_refused hk hrow
    have hr : (retryConsolidationJob env j.jobRef j.leaseToken notBefore).run s''.db = _ :=
      endLease_refused hk hrow
    refine ⟨hc, ?_, hr, ?_⟩
    · simp only [QueueState.next, Prog.after, hc]
    · simp only [QueueState.next, Prog.after, hr]

/-- Leases are serialized per owner, frozen windows never change, and what ends a lease is
its current token, save that the empty token passes for the lease of a job that has none. -/
theorem queue_leases_safe (hpg : store.dialect = .postgres) (h : QueueReach store s) :
    LeaseSafe store s :=
  (h.ok (refsDistinct_postgres hpg) (queueOk_empty store)).ok.leaseSafe (refsDistinct_postgres hpg)

theorem queue_leases_safe_sample :
    LeaseSafe (plainStore .postgres) sampleLeased ∧ ∃ j ∈ sampleLeased.db.jobs, j.leaseToken ≠ "" :=
  ⟨queue_leases_safe rfl sampleLeased_reach, by decide⟩

/-- The empty token completes a job that was never leased. -/
theorem queue_completes_unleased :
    QueueReach (plainStore .postgres) sampleAnswered ∧ sampleAnswered.issued = [] ∧
      Acknowledged sampleAnswered.db (completeConsolidationJob (plainAmbient 3) "job-2" "") ∧
      ¬LiveLease sampleAnswered.db "job-2" "" := by
  refine ⟨sampleAnswered_reach, rfl, ⟨_, rfl⟩, ?_⟩
  rintro ⟨j, _, _, hempty, hne, _⟩
  exact hne hempty

end

end ChoraMem
