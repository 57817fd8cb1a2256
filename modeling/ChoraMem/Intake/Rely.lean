/-
What an intake transaction relies on.

`Consistent` is the law of the committed store: keys are unique, every group is
in order, the queue covers all evidence.  While a transaction runs, the others
leave the rows of a group alone whose lock it holds, leave alone the jobs whose
unique keys it holds, and never uncover evidence.  A read view that is fixed must
agree with the store on the gate of every group whose lock is held; this is the
one thing that taking a lock asks of it.

`Mid` is what holds in the middle of a transaction of its log applied to the
committed store, with one group possibly open and one group possibly not yet
enqueued.  It is stable under the rely, and with no group open and nothing pending
it makes the commit a step the others rely on.
-/
import ChoraMem.Txn.Rely
import ChoraMem.Intake.Jobs

namespace ChoraMem

open Txn

structure Consistent (store : Store) (d : Db) : Prop where
  keys : KeysOk d
  groups : ∀ g, GroupOk store g d
  jobs : JobsOk none d

theorem consistent_empty (store : Store) : Consistent store {} :=
  ⟨keysOk_empty, groupOk_empty store, jobsOk_empty none⟩

structure IntakeRel (store : Store) (l : Local Write String) (d d' : Db) : Prop where
  groups : ∀ g, store.groupLockKey g ∈ l.held → SameGroup g d d'
  jobs : SameRows (HoldsJob l.log) d.jobs d'.jobs
  covered : ∀ owner ref, Covered d owner ref → Covered d' owner ref
  coveredOutcome : ∀ owner ref out, CoveredOutcome d owner ref out → CoveredOutcome d' owner ref out
  episodes : ∀ e ∈ d.episodes, e ∈ d'.episodes
  attached : AttachedSub d d'

structure IntakeSees (store : Store) (held : List String) (v d : Db) : Prop where
  gates : ∀ g, store.groupLockKey g ∈ held → SameGate g v d
  episodes : ∀ e ∈ v.episodes, e ∈ d.episodes
  attached : AttachedSub v d

/-- A view shows the gate of every group that a lock protects as it is committed. -/
def GateFresh (store : Store) (key : String) (v d : Db) : Prop :=
  ∀ g, store.groupLockKey g = key → SameGate g v d

def intakeRely (store : Store) : Rely Db Write String where
  inv := Consistent store
  rel := IntakeRel store
  sees := IntakeSees store
  fresh := GateFresh store
  refl := fun _ d => ⟨fun g _ => SameGroup.refl g d, SameRows.refl _, fun _ _ h => h,
    fun _ _ _ h => h, fun _ h => h, fun _ h _ => h⟩
  trans := fun _ _ _ _ h h' =>
    ⟨fun g hg => (h.groups g hg).trans (h'.groups g hg), h.jobs.trans h'.jobs,
      fun o r hc => h'.covered o r (h.covered o r hc),
      fun o r s hc => h'.coveredOutcome o r s (h.coveredOutcome o r s hc),
      fun e he => h'.episodes e (h.episodes e he),
      fun o ho hne => h'.attached o (h.attached o ho hne) hne⟩
  sees_refl := fun _ d => ⟨fun g _ => (SameGroup.refl g d).sameGate, fun _ h => h, fun _ h _ => h⟩
  sees_rel := fun _ _ _ _ hs h =>
    ⟨fun g hg => (hs.gates g hg).trans (h.groups g hg).sameGate,
      fun e he => h.episodes e (hs.episodes e he),
      fun o ho hne => h.attached o (hs.attached o ho hne) hne⟩
  sees_lock := fun _ _ _ _ hs hf =>
    ⟨fun g hg => (List.mem_cons.mp hg).elim (fun h => hf g h) (hs.gates g), hs.episodes, hs.attached⟩

/-! ## The middle of a transaction -/

structure Mid (store : Store) (opened pending : Option StableGroupRef) (l : Local Write String)
    (d : Db) : Prop where
  locked : ∀ w ∈ l.log, ∀ g, w.group = some g → store.groupLockKey g ∈ l.held
  openLocked : ∀ g, opened = some g → store.groupLockKey g ∈ l.held
  groups : ∀ g, opened ≠ some g → GroupOk store g (applyAll d l.log)
  jobs : JobsOk pending (applyAll d l.log)
  grows : Grows d (applyAll d l.log)
  attached : AttachedSub d (applyAll d l.log)

/-- Between two commands of the transaction: no group open, nothing pending. -/
abbrev Settled (store : Store) (l : Local Write String) (d : Db) : Prop := Mid store none none l d

theorem settled_start {store : Store} {d : Db} (h : Consistent store d) :
    Settled store ⟨[], []⟩ d where
  locked := fun w hw => absurd hw List.not_mem_nil
  openLocked := fun g hg => by cases hg
  groups := fun g _ => h.groups g
  jobs := h.jobs
  grows := Grows.refl d
  attached := fun _ ho _ => ho

theorem episodes_applyAll {d : Db} {e : EpisodeRow} (log : List Write) (he : e ∈ d.episodes) :
    e ∈ (applyAll d log).episodes := by
  induction log generalizing d with
  | nil => exact he
  | cons w rest ih =>
    refine ih ?_
    change e ∈ (d.apply w).episodes
    cases w with
    | insertEpisode r => exact mem_insertRow_of_mem he
    | _ => exact he

theorem jobKeys_congr {j j' : JobRow} (hr : j'.jobRef = j.jobRef) (ho : j'.owner = j.owner)
    (hc : j'.collecting = j.collecting) : jobKeys j' = jobKeys j := by
  unfold jobKeys
  rw [hr, ho, hc]

/-- Two collecting jobs of one owner share a unique key. -/
theorem holdsJob_of_collecting {d : Db} {log : List Write} {j j' : JobRow}
    (hj : j ∈ (applyAll d log).jobs) (hh : HoldsJob log j) (hc : j.collecting)
    (hc' : j'.collecting) (ho : j.owner = j'.owner) : HoldsJob log j' := by
  have hkey : ∀ {x : JobRow}, x.collecting →
      ⟨"consolidation_jobs_collecting_owner_uq", x.owner.fields⟩ ∈ jobKeys x := by
    intro x hx
    unfold jobKeys
    rw [if_pos hx]
    exact List.mem_cons_of_mem _ (List.mem_singleton_self _)
  refine ⟨_, hkey hc', ?_⟩
  rw [← ho]
  rcases mem_jobs_applyAll log hj with ⟨_, hall⟩ | ⟨hno, _⟩
  · exact hall _ (hkey hc)
  · obtain ⟨k, hk, hlog⟩ := hh
    unfold jobKeys at hk
    rw [if_pos hc] at hk
    rcases List.mem_cons.mp hk with rfl | hk
    · exact absurd hlog hno
    · rw [List.mem_singleton.mp hk] at hlog
      exact hlog

section

variable {store : Store} {opened pending : Option StableGroupRef}
variable {l : Local Write String} {d d' : Db}

/-- A group whose lock is not held has no row in the log. -/
theorem Mid.untouched (h : Mid store opened pending l d) {g : StableGroupRef}
    (hg : store.groupLockKey g ∉ l.held) (x : Db) : SameGroup g (applyAll x l.log) x :=
  sameGroup_applyAll x fun w hw hwg => hg (h.locked w hw g hwg)

theorem Mid.sameGroup_later (hl : (intakeRely store).Later l d d') {g : StableGroupRef}
    (hg : store.groupLockKey g ∈ l.held) : SameGroup g (applyAll d l.log) (applyAll d' l.log) :=
  (hl.1.groups g hg).applyAll l.log

theorem Mid.episodes_later (h : Mid store opened pending l d)
    (hl : (intakeRely store).Later l d d') {e : EpisodeRow} (he : e ∈ (applyAll d l.log).episodes) :
    e ∈ (applyAll d' l.log).episodes := by
  by_cases hg : store.groupLockKey e.group ∈ l.held
  · exact ((Mid.sameGroup_later hl hg).episodes e rfl).mp he
  · exact episodes_applyAll l.log (hl.1.episodes e (((h.untouched hg d).episodes e rfl).mp he))

theorem Mid.attached_later (h : Mid store opened pending l d)
    (hl : (intakeRely store).Later l d d') :
    AttachedSub (applyAll d l.log) (applyAll d' l.log) := by
  intro o ho hne
  by_cases hg : store.groupLockKey o.group ∈ l.held
  · exact ((Mid.sameGroup_later hl hg).outcomes o rfl).mp ho
  · have hd := ((h.untouched hg d).outcomes o rfl).mp ho
    exact ((h.untouched hg d').outcomes o rfl).mpr (hl.1.attached o hd hne)

/-- A job whose key the transaction holds stays. -/
theorem Mid.job_later (hl : (intakeRely store).Later l d d') {j : JobRow}
    (hj : j ∈ (applyAll d l.log).jobs) (hh : HoldsJob l.log j) : j ∈ (applyAll d' l.log).jobs :=
  (sameJobs_applyAll hl.1.jobs l.log j hh).mp hj

/-- The middle of a transaction survives what others may do. -/
theorem Mid.later (h : Mid store opened pending l d) (hl : (intakeRely store).Later l d d') :
    Mid store opened pending l d' := by
  have hepisodes := fun e he => h.episodes_later hl (e := e) he
  have hattached := h.attached_later hl
  obtain ⟨hr, hinv⟩ := hl
  have hsame : ∀ g, store.groupLockKey g ∈ l.held →
      SameGroup g (applyAll d l.log) (applyAll d' l.log) :=
    fun g hg => (hr.groups g hg).applyAll l.log
  have hjobs : SameRows (HoldsJob l.log) (applyAll d l.log).jobs (applyAll d' l.log).jobs :=
    sameJobs_applyAll hr.jobs l.log
  have hattached' : AttachedSub d' (applyAll d' l.log) := by
    intro o ho hne
    by_cases hg : store.groupLockKey o.group ∈ l.held
    · have hd := ((hr.groups _ hg).outcomes o rfl).mpr ho
      exact ((hsame _ hg).outcomes o rfl).mp (h.attached o hd hne)
    · exact ((h.untouched hg d').outcomes o rfl).mpr ho
  have hgrows : Grows d' (applyAll d' l.log) := by
    intro j hj
    by_cases hh : HoldsJob l.log j
    · obtain ⟨j', hj', href, hown, hcol, hrest⟩ := h.grows j ((hr.jobs j hh).mpr hj)
      have hh' : HoldsJob l.log j' := by
        unfold HoldsJob
        rw [jobKeys_congr href hown hcol]
        exact hh
      exact ⟨j', (hjobs j' hh').mp hj', href, hown, hcol, hrest⟩
    · have hnot : ¬HoldsJobRef l.log j := fun hp => hh hp.holdsJob
      exact ⟨j, mem_jobs_of_not_holds l.log hj hnot, rfl, rfl, rfl, fun _ h => h, fun _ h => h⟩
  have hfrom : ∀ {x : Db} {j : JobRow}, j ∈ (applyAll x l.log).jobs → ¬HoldsJob l.log j →
      j ∈ x.jobs := by
    intro x j hj hh
    rcases mem_jobs_applyAll l.log hj with ⟨hp, _⟩ | ⟨_, hj⟩
    · exact absurd hp.holdsJob hh
    · exact hj
  refine ⟨h.locked, h.openLocked, ?_, ?_, hgrows, hattached'⟩
  · intro g hopen
    by_cases hg : store.groupLockKey g ∈ l.held
    · exact (h.groups g hopen).congr (hsame g hg)
    · exact (hinv.groups g).congr (h.untouched hg d').symm
  · constructor
    · intro j hj
      by_cases hh : HoldsJob l.log j
      · exact (h.jobs.rows j ((hjobs j hh).mpr hj)).mono hepisodes hattached
      · exact (hinv.jobs.rows j (hfrom hj hh)).mono (fun e he => episodes_applyAll l.log he) hattached'
    · intro j hj j' hj' hc hc' ho
      by_cases hh : HoldsJob l.log j
      · have hh' := holdsJob_of_collecting hj hh hc hc' ho
        exact h.jobs.collecting j ((hjobs j hh).mpr hj) j' ((hjobs j' hh').mpr hj') hc hc' ho
      · have hh' : ¬HoldsJob l.log j' := fun hh' =>
          hh (holdsJob_of_collecting hj' hh' hc' hc ho.symm)
        exact hinv.jobs.collecting j (hfrom hj hh) j' (hfrom hj' hh') hc hc' ho
    · intro e he hne
      by_cases hg : store.groupLockKey e.group ∈ l.held
      · obtain ⟨j, hj, ho, href⟩ := h.jobs.covered e (((hsame _ hg).episodes e rfl).mpr he) hne
        by_cases hh : HoldsJob l.log j
        · exact ⟨j, (hjobs j hh).mp hj, ho, href⟩
        · exact hgrows.covered (hr.covered _ _ ⟨j, hfrom hj hh, ho, href⟩)
      · have hd := ((h.untouched hg d').episodes e rfl).mp he
        exact hgrows.covered (hinv.jobs.covered e hd fun hz => by cases hz)
    · intro o ho hne hpend
      by_cases hg : store.groupLockKey o.group ∈ l.held
      · obtain ⟨j, hj, how, href, hout⟩ :=
          h.jobs.coveredOutcome o (((hsame _ hg).outcomes o rfl).mpr ho) hne hpend
        by_cases hh : HoldsJob l.log j
        · exact ⟨j, (hjobs j hh).mp hj, how, href, hout⟩
        · exact hgrows.coveredOutcome (hr.coveredOutcome _ _ _ ⟨j, hfrom hj hh, how, href, hout⟩)
      · have hd := ((h.untouched hg d').outcomes o rfl).mp ho
        exact hgrows.coveredOutcome (hinv.jobs.coveredOutcome o hd hne fun hz => by cases hz)
    · intro o ho
      by_cases hg : store.groupLockKey o.group ∈ l.held
      · exact h.jobs.named o (((hsame _ hg).outcomes o rfl).mpr ho)
      · exact hinv.jobs.named o (((h.untouched hg d').outcomes o rfl).mp ho)

/-- A settled transaction may commit. -/
theorem Mid.commits (h : Settled store l d) (hinv : Consistent store d) :
    (intakeRely store).Commits l d := by
  refine ⟨⟨hinv.keys.applyAll l.log, fun g => h.groups g (by simp), h.jobs⟩, fun l' hap => ?_⟩
  refine ⟨fun g hg => ?_, ?_, fun o r hc => h.grows.covered hc,
    fun o r s hc => h.grows.coveredOutcome hc, fun e he => episodes_applyAll l.log he, h.attached⟩
  · exact (h.untouched (fun hmine => hap.locks _ hmine hg) d).symm
  · intro j hj
    obtain ⟨k, hk, hother⟩ := hj
    constructor
    · intro hmem
      refine mem_jobs_of_not_holds l.log hmem fun hp => ?_
      obtain ⟨j', hj', href, hown, hcol, _⟩ := h.grows j hmem
      have hp' : HoldsJobRef l.log j' := by
        unfold HoldsJobRef
        rw [href]
        exact hp
      rcases mem_jobs_applyAll l.log hj' with ⟨_, hall⟩ | ⟨hno, _⟩
      · exact hap.keys k (hall k (jobKeys_congr href hown hcol ▸ hk)) hother
      · exact hno hp'
    · intro hmem
      rcases mem_jobs_applyAll l.log hmem with ⟨_, hall⟩ | ⟨_, hmem⟩
      · exact absurd hother (hap.keys k (hall k hk))
      · exact hmem

end

end ChoraMem
