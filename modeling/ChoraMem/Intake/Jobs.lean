/-
The law of the job queue.

Every Episode is in a job of its owner, every Outcome that has an Episode is in a
job together with it, and every job lists Episodes of its owner, each once, with
only Outcomes of Episodes it lists.  One owner has at most one collecting job.

While a transaction has changed the evidence of a group and not yet enqueued it,
the law holds of its rows but for that group: `JobsOk pending` leaves out the
coverage of the group `pending`.
-/
import Mathlib.Data.List.Induction
import ChoraMem.Intake.Groups

namespace ChoraMem

open Txn

/-! ## Coverage -/

/-- A job of the owner holds the Episode. -/
def Covered (d : Db) (owner : OwnerScope) (episodeRef : String) : Prop :=
  ∃ j ∈ d.jobs, j.owner = owner ∧ episodeRef ∈ j.episodeRefs

/-- A job of the owner holds the Outcome with its Episode. -/
def CoveredOutcome (d : Db) (owner : OwnerScope) (episodeRef outcomeRef : String) : Prop :=
  ∃ j ∈ d.jobs, j.owner = owner ∧ episodeRef ∈ j.episodeRefs ∧ outcomeRef ∈ j.outcomeEventRefs

/-- Outcome rows that have an Episode stay as they are. -/
def AttachedSub (d d' : Db) : Prop := ∀ o ∈ d.outcomes, o.episodeRef ≠ "" → o ∈ d'.outcomes

structure JobRowOk (d : Db) (j : JobRow) : Prop where
  nonempty : j.episodeRefs ≠ []
  nodup : j.episodeRefs.Nodup
  outcomesNodup : j.outcomeEventRefs.Nodup
  named : "" ∉ j.episodeRefs
  episodes : ∀ ref ∈ j.episodeRefs, ∃ e ∈ d.episodes, e.ref = ref ∧ e.group.scope.owner = j.owner
  outcomes : ∀ ref ∈ j.outcomeEventRefs, ∃ o ∈ d.outcomes,
    o.ref = ref ∧ o.group.scope.owner = j.owner ∧ o.episodeRef ∈ j.episodeRefs

structure JobsOk (pending : Option StableGroupRef) (d : Db) : Prop where
  rows : ∀ j ∈ d.jobs, JobRowOk d j
  collecting : ∀ j ∈ d.jobs, ∀ j' ∈ d.jobs, j.collecting → j'.collecting → j.owner = j'.owner → j = j'
  covered : ∀ e ∈ d.episodes, pending ≠ some e.group → Covered d e.group.scope.owner e.ref
  coveredOutcome : ∀ o ∈ d.outcomes, o.episodeRef ≠ "" → pending ≠ some o.group →
    CoveredOutcome d o.group.scope.owner o.episodeRef o.ref
  named : ∀ o ∈ d.outcomes, o.ref ≠ ""

/-- Every job lives on under its ref with at least its refs. -/
def Grows (d d' : Db) : Prop :=
  ∀ j ∈ d.jobs, ∃ j' ∈ d'.jobs, j'.jobRef = j.jobRef ∧ j'.owner = j.owner ∧
    j'.collecting = j.collecting ∧ (∀ ref ∈ j.episodeRefs, ref ∈ j'.episodeRefs) ∧
    ∀ ref ∈ j.outcomeEventRefs, ref ∈ j'.outcomeEventRefs

theorem Grows.refl (d : Db) : Grows d d :=
  fun j hj => ⟨j, hj, rfl, rfl, rfl, fun _ h => h, fun _ h => h⟩

theorem Grows.trans {d d' d'' : Db} (h : Grows d d') (h' : Grows d' d'') : Grows d d'' := by
  intro j hj
  obtain ⟨j', hj', hr, ho, hc, he, hout⟩ := h j hj
  obtain ⟨j'', hj'', hr', ho', hc', he', hout'⟩ := h' j' hj'
  exact ⟨j'', hj'', hr'.trans hr, ho'.trans ho, hc'.trans hc, fun ref h => he' ref (he ref h),
    fun ref h => hout' ref (hout ref h)⟩

theorem Grows.covered {d d' : Db} (h : Grows d d') {owner : OwnerScope} {ref : String} :
    Covered d owner ref → Covered d' owner ref := by
  rintro ⟨j, hj, ho, hr⟩
  obtain ⟨j', hj', _, ho', _, he, _⟩ := h j hj
  exact ⟨j', hj', ho'.trans ho, he ref hr⟩

theorem Grows.coveredOutcome {d d' : Db} (h : Grows d d') {owner : OwnerScope} {ref out : String} :
    CoveredOutcome d owner ref out → CoveredOutcome d' owner ref out := by
  rintro ⟨j, hj, ho, hr, hout⟩
  obtain ⟨j', hj', _, ho', _, he, houts⟩ := h j hj
  exact ⟨j', hj', ho'.trans ho, he ref hr, houts out hout⟩

theorem JobRowOk.mono {d d' : Db} {j : JobRow} (h : JobRowOk d j)
    (he : ∀ e ∈ d.episodes, e ∈ d'.episodes) (ha : AttachedSub d d') : JobRowOk d' j where
  nonempty := h.nonempty
  nodup := h.nodup
  outcomesNodup := h.outcomesNodup
  named := h.named
  episodes := fun ref hr =>
    have ⟨e, hm, hrest⟩ := h.episodes ref hr
    ⟨e, he e hm, hrest⟩
  outcomes := fun ref hr =>
    have ⟨o, hm, href, ho, hep⟩ := h.outcomes ref hr
    ⟨o, ha o hm fun hz => h.named (hz ▸ hep), href, ho, hep⟩

theorem jobsOk_empty (pending : Option StableGroupRef) : JobsOk pending {} where
  rows := fun j hj => by cases hj
  collecting := fun j hj => by cases hj
  covered := fun e he => by cases he
  coveredOutcome := fun o ho => by cases ho
  named := fun o ho => by cases ho

/-! ## Keys -/

/-- The tables whose rows are looked up by key hold each key once. -/
structure KeysOk (d : Db) : Prop where
  episodes : KeysUnique EpisodeRow.group d.episodes
  outcomes : KeysUnique OutcomeRow.key d.outcomes
  jobs : KeysUnique JobRow.jobRef d.jobs

theorem keysOk_empty : KeysOk {} := ⟨List.nodup_nil, List.nodup_nil, List.nodup_nil⟩

theorem KeysOk.apply {d : Db} (h : KeysOk d) (w : Write) : KeysOk (d.apply w) := by
  obtain ⟨he, ho, hj⟩ := h
  cases w with
  | insertEpisode r => exact ⟨he.insertRow r, ho, hj⟩
  | insertOutcome r => exact ⟨he, ho.updateRow r, hj⟩
  | updateOutcome r => exact ⟨he, ho.updateRow r, hj⟩
  | insertJob r => exact ⟨he, ho, hj.updateRow r⟩
  | updateJob r => exact ⟨he, ho, hj.updateRow r⟩
  | _ => exact ⟨he, ho, hj⟩

theorem KeysOk.applyAll {d : Db} (h : KeysOk d) (log : List Write) : KeysOk (applyAll d log) := by
  induction log generalizing d with
  | nil => exact h
  | cons w rest ih => exact ih (h.apply w)

/-! ## Rows a log has written -/

/-- The log holds a unique key of the job. -/
def HoldsJob (log : List Write) (j : JobRow) : Prop := ∃ k ∈ jobKeys j, k ∈ logKeys Db log

/-- The log holds the job's primary key. -/
def HoldsJobRef (log : List Write) (j : JobRow) : Prop :=
  ⟨"consolidation_jobs_pkey", [j.jobRef]⟩ ∈ logKeys Db log

theorem HoldsJobRef.holdsJob {log : List Write} {j : JobRow} (h : HoldsJobRef log j) :
    HoldsJob log j :=
  ⟨_, List.mem_cons_self, h⟩

/-- The job a write puts. -/
def Write.job : Write → Option JobRow
  | .insertJob r | .updateJob r => some r
  | _ => none

theorem rowKeys_of_job {w : Write} {r : JobRow} (h : w.job = some r) : w.rowKeys = jobKeys r := by
  cases w with
  | insertJob r' => cases h; rfl
  | updateJob r' => cases h; rfl
  | _ => cases h

theorem apply_jobs_of_job {w : Write} {r : JobRow} (h : w.job = some r) (d : Db) :
    (d.apply w).jobs = updateRow JobRow.jobRef r d.jobs := by
  cases w with
  | insertJob r' => cases h; rfl
  | updateJob r' => cases h; rfl
  | _ => cases h

theorem apply_jobs_of_none {w : Write} (h : w.job = none) (d : Db) :
    (d.apply w).jobs = d.jobs := by
  cases w with
  | insertJob r' => cases h
  | updateJob r' => cases h
  | _ => rfl

theorem pkey_mem_jobKeys {j r : JobRow}
    (h : (⟨"consolidation_jobs_pkey", [j.jobRef]⟩ : RowKey) ∈ jobKeys r) : j.jobRef = r.jobRef := by
  unfold jobKeys at h
  rcases List.mem_cons.mp h with h | h
  · injection h with _ h
    injection h
  · split at h
    · rw [List.mem_singleton] at h
      injection h with h
      exact absurd h (by decide)
    · cases h

theorem pkey_not_mem_of_none {w : Write} (h : w.job = none) (ref : String) :
    (⟨"consolidation_jobs_pkey", [ref]⟩ : RowKey) ∉ w.rowKeys := by
  cases w with
  | insertJob r' => cases h
  | updateJob r' => cases h
  | _ => simp [Write.rowKeys]

theorem mem_logKeys {log : List Write} {k : RowKey} :
    k ∈ logKeys Db log ↔ ∃ w ∈ log, k ∈ w.rowKeys :=
  List.mem_flatMap

theorem logKeys_append {log more : List Write} {k : RowKey} :
    k ∈ logKeys Db (log ++ more) ↔ k ∈ logKeys Db log ∨ k ∈ logKeys Db more := by
  unfold logKeys
  rw [List.flatMap_append, List.mem_append]

/-- A job of the result was put by the log, which then holds all its keys, or is
an untouched job of the store. -/
theorem mem_jobs_applyAll {d : Db} {j : JobRow} (log : List Write)
    (hj : j ∈ (applyAll d log).jobs) :
    (HoldsJobRef log j ∧ ∀ k ∈ jobKeys j, k ∈ logKeys Db log) ∨ (¬HoldsJobRef log j ∧ j ∈ d.jobs) := by
  induction log using List.reverseRecOn with
  | nil =>
    refine Or.inr ⟨fun h => ?_, hj⟩
    obtain ⟨w, hw, _⟩ := mem_logKeys.mp h
    cases hw
  | append_singleton log w ih =>
    rw [applyAll_append] at hj
    change j ∈ ((applyAll d log).apply w).jobs at hj
    cases hw : w.job with
    | some r =>
      rw [apply_jobs_of_job hw] at hj
      have hkeys : ∀ k ∈ jobKeys r, k ∈ logKeys Db (log ++ [w]) := fun k hk =>
        logKeys_append.mpr (Or.inr (mem_logKeys.mpr ⟨w, List.mem_singleton_self w,
          (rowKeys_of_job hw).symm ▸ hk⟩))
      rcases mem_updateRow.mp hj with ⟨hj, hne⟩ | rfl
      · rcases ih hj with ⟨hm, hk⟩ | ⟨hm, hj⟩
        · exact Or.inl ⟨logKeys_append.mpr (Or.inl hm), fun k h => logKeys_append.mpr (Or.inl (hk k h))⟩
        · refine Or.inr ⟨fun h => ?_, hj⟩
          rcases logKeys_append.mp h with h | h
          · exact hm h
          · obtain ⟨w', hw', hk⟩ := mem_logKeys.mp h
            obtain rfl := List.mem_singleton.mp hw'
            exact hne (pkey_mem_jobKeys (rowKeys_of_job hw ▸ hk))
      · exact Or.inl ⟨hkeys _ List.mem_cons_self, hkeys⟩
    | none =>
      rw [apply_jobs_of_none hw] at hj
      rcases ih hj with ⟨hm, hk⟩ | ⟨hm, hj⟩
      · exact Or.inl ⟨logKeys_append.mpr (Or.inl hm), fun k h => logKeys_append.mpr (Or.inl (hk k h))⟩
      · refine Or.inr ⟨fun h => ?_, hj⟩
        rcases logKeys_append.mp h with h | h
        · exact hm h
        · obtain ⟨w', hw', hk⟩ := mem_logKeys.mp h
          obtain rfl := List.mem_singleton.mp hw'
          exact pkey_not_mem_of_none hw _ hk

/-- A job whose key the log does not hold is still there. -/
theorem mem_jobs_of_not_holds {d : Db} {j : JobRow} (log : List Write) (hj : j ∈ d.jobs)
    (h : ¬HoldsJobRef log j) : j ∈ (applyAll d log).jobs := by
  induction log generalizing d with
  | nil => exact hj
  | cons w rest ih =>
    have hw : (⟨"consolidation_jobs_pkey", [j.jobRef]⟩ : RowKey) ∉ w.rowKeys := fun hk =>
      h (mem_logKeys.mpr ⟨w, List.mem_cons_self, hk⟩)
    have hrest : ¬HoldsJobRef rest j := fun hr =>
      have ⟨w', hw', hk⟩ := mem_logKeys.mp hr
      h (mem_logKeys.mpr ⟨w', List.mem_cons_of_mem _ hw', hk⟩)
    refine ih ?_ hrest
    change j ∈ (d.apply w).jobs
    cases hjob : w.job with
    | some r =>
      rw [apply_jobs_of_job hjob]
      refine mem_updateRow.mpr (Or.inl ⟨hj, fun hne => hw ?_⟩)
      rw [rowKeys_of_job hjob, hne]
      exact List.mem_cons_self
    | none =>
      rw [apply_jobs_of_none hjob]
      exact hj

/-- Two stores that agree on the jobs whose keys the log holds agree on them after
the log. -/
theorem sameJobs_applyAll {d d' : Db} {p : JobRow → Prop}
    (h : SameRows p d.jobs d'.jobs) (log : List Write) :
    SameRows p (applyAll d log).jobs (applyAll d' log).jobs := by
  induction log generalizing d d' with
  | nil => exact h
  | cons w rest ih =>
    refine ih ?_
    change SameRows p (d.apply w).jobs (d'.apply w).jobs
    cases hjob : w.job with
    | some r =>
      rw [apply_jobs_of_job hjob, apply_jobs_of_job hjob]
      exact h.updateRow r
    | none =>
      rw [apply_jobs_of_none hjob, apply_jobs_of_none hjob]
      exact h

end ChoraMem
