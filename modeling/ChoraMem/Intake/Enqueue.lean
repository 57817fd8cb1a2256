/-
The walk through the enqueue.

Joining evidence to the collecting job reads the job for update, so from then on
the transaction holds the job's keys and nobody changes it.  Afterwards one job of
the owner holds the Episode with all the Outcomes that were passed.
-/
import ChoraMem.Intake.Emits
import ChoraMem.Intake.Materialize

namespace ChoraMem

open Txn

/-! ## Appending refs -/

theorem prefix_foldl_appendRef (existing added : List String) :
    existing <+: added.foldl
      (fun acc ref => if ref == "" || acc.contains ref then acc else acc ++ [ref]) existing := by
  induction added generalizing existing with
  | nil => exact List.prefix_refl _
  | cons ref rest ih =>
    rw [List.foldl_cons]
    by_cases h : (ref == "" || existing.contains ref) = true
    · rw [if_pos h]
      exact ih existing
    · rw [if_neg h]
      exact (List.prefix_append existing [ref]).trans (ih _)

theorem mem_appendUniqueRefs {existing added : List String} {x : String} :
    x ∈ (appendUniqueRefs existing added).1 ↔ x ∈ existing ∨ (x ∈ added ∧ x ≠ "") := by
  unfold appendUniqueRefs
  induction added generalizing existing with
  | nil => simp
  | cons ref rest ih =>
    simp only [List.foldl_cons] at ih ⊢
    rw [ih]
    by_cases h : (ref == "" || existing.contains ref) = true
    · rw [if_pos h]
      simp only [Bool.or_eq_true, beq_iff_eq, List.contains_iff_mem] at h
      constructor
      · rintro (hx | ⟨hx, hne⟩)
        · exact Or.inl hx
        · exact Or.inr ⟨List.mem_cons_of_mem _ hx, hne⟩
      · rintro (hx | ⟨hx, hne⟩)
        · exact Or.inl hx
        · rcases List.mem_cons.mp hx with rfl | hx
          · exact Or.inl (h.resolve_left hne)
          · exact Or.inr ⟨hx, hne⟩
    · rw [if_neg h]
      simp only [Bool.or_eq_true, beq_iff_eq, List.contains_iff_mem, not_or] at h
      rw [List.mem_append, List.mem_singleton]
      constructor
      · rintro ((hx | rfl) | ⟨hx, hne⟩)
        · exact Or.inl hx
        · exact Or.inr ⟨List.mem_cons_self, h.1⟩
        · exact Or.inr ⟨List.mem_cons_of_mem _ hx, hne⟩
      · rintro (hx | ⟨hx, hne⟩)
        · exact Or.inl (Or.inl hx)
        · rcases List.mem_cons.mp hx with rfl | hx
          · exact Or.inl (Or.inr rfl)
          · exact Or.inr ⟨hx, hne⟩

theorem nodup_appendUniqueRefs {existing added : List String} (h : existing.Nodup) :
    (appendUniqueRefs existing added).1.Nodup := by
  unfold appendUniqueRefs
  induction added generalizing existing with
  | nil => exact h
  | cons ref rest ih =>
    simp only [List.foldl_cons] at ih ⊢
    by_cases hc : (ref == "" || existing.contains ref) = true
    · rw [if_pos hc]
      exact ih h
    · rw [if_neg hc]
      simp only [Bool.or_eq_true, beq_iff_eq, List.contains_iff_mem, not_or] at hc
      exact ih (List.nodup_append.mpr ⟨h, List.nodup_singleton _, fun a ha b hb hab =>
        hc.2 (by rw [← List.mem_singleton.mp hb, ← hab]; exact ha)⟩)

/-- Nothing changed means that every named ref was there. -/
theorem appendUniqueRefs_unchanged {existing added : List String}
    (h : (appendUniqueRefs existing added).2 = false) : ∀ x ∈ added, x ≠ "" → x ∈ existing := by
  have heq : (appendUniqueRefs existing added).1 = existing := by
    refine ((prefix_foldl_appendRef existing added).eq_of_length ?_).symm
    simpa [appendUniqueRefs] using Eq.symm (by simpa [appendUniqueRefs] using h)
  intro x hx hne
  rw [← heq]
  exact mem_appendUniqueRefs.mpr (Or.inr ⟨hx, hne⟩)

/-! ## Putting a job -/

section

variable {store : Store} {opened pending : Option StableGroupRef}
variable {l : Local Write String} {d d' : Db}

/-- A job is put in place of one that it extends, or as the one collecting job of
its owner. -/
theorem Mid.putJob (h : Mid store opened pending l d) {w : Write} {r : JobRow}
    (hw : w.job = some r) (hok : JobRowOk (applyAll d l.log) r)
    (hold : ∀ j ∈ (applyAll d l.log).jobs, j.jobRef = r.jobRef → r.owner = j.owner ∧
      r.collecting = j.collecting ∧ (∀ ref ∈ j.episodeRefs, ref ∈ r.episodeRefs) ∧
      ∀ ref ∈ j.outcomeEventRefs, ref ∈ r.outcomeEventRefs)
    (hcol : ∀ j ∈ (applyAll d l.log).jobs, j.jobRef ≠ r.jobRef → j.collecting → r.collecting →
      j.owner ≠ r.owner) :
    Mid store opened pending { l with log := l.log ++ [w] } d ∧
      r ∈ (applyAll d (l.log ++ [w])).jobs ∧ HoldsJob (l.log ++ [w]) r := by
  have hD : applyAll d (l.log ++ [w]) = (applyAll d l.log).apply w := applyAll_append d l.log [w]
  have hgroup : w.group = none := by
    cases w with
    | insertJob r' => rfl
    | updateJob r' => rfl
    | _ => cases hw
  have hjobs := apply_jobs_of_job hw (applyAll d l.log)
  have htables : ((applyAll d l.log).apply w).episodes = (applyAll d l.log).episodes ∧
      ((applyAll d l.log).apply w).outcomes = (applyAll d l.log).outcomes := by
    cases w with
    | insertJob r' => exact ⟨rfl, rfl⟩
    | updateJob r' => exact ⟨rfl, rfl⟩
    | _ => cases hw
  obtain ⟨he, ho⟩ := htables
  have hgrows : Grows (applyAll d l.log) ((applyAll d l.log).apply w) := by
    intro j hj
    rw [hjobs]
    by_cases hk : j.jobRef = r.jobRef
    · obtain ⟨h1, h2, h3, h4⟩ := hold j hj hk
      exact ⟨r, self_mem_updateRow, hk.symm, h1, h2, h3, h4⟩
    · exact ⟨j, mem_updateRow.mpr (Or.inl ⟨hj, hk⟩), rfl, rfl, rfl, fun _ h => h, fun _ h => h⟩
  refine ⟨⟨fun w' hw' g hg => ?_, h.openLocked, fun g hg => ?_, ?_, ?_, ?_⟩, ?_, ?_⟩
  · rcases List.mem_append.mp hw' with hw' | hw'
    · exact h.locked w' hw' g hg
    · rw [List.mem_singleton.mp hw', hgroup] at hg
      cases hg
  · rw [hD]
    refine (h.groups g hg).congr (sameGroup_apply _ ?_).symm
    rw [hgroup]
    exact fun hz => by cases hz
  · rw [hD]
    refine ⟨fun j hj => ?_, fun j hj j' hj' hc hc' how => ?_, fun e hm hp => ?_,
      fun o hm hz hp => ?_, fun o hm => h.jobs.named o (ho ▸ hm)⟩
    · have hmono : ∀ {x : JobRow}, JobRowOk (applyAll d l.log) x →
          JobRowOk ((applyAll d l.log).apply w) x := fun hx =>
        hx.mono (fun e hm => he ▸ hm) fun o hm _ => ho ▸ hm
      rw [hjobs] at hj
      rcases mem_updateRow.mp hj with ⟨hj, _⟩ | rfl
      · exact hmono (h.jobs.rows j hj)
      · exact hmono hok
    · rw [hjobs] at hj hj'
      rcases mem_updateRow.mp hj with ⟨hm, hk⟩ | rfl <;>
        rcases mem_updateRow.mp hj' with ⟨hm', hk'⟩ | rfl
      · exact h.jobs.collecting j hm j' hm' hc hc' how
      · exact absurd how (hcol j hm hk hc hc')
      · exact absurd how.symm (hcol j' hm' hk' hc' hc)
      · rfl
    · exact hgrows.covered (h.jobs.covered e (he ▸ hm) hp)
    · exact hgrows.coveredOutcome (h.jobs.coveredOutcome o (ho ▸ hm) hz hp)
  · rw [hD]
    exact h.grows.trans hgrows
  · rw [hD]
    exact fun o hm hne => ho ▸ h.attached o hm hne
  · rw [hD, hjobs]
    exact self_mem_updateRow
  · exact ⟨_, List.mem_cons_self, logKeys_append.mpr (Or.inr (mem_logKeys.mpr
      ⟨w, List.mem_singleton_self w, (rowKeys_of_job hw).symm ▸ List.mem_cons_self⟩))⟩

end

/-! ## The evidence of one Episode -/

/-- The Episode and the Outcomes are rows of the owner. -/
structure Evidence (owner : OwnerScope) (ref : String) (outcomes : List String) (d : Db) : Prop where
  named : ref ≠ ""
  episode : ∃ e ∈ d.episodes, e.ref = ref ∧ e.group.scope.owner = owner
  outcomes : ∀ out ∈ outcomes, ∃ o ∈ d.outcomes,
    o.ref = out ∧ o.group.scope.owner = owner ∧ o.episodeRef = ref

/-- A held job of the owner has the evidence. -/
def Joined (owner : OwnerScope) (ref : String) (outcomes : List String) (l : Local Write String)
    (d : Db) : Prop :=
  ∃ j ∈ (applyAll d l.log).jobs, HoldsJob l.log j ∧ j.owner = owner ∧ ref ∈ j.episodeRefs ∧
    ∀ out ∈ outcomes, out ∈ j.outcomeEventRefs

section

variable {store : Store} {pending : Option StableGroupRef} {l : Local Write String} {d d' : Db}
variable {owner : OwnerScope} {ref : String} {outcomes : List String}

theorem Evidence.later (h : Evidence owner ref outcomes (applyAll d l.log))
    (hm : Mid store none pending l d) (hl : (intakeRely store).Later l d d') :
    Evidence owner ref outcomes (applyAll d' l.log) := by
  refine ⟨h.named, ?_, fun out hout => ?_⟩
  · obtain ⟨e, he, hrest⟩ := h.episode
    exact ⟨e, hm.episodes_later hl he, hrest⟩
  · obtain ⟨o, ho, href, how, hep⟩ := h.outcomes out hout
    exact ⟨o, hm.attached_later hl o ho (hep ▸ h.named), href, how, hep⟩

theorem Joined.later (h : Joined owner ref outcomes l d) (hl : (intakeRely store).Later l d d') :
    Joined owner ref outcomes l d' := by
  obtain ⟨j, hj, hh, hrest⟩ := h
  exact ⟨j, Mid.job_later hl hj hh, hh, hrest⟩

theorem Evidence.outcome_named (h : Evidence owner ref outcomes d) (hj : JobsOk pending d)
    {out : String} (hout : out ∈ outcomes) : out ≠ "" := by
  obtain ⟨o, ho, rfl, _⟩ := h.outcomes out hout
  exact hj.named o ho

/-- A job of the owner may take the evidence in. -/
theorem JobRowOk.join (h : Evidence owner ref outcomes d) {j : JobRow} (hj : JobRowOk d j)
    (ho : j.owner = owner) {j' : JobRow} (ho' : j'.owner = j.owner)
    (he : j'.episodeRefs = (appendUniqueRefs j.episodeRefs [ref]).1)
    (hout : j'.outcomeEventRefs = (appendUniqueRefs j.outcomeEventRefs outcomes).1) :
    JobRowOk d j' where
  nonempty := fun hz => by
    have hm : ref ∈ j'.episodeRefs :=
      he ▸ mem_appendUniqueRefs.mpr (Or.inr ⟨List.mem_singleton_self ref, h.named⟩)
    rw [hz] at hm
    cases hm
  nodup := he ▸ nodup_appendUniqueRefs hj.nodup
  outcomesNodup := hout ▸ nodup_appendUniqueRefs hj.outcomesNodup
  named := fun hm => by
    rw [he] at hm
    rcases mem_appendUniqueRefs.mp hm with hm | ⟨_, hne⟩
    · exact hj.named hm
    · exact hne rfl
  episodes := fun x hx => by
    rw [he] at hx
    rcases mem_appendUniqueRefs.mp hx with hx | ⟨hx, _⟩
    · rw [ho']
      exact hj.episodes x hx
    · rw [List.mem_singleton.mp hx, ho', ho]
      exact h.episode
  outcomes := fun x hx => by
    rw [hout] at hx
    rcases mem_appendUniqueRefs.mp hx with hx | ⟨hx, _⟩
    · obtain ⟨o, hm, href, how, hep⟩ := hj.outcomes x hx
      exact ⟨o, hm, href, how.trans ho'.symm, he ▸ mem_appendUniqueRefs.mpr (Or.inl hep)⟩
    · obtain ⟨o, hm, href, how, hep⟩ := h.outcomes x hx
      refine ⟨o, hm, href, how.trans (ho'.trans ho).symm, ?_⟩
      rw [he, hep]
      exact mem_appendUniqueRefs.mpr (Or.inr ⟨List.mem_singleton_self ref, h.named⟩)

/-- Extending the held collecting job of the owner. -/
theorem extendCollectingJob_safe (h : Mid store none pending l d)
    (hev : Evidence owner ref outcomes (applyAll d l.log)) {j : JobRow}
    (hj : j ∈ (applyAll d l.log).jobs) (hh : HoldsJob l.log j) (ho : j.owner = owner)
    (hc : j.collecting) (env : Ambient) :
    (intakeRely store).Safe
      (extendCollectingJob env j.jobRef (appendUniqueRefs j.episodeRefs [ref]).1
        (appendUniqueRefs j.outcomeEventRefs outcomes).1)
      (fun _ l' d' => Mid store none pending l' d' ∧ Joined owner ref outcomes l' d') l d := by
  intro d₁ h₁
  have hmid := h.later h₁
  have hev₁ := hev.later h h₁
  have hj₁ := Mid.job_later h₁ hj hh
  have hrows : updateJobs (fun x => decide (x.jobRef = j.jobRef))
      (JobRow.extend env (appendUniqueRefs j.episodeRefs [ref]).1
        (appendUniqueRefs j.outcomeEventRefs outcomes).1) (applyAll d₁ l.log) =
      [Write.updateJob (j.extend env (appendUniqueRefs j.episodeRefs [ref]).1
        (appendUniqueRefs j.outcomeEventRefs outcomes).1)] := by
    unfold updateJobs
    rw [filter_key (h₁.2.keys.applyAll l.log).jobs hj₁]
    rfl
  have hkeys := h₁.2.keys.applyAll l.log
  have hput := hmid.putJob (w := .updateJob (j.extend env (appendUniqueRefs j.episodeRefs [ref]).1
      (appendUniqueRefs j.outcomeEventRefs outcomes).1)) rfl
    (JobRowOk.join hev₁ (hmid.jobs.rows j hj₁) ho rfl rfl rfl)
    (fun j' hj' href => by
      obtain rfl : j' = j := hkeys.jobs.eq hj' hj₁ href
      exact ⟨rfl, rfl, fun x hx => mem_appendUniqueRefs.mpr (Or.inl hx),
        fun x hx => mem_appendUniqueRefs.mpr (Or.inl hx)⟩)
    (fun j' hj' hne hc' _ how => hne (by
      rw [hmid.jobs.collecting j' hj' j hj₁ hc' hc how]
      rfl))
  have hjoined : Joined owner ref outcomes ⟨l.held, l.log ++ [Write.updateJob
      (j.extend env (appendUniqueRefs j.episodeRefs [ref]).1
        (appendUniqueRefs j.outcomeEventRefs outcomes).1)]⟩ d₁ :=
    ⟨_, hput.2.1, hput.2.2, ho,
      mem_appendUniqueRefs.mpr (Or.inr ⟨List.mem_singleton_self ref, hev.named⟩),
      fun out hout => mem_appendUniqueRefs.mpr (Or.inr ⟨hout, hev₁.outcome_named hmid.jobs hout⟩)⟩
  rw [hrows]
  exact fun d₂ h₂ => ⟨hput.1.later h₂, hjoined.later h₂⟩

theorem collectingJob_some {d : Db} {j : JobRow} (h : collectingJob owner d = some j) :
    j ∈ d.jobs ∧ j.owner = owner ∧ j.collecting = true := by
  have hp := List.find?_some h
  simp only [Bool.and_eq_true, decide_eq_true_eq] at hp
  exact ⟨List.mem_of_find?_eq_some h, hp.1, hp.2⟩

/-- Reading a job for update takes its keys and changes nothing. -/
theorem Mid.touch (h : Mid store none pending l d) (hk : KeysOk d) {j : JobRow}
    (hj : j ∈ (applyAll d l.log).jobs) :
    Mid store none pending { l with log := l.log ++ [Write.updateJob j] } d ∧
      j ∈ (applyAll d (l.log ++ [Write.updateJob j])).jobs ∧
      HoldsJob (l.log ++ [Write.updateJob j]) j ∧
      ∀ owner ref outcomes, Evidence owner ref outcomes (applyAll d l.log) →
        Evidence owner ref outcomes (applyAll d (l.log ++ [Write.updateJob j])) := by
  have hD : applyAll d (l.log ++ [Write.updateJob j]) = applyAll d l.log := by
    rw [applyAll_append]
    change { applyAll d l.log with jobs := updateRow JobRow.jobRef j (applyAll d l.log).jobs } = _
    rw [updateRow_self (hk.applyAll l.log).jobs hj]
  have hput := h.putJob (w := .updateJob j) rfl (h.jobs.rows j hj)
    (fun j' hj' href => by
      obtain rfl : j' = j := (hk.applyAll l.log).jobs.eq hj' hj href
      exact ⟨rfl, rfl, fun _ hx => hx, fun _ hx => hx⟩)
    (fun j' hj' hne hc' hc how => hne (congrArg JobRow.jobRef
      (h.jobs.collecting j' hj' j hj hc' hc how)))
  exact ⟨hput.1, hput.2.1, hput.2.2, fun _ _ _ hev => hD.symm ▸ hev⟩

/-- A held collecting job that has the evidence already. -/
theorem Joined.of_unchanged (hev : Evidence owner ref outcomes (applyAll d l.log))
    (hjobs : JobsOk pending (applyAll d l.log)) {j : JobRow} (hj : j ∈ (applyAll d l.log).jobs)
    (hh : HoldsJob l.log j) (ho : j.owner = owner)
    (he : (appendUniqueRefs j.episodeRefs [ref]).2 = false)
    (hout : (appendUniqueRefs j.outcomeEventRefs outcomes).2 = false) :
    Joined owner ref outcomes l d :=
  ⟨j, hj, hh, ho, appendUniqueRefs_unchanged he ref (List.mem_singleton_self ref) hev.named,
    fun out hm => appendUniqueRefs_unchanged hout out hm (hev.outcome_named hjobs hm)⟩

theorem joinCollectingJob_safe (h : Mid store none pending l d)
    (hev : Evidence owner ref outcomes (applyAll d l.log)) {j : JobRow}
    (hj : j ∈ (applyAll d l.log).jobs) (hh : HoldsJob l.log j) (ho : j.owner = owner)
    (hc : j.collecting) (env : Ambient) :
    (intakeRely store).Safe (joinCollectingJob env j [ref] outcomes)
      (fun _ l' d' => Mid store none pending l' d' ∧ Joined owner ref outcomes l' d') l d := by
  unfold joinCollectingJob
  by_cases hsame : (!(appendUniqueRefs j.episodeRefs [ref]).2 &&
      !(appendUniqueRefs j.outcomeEventRefs outcomes).2) = true
  · rw [if_pos hsame]
    simp only [Bool.and_eq_true, Bool.not_eq_true'] at hsame
    have hjoined := Joined.of_unchanged hev h.jobs hj hh ho hsame.1 hsame.2
    exact fun d₁ h₁ => ⟨h.later h₁, hjoined.later h₁⟩
  · rw [if_neg hsame]
    exact extendCollectingJob_safe h hev hj hh ho hc env

/-- The first collecting job of an owner. -/
theorem newJob_ok (hev : Evidence owner ref outcomes d) (env : Ambient)
    (order : Nat) (jobRef : String) :
    JobRowOk d (newJob env order jobRef owner (appendUniqueRefs [] [ref]).1
      (appendUniqueRefs [] outcomes).1) where
  nonempty := fun hz => by
    have hm : ref ∈ (appendUniqueRefs [] [ref]).1 :=
      mem_appendUniqueRefs.mpr (Or.inr ⟨List.mem_singleton_self ref, hev.named⟩)
    rw [show (appendUniqueRefs [] [ref]).1 = [] from hz] at hm
    cases hm
  nodup := nodup_appendUniqueRefs List.nodup_nil
  outcomesNodup := nodup_appendUniqueRefs List.nodup_nil
  named := fun hm => by
    rcases mem_appendUniqueRefs.mp hm with hm | ⟨_, hne⟩
    · cases hm
    · exact hne rfl
  episodes := fun x hx => by
    rcases mem_appendUniqueRefs.mp hx with hx | ⟨hx, _⟩
    · cases hx
    · rw [List.mem_singleton.mp hx]
      exact hev.episode
  outcomes := fun x hx => by
    rcases mem_appendUniqueRefs.mp hx with hx | ⟨hx, _⟩
    · cases hx
    · obtain ⟨o, hm, href, how, hep⟩ := hev.outcomes x hx
      refine ⟨o, hm, href, how, ?_⟩
      rw [hep]
      exact mem_appendUniqueRefs.mpr (Or.inr ⟨List.mem_singleton_self ref, hev.named⟩)

/-- After the enqueue a held job of the owner has the evidence. -/
theorem enqueueConsolidationEvidence_safe {scope : Scope} (h : Mid store none pending l d)
    (hev : Evidence scope.owner ref outcomes (applyAll d l.log)) (env : Ambient) :
    (intakeRely store).Safe (store.enqueueConsolidationEvidence env scope [ref] outcomes)
      (fun _ l' d' => Mid store none pending l' d' ∧ Joined scope.owner ref outcomes l' d') l d := by
  unfold Store.enqueueConsolidationEvidence
  rw [if_neg (by simp)]
  refine Rely.Safe.acquire fun d₁ h₁ => ?_
  have hmid₁ := (h.later h₁).hold (store.consolidationCollectionLockKey scope.owner)
  have hev₁ : Evidence scope.owner ref outcomes (applyAll d₁ l.log) := hev.later h h₁
  refine Rely.Safe.statement fun d₂ h₂ => ?_
  have hmid₂ := hmid₁.later h₂
  have hev₂ : Evidence scope.owner ref outcomes (applyAll d₂ l.log) :=
    Evidence.later (l := ⟨_ :: l.held, l.log⟩) hev₁ hmid₁ h₂
  cases hstored : collectingJob scope.owner (applyAll d₂ l.log) with
  | some j =>
    obtain ⟨hj, ho, hc⟩ := collectingJob_some hstored
    obtain ⟨hmid₃, hj₃, hh₃, hkeep⟩ := hmid₂.touch h₂.2.keys hj
    have hev₃ := hkeep _ _ _ hev₂
    have hnonempty : j.episodeRefs.isEmpty = false :=
      List.isEmpty_eq_false_iff.mpr (hmid₂.jobs.rows j hj).nonempty
    simp only [touchJob, Option.map_some, Option.getD_some, hnonempty, Bool.false_eq_true, if_false]
    exact joinCollectingJob_safe hmid₃ hev₃ hj₃ hh₃ ho hc env
  | none =>
    have hchanged : (appendUniqueRefs [] [ref]).2 = true := by
      by_contra hno
      have hm := appendUniqueRefs_unchanged (Bool.eq_false_iff.mpr hno) ref
        (List.mem_singleton_self ref) hev.named
      cases hm
    simp only [touchJob, Option.map_none, Option.getD_none, hchanged, Bool.not_true, Bool.false_and,
      Bool.false_eq_true, if_false, List.isEmpty_nil, if_true, List.append_nil]
    refine Rely.Safe.statement fun d₃ h₃ => ?_
    have hmid₃ := hmid₂.later h₃
    have hev₃ : Evidence scope.owner ref outcomes (applyAll d₃ l.log) :=
      Evidence.later (l := ⟨_ :: l.held, l.log⟩) hev₂ hmid₂ h₃
    set row := newJob env env.jobOrder env.jobRef scope.owner (appendUniqueRefs [] [ref]).1
      (appendUniqueRefs [] outcomes).1
    cases hconflict : jobConflict env.jobRef scope.owner (applyAll d₃ l.log) with
    | false =>
      have hrow : newCollectingJob row (applyAll d₃ l.log) = [Write.insertJob row] := by
        unfold newCollectingJob
        rw [if_neg]
        rw [Bool.not_eq_true]
        exact hconflict
      have hfree := List.any_eq_false.mp hconflict
      simp only [Bool.or_eq_true, decide_eq_true_eq, Bool.and_eq_true, not_or, not_and] at hfree
      have hput := hmid₃.putJob (w := .insertJob row) rfl
        (newJob_ok hev₃ env env.jobOrder env.jobRef)
        (fun j hj href => absurd href (hfree j hj).1)
        (fun j hj _ hc _ how => absurd hc ((hfree j hj).2 how))
      have hjoined : Joined scope.owner ref outcomes
          ⟨store.consolidationCollectionLockKey scope.owner :: l.held,
            l.log ++ [Write.insertJob row]⟩ d₃ :=
        ⟨row, hput.2.1, hput.2.2, rfl,
          mem_appendUniqueRefs.mpr (Or.inr ⟨List.mem_singleton_self ref, hev.named⟩),
          fun out hout => mem_appendUniqueRefs.mpr
            (Or.inr ⟨hout, hev₃.outcome_named hmid₃.jobs hout⟩)⟩
      rw [hrow]
      exact fun d₄ h₄ => ⟨hput.1.later h₄, hjoined.later h₄⟩
    | true =>
      have hrow : newCollectingJob row (applyAll d₃ l.log) = [] := if_pos hconflict
      rw [hrow, List.append_nil]
      simp only [Bool.not_true, Bool.false_eq_true, if_false]
      refine Rely.Safe.statement fun d₄ h₄ => ?_
      have hmid₄ := hmid₃.later h₄
      have hev₄ : Evidence scope.owner ref outcomes (applyAll d₄ l.log) :=
        Evidence.later (l := ⟨_ :: l.held, l.log⟩) hev₃ hmid₃ h₄
      cases hjoin : collectingJob scope.owner (applyAll d₄ l.log) with
      | none => exact trivial
      | some j =>
        obtain ⟨hj, ho, hc⟩ := collectingJob_some hjoin
        obtain ⟨hmid₅, hj₅, hh₅, hkeep⟩ := hmid₄.touch h₄.2.keys hj
        exact joinCollectingJob_safe hmid₅ (hkeep _ _ _ hev₄) hj₅ hh₅ ho hc env

end

/-! ## Outcomes a transaction has written -/

/-- The log puts the row, whatever the store. -/
def Written (o : OutcomeRow) (log : List Write) : Prop := ∀ v : Db, o ∈ (applyAll v log).outcomes

theorem written_or_committed {d : Db} {log : List Write} {o : OutcomeRow}
    (h : o ∈ (applyAll d log).outcomes) : Written o log ∨ o ∈ d.outcomes := by
  induction log using List.reverseRecOn with
  | nil => exact Or.inr h
  | append_singleton log w ih =>
    have hstep : ∀ v : Db, (applyAll v (log ++ [w])).outcomes = ((applyAll v log).apply w).outcomes :=
      fun v => congrArg Db.outcomes (applyAll_append v log [w])
    have hput : ∀ r : OutcomeRow, (∀ v : Db, (v.apply w).outcomes = updateRow OutcomeRow.key r v.outcomes) →
        Written o (log ++ [w]) ∨ o ∈ d.outcomes := by
      intro r hr
      rw [hstep, hr] at h
      rcases mem_updateRow.mp h with ⟨h, hne⟩ | rfl
      · refine (ih h).imp (fun hw v => ?_) id
        rw [hstep, hr]
        exact mem_updateRow.mpr (Or.inl ⟨hw v, hne⟩)
      · refine Or.inl fun v => ?_
        rw [hstep, hr]
        exact self_mem_updateRow
    have hkeep : (∀ v : Db, (v.apply w).outcomes = v.outcomes) →
        Written o (log ++ [w]) ∨ o ∈ d.outcomes := by
      intro hr
      rw [hstep, hr] at h
      exact (ih h).imp (fun hw v => by rw [hstep, hr]; exact hw v) id
    cases w with
    | insertOutcome r => exact hput r fun _ => rfl
    | updateOutcome r => exact hput r fun _ => rfl
    | _ => exact hkeep fun _ => rfl

theorem groupless_tables {ws : List Write} (h : ∀ w ∈ ws, w.group = none) (d : Db) :
    (applyAll d ws).episodes = d.episodes ∧ (applyAll d ws).links = d.links ∧
      (applyAll d ws).outcomes = d.outcomes := by
  induction ws generalizing d with
  | nil => exact ⟨rfl, rfl, rfl⟩
  | cons w rest ih =>
    obtain ⟨he, hl, ho⟩ := ih (fun w hw => h w (List.mem_cons_of_mem _ hw)) (d.apply w)
    have hw := h w List.mem_cons_self
    cases w with
    | insertEpisode r => cases hw
    | insertLink r => cases hw
    | updateLink r => cases hw
    | insertOutcome r => cases hw
    | updateOutcome r => cases hw
    | _ => exact ⟨he, hl, ho⟩

theorem Written.of_append {o : OutcomeRow} {log more : List Write}
    (hmore : ∀ w ∈ more, w.group = none) (h : Written o (log ++ more)) : Written o log := by
  intro v
  have hv := h v
  rwa [applyAll_append, (groupless_tables hmore _).2.2] at hv

theorem AttachedSub.applyAll {v d : Db} (h : AttachedSub v d) (log : List Write) :
    AttachedSub (applyAll v log) (applyAll d log) := by
  induction log generalizing v d with
  | nil => exact h
  | cons w rest ih =>
    refine ih (v := v.apply w) (d := d.apply w) fun o ho hne => ?_
    have hput : ∀ r : OutcomeRow, o ∈ updateRow OutcomeRow.key r v.outcomes →
        o ∈ updateRow OutcomeRow.key r d.outcomes := fun r hr =>
      mem_updateRow.mpr ((mem_updateRow.mp hr).imp (fun hx => ⟨h o hx.1 hne, hx.2⟩) id)
    cases w with
    | insertOutcome r => exact hput r ho
    | updateOutcome r => exact hput r ho
    | _ => exact h o ho hne

end ChoraMem
