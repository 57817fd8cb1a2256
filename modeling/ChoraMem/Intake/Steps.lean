/-
What single statements do to the middle of a transaction.

Statements that write none of the group and job tables change nothing that `Mid`
speaks of.  Under the lock of a group the group may be opened, written, and closed
again once its law holds.
-/
import ChoraMem.Intake.Rely

namespace ChoraMem

open Txn

/-- The write touches neither a group nor a job. -/
def Write.Inert (w : Write) : Prop := w.group = none ∧ w.job = none

theorem Write.Inert.tables {w : Write} (h : w.Inert) (d : Db) :
    (d.apply w).episodes = d.episodes ∧ (d.apply w).links = d.links ∧
      (d.apply w).outcomes = d.outcomes ∧ (d.apply w).jobs = d.jobs := by
  obtain ⟨hg, hj⟩ := h
  cases w with
  | insertEpisode r => cases hg
  | insertLink r => cases hg
  | updateLink r => cases hg
  | insertOutcome r => cases hg
  | updateOutcome r => cases hg
  | insertJob r => cases hj
  | updateJob r => cases hj
  | _ => exact ⟨rfl, rfl, rfl, rfl⟩

theorem inert_tables {ws : List Write} (h : ∀ w ∈ ws, w.Inert) (d : Db) :
    (applyAll d ws).episodes = d.episodes ∧ (applyAll d ws).links = d.links ∧
      (applyAll d ws).outcomes = d.outcomes ∧ (applyAll d ws).jobs = d.jobs := by
  induction ws generalizing d with
  | nil => exact ⟨rfl, rfl, rfl, rfl⟩
  | cons w rest ih =>
    obtain ⟨he, hl, ho, hj⟩ := ih (fun w hw => h w (List.mem_cons_of_mem _ hw)) (d.apply w)
    obtain ⟨he', hl', ho', hj'⟩ := (h w List.mem_cons_self).tables d
    exact ⟨he.trans he', hl.trans hl', ho.trans ho', hj.trans hj'⟩

/-! ## The queue under group writes -/

theorem Grows.of_jobs_eq {d d' : Db} (h : d'.jobs = d.jobs) : Grows d d' :=
  fun j hj => ⟨j, h ▸ hj, rfl, rfl, rfl, fun _ h => h, fun _ h => h⟩

/-- Rows that join the store belong to the pending group. -/
theorem JobsOk.extend {pending : Option StableGroupRef} {d d' : Db} (h : JobsOk pending d) (hj : d'.jobs = d.jobs)
    (he : ∀ e ∈ d.episodes, e ∈ d'.episodes) (ha : AttachedSub d d')
    (hne : ∀ e ∈ d'.episodes, e ∈ d.episodes ∨ pending = some e.group)
    (hno : ∀ o ∈ d'.outcomes, o ∈ d.outcomes ∨
      ((o.episodeRef = "" ∨ pending = some o.group) ∧ o.ref ≠ "")) : JobsOk pending d' where
  rows := fun j hm => (h.rows j (hj ▸ hm)).mono he ha
  collecting := fun j hm j' hm' => h.collecting j (hj ▸ hm) j' (hj ▸ hm')
  covered := fun e hm hp =>
    (hne e hm).elim (fun hd => (Grows.of_jobs_eq hj).covered (h.covered e hd hp)) fun hr => absurd hr hp
  coveredOutcome := fun o hm hz hp =>
    (hno o hm).elim (fun hd => (Grows.of_jobs_eq hj).coveredOutcome (h.coveredOutcome o hd hz hp))
      fun hr => hr.1.elim (fun hr => absurd hr hz) fun hr => absurd hr hp
  named := fun o hm => (hno o hm).elim (h.named o) And.right

/-- A queue that covers every group covers all but one. -/
theorem JobsOk.pend {d : Db} (h : JobsOk none d) (pending : Option StableGroupRef) :
    JobsOk pending d where
  rows := h.rows
  collecting := h.collecting
  covered := fun e he _ => h.covered e he fun hz => by cases hz
  coveredOutcome := fun o ho hz _ => h.coveredOutcome o ho hz fun hn => by cases hn
  named := h.named

/-- An insert that found its keys free. -/
theorem insertFresh_safe {r : Rely Db Write String} {taken : Db → Bool} {w : Write}
    {operation : String} {Q : Unit → Local Write String → Db → Prop} {l : Local Write String} {d : Db}
    (h : ∀ d₁, r.Later l d d₁ → taken (applyAll d₁ l.log) = false →
      ∀ d₂, r.Later { l with log := l.log ++ [w] } d₁ d₂ → Q () { l with log := l.log ++ [w] } d₂) :
    r.Safe (insertFresh taken w operation) Q l d := by
  intro d₁ h₁
  cases hfree : taken (applyAll d₁ l.log) with
  | true =>
    simp only [hfree, if_true]
    exact trivial
  | false =>
    simp only [hfree, Bool.false_eq_true, if_false]
    exact h d₁ h₁ hfree

section

variable {store : Store} {opened pending : Option StableGroupRef}
variable {l : Local Write String} {d : Db} {ws : List Write} {g : StableGroupRef}

theorem Mid.inert (h : Mid store opened pending l d) (hws : ∀ w ∈ ws, w.Inert) :
    Mid store opened pending { l with log := l.log ++ ws } d := by
  have hD : applyAll d (l.log ++ ws) = applyAll (applyAll d l.log) ws := applyAll_append d l.log ws
  obtain ⟨he, _, ho, hj⟩ := inert_tables hws (applyAll d l.log)
  refine ⟨fun w hw g hg => ?_, h.openLocked, fun g hg => ?_, ?_, ?_, ?_⟩
  · rcases List.mem_append.mp hw with hw | hw
    · exact h.locked w hw g hg
    · rw [(hws w hw).1] at hg
      cases hg
  · rw [hD]
    refine (h.groups g hg).congr (sameGroup_applyAll _ fun w hw hg => ?_).symm
    rw [(hws w hw).1] at hg
    cases hg
  · rw [hD]
    refine h.jobs.extend hj (fun e hm => he ▸ hm) (fun o hm _ => ho ▸ hm) (fun e hm => Or.inl (he ▸ hm))
      fun o hm => Or.inl (ho ▸ hm)
  · rw [hD]
    exact h.grows.trans (Grows.of_jobs_eq hj)
  · rw [hD]
    exact fun o hm hne => ho ▸ h.attached o hm hne

theorem Mid.hold (h : Mid store opened pending l d) (key : String) :
    Mid store opened pending { l with held := key :: l.held } d :=
  ⟨fun w hw g hg => List.mem_cons_of_mem _ (h.locked w hw g hg),
    fun g hg => List.mem_cons_of_mem _ (h.openLocked g hg), h.groups, h.jobs, h.grows, h.attached⟩

theorem Mid.openGroup (h : Mid store none pending l d) (hg : store.groupLockKey g ∈ l.held) :
    Mid store (some g) pending l d :=
  ⟨h.locked, fun _ hg' => Option.some.inj hg' ▸ hg, fun g' _ => h.groups g' (by simp), h.jobs, h.grows,
    h.attached⟩

theorem Mid.close (h : Mid store (some g) pending l d) (hg : GroupOk store g (applyAll d l.log)) :
    Mid store none pending l d := by
  refine ⟨h.locked, fun _ hg => (by cases hg), fun g' _ => ?_, h.jobs, h.grows, h.attached⟩
  by_cases hgg : g = g'
  · exact hgg ▸ hg
  · exact h.groups g' fun he => hgg (Option.some.inj he)

theorem Mid.pend (h : Mid store opened none l d) (pending : Option StableGroupRef) :
    Mid store opened pending l d :=
  ⟨h.locked, h.openLocked, h.groups, h.jobs.pend pending, h.grows, h.attached⟩

/-- Writes to the open group. -/
theorem Mid.writeGroup (h : Mid store (some g) pending l d) (ws : List Write)
    (hws : ∀ w ∈ ws, w.group = some g) (hjobs : JobsOk pending (applyAll (applyAll d l.log) ws))
    (hattached : AttachedSub (applyAll d l.log) (applyAll (applyAll d l.log) ws)) :
    Mid store (some g) pending { l with log := l.log ++ ws } d := by
  have hD : applyAll d (l.log ++ ws) = applyAll (applyAll d l.log) ws := applyAll_append d l.log ws
  have hjob : (applyAll (applyAll d l.log) ws).jobs = (applyAll d l.log).jobs := by
    generalize applyAll d l.log = x
    clear hjobs hattached hD
    induction ws generalizing x with
    | nil => rfl
    | cons w rest ih =>
      refine (ih (fun w hw => hws w (List.mem_cons_of_mem _ hw)) (x.apply w)).trans ?_
      refine apply_jobs_of_none ?_ x
      have hw := hws w List.mem_cons_self
      cases w with
      | insertJob r => cases hw
      | updateJob r => cases hw
      | _ => rfl
  refine ⟨fun w hw g' hg' => ?_, h.openLocked, fun g' hg' => ?_, hD ▸ hjobs, ?_, ?_⟩
  · rcases List.mem_append.mp hw with hw | hw
    · exact h.locked w hw g' hg'
    · rw [hws w hw] at hg'
      exact h.openLocked g' hg'
  · rw [hD]
    refine (h.groups g' hg').congr (sameGroup_applyAll _ fun w hw hg => ?_).symm
    exact hg' ((hws w hw).symm.trans hg)
  · rw [hD]
    exact h.grows.trans (Grows.of_jobs_eq hjob)
  · rw [hD]
    exact fun o hm hne => hattached o (h.attached o hm hne) hne

end

end ChoraMem
