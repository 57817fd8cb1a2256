/-
Which rows the parts of the intake commands may write.

Each lemma names the kinds of rows that one part of a command can put, whatever it
reads.  A property of rows that all these kinds have is then a property of
everything the part adds to the log.
-/
import ChoraMem.Storage.Feedback

namespace ChoraMem

open Txn

section

variable {P : Write → Prop}

theorem emits_insertFresh {taken : Db → Bool} {w : Write} {operation : String} (hw : P w) :
    (insertFresh taken w operation).Emits P := by
  refine ⟨fun d x hx => ?_, fun d => ?_⟩
  · dsimp only at hx
    split at hx
    · cases hx
    · rw [List.mem_singleton.mp hx]
      exact hw
  · dsimp only
    split <;> exact trivial

theorem emits_selectOrFail {α : Type} {q : Db → Except Fault α} : (selectOrFail q).Emits P := by
  intro d
  dsimp only
  split <;> exact trivial

/-! ## Observe -/

theorem emits_claimRequest (store : Store) (key : String) (event : SourceEvent)
    (binding : EpisodeBinding) (hP : ∀ r, P (.insertRequest r)) :
    (store.claimRequest key event binding).Emits P := by
  simp only [Store.claimRequest]
  refine Prog.Emits.statement (fun d w hw => ?_) fun claimed => ?_
  · split at hw
    · cases hw
    · rw [List.mem_singleton.mp hw]
      exact hP _
  · split
    · exact trivial
    refine Prog.Emits.select fun stored => ?_
    split
    · exact trivial
    · split <;> exact trivial

theorem emits_admitSource (env : Ambient) (event : SourceEvent)
    (hP : ∀ order, P (.insertSource ⟨event, order⟩)) : (Store.admitSource env event).Emits P := by
  simp only [Store.admitSource]
  refine Prog.Emits.statement (fun d w hw => ?_) fun admitted => ?_
  · split at hw
    · cases hw
    · rw [List.mem_singleton.mp hw]
      exact hP _
  · split
    · exact trivial
    refine Prog.Emits.select fun stored => ?_
    split
    · exact trivial
    · split <;> exact trivial

theorem emits_freezeObserveReceipt (tenantRef key episodeRef : String)
    (hP : ∀ r, P (.updateRequest r)) :
    (Store.freezeObserveReceipt tenantRef key episodeRef).Emits P := by
  refine ⟨fun d w hw => ?_, fun _ => trivial⟩
  obtain ⟨r, _, rfl⟩ := List.mem_map.mp hw
  exact hP _

theorem emits_lockActedRun (store : Store) (scope : Scope) (binding : EpisodeBinding) :
    (store.lockActedRun scope binding).Emits P := by
  unfold Store.lockActedRun
  split <;> exact trivial

theorem emits_enqueueMemoryIndexOperation (store : Store) (action : IndexAction)
    (kind : DocumentKind) (documentRef : String) (owner : OwnerScope) (streamIdentity : String)
    (causeFields : List String) (hP : ∀ r, P (.insertIndexOperation r)) :
    (store.enqueueMemoryIndexOperation action kind documentRef owner streamIdentity
      causeFields).Emits P := by
  simp only [Store.enqueueMemoryIndexOperation]
  split
  · exact trivial
  split
  · exact trivial
  refine Prog.Emits.acquire (Prog.Emits.select fun exist => ?_)
  split
  · exact trivial
  · exact Prog.Emits.select fun sequence => emits_insertFresh (hP _)

/-! ## The enqueue -/

theorem emits_extendCollectingJob (env : Ambient) (jobRef : String) (episodes outcomes : List String)
    (hP : ∀ r, P (.updateJob r)) : (extendCollectingJob env jobRef episodes outcomes).Emits P := by
  refine ⟨fun d w hw => ?_, fun _ => trivial⟩
  obtain ⟨j, _, rfl⟩ := List.mem_map.mp hw
  exact hP _

theorem emits_selectJobForUpdate {α : Type} {q : Db → Option JobRow} {f : Option JobRow → Tx α}
    (hP : ∀ r, P (.updateJob r)) (hf : ∀ stored, (f stored).Emits P) :
    (selectJobForUpdate q >>= f).Emits P := by
  refine Prog.Emits.statement (fun d w hw => ?_) hf
  cases hq : q d with
  | none =>
    rw [hq] at hw
    cases hw
  | some j =>
    rw [hq] at hw
    rw [List.mem_singleton.mp hw]
    exact hP _

theorem emits_joinCollectingJob (env : Ambient) (job : JobRow) (episodes outcomes : List String)
    (hP : ∀ r, P (.updateJob r)) : (joinCollectingJob env job episodes outcomes).Emits P := by
  simp only [joinCollectingJob]
  split
  · exact trivial
  · exact emits_extendCollectingJob env _ _ _ hP

theorem emits_enqueueConsolidationEvidence (store : Store) (env : Ambient) (scope : Scope)
    (episodes outcomes : List String) (hP : ∀ r, P (.insertJob r)) (hP' : ∀ r, P (.updateJob r)) :
    (store.enqueueConsolidationEvidence env scope episodes outcomes).Emits P := by
  simp only [Store.enqueueConsolidationEvidence]
  split
  · exact trivial
  refine Prog.Emits.acquire (emits_selectJobForUpdate hP' fun stored => ?_)
  split
  · exact trivial
  split
  · refine Prog.Emits.statement (fun d w hw => ?_) fun inserted => ?_
    · unfold newCollectingJob at hw
      split at hw
      · cases hw
      · rw [List.mem_singleton.mp hw]
        exact hP _
    · split
      · exact trivial
      refine emits_selectJobForUpdate hP' fun joined => ?_
      split
      · exact trivial
      · exact emits_joinCollectingJob env _ _ _ hP'
  · exact emits_extendCollectingJob env _ _ _ hP'

theorem emits_enqueueEpisodeState (store : Store) (env : Ambient) (scope : Scope) (ref : String)
    (hP : ∀ r, P (.insertJob r)) (hP' : ∀ r, P (.updateJob r)) :
    (store.enqueueEpisodeState env scope ref).Emits P := by
  unfold Store.enqueueEpisodeState
  split
  · exact trivial
  · exact Prog.Emits.select fun outcomes =>
      emits_enqueueConsolidationEvidence store env scope _ _ hP hP'

theorem emits_enqueueRunEpisodes (store : Store) (env : Ambient) (scope : Scope) (runRef : String)
    (hP : ∀ r, P (.insertJob r)) (hP' : ∀ r, P (.updateJob r)) :
    (store.enqueueRunEpisodes env scope runRef).Emits P :=
  Prog.Emits.select fun _ => Prog.emits_forEach
    (fun ref => emits_enqueueEpisodeState store env scope ref hP hP') _

/-! ## Deliveries and Outcome reports -/

theorem emits_loadMemoryDeliveryReceipt (tenantRef key hash : String) :
    (Store.loadMemoryDeliveryReceipt tenantRef key hash).Emits P := by
  simp only [Store.loadMemoryDeliveryReceipt]
  refine Prog.Emits.select fun stored => ?_
  split
  · exact trivial
  · split <;> exact trivial

theorem emits_rejectRetroactiveMemoryDelivery (delivery : MemoryDelivery) :
    (rejectRetroactiveMemoryDelivery delivery).Emits P := by
  simp only [rejectRetroactiveMemoryDelivery]
  refine Prog.Emits.select fun acted => ?_
  split <;> exact trivial

theorem emits_loadDeliverableMemoryRefs (delivery : MemoryDelivery) :
    (loadDeliverableMemoryRefs delivery).Emits P := by
  simp only [loadDeliverableMemoryRefs]
  refine Prog.Emits.select fun found => ?_
  split
  · exact trivial
  · exact emits_selectOrFail.bind fun items => emits_selectOrFail

theorem emits_loadOutcomeReceipt (report : OutcomeReport) (hash : String) :
    (Store.loadOutcomeReceipt report hash).Emits P := by
  simp only [Store.loadOutcomeReceipt]
  refine Prog.Emits.select fun stored => ?_
  split
  · exact trivial
  · split <;> exact trivial

theorem emits_validateOutcomeBindings (report : OutcomeReport)
    (deliveryRefs relatedRefs : List String) :
    (Store.validateOutcomeBindings report deliveryRefs relatedRefs).Emits P := by
  simp only [Store.validateOutcomeBindings]
  refine Prog.Emits.bind (Prog.emits_forEach (fun ref => ?_) _) fun _ =>
    Prog.Emits.bind (Prog.emits_forEach (fun ref => ?_) _) fun _ => ?_
  · refine Prog.Emits.select fun known => ?_
    split <;> exact trivial
  · refine Prog.Emits.select fun known => ?_
    split <;> exact trivial
  · split
    · exact trivial
    refine Prog.Emits.select fun acted => ?_
    split <;> exact trivial

end

end ChoraMem
