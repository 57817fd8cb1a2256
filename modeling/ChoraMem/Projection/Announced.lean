/-
What commits tell the outbox.

A change of what the store shows and the operation that tells it are one transaction's, so
neither is ever seen without the other.  Read back, the outbox has an operation for every
version that was made, no operation without a cause, and no gap in the numbers of a stream.
-/
import ChoraMem.Projection.Drain

namespace ChoraMem

open Txn

section

variable {store : Store} {d : Db} {s : MemorySys} {r : DocumentRef}

theorem keyed_reach (hhash : Collisionless store) (h : MemoryReach store s) : s.db.Keyed := by
  obtain ⟨_, hreach, _⟩ := reach_calls_alone defaultProjectorConfig h
  exact (projectionLaw_reach hhash hreach).keyed

/-! ## Changes -/

/-- What a reached store shows was shown for the first time by one of the steps before. -/
theorem exists_shown (hhash : Collisionless store) (h : MemoryReach store s)
    (hclash : store.Unclashing s.db) (hsome : documentText r s.db ≠ none) :
    ∃ before after act, MemoryReach store before ∧ before.step? .readCommitted act = some after ∧
      store.Unclashing after.db ∧ documentText r before.db = none ∧
      documentText r after.db ≠ none := by
  induction h with
  | start =>
    obtain ⟨kind, ref, scope⟩ := r
    cases kind <;> exact absurd rfl hsome
  | @step before after act h _ _ hstep ih =>
    by_cases hnone : documentText r before.db = none
    · exact ⟨before, after, act, h, hstep, hclash, hnone, hsome⟩
    · refine ih ?_ hnone
      rcases commit_cases hhash h (keyed_reach hhash h) hstep with hsame | ⟨hcommit, _⟩
      · rw [← hsame]
        exact hclash
      · exact hclash.earlier hcommit.causes

end

/-- No change of what the store shows commits without its operation: the transaction that makes it
enqueues one that adds the document or takes it away, behind all that its stream had. -/
theorem change_announced (store : Store) (hhash : Collisionless store) {s s' : MemorySys}
    (h : MemoryReach store s) {act : MemoryAct} (hstep : s.step? .readCommitted act = some s')
    (hclash : store.Unclashing s'.db) :
    s.db.indexOperations ⊆ s'.db.indexOperations ∧
    ∀ r, documentText r s'.db ≠ documentText r s.db →
      ∃ o ∈ s'.db.indexOperations, o.document = r ∧
        (o.action = .upsert ↔ (documentText r s'.db).isSome) ∧
        ∀ earlier ∈ s.db.indexOperations, earlier.streamRef = o.streamRef →
          earlier.streamSequence < o.streamSequence := by
  rcases commit_cases hhash h (keyed_reach hhash h) hstep with hsame | ⟨hcommit, _⟩
  · rw [hsame]
    exact ⟨List.Subset.refl _, fun _ hne => absurd rfl hne⟩
  · refine ⟨hcommit.advances.operations, fun r hne => ?_⟩
    obtain ⟨o, hmem, hnew, hdocument, hadds⟩ := hcommit.published hhash hclash hne
    refine ⟨o, hmem, hdocument, ?_, fun earlier hearlier hstream => ?_⟩
    · rw [← hadds, beq_iff_eq]
    · exact Numbered.new_behind hcommit.outboxBefore.numbered hcommit.outbox.numbered
        hcommit.advances.operations hearlier hmem hnew hstream.symm

/-- The step that first shows a document of the run with an Episode. -/
theorem change_announced_met :
    ∃ r, ∃ s s' : MemorySys, MemoryReach sampleStore s ∧ documentText r s.db = none ∧
      ∃ o ∈ s'.db.indexOperations, o.document = r ∧ o.action = .upsert ∧
        ∀ earlier ∈ s.db.indexOperations, earlier.streamRef = o.streamRef →
          earlier.streamSequence < o.streamSequence := by
  obtain ⟨r, document, hdocument, _⟩ := sampleMet_shown
  have hsome : documentText r sampleMet.db ≠ none := by
    intro hnone
    rw [memoryIndexDocument, hnone] at hdocument
    cases hdocument
  obtain ⟨s, s', act, hreach, hstep, hclash, hnone, hshown⟩ :=
    exists_shown sampleStore_collisionless sampleMet_reach.1 sampleMet_unclashing hsome
  obtain ⟨_, hchanges⟩ := change_announced sampleStore sampleStore_collisionless hreach hstep hclash
  have hne : documentText r s'.db ≠ documentText r s.db := by
    rw [hnone]
    exact hshown
  obtain ⟨o, hmem, habout, haction, hbehind⟩ := hchanges r hne
  exact ⟨r, s, s', hreach, hnone, o, hmem, habout,
    haction.mpr (Option.isSome_iff_ne_none.mpr hshown), hbehind⟩

/-! ## The outbox read back -/

/-- The numbers of a stream are those below the next one, each once. -/
theorem Numbered.perm {d : Db} (h : Numbered d.indexOperations) (hkeyed : d.Keyed) (stream : String) :
    ((d.indexOperations.filter (·.streamRef = stream)).map (·.streamSequence)).Perm
      (List.range' 1 (Store.nextSequence stream d - 1)) := by
  have hmem : ∀ {o}, o ∈ d.indexOperations.filter (·.streamRef = stream) ↔
      o ∈ d.indexOperations ∧ o.streamRef = stream := by
    intro o
    rw [List.mem_filter, decide_eq_true_eq]
  have hnodup : d.indexOperations.Nodup := List.Nodup.of_map _ hkeyed.operations
  refine (List.perm_ext_iff_of_nodup ?_ List.nodup_range').mpr fun n => ?_
  · refine (hnodup.filter _).map_on fun o ho o' ho' heq => ?_
    obtain ⟨ho, hstream⟩ := hmem.mp ho
    obtain ⟨ho', hstream'⟩ := hmem.mp ho'
    exact h.unique o ho o' ho' (hstream.trans hstream'.symm) heq
  · rw [List.mem_range'_1, List.mem_map]
    constructor
    · rintro ⟨o, ho, rfl⟩
      obtain ⟨ho, hstream⟩ := hmem.mp ho
      have hlt := lt_nextSequence ho
      rw [hstream] at hlt
      have hpos := h.counted o ho
      omega
    · rintro ⟨hpos, hlt⟩
      obtain ⟨o, ho, hstream, hseq⟩ : ∃ o ∈ d.indexOperations, o.streamRef = stream ∧
          o.streamSequence = n := h.below_next hpos (by omega)
      exact ⟨o, hmem.mpr ⟨ho, hstream⟩, hseq⟩

/-- The outbox tells what the rows tell: every operation is that of one cause, every cause of a
version has one operation, and the operations of a stream are numbered from one without a gap. -/
theorem outbox_exact (store : Store) (hhash : Collisionless store) {s : MemorySys}
    (h : MemoryReach store s) (hclash : store.Unclashing s.db) :
    (∀ o ∈ s.db.indexOperations,
      ∃! c, c ∈ causes s.db ∧ o = store.operationOf c o.streamSequence) ∧
    (∀ c ∈ memoryCauses s.db,
      ∃! o, o ∈ s.db.indexOperations ∧ o = store.operationOf c o.streamSequence) ∧
    ∀ stream, ((s.db.indexOperations.filter (·.streamRef = stream)).map (·.streamSequence)).Perm
      (List.range' 1 (Store.nextSequence stream s.db - 1)) := by
  have hworld := worldLaw_reach hhash h
  have hlaw := outboxLaw_reach hhash h
  have hkeyed := keyed_reach hhash h
  refine ⟨fun o ho => ?_, fun c hc => ?_, hlaw.numbered.perm hkeyed⟩
  · obtain ⟨c, hc, n, rfl⟩ := hlaw.founded o ho
    refine ⟨c, ⟨hc, rfl⟩, fun c' hc' => ?_⟩
    have href := congrArg IndexOperationRow.operationId hc'.2
    exact cause_of_operationRef hworld hlaw hhash hclash hc'.1 hc href.symm
  · have hcause : c ∈ causes s.db := List.mem_append_right _ hc
    obtain ⟨o, ho, hid⟩ := hlaw.posted c hc
    obtain ⟨n, rfl⟩ := operation_of_cause hworld hlaw hhash hclash hcause ho hid
    refine ⟨_, ⟨ho, rfl⟩, fun o' ho' => ?_⟩
    have href := congrArg IndexOperationRow.operationId ho'.2
    exact KeysUnique.eq hkeyed.operations ho'.1 ho href

/-- The run that revises a Disposition once and a Recollection twice. -/
theorem sampleLater_outbox :
    sampleStore.Unclashing laterDb ∧ (laterDb.indexOperations.map (·.action)) =
      [.upsert, .upsert, .upsert, .upsert, .upsert, .delete, .upsert, .delete, .upsert, .delete,
        .upsert] ∧
    (memoryCauses laterDb).length = 10 := by
  unfold Store.Unclashing
  decide +kernel

theorem outbox_exact_met :
    (sampleLater.db.indexOperations.map (·.action)) =
      [.upsert, .upsert, .upsert, .upsert, .upsert, .delete, .upsert, .delete, .upsert, .delete,
        .upsert] ∧
    (memoryCauses sampleLater.db).length = 10 ∧
    (∀ o ∈ sampleLater.db.indexOperations,
      ∃! c, c ∈ causes sampleLater.db ∧ o = sampleStore.operationOf c o.streamSequence) ∧
    (∀ c ∈ memoryCauses sampleLater.db,
      ∃! o, o ∈ sampleLater.db.indexOperations ∧ o = sampleStore.operationOf c o.streamSequence) ∧
    ∀ stream, ((sampleLater.db.indexOperations.filter (·.streamRef = stream)).map
      (·.streamSequence)).Perm (List.range' 1 (Store.nextSequence stream sampleLater.db - 1)) := by
  obtain ⟨hclash, hactions, hcauses⟩ := sampleLater_outbox
  rw [← sampleLater_db] at hclash hactions hcauses
  have hreach := (reach_calls sampleRecast_reach.2 sampleRecast_reach.1 [laterTask.command]).1
  exact ⟨hactions, hcauses, outbox_exact sampleStore sampleStore_collisionless hreach hclash⟩

end ChoraMem
