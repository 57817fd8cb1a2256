/-
A job is consolidated once.

Any number of processors may put a window to their workers, and the same call may come
again after its answer was lost.  The first commit that changes the store freezes the
receipt of the job.  From then on no commit of the job changes the store, a call with the
same window is answered with that receipt before a worker is asked, and a call with
another window of the job is refused.
-/
import ChoraMem.World.Receipts

namespace ChoraMem

open Txn

/-- The job of a proposal is done in `t`, and stays as it is. -/
structure OnceCommitted (store : Store) (p : Proposal) (receipt : Receipt) (t : MemorySys) :
    Prop where
  effects : jobEffects p.owner.tenantRef p.window.jobRef t.db = receipt
  once : ∀ j env' p' text' receipt' t', Commits t j (.consolidated env' p' text' receipt') t' →
    p'.owner.tenantRef = p.owner.tenantRef → p'.window.jobRef = p.window.jobRef → t'.db = t.db
  again : ∀ index env worker,
    t.Settles store.Calls (store.perform (.consolidate index env p.window worker))
      (.ret (.frozen p.window receipt))
  conflict : ∀ index env worker window episodes owner, window.valid = true →
    window.jobRef = p.window.jobRef → window ≠ p.window →
    loadConsolidationEpisodes window.episodeRefs t.db = .ok (episodes, owner) →
    owner.tenantRef = p.owner.tenantRef →
    t.Settles store.Calls (store.perform (.consolidate index env window worker))
      (.fail ⟨.windowConflict, window.jobRef, ""⟩)

section

variable {store : Store} {s s' t : MemorySys} {env : Ambient} {p : Proposal} {text : String}
variable {receipt : Receipt}

/-- A first commit freezes its receipt. -/
theorem frozenReceipt_of_commit {i : Nat} (hhash : Collisionless store) (h : MemoryReach store s)
    (hc : Commits s i (.consolidated env p text receipt) s') (hchanged : s'.db ≠ s.db) :
    FrozenReceipt ⟨p.owner, p.window.jobRef, p.requestHash⟩ receipt s'.db ∧
      ∃ x, Earlier store x s.db ∧ Proposed store p x := by
  obtain ⟨l, hdb, ⟨index, window, x, hx, hsnapshot⟩, hconcluded, _⟩ := commits_done_of hhash h hc
  rw [← hdb] at hconcluded
  have hp := (snapshot_proposed hsnapshot).2
  obtain ⟨hkeeps, heffects⟩ := hconcluded.receipted (worldLaw_reach hhash h) hp
    (receipted_reach hhash h)
  obtain ⟨_, hrow, _, hreceipt⟩ := heffects hchanged
  exact ⟨⟨hkeeps.receipted, hrow, hreceipt⟩, x, hx, hp⟩

/-- A job with a receipt has no commit that changes the store. -/
theorem unchanged_of_frozen {row : ConsolidationReceiptRow} {receipt' : Receipt} {i : Nat}
    (hhash : Collisionless store) (h : MemoryReach store s)
    (hc : Commits s i (.consolidated env p text receipt) s')
    (hfrozen : FrozenReceipt row receipt' s.db)
    (hkey : row.key = (p.owner.tenantRef, p.window.jobRef)) : s'.db = s.db := by
  by_contra hchanged
  obtain ⟨l, hdb, ⟨index, window, x, hx, hsnapshot⟩, hconcluded, _⟩ := commits_done_of hhash h hc
  rw [← hdb] at hconcluded
  obtain ⟨_, heffects⟩ := hconcluded.receipted (worldLaw_reach hhash h)
    (snapshot_proposed hsnapshot).2 (receipted_reach hhash h)
  exact (heffects hchanged).2.2.1 row hfrozen.stored hkey

/-- A window that every store to come answers or refuses alike settles its call. -/
theorem settles_consolidate {J : Db → Prop} {index : Option MemoryIndex} {window : Window}
    {worker : Worker} {q : Tx MemoryReply}
    (h : ∀ d, J d →
      (∃ receipt, store.snapshotWindow index window d = .ok (.frozen receipt) ∧
        q = .ret (.frozen window receipt)) ∨
      ∃ fault, store.snapshotWindow index window d = .error fault ∧ q = .fail fault) :
    (store.perform (.consolidate index env window worker)).Settles J q := by
  refine .read fun d hd => ?_
  dsimp only
  rcases h d hd with ⟨receipt, hsnapshot, rfl⟩ | ⟨fault, hsnapshot, rfl⟩
  · rw [hsnapshot]
    exact .ended
  · rw [hsnapshot]
    exact .ended

/-- A job's Memory effects are committed once: after the first commit that changes the
store, whatever calls run and however they interleave, the job stays done. -/
theorem consolidation_once (store : Store) (hhash : Collisionless store) {s s' t : MemorySys}
    {i : Nat} {env : Ambient} {p : Proposal} {text : String} {receipt : Receipt}
    (h : MemoryReach store s) (hc : Commits s i (.consolidated env p text receipt) s')
    (hchanged : s'.db ≠ s.db) (ht : Reach .readCommitted store.Calls s' t) :
    OnceCommitted store p receipt t := by
  obtain ⟨hfrozen, x, hx, hp⟩ := frozenReceipt_of_commit hhash h hc hchanged
  obtain ⟨proposed, targets, outcomes, horigin⟩ := hp
  have hs' : Reach .readCommitted store.Calls s s' :=
    .step .start (fun q hq => by cases hq) trivial hc.2
  -- What holds in every state from the commit on.
  have hlater : ∀ u, Reach .readCommitted store.Calls s' u → MemoryReach store u ∧
      Earlier store x u.db ∧ FrozenReceipt ⟨p.owner, p.window.jobRef, p.requestHash⟩ receipt u.db := by
    intro u hu
    have hreach : MemoryReach store s' := Reach.trans h hs'
    exact ⟨Reach.trans hreach hu, (hx.trans (earlier_reach hhash h hs')).trans (earlier_reach hhash hreach hu),
      frozenReceipt_reach hhash hreach hfrozen hu⟩
  constructor
  · exact (hlater t ht).2.2.effects
  · intro j env' p' text' receipt' t' hc' htenant hjob
    obtain ⟨hreach, _, hrow⟩ := hlater t ht
    exact unchanged_of_frozen hhash hreach hc' hrow (by rw [htenant, hjob]; rfl)
  · intro index env worker
    refine settles_of_prog ⟨_, rfl⟩ (settles_consolidate fun d hd => ?_) (Or.inl ⟨_, rfl⟩)
    obtain ⟨u, hu, rfl⟩ := hd
    obtain ⟨hreach, hearlier, hrow⟩ := hlater u (Reach.trans ht hu)
    obtain ⟨episodes, hload⟩ := loadConsolidationEpisodes_later hhash hearlier
      (worldLaw_reach hhash hreach) horigin.window
    left
    refine ⟨receipt, ?_, rfl⟩
    rw [snapshotWindow_frozen horigin.valid hload rfl hrow, if_pos horigin.request]
  · intro index env worker window episodes owner hvalid hjob hne hload htenant
    refine settles_of_prog ⟨_, rfl⟩ (settles_consolidate fun d hd => ?_) (Or.inr ⟨_, rfl⟩)
    obtain ⟨u, hu, rfl⟩ := hd
    obtain ⟨hreach, hearlier, hrow⟩ := hlater u (Reach.trans ht hu)
    have hlaw := worldLaw_reach hhash hreach
    obtain ⟨episodes', hload'⟩ := loadConsolidationEpisodes_later hhash
      (earlier_reach hhash (hlater t ht).1 hu) hlaw hload
    right
    refine ⟨_, ?_, rfl⟩
    rw [snapshotWindow_frozen hvalid hload' (by rw [htenant, hjob]; rfl) hrow, if_neg]
    intro hrequest
    obtain ⟨hepisodes, houtcomes⟩ := consolidationWindowHash_injective hhash
      (outcomes_not_mem hearlier.law horigin.window) (outcomes_not_mem hlaw hload')
      (horigin.request.symm.trans hrequest)
    obtain ⟨job, refs, events⟩ := window
    refine hne ?_
    simp only at hjob hepisodes houtcomes
    rw [hjob, ← hepisodes, ← houtcomes]

end

/-- The window of the agent's adaptation. -/
def adaptWindow : Window := ⟨"j", [sampleEpisodeRef agentScope "1"], []⟩

theorem consolidation_once_sample : ∃ s s' i env p text receipt, p.window = adaptWindow ∧
    MemoryReach sampleStore s ∧ Commits s i (.consolidated env p text receipt) s' ∧
    s'.db = adaptedDb ∧ OnceCommitted sampleStore p receipt s' := by
  obtain ⟨p, receipt, hwindow, hrun⟩ := @run_consolidate sampleStore none
    (plainAmbient 3) adaptWindow _ _ sampleMet.db adaptedDb
    adaptTask_written.parsed adaptTask_after
  obtain ⟨s, hreach, hdb, hcommit, hafter⟩ :=
    commits_turn sampleMet_reach.2 sampleMet_reach.1
      (c := adaptTask.command) hrun
  have hchanged : (sampleStore.calls [adaptTask.command] sampleMet).db ≠ s.db := by
    rw [hafter, hdb]
    intro heq
    obtain ⟨_, _, _, hlength, _⟩ := sample_runs
    exact hlength (congrArg (fun d : Db => d.seeds.length) heq)
  exact ⟨s, _, _, _, p, _, receipt, hwindow, hreach, hcommit, hafter,
    consolidation_once sampleStore sampleStore_collisionless hreach hcommit hchanged .start⟩

end ChoraMem
