/-
Whose Memory a call can show.

The index is outside and may answer with any refs.  A selection shows Memory of the
agent's baseline and of the exact relationship only, and what a window reaches through
the index is of the window's own owner, because every ref is looked up again among the
rows of those owners.
-/
import ChoraMem.Selection.Interference
import ChoraMem.World.Chains

namespace ChoraMem

open Txn

section

variable {store : Store} {d : Db} {owner : OwnerScope} {episodes related : List EpisodeEvidence}
variable {refs : List String}

end

/-- A proposed window was proposed from Episodes of one owner. -/
theorem snapshot_propose {store : Store} {d : Db} {index : Option MemoryIndex} {window : Window}
    {p : Proposal} (h : store.snapshotWindow index window d = .ok (.proposed p)) :
    ∃ episodes related found, LoadedEpisodes window.episodeRefs d episodes (windowOwner episodes) ∧
      (∀ e ∈ related, OwnEpisode (windowOwner episodes) d e) ∧
      store.propose index window episodes found related d = .ok p := by
  unfold Store.snapshotWindow at h
  cases hvalid : window.valid with
  | false =>
    rw [hvalid] at h
    cases h
  | true =>
    rw [hvalid] at h
    simp only [Bool.not_true, Bool.false_eq_true, if_false, bind, Except.bind, pure, Except.pure] at h
    cases hload : loadConsolidationEpisodes window.episodeRefs d with
    | error e =>
      rw [hload] at h
      cases h
    | ok r =>
      obtain ⟨episodes, owner⟩ := r
      obtain ⟨hep, howner⟩ := loadConsolidationEpisodes_ok hload
      obtain rfl := howner (episodes_ne_nil hvalid hep)
      rw [hload] at h
      dsimp only at h
      cases hreceipt : loadConsolidationReceipt (windowOwner episodes).tenantRef window.jobRef
          (store.consolidationWindowHash (windowOwner episodes) window) d with
      | error e =>
        rw [hreceipt] at h
        cases h
      | ok found =>
        rw [hreceipt] at h
        cases found with
        | some receipt => cases h
        | none =>
          dsimp only at h
          split at h
          · cases h
          rename_i p' hp
          obtain rfl := Snapshot.proposed.inj (Except.ok.inj h)
          exact ⟨episodes, _, _, hep, own_loadIndexed, hp⟩

/-- The run has asked. -/
def sampleOpened : MemorySys :=
  play [.call (observeCall 4 sampleScope "a2" .user "2" .situation)] sampleAdapted

def openedDb : Db :=
  (played [.call (observeCall 4 sampleScope "a2" .user "2" .situation)] adaptedDb).getD {}

theorem sampleOpened_reach : MemoryReach sampleStore sampleOpened ∧ sampleOpened.Quiet :=
  reach_calls sampleAdapted_reach.2 sampleAdapted_reach.1 _

/-- The Dispositions that a selection replies with. -/
def selectedDispositions (r : Except Fault (MemoryReply × Db)) : List String :=
  match r with
  | .ok (.selected _ context, _) => context.dispositions.map (·.memoryRef)
  | _ => []

/-- An index that answers with an Episode of the relationship and the agent's Disposition. -/
def looseIndex : MemoryIndex := fun _ =>
  some [⟨some .episode, sampleEpisodeRef sampleScope "2"⟩, ⟨some .disposition, adaptedRef 1⟩]

/-- The targets and the bases that a worker may name. -/
def offeredRefs (r : Except Fault Snapshot) : List String × List String :=
  match r with
  | .ok (.proposed p) => (p.request.allowedTargetRefs, p.request.allowedBasisRefs)
  | _ => ([], [])

/-- An index that answers the relationship's lanes with these candidates. -/
def relationIndex (answer : List IndexCandidate) : MemoryIndex := fun q =>
  if q.scope.relationshipRef = "" then some [] else some answer

def baselineCandidate : IndexCandidate := ⟨some .disposition, adaptedRef 1⟩

theorem isolation_runs :
    (played [.call (observeCall 4 sampleScope "a2" .user "2" .situation)] adaptedDb).isSome ∧
    selectedDispositions
      (Prog.run (sampleStore.perform (selectCall sampleScope "2" (adaptedRef 1)).2) openedDb) =
        [adaptedRef 1] ∧
    adaptedRef 1 ∈
      (offeredRefs (sampleStore.snapshotWindow (some looseIndex) agentWindow fedDb)).1 ∧
    sampleEpisodeRef sampleScope "2" ∉
      (offeredRefs (sampleStore.snapshotWindow (some looseIndex) agentWindow fedDb)).2 ∧
    (∀ r ∈ openedDb.seeds, r.owner.relationshipRef = "") ∧
    Prog.run (sampleStore.selectMemory (some (relationIndex []))
        (selectCall sampleScope "2" (adaptedRef 1)).1) openedDb ≠
      Prog.run (sampleStore.selectMemory (some (relationIndex [baselineCandidate]))
        (selectCall sampleScope "2" (adaptedRef 1)).1) openedDb := by
  decide +kernel

theorem sampleOpened_db : sampleOpened.db = openedDb :=
  play_db sampleAdapted_db (@written_calls [_]) (some_getD isolation_runs.1 _)

/-- The commit of the selection. -/
theorem sampleOpened_selects : ∃ s context, MemoryReach sampleStore s ∧
    Commits s sampleOpened.threads.length
      (.selected (selectCall sampleScope "2" (adaptedRef 1)).1 context)
      (sampleStore.calls [(selectCall sampleScope "2" (adaptedRef 1)).2] sampleOpened) ∧
    context.dispositions.map (·.memoryRef) = [adaptedRef 1] := by
  obtain ⟨_, hshows, _⟩ := isolation_runs
  rw [← sampleOpened_db] at hshows
  cases hrun : Prog.run (sampleStore.perform (selectCall sampleScope "2" (adaptedRef 1)).2)
      sampleOpened.db with
  | error e =>
    rw [hrun] at hshows
    cases hshows
  | ok r =>
    obtain ⟨a, d⟩ := r
    obtain ⟨s, hreach, _, hcommit, _⟩ := commits_turn sampleOpened_reach.2 sampleOpened_reach.1 hrun
    obtain ⟨log, hexec, _⟩ := Prog.run_ok hrun
    obtain ⟨context, rfl⟩ := exec_ret_bind hexec
    rw [hrun] at hshows
    exact ⟨s, context, hreach, hcommit, hshows⟩

/-- A relationship's lane takes Memory of the agent's baseline too, though the lane's owner has
no record of it. -/
theorem selectMemory_baseline_moves :
    MemoryReach sampleStore sampleOpened ∧
    InsertsForeign sampleOpened.db (relationIndex []) (relationIndex [baselineCandidate]) ∧
    Prog.run (sampleStore.selectMemory (some (relationIndex []))
        (selectCall sampleScope "2" (adaptedRef 1)).1) sampleOpened.db ≠
      Prog.run (sampleStore.selectMemory (some (relationIndex [baselineCandidate]))
        (selectCall sampleScope "2" (adaptedRef 1)).1) sampleOpened.db := by
  obtain ⟨_, _, _, _, hseeds, hmoved⟩ := isolation_runs
  rw [sampleOpened_db]
  generalize openedDb = d at hseeds hmoved ⊢
  refine ⟨sampleOpened_reach.1, fun q => ?_, hmoved⟩
  by_cases hrelation : q.scope.relationshipRef = ""
  · exact ⟨[], [], if_pos hrelation, if_pos hrelation, .done⟩
  refine ⟨[], [baselineCandidate], if_neg hrelation, if_neg hrelation,
    .insert (fun owner howner => ?_) .done⟩
  show ((ownedDispositions owner d).any (·.versionRef == baselineCandidate.ref)) = false
  refine List.any_eq_false.mpr fun a ha _ => ?_
  obtain ⟨r, hr, hrowner, _⟩ := mem_ownedDispositions.mp ha
  refine hrelation ?_
  rw [← howner, ← hrowner]
  exact hseeds r hr

end ChoraMem
