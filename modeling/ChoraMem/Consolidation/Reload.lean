/-
The commit of a consolidation, run on one state.

The commit answers a job that has a receipt from it, loads the window again, and
applies an answer only to the state the worker was asked about.  `commitWindow_run`
says this as one equation; what the queries of an interrupted commit may see is
`reloadWindow_yields`.
-/
import ChoraMem.Storage.Consolidate

namespace ChoraMem

open Txn

/-! ## The loaded state -/

/-- The window state that four queries make. -/
def Store.windowState (store : Store) (p : Proposal) (episodes related : List EpisodeEvidence)
    (targets : List FeedbackTarget) (outcomes : List FeedbackOutcome) (d₁ d₂ d₃ : Db) :
    WindowState :=
  WindowState.withPairs
    { episodes := episodes, related := related, outcomes := outcomes, targets := targets,
      dispositions := store.loadActiveDispositions p.owner episodes p.found.dispositionRefs d₁,
      recollections := store.loadActiveRecollections p.owner episodes p.found.recollectionRefs d₃,
      pairs := [] }
    (p.formation.map fun refs => loadDispositionFormationPairs p.owner episodes outcomes refs d₂)

theorem reloadWindow_yields {store : Store} {p : Proposal} {episodes related : List EpisodeEvidence}
    {w : WindowState} (h : (store.reloadWindow p episodes related).Yields w) :
    ∃ d₁ d₂ d₃ d₄ targets outcomes,
      loadFeedbackState episodes p.window.outcomeEventRefs
        (store.loadActiveDispositions p.owner episodes p.found.dispositionRefs d₁) d₂ =
          .ok (targets, outcomes) ∧
      w = store.windowState p episodes related targets outcomes d₁ d₃ d₄ := by
  obtain ⟨d₁, d₂, h⟩ := h
  cases hload : loadFeedbackState episodes p.window.outcomeEventRefs
      (store.loadActiveDispositions p.owner episodes p.found.dispositionRefs d₁) d₂ with
  | error e =>
    simp only [hload] at h
    exact h.elim
  | ok r =>
    simp only [hload] at h
    obtain ⟨d₃, d₄, h⟩ := h
    exact ⟨d₁, d₂, d₃, d₄, r.1, r.2, hload, h.symm⟩

theorem yields_reloadWindow {store : Store} {p : Proposal} {episodes related : List EpisodeEvidence}
    {d₁ d₂ d₃ d₄ : Db} {targets : List FeedbackTarget} {outcomes : List FeedbackOutcome}
    (h : loadFeedbackState episodes p.window.outcomeEventRefs
      (store.loadActiveDispositions p.owner episodes p.found.dispositionRefs d₁) d₂ =
        .ok (targets, outcomes)) :
    (store.reloadWindow p episodes related).Yields
      (store.windowState p episodes related targets outcomes d₁ d₃ d₄) := by
  refine ⟨d₁, d₂, ?_⟩
  simp only [h]
  exact ⟨d₃, d₄, rfl⟩

theorem mem_accepted {w : WindowState} {text : String} {change : Change}
    (h : change ∈ w.accepted text) :
    ∃ changes, parseTaggedText text = .ok changes ∧ w.accepted text = changes ∧
      w.validConsolidationChanges changes = true := by
  unfold WindowState.accepted at h ⊢
  split at h
  · cases h
  rename_i changes hparse
  split at h
  · rename_i hvalid
    exact ⟨changes, hparse, by simp [hvalid], hvalid⟩
  · cases h

theorem validChange_of_valid {w : WindowState} {changes : List Change} {change : Change}
    (h : w.validConsolidationChanges changes = true) (hmem : change ∈ changes) :
    w.validChange change = true := by
  have := List.all_eq_true.mp h change hmem
  simp only [Bool.and_eq_true] at this
  exact this.2

namespace Store

variable (store : Store)

/-- What a commit loads the window to when the store is `d` all the time. -/
def reloaded (p : Proposal) (d : Db) : Except Fault WindowState :=
  match loadConsolidationEpisodes p.window.episodeRefs d with
  | .error e => .error e
  | .ok (episodes, owner) =>
    if owner ≠ p.owner then .error invalidWindow
    else
      match loadFeedbackState episodes p.window.outcomeEventRefs
          (store.loadActiveDispositions p.owner episodes p.found.dispositionRefs d) d with
      | .error e => .error e
      | .ok (targets, outcomes) =>
        .ok (store.windowState p episodes
          (loadIndexedConsolidationEpisodes p.owner p.found.episodeRefs episodes d) targets outcomes
          d d d)

end Store

theorem unchanged_proposal (store : Store) (window : Window) (found : MemoryIndexCandidates)
    (formation : Option (List String)) (w : WindowState) :
    store.unchanged (store.proposal window found formation w) w = true := by
  simp [Store.unchanged, Store.proposal]

/-! ## The run of a commit -/

theorem exec_forEach_acquire {α : Type} {f : α → String} {l : List α} {d : Db} {log : List Write} :
    Prog.exec d (Prog.forEach (fun a => (Prog.acquire (f a) : Tx Unit)) l) log = .ok ((), log) := by
  induction l with
  | nil => rfl
  | cons a rest ih => exact ih

theorem exec_selectOrFail {α β : Type} {q : Db → Except Fault α} {f : α → Tx β} {d : Db}
    {log : List Write} :
    Prog.exec d (selectOrFail q >>= f) log =
      match q (applyAll d log) with
      | .ok a => Prog.exec d (f a) log
      | .error e => .error e := by
  show Prog.exec d (Prog.bind (selectOrFail q) f) log = _
  rw [Prog.exec_bind]
  simp only [selectOrFail, Prog.exec]
  cases q (applyAll d log) with
  | ok a => rfl
  | error e => rfl

theorem exec_reloadWindow (store : Store) (p : Proposal) (episodes related : List EpisodeEvidence)
    (d : Db) :
    Prog.exec d (store.reloadWindow p episodes related) [] =
      match loadFeedbackState episodes p.window.outcomeEventRefs
          (store.loadActiveDispositions p.owner episodes p.found.dispositionRefs d) d with
      | .error e => .error e
      | .ok (targets, outcomes) =>
        .ok (store.windowState p episodes related targets outcomes d d d, []) := by
  show Prog.exec d (selectOrFail _ >>= _) [] = _
  rw [exec_selectOrFail, applyAll_nil]
  cases loadFeedbackState episodes p.window.outcomeEventRefs
    (store.loadActiveDispositions p.owner episodes p.found.dispositionRefs d) d with
  | error e => rfl
  | ok r => rfl

/-- The part of the commit that comes after the receipt was looked for. -/
theorem exec_reload_commit (store : Store) (p : Proposal) (d : Db) (f : WindowState → Tx Receipt) :
    Prog.exec d (do
      let (episodes, owner) ← selectOrFail (loadConsolidationEpisodes p.window.episodeRefs)
      if owner ≠ p.owner then Prog.fail invalidWindow
      else do
        let related ← Prog.select
          (loadIndexedConsolidationEpisodes p.owner p.found.episodeRefs episodes)
        Prog.forEach (fun o => Prog.acquire (store.consolidationOwnerLockKey o)) p.lockOwners
        let w ← store.reloadWindow p episodes related
        f w) [] =
      match store.reloaded p d with
      | .error e => .error e
      | .ok w => Prog.exec d (f w) [] := by
  rw [exec_selectOrFail, applyAll_nil, Store.reloaded]
  cases loadConsolidationEpisodes p.window.episodeRefs d with
  | error e => rfl
  | ok r =>
    simp only
    split
    · rfl
    show Prog.exec d (Prog.bind (Prog.forEach _ p.lockOwners) _) [] = _
    rw [Prog.exec_bind, exec_forEach_acquire]
    show Prog.exec d (Prog.bind (store.reloadWindow p r.1 _) f) [] = _
    rw [Prog.exec_bind, exec_reloadWindow]
    cases loadFeedbackState r.1 p.window.outcomeEventRefs
      (store.loadActiveDispositions p.owner r.1 p.found.dispositionRefs d) d with
    | error e => rfl
    | ok t => rfl

/-- The commit as one case distinction on the state it runs on. -/
theorem commitWindow_run (store : Store) (env : Ambient) (p : Proposal) (text : String) (d : Db) :
    Prog.run (store.commitWindow env p text) d =
      match loadConsolidationReceipt p.owner.tenantRef p.window.jobRef p.requestHash d with
      | .error e => .error e
      | .ok (some receipt) => .ok (receipt, d)
      | .ok none =>
        match store.reloaded p d with
        | .error e => .error e
        | .ok w =>
          if !store.unchanged p w then .error windowStale
          else Prog.run (store.commitChanges env p w text) d := by
  have hexec : Prog.exec d (store.commitWindow env p text) [] =
      match loadConsolidationReceipt p.owner.tenantRef p.window.jobRef p.requestHash d with
      | .error e => .error e
      | .ok (some receipt) => .ok (receipt, [])
      | .ok none =>
        match store.reloaded p d with
        | .error e => .error e
        | .ok w =>
          if !store.unchanged p w then .error windowStale
          else Prog.exec d (store.commitChanges env p w text) [] := by
    show Prog.exec d (selectOrFail _ >>= _) [] = _
    rw [exec_selectOrFail, applyAll_nil]
    cases loadConsolidationReceipt p.owner.tenantRef p.window.jobRef p.requestHash d with
    | error e => rfl
    | ok found =>
      cases found with
      | some receipt => rfl
      | none =>
        refine (exec_reload_commit store p d _).trans ?_
        cases store.reloaded p d with
        | error e => rfl
        | ok w =>
          simp only
          split
          · rfl
          · rfl
  unfold Prog.run
  rw [hexec]
  cases loadConsolidationReceipt p.owner.tenantRef p.window.jobRef p.requestHash d with
  | error e => rfl
  | ok found =>
    cases found with
    | some receipt => rfl
    | none =>
      cases store.reloaded p d with
      | error e => rfl
      | ok w =>
        simp only
        cases store.unchanged p w <;> rfl

end ChoraMem
