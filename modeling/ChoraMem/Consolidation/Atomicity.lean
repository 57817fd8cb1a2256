/-
A batch is applied as a whole or not at all.

An answer that does not parse, or of which one change is not valid, has no accepted
change, so its commit writes the receipt and nothing else.  A window whose state moved
on is not committed, and neither is one of which a statement fails.
-/
import ChoraMem.Consolidation.Offer
import ChoraMem.Core.Render

namespace ChoraMem

open Txn

/-- The answer does not parse, or one of its changes is not valid for the window. -/
def WindowState.rejects (w : WindowState) (text : String) : Bool :=
  match parseTaggedText text with
  | .error _ => true
  | .ok changes => !w.validConsolidationChanges changes

def Proposal.receiptRow (p : Proposal) : ConsolidationReceiptRow :=
  { owner := p.owner, jobRef := p.window.jobRef, requestHash := p.requestHash }

/-- The receipt that a job's commit looks for first. -/
def Proposal.receipt (p : Proposal) (d : Db) : Except Fault (Option Receipt) :=
  loadConsolidationReceipt p.owner.tenantRef p.window.jobRef p.requestHash d

theorem WindowState.accepted_of_rejects {w : WindowState} {text : String}
    (h : w.rejects text = true) : w.accepted text = [] := by
  unfold rejects at h
  unfold accepted
  cases hparse : parseTaggedText text with
  | error e => rfl
  | ok changes =>
    rw [hparse] at h
    have hinvalid : w.validConsolidationChanges changes = false := by simpa using h
    simp [hinvalid]

theorem WindowState.rejects_of_parsed {w : WindowState} {text : String} {changes : List Change}
    (hparse : parseTaggedText text = .ok changes) (h : w.validConsolidationChanges changes = false) :
    w.rejects text = true := by
  unfold rejects
  rw [hparse]
  simp only [h, Bool.not_false]

/-- Without a receipt its key is free. -/
theorem receiptConflict_of_none {p : Proposal} {d : Db} (h : p.receipt d = .ok none) :
    receiptConflict p.receiptRow d = false := by
  unfold Proposal.receipt loadConsolidationReceipt at h
  split at h
  · rename_i hnone
    simp only [receiptConflict, List.any_eq_false, decide_eq_true_eq]
    intro r hr hkey
    have := List.find?_eq_none.mp hnone r hr
    exact this (decide_eq_true hkey)
  · split at h
    · cases h
    · cases h

section

variable {store : Store} {env : Ambient} {p : Proposal} {w : WindowState} {text : String} {d : Db}

/-- The commit of no change. -/
theorem commitChanges_empty (h : w.accepted text = []) :
    store.commitChanges env p w text =
      insertFresh (receiptConflict p.receiptRow) (.insertReceipt p.receiptRow)
        "freeze consolidation receipt" >>= fun _ => Prog.ret {} := by
  unfold Store.commitChanges
  rw [h]
  rfl

/-- Whatever its statements see, a rejected answer writes the receipt alone. -/
theorem commitChanges_emits (h : w.rejects text = true) :
    (store.commitChanges env p w text).Emits (· = .insertReceipt p.receiptRow) := by
  rw [commitChanges_empty (WindowState.accepted_of_rejects h)]
  refine Prog.Emits.bind ?_ fun _ => trivial
  refine ⟨fun d x hx => ?_, fun d => ?_⟩
  · simp only at hx
    split at hx
    · cases hx
    · exact List.mem_singleton.mp hx
  · simp only
    split <;> trivial

theorem commitChanges_rejected (hfree : p.receipt d = .ok none) (h : w.rejects text = true) :
    Prog.run (store.commitChanges env p w text) d =
      .ok ({}, { d with receipts := d.receipts ++ [p.receiptRow] }) := by
  have hconflict := receiptConflict_of_none hfree
  rw [commitChanges_empty (WindowState.accepted_of_rejects h)]
  have hnew : insertRow ConsolidationReceiptRow.key p.receiptRow d.receipts =
      d.receipts ++ [p.receiptRow] := by
    rw [insertRow, if_neg]
    rintro ⟨r, hr, hkey⟩
    simp only [receiptConflict, List.any_eq_false, decide_eq_true_eq] at hconflict
    exact hconflict r hr hkey
  simp only [insertFresh, Prog.bind_def, Prog.bind, Prog.run, Prog.exec, applyAll_nil, hconflict,
    Bool.false_eq_true, if_false, List.nil_append, applyAll_cons]
  show Except.ok (({} : Receipt), Db.apply d (.insertReceipt p.receiptRow)) = _
  rw [Db.apply, hnew]

/-- A change that fails takes the whole batch with it. -/
theorem commitChanges_fails {e : Fault}
    (h : Prog.run (store.applyChanges env p.window.jobRef w (w.accepted text)) d = .error e) :
    Prog.run (store.commitChanges env p w text) d = .error e := by
  have hexec : Prog.exec d (store.applyChanges env p.window.jobRef w (w.accepted text)) [] =
      .error e := by
    unfold Prog.run at h
    split at h
    · cases h
    · rename_i hx
      cases h
      exact hx
  unfold Prog.run Store.commitChanges
  rw [Prog.bind_def, Prog.exec_bind, hexec]

end

theorem after_of_error {α : Type} {p : Tx α} {d : Db} {e : Fault} (h : Prog.run p d = .error e) :
    p.after d = d := by
  unfold Prog.after
  rw [h]

/-- A frozen job is answered and nothing is written. -/
theorem commitWindow_frozen {store : Store} {env : Ambient} {p : Proposal} {text : String} {d : Db}
    {receipt : Receipt} (h : p.receipt d = .ok (some receipt)) :
    Prog.run (store.commitWindow env p text) d = .ok (receipt, d) := by
  have hrun := commitWindow_run store env p text d
  unfold Proposal.receipt at h
  rw [h] at hrun
  exact hrun

/-- Whatever the store has become when the commit runs: a rejected answer adds the
receipt of its job, which has no effects, and leaves every other row alone; a state
that moved on, a change that fails, and any other failure leave everything alone. -/
theorem consolidation_atomic (store : Store) (env : Ambient) (p : Proposal) (text : String)
    (d : Db) :
    (∀ receipt, p.receipt d = .ok (some receipt) →
      Prog.run (store.commitWindow env p text) d = .ok (receipt, d)) ∧
    (∀ e, Prog.run (store.commitWindow env p text) d = .error e →
      (store.commitWindow env p text).after d = d) ∧
    ∀ w, p.receipt d = .ok none → store.reloaded p d = .ok w →
      (store.unchanged p w = true → w.rejects text = true →
        Prog.run (store.commitWindow env p text) d =
          .ok ({}, { d with receipts := d.receipts ++ [p.receiptRow] })) ∧
      (store.unchanged p w = false →
        Prog.run (store.commitWindow env p text) d = .error windowStale) ∧
      (∀ e, store.unchanged p w = true →
        Prog.run (store.applyChanges env p.window.jobRef w (w.accepted text)) d = .error e →
        Prog.run (store.commitWindow env p text) d = .error e) ∧
      (w.rejects text = true →
        (store.commitChanges env p w text).Emits (· = .insertReceipt p.receiptRow)) := by
  refine ⟨fun receipt h => commitWindow_frozen h, fun e h => after_of_error h, ?_⟩
  intro w hfree hload
  have hrun := commitWindow_run store env p text d
  unfold Proposal.receipt at hfree
  rw [hfree, hload] at hrun
  refine ⟨fun hu hr => ?_, fun hu => ?_, fun e hu he => ?_, commitChanges_emits⟩
  · simp only [hu, Bool.not_true, Bool.false_eq_true, if_false] at hrun
    rw [hrun]
    exact commitChanges_rejected hfree hr
  · simp only [hu, Bool.not_false, if_true] at hrun
    exact hrun
  · simp only [hu, Bool.not_true, Bool.false_eq_true, if_false] at hrun
    rw [commitChanges_fails he] at hrun
    exact hrun

/-- A change that is valid, and one whose basis was not offered. -/
def goodChange : Change := ⟨targetNewRecollection, .other, .text, "M", ["episode_1"]⟩

def badChange : Change := ⟨targetNewRecollection, .other, .text, "N", ["episode_2"]⟩

theorem mixedChanges_parsed :
    parseTaggedText (renderChanges [goodChange, badChange]) = .ok [goodChange, badChange] :=
  parseTaggedText_renderChanges (by decide +kernel) (by decide +kernel) (by decide +kernel)
    (by decide +kernel)

theorem mixedChanges_valid :
    sampleState.validConsolidationChanges [goodChange] = true ∧
      sampleState.validConsolidationChanges [goodChange, badChange] = false := by
  decide +kernel

/-- The good change of the batch is not carried out either. -/
theorem consolidation_atomic_sample :
    sampleState.validConsolidationChanges [goodChange] = true ∧
    parseTaggedText (renderChanges [goodChange, badChange]) = .ok [goodChange, badChange] ∧
    Prog.run ((plainStore .postgres).commitWindow (plainAmbient 3) sampleProposal
        (renderChanges [goodChange, badChange])) answeredDb =
      .ok ({}, { answeredDb with receipts := [sampleProposal.receiptRow] }) :=
  ⟨mixedChanges_valid.1, mixedChanges_parsed,
    ((consolidation_atomic (plainStore .postgres) (plainAmbient 3) sampleProposal
      (renderChanges [goodChange, badChange]) answeredDb).2.2 sampleState (by decide)
      (by decide)).1 (unchanged_proposal _ _ _ _ _)
      (WindowState.rejects_of_parsed mixedChanges_parsed mixedChanges_valid.2)⟩

end ChoraMem
