/-
Which rows the parts of a consolidation may write.

A change writes rows of Memory only: roots, versions and bases.  A root is inserted under
the ref that is made for it, so a property of rows may say more of roots than of the rest.
A commit adds the operations of the outbox and the receipt.
-/
import ChoraMem.World.Effects

namespace ChoraMem

open Txn

def Write.isRoot : Write → Bool
  | .insertSeed _ | .insertRecollection _ => true
  | _ => false

/-- Rows of Memory other than roots have the property. -/
abbrev OfMemory (P : Write → Prop) : Prop := ∀ w, MemoryRow w → w.isRoot = false → P w

/-- The rows of a commit have the property: those of Memory, of the outbox and of receipts. -/
structure OfCommit (store : Store) (P : Write → Prop) : Prop where
  memory : OfMemory P
  seed : ∀ owner jobRef tendency episodes outcomes,
    P (.insertSeed ⟨owner, store.seedFormationRef owner jobRef tendency episodes outcomes⟩)
  recollection : ∀ owner jobRef application text basis,
    P (.insertRecollection
      ⟨owner, store.recollectionFormationRef owner jobRef application text basis⟩)
  operation : ∀ r, P (.insertIndexOperation r)
  receipt : ∀ r, P (.insertReceipt r)

section

variable {store : Store} {P : Write → Prop}

theorem emits_insertBases {table : Db → List BasisRow} {w : BasisRow → Write}
    (hw : ∀ row, P (w row)) (tenantRef versionRef : String) (role : BasisRole)
    (refs : List String) (applied : Bool) :
    (insertBases table w tenantRef versionRef role refs applied).Emits P := by
  induction refs generalizing applied with
  | nil => exact trivial
  | cons ref rest ih =>
    refine Prog.Emits.statement (fun d x hx => ?_) fun inserted => ih _
    split at hx
    · cases hx
    · rw [List.mem_singleton.mp hx]
      exact hw _

theorem emits_insertRecollectionBasis (hP : OfMemory P) (tenantRef versionRef : String) (refs : List String)
    (role : BasisRole) : (insertRecollectionBasis tenantRef versionRef refs role).Emits P :=
  emits_insertBases (fun row => hP (.insertRecollectionBasis row) trivial rfl) _ _ _ _ _

theorem emits_insertEpisodeBasis (hP : OfMemory P) (tenantRef versionRef : String) (refs : List String)
    (role : BasisRole) : (insertEpisodeBasis tenantRef versionRef refs role).Emits P :=
  emits_insertBases (fun row => hP (.insertSeedBasis row) trivial rfl) _ _ _ _ _

theorem emits_insertOutcomeBasis (hP : OfMemory P) (tenantRef versionRef : String) (refs : List String)
    (role : BasisRole) : (insertOutcomeBasis tenantRef versionRef refs role).Emits P :=
  emits_insertBases (fun row => hP (.insertSeedOutcomeBasis row) trivial rfl) _ _ _ _ _

/-! ## Recollections -/

theorem emits_applyRecollectionFormation (hP : OfMemory P)
    (hroot : ∀ owner jobRef application text basis, P (.insertRecollection
      ⟨owner, store.recollectionFormationRef owner jobRef application text basis⟩))
    (env : Ambient) (w : WindowState) (jobRef : String) (change : Change) :
    (store.applyRecollectionFormation env w jobRef change).Emits P := by
  unfold Store.applyRecollectionFormation
  split
  · exact trivial
  split
  · exact trivial
  refine Prog.Emits.select fun duplicate => ?_
  split
  · exact trivial
  refine Prog.Emits.bind ((emits_insertFresh (hroot _ _ _ _ _)).bind fun _ =>
    emits_insertFresh (hP (.insertRecollectionVersion _) trivial rfl)) fun _ => ?_
  exact (emits_insertRecollectionBasis hP _ _ _ _).bind fun _ => trivial

theorem emits_applyRecollectionKeep (hP : OfMemory P) (r : ActiveRecollection) (refs : List String) :
    (Store.applyRecollectionKeep r refs).Emits P :=
  (emits_insertRecollectionBasis hP _ _ _ _).bind fun _ => trivial

theorem emits_applyRecollectionRevision (hP : OfMemory P) (env : Ambient) (jobRef : String) (r : ActiveRecollection)
    (change : Change) : (Store.applyRecollectionRevision env jobRef r change).Emits P := by
  have hsupersede : (supersedeRecollectionVersion r.owner.tenantRef r.versionRef).Emits P := by
    refine Prog.Emits.statement (fun d x hx => ?_) fun affected => ?_
    · obtain ⟨v, _, rfl⟩ := List.mem_map.mp hx
      exact hP _ trivial rfl
    · split <;> exact trivial
  unfold Store.applyRecollectionRevision
  dsimp only
  split
  · exact trivial
  refine Prog.Emits.select fun duplicate => ?_
  split
  · exact trivial
  refine Prog.Emits.bind (hsupersede.bind fun _ =>
    emits_insertFresh (hP _ trivial rfl)) fun _ => ?_
  exact (emits_insertRecollectionBasis hP _ _ _ _).bind fun _ => trivial

/-! ## Dispositions -/

theorem emits_applyDispositionFormation (hP : OfMemory P)
    (hseed : ∀ owner jobRef tendency episodes outcomes,
      P (.insertSeed ⟨owner, store.seedFormationRef owner jobRef tendency episodes outcomes⟩))
    (w : WindowState) (jobRef : String) (change : Change) :
    (store.applyDispositionFormation w jobRef change).Emits P := by
  unfold Store.applyDispositionFormation
  dsimp only
  split
  · exact trivial
  split
  · exact trivial
  refine Prog.Emits.select fun duplicate => ?_
  split
  · exact trivial
  refine Prog.Emits.bind ((emits_insertFresh (hseed _ _ _ _ _)).bind fun _ =>
    emits_insertFresh (hP _ trivial rfl)) fun _ => ?_
  refine Prog.Emits.bind (Prog.emits_forEach (fun _ =>
    emits_insertFresh (hP (.insertSeedBasis _) trivial rfl)) _) fun _ => ?_
  exact (emits_insertOutcomeBasis hP _ _ _ _).bind fun _ => trivial

theorem emits_reenactable {P : Write → Prop} (t : FeedbackTarget) (refs : List String) :
    (reenactable t refs).Emits P := by
  induction refs with
  | nil => exact trivial
  | cons ref rest ih =>
    unfold reenactable
    split
    · exact trivial
    refine Prog.Emits.select fun already => ?_
    split
    · exact trivial
    · exact ih

theorem emits_appendReenactments {P : Write → Prop} (hP : ∀ r, P (.insertSeedBasis r))
    (t : FeedbackTarget) (refs : List String) (applied : Bool) :
    (appendReenactments t refs applied).Emits P := by
  induction refs generalizing applied with
  | nil => exact trivial
  | cons ref rest ih =>
    refine Prog.Emits.select fun contributed => ?_
    split
    · exact ih _
    · refine Prog.Emits.statement (fun d x hx => ?_) fun inserted => ih _
      split at hx
      · cases hx
      · rw [List.mem_singleton.mp hx]
        exact hP _

theorem emits_applyReenactment (hP : OfMemory P) (t : FeedbackTarget) (refs : List String) :
    (applyReenactment t refs).Emits P := by
  refine (emits_reenactable t _).bind fun allowed => ?_
  split
  · exact trivial
  · exact (emits_appendReenactments (fun row => hP (.insertSeedBasis row) trivial rfl) t _ _).bind
      fun _ => trivial

theorem emits_applyInhibition (hP : OfMemory P) (t : FeedbackTarget) (refs : List String) :
    (applyInhibition t refs).Emits P := by
  unfold applyInhibition
  split
  · exact trivial
  · exact (emits_insertEpisodeBasis hP _ _ _ _).bind fun _ =>
      (emits_insertOutcomeBasis hP _ _ _ _).bind fun _ => trivial

theorem emits_applyRevision (hP : OfMemory P) (jobRef : String) (t : FeedbackTarget) (change : Change) :
    (applyRevision jobRef t change).Emits P := by
  have hsupersede : (supersedeSeedVersion t.owner.tenantRef t.versionRef).Emits P := by
    refine Prog.Emits.statement (fun d x hx => ?_) fun affected => ?_
    · obtain ⟨v, _, rfl⟩ := List.mem_map.mp hx
      exact hP _ trivial rfl
    · split <;> exact trivial
  unfold applyRevision
  split
  · exact trivial
  split
  · exact trivial
  refine Prog.Emits.select fun duplicate => ?_
  split
  · exact trivial
  refine Prog.Emits.bind (hsupersede.bind fun _ =>
    emits_insertFresh (hP _ trivial rfl)) fun _ => ?_
  refine (emits_insertEpisodeBasis hP _ _ _ _).bind fun _ => ?_
  exact (emits_insertOutcomeBasis hP _ _ _ _).bind fun _ => trivial

/-! ## Commits -/

theorem OfCommit.announces (hP : OfCommit store P) (w : Write)
    (h : ∃ r, w = .insertIndexOperation r) : P w := by
  obtain ⟨r, rfl⟩ := h
  exact hP.operation r

theorem emits_applyRecollectionChange (hP : OfCommit store P) (env : Ambient) (jobRef : String)
    (r : ActiveRecollection) (change : Change) :
    (store.applyRecollectionChange env jobRef r change).Emits P := by
  unfold Store.applyRecollectionChange
  split
  · exact emits_applyRecollectionKeep hP.memory _ _
  · exact (emits_applyRecollectionRevision hP.memory _ _ _ _).bind
      fun a => (emits_projectRevision store _ _ _ _ a).mono hP.announces
  · exact trivial

theorem emits_applyDispositionChange (hP : OfCommit store P) (jobRef : String) (t : FeedbackTarget)
    (change : Change) : (store.applyDispositionChange jobRef t change).Emits P := by
  have hrevision : (applyRevision jobRef t change).Emits P :=
    emits_applyRevision hP.memory jobRef t change
  unfold Store.applyDispositionChange
  split
  · exact emits_applyReenactment hP.memory _ _
  · exact emits_applyInhibition hP.memory _ _
  · exact hrevision.bind fun a => (emits_projectRevision store _ _ _ _ a).mono hP.announces
  · exact hrevision.bind fun a => (emits_projectRevision store _ _ _ _ a).mono hP.announces
  · exact trivial

theorem emits_applyChange (hP : OfCommit store P) (env : Ambient) (jobRef : String)
    (w : WindowState) (change : Change) : (store.applyChange env jobRef w change).Emits P := by
  unfold Store.applyChange
  split
  · exact (emits_applyRecollectionFormation hP.memory hP.recollection _ _ _ _).bind
      fun a => (emits_projectFormation store _ _ a).mono hP.announces
  split
  · exact (emits_applyDispositionFormation hP.memory hP.seed _ _ _).bind
      fun a => (emits_projectFormation store _ _ a).mono hP.announces
  split
  · exact emits_applyRecollectionChange hP _ _ _ _
  split
  · exact emits_applyDispositionChange hP _ _ _
  · exact trivial

theorem emits_applyChanges (hP : OfCommit store P) (env : Ambient) (jobRef : String)
    (w : WindowState) (changes : List Change) :
    (store.applyChanges env jobRef w changes).Emits P := by
  induction changes with
  | nil => exact trivial
  | cons change rest ih =>
    exact (emits_applyChange hP env jobRef w change).bind fun a => ih.bind fun effects => trivial

theorem emits_commitWindow (hP : OfCommit store P) (env : Ambient) (p : Proposal)
    (text : String) : (store.commitWindow env p text).Emits P := by
  refine Prog.Emits.acquire (emits_selectOrFail.bind fun found => ?_)
  dsimp only
  split
  · exact trivial
  refine emits_selectOrFail.bind fun loaded => ?_
  obtain ⟨episodes, owner⟩ := loaded
  dsimp only
  split
  · exact trivial
  refine Prog.Emits.select fun related => ?_
  have hlock : ∀ o, (Prog.acquire (store.consolidationOwnerLockKey o) : Tx Unit).Emits P :=
    fun o => trivial
  refine (Prog.emits_forEach hlock _).bind fun _ => ?_
  refine Prog.Emits.bind ?_ fun w => ?_
  · refine Prog.Emits.select fun dispositions => emits_selectOrFail.bind fun state => ?_
    exact Prog.Emits.select fun pairs => Prog.Emits.select fun recollections => trivial
  · split
    · exact trivial
    · exact (emits_applyChanges hP _ _ _ _).bind fun effects =>
        (emits_insertFresh (hP.receipt _)).bind fun _ => trivial

end

end ChoraMem
