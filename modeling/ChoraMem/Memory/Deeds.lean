/-
What one change does.

A `Deed` is the whole effect of an applied change: the rows it writes and what it found
before it wrote them.  Each function that applies a kind of change, run alone, does one
deed or none.  Everything that follows about Memory is derived from deeds, so a change
of one of these functions shows here first.
-/
import ChoraMem.Memory.Shelves
import ChoraMem.Storage.Consolidate
import ChoraMem.Txn.Alone
import ChoraMem.Intake.Emits

namespace ChoraMem

open Txn Versions

/-- The rows of a basis. -/
def basisRows (tenantRef versionRef : String) (role : BasisRole) (refs : List String) :
    List BasisRow :=
  refs.map fun ref =>
    { tenantRef := tenantRef, versionRef := versionRef, basisRef := ref, role := role }

/-- The effect of one change on Memory.  A new Seed cites Episodes and Outcomes with its
first version, a revision with its new one. -/
inductive Deed
  | nothing
  | formSeed (owner : OwnerScope) (row : SeedVersionRow) (episodes outcomes : List String)
  | reviseSeed (owner : OwnerScope) (u row : SeedVersionRow) (episodes outcomes : List String)
  | citeSeed (owner : OwnerScope) (versionRef : String) (role : BasisRole)
      (episodes outcomes : List String)
  | formRecollection (owner : OwnerScope) (row : RecollectionVersionRow) (basis : List String)
  | reviseRecollection (owner : OwnerScope) (u row : RecollectionVersionRow) (basis : List String)
  | citeRecollection (owner : OwnerScope) (versionRef : String) (basis : List String)

namespace Deed

def writes : Deed → List Write
  | nothing => []
  | formSeed owner row episodes outcomes =>
    [.insertSeed ⟨owner, row.seedRef⟩, .insertSeedVersion row] ++
      (basisRows owner.tenantRef row.ref .formation episodes).map .insertSeedBasis ++
      (basisRows owner.tenantRef row.ref .formation outcomes).map .insertSeedOutcomeBasis
  | reviseSeed owner u row episodes outcomes =>
    [.updateSeedVersion { u with status := .superseded }, .insertSeedVersion row] ++
      (basisRows owner.tenantRef row.ref .revision episodes).map .insertSeedBasis ++
      (basisRows owner.tenantRef row.ref .revision outcomes).map .insertSeedOutcomeBasis
  | citeSeed owner versionRef role episodes outcomes =>
    (basisRows owner.tenantRef versionRef role episodes).map .insertSeedBasis ++
      (basisRows owner.tenantRef versionRef role outcomes).map .insertSeedOutcomeBasis
  | formRecollection owner row basis =>
    [.insertRecollection ⟨owner, row.recollectionRef⟩, .insertRecollectionVersion row] ++
      (basisRows owner.tenantRef row.ref .formation basis).map .insertRecollectionBasis
  | reviseRecollection owner u row basis =>
    [.updateRecollectionVersion { u with status := .superseded }, .insertRecollectionVersion row] ++
      (basisRows owner.tenantRef row.ref .revision basis).map .insertRecollectionBasis
  | citeRecollection owner versionRef basis =>
    (basisRows owner.tenantRef versionRef .support basis).map .insertRecollectionBasis

/-- What the change found in the store before it wrote. -/
def Fits (x : Db) : Deed → Prop
  | nothing => True
  | formSeed owner row _ _ => activeTendency owner "" row.tendency x = false ∧
      (x.seeds.any fun s => s.ref = row.seedRef) = false
  | reviseSeed owner u row _ _ => activeTendency owner u.ref row.tendency x = false ∧
      activeSeedVersions owner.tenantRef u.ref x = [u]
  | citeSeed _ _ _ _ _ => True
  | formRecollection owner row _ => activeText owner "" row.application row.text x = false ∧
      (x.recollections.any fun r => r.ref = row.recollectionRef) = false
  | reviseRecollection owner u row _ => activeText owner u.ref row.application row.text x = false ∧
      activeRecollectionVersions owner.tenantRef u.ref x = [u]
  | citeRecollection _ _ _ => True

end Deed

/-- The store after a deed, and after whatever was put into the outbox. -/
def Db.Did (x : Db) (deed : Deed) (y : Db) : Prop :=
  ∃ operations, y = { applyAll x deed.writes with indexOperations := operations }

/-! ## Statements -/

/-- What holds of the result and the store when a program that runs alone does not fail. -/
abbrev Achieves {α : Type} (p : Tx α) (Q : α → Db → Prop) (x : Db) : Prop :=
  Prog.wp p Q (fun _ => True) x

section

variable {α : Type} {x : Db}

theorem achieves_insertFresh {taken : Db → Bool} {w : Write} {operation : String}
    {Q : Unit → Db → Prop} (h : taken x = false → Q () (x.apply w)) :
    Achieves (insertFresh taken w operation) Q x := by
  simp only [insertFresh, Prog.wp]
  cases ht : taken x with
  | true => exact trivial
  | false => exact h ht

theorem apply_insertSeedBasis_of_mem {row : BasisRow} (h : row ∈ x.seedBasis) :
    x.apply (.insertSeedBasis row) = x := by
  simp only [Db.apply, insertRow]
  rw [if_pos ⟨row, h, rfl⟩]

theorem apply_insertSeedOutcomeBasis_of_mem {row : BasisRow} (h : row ∈ x.seedOutcomeBasis) :
    x.apply (.insertSeedOutcomeBasis row) = x := by
  simp only [Db.apply, insertRow]
  rw [if_pos ⟨row, h, rfl⟩]

theorem apply_insertRecollectionBasis_of_mem {row : BasisRow} (h : row ∈ x.recollectionBasis) :
    x.apply (.insertRecollectionBasis row) = x := by
  simp only [Db.apply, insertRow]
  rw [if_pos ⟨row, h, rfl⟩]

/-- An insert that leaves a row alone that is there. -/
theorem achieves_insertBasis {table : Db → List BasisRow} {w : BasisRow → Write} {row : BasisRow}
    {Q : Bool → Db → Prop} (hw : row ∈ table x → x.apply (w row) = x)
    (h : ∀ inserted, Q inserted (x.apply (w row))) : Achieves (insertBasis table w row) Q x := by
  by_cases hr : row ∈ table x
  · have hx := h (decide (row ∉ table x))
    rw [hw hr] at hx
    simpa [insertBasis, Prog.statement, Prog.wp, hr] using hx
  · have hx := h (decide (row ∉ table x))
    simp only [insertBasis, Prog.statement, Prog.wp, hr, if_false]
    simp only [hr] at hx
    exact hx

theorem achieves_insertBases {table : Db → List BasisRow} {w : BasisRow → Write}
    {tenantRef versionRef : String} {role : BasisRole} {refs : List String} {applied : Bool}
    {Q : Bool → Db → Prop} (hw : ∀ (x : Db) row, row ∈ table x → x.apply (w row) = x)
    (h : ∀ b, Q b (applyAll x ((basisRows tenantRef versionRef role refs).map w))) :
    Achieves (insertBases table w tenantRef versionRef role refs applied) Q x := by
  induction refs generalizing x applied with
  | nil => exact h applied
  | cons ref rest ih =>
    refine Prog.wp_bind.mpr (achieves_insertBasis (hw x _) fun _ => ?_)
    exact ih h

theorem achieves_insertFormationBasis {tenantRef versionRef : String} {refs : List String}
    {Q : Unit → Db → Prop}
    (h : Q () (applyAll x
      ((basisRows tenantRef versionRef .formation refs).map Write.insertSeedBasis))) :
    Achieves (insertFormationBasis tenantRef versionRef refs) Q x := by
  unfold insertFormationBasis
  induction refs generalizing x with
  | nil => exact h
  | cons ref rest ih => exact Prog.wp_bind.mpr (achieves_insertFresh fun _ => ih h)

end

/-! ## One function at a time -/

/-- The first version of a Seed. -/
def firstSeedVersion (owner : OwnerScope) (jobRef tendency ref : String) : SeedVersionRow :=
  { tenantRef := owner.tenantRef, seedRef := ref, ref := versionRefOf ref 1, number := 1,
    tendency := tendency, status := .active, originJobRef := jobRef }

def FeedbackTarget.next (t : FeedbackTarget) (jobRef text : String) : SeedVersionRow :=
  { tenantRef := t.owner.tenantRef, seedRef := t.seedRef,
    ref := versionRefOf t.seedRef (t.versionNumber + 1), number := t.versionNumber + 1,
    tendency := text, status := .active, originJobRef := jobRef }

def firstRecollectionVersion (env : Ambient) (owner : OwnerScope)
    (jobRef application text ref : String) : RecollectionVersionRow :=
  { tenantRef := owner.tenantRef, recollectionRef := ref, ref := versionRefOf ref 1, number := 1,
    text := text, application := application, status := .active, originJobRef := jobRef,
    createdAt := env.now }

def ActiveRecollection.next (r : ActiveRecollection) (env : Ambient) (jobRef text : String) :
    RecollectionVersionRow :=
  { tenantRef := r.owner.tenantRef, recollectionRef := r.recollection,
    ref := versionRefOf r.recollection (r.versionNumber + 1), number := r.versionNumber + 1,
    text := text, application := r.application, status := .active, originJobRef := jobRef,
    createdAt := env.now }

/-- Episodes that become reenactments one after the other, each of a run that has none. -/
def NewRuns (t : FeedbackTarget) : Db → List String → Prop
  | _, [] => True
  | x, ref :: rest => alreadyContributed t ref x = false ∧
      NewRuns t (x.apply (.insertSeedBasis
        { tenantRef := t.owner.tenantRef, versionRef := t.versionRef, basisRef := ref,
          role := .reenactment })) rest

section

variable {x : Db} {store : Store} {Q : Applied → Db → Prop}

theorem achieves_formSeed {owner : OwnerScope} {jobRef tendency : String}
    {episodes outcomes : List String} (hnone : Q {} x)
    (h : ∀ row, row = firstSeedVersion owner jobRef tendency
        (store.seedFormationRef owner jobRef tendency episodes outcomes) →
      (Deed.formSeed owner row episodes outcomes).Fits x →
      Q ⟨row.ref, true⟩ (applyAll x (Deed.formSeed owner row episodes outcomes).writes)) :
    Achieves (store.formSeed owner jobRef tendency episodes outcomes) Q x := by
  refine Prog.wp_select.mpr ?_
  cases hdup : activeTendency owner "" tendency x with
  | true => exact hnone
  | false =>
    simp only [Bool.false_eq_true, if_false]
    refine Prog.wp_bind.mpr (Prog.wp_bind.mpr (achieves_insertFresh fun hseed => ?_))
    refine achieves_insertFresh fun _ => ?_
    refine Prog.wp_bind.mpr (achieves_insertFormationBasis ?_)
    refine Prog.wp_bind.mpr (achieves_insertBases
      (fun _ _ => apply_insertSeedOutcomeBasis_of_mem) fun _ => ?_)
    have hq := h _ rfl ⟨hdup, hseed⟩
    simp only [Deed.writes, applyAll_append, applyAll_cons, applyAll_nil] at hq
    exact hq

theorem achieves_supersedeSeedVersion {tenantRef versionRef : String} {R : Unit → Db → Prop}
    (h : ∀ u, activeSeedVersions tenantRef versionRef x = [u] →
      R () (x.apply (.updateSeedVersion { u with status := .superseded }))) :
    Achieves (supersedeSeedVersion tenantRef versionRef) R x := by
  refine Prog.wp_statement.mpr ?_
  by_cases hone : (activeSeedVersions tenantRef versionRef x).length = 1
  · obtain ⟨u, hu⟩ := List.length_eq_one_iff.mp hone
    rw [hone, if_pos rfl, hu]
    exact h u hu
  · rw [if_neg hone]
    exact trivial

theorem achieves_supersedeRecollectionVersion {tenantRef versionRef : String}
    {R : Unit → Db → Prop}
    (h : ∀ u, activeRecollectionVersions tenantRef versionRef x = [u] →
      R () (x.apply (.updateRecollectionVersion { u with status := .superseded }))) :
    Achieves (supersedeRecollectionVersion tenantRef versionRef) R x := by
  refine Prog.wp_statement.mpr ?_
  by_cases hone : (activeRecollectionVersions tenantRef versionRef x).length = 1
  · obtain ⟨u, hu⟩ := List.length_eq_one_iff.mp hone
    rw [hone, if_pos rfl, hu]
    exact h u hu
  · rw [if_neg hone]
    exact trivial

theorem ref_of_activeSeedVersions {tenantRef versionRef : String} {u : SeedVersionRow}
    (h : activeSeedVersions tenantRef versionRef x = [u]) :
    u ∈ x.seedVersions ∧ u.tenantRef = tenantRef ∧ u.ref = versionRef ∧ u.status = .active := by
  have hmem : u ∈ activeSeedVersions tenantRef versionRef x := by simp [h]
  simpa [activeSeedVersions, and_assoc] using hmem

theorem ref_of_activeRecollectionVersions {tenantRef versionRef : String}
    {u : RecollectionVersionRow} (h : activeRecollectionVersions tenantRef versionRef x = [u]) :
    u ∈ x.recollectionVersions ∧ u.tenantRef = tenantRef ∧ u.ref = versionRef ∧
      u.status = .active := by
  have hmem : u ∈ activeRecollectionVersions tenantRef versionRef x := by simp [h]
  simpa [activeRecollectionVersions, and_assoc] using hmem

theorem achieves_applyRevision {jobRef : String} {t : FeedbackTarget} {change : Change}
    (hnone : Q {} x)
    (h : ∀ u episodes outcomes, revisionBasis t change = some (episodes, outcomes) →
      change.text ≠ "" → u.ref = t.versionRef →
      (Deed.reviseSeed t.owner u (t.next jobRef change.text) episodes outcomes).Fits x →
      Q ⟨(t.next jobRef change.text).ref, true⟩ (applyAll x
        (Deed.reviseSeed t.owner u (t.next jobRef change.text) episodes outcomes).writes)) :
    Achieves (applyRevision jobRef t change) Q x := by
  unfold applyRevision
  split
  · exact hnone
  rename_i htext
  cases hbasis : revisionBasis t change with
  | none => exact hnone
  | some basis =>
    obtain ⟨episodes, outcomes⟩ := basis
    refine Prog.wp_select.mpr ?_
    cases hdup : activeTendency t.owner t.versionRef change.text x with
    | true => exact hnone
    | false =>
      simp only [Bool.false_eq_true, if_false]
      refine Prog.wp_bind.mpr (Prog.wp_bind.mpr (achieves_supersedeSeedVersion fun u hu => ?_))
      refine achieves_insertFresh fun _ => ?_
      refine Prog.wp_bind.mpr (achieves_insertBases
        (fun _ _ => apply_insertSeedBasis_of_mem) fun _ => ?_)
      refine Prog.wp_bind.mpr (achieves_insertBases
        (fun _ _ => apply_insertSeedOutcomeBasis_of_mem) fun _ => ?_)
      have href := (ref_of_activeSeedVersions hu).2.2.1
      have hq := h u episodes outcomes hbasis (by simpa using (not_or.mp (by simpa using htext)).1)
        href ⟨href ▸ hdup, href ▸ hu⟩
      simp only [Deed.writes, applyAll_append, applyAll_cons, applyAll_nil] at hq
      exact hq

theorem achieves_formRecollection {env : Ambient} {owner : OwnerScope}
    {jobRef application text : String} {basis : List String} (hnone : Q {} x)
    (h : ∀ row, row = firstRecollectionVersion env owner jobRef application text
        (store.recollectionFormationRef owner jobRef application text basis) →
      (Deed.formRecollection owner row (sortRefs basis)).Fits x →
      Q ⟨row.ref, true⟩ (applyAll x (Deed.formRecollection owner row (sortRefs basis)).writes)) :
    Achieves (store.formRecollection env owner jobRef application text basis) Q x := by
  refine Prog.wp_select.mpr ?_
  cases hdup : activeText owner "" application text x with
  | true => exact hnone
  | false =>
    simp only [Bool.false_eq_true, if_false]
    refine Prog.wp_bind.mpr (Prog.wp_bind.mpr (achieves_insertFresh fun hroot => ?_))
    refine achieves_insertFresh fun _ => ?_
    refine Prog.wp_bind.mpr (achieves_insertBases
      (fun _ _ => apply_insertRecollectionBasis_of_mem) fun _ => ?_)
    have hq := h _ rfl ⟨hdup, hroot⟩
    simp only [Deed.writes, applyAll_append, applyAll_cons, applyAll_nil] at hq
    exact hq

theorem achieves_applyRecollectionKeep {r : ActiveRecollection} {refs : List String}
    (h : ∀ b, Q ⟨"", b⟩
      (applyAll x (Deed.citeRecollection r.owner r.versionRef (sortRefs refs)).writes)) :
    Achieves (Store.applyRecollectionKeep r refs) Q x :=
  Prog.wp_bind.mpr (achieves_insertBases (fun _ _ => apply_insertRecollectionBasis_of_mem) h)

theorem achieves_applyRecollectionRevision {env : Ambient} {jobRef : String}
    {r : ActiveRecollection} {change : Change} (hnone : Q {} x)
    (h : ∀ u, trimSpace change.text ≠ "" → u.ref = r.versionRef →
      (Deed.reviseRecollection r.owner u (r.next env jobRef (trimSpace change.text))
        (sortRefs change.basisRefs)).Fits x →
      Q ⟨(r.next env jobRef (trimSpace change.text)).ref, true⟩ (applyAll x
        (Deed.reviseRecollection r.owner u (r.next env jobRef (trimSpace change.text))
          (sortRefs change.basisRefs)).writes)) :
    Achieves (Store.applyRecollectionRevision env jobRef r change) Q x := by
  unfold Store.applyRecollectionRevision
  dsimp only
  split
  · exact hnone
  rename_i htext
  refine Prog.wp_select.mpr ?_
  cases hdup : activeText r.owner r.versionRef r.application (trimSpace change.text) x with
  | true => exact hnone
  | false =>
    simp only [Bool.false_eq_true, if_false]
    refine Prog.wp_bind.mpr (Prog.wp_bind.mpr (achieves_supersedeRecollectionVersion fun u hu => ?_))
    refine achieves_insertFresh fun _ => ?_
    refine Prog.wp_bind.mpr (achieves_insertBases
      (fun _ _ => apply_insertRecollectionBasis_of_mem) fun _ => ?_)
    have href := (ref_of_activeRecollectionVersions hu).2.2.1
    have hq := h u (by simpa using (not_or.mp (by simpa using htext)).1) href
      ⟨href ▸ hdup, href ▸ hu⟩
    simp only [Deed.writes, applyAll_append, applyAll_cons, applyAll_nil] at hq
    exact hq

/-- A check that reads only. -/
theorem achieves_reenactable {t : FeedbackTarget} {refs : List String} {R : Bool → Db → Prop}
    (hfalse : R false x)
    (htrue : (∀ ref ∈ refs, ref ∈ t.episodes ∧ alreadyBasis t ref x = false) → R true x) :
    Achieves (reenactable t refs) R x := by
  induction refs with
  | nil => exact htrue fun ref href => absurd href List.not_mem_nil
  | cons ref rest ih =>
    unfold reenactable
    split
    · exact hfalse
    rename_i hmem
    refine Prog.wp_select.mpr ?_
    cases hal : alreadyBasis t ref x with
    | true => exact hfalse
    | false =>
      refine ih fun hrest => htrue fun r hr => ?_
      rcases List.mem_cons.mp hr with rfl | hr
      · exact ⟨by simpa using hmem, hal⟩
      · exact hrest r hr

theorem achieves_appendReenactments {t : FeedbackTarget} {refs : List String} {applied : Bool}
    {R : Bool → Db → Prop}
    (h : ∀ b added, added.Sublist refs → NewRuns t x added →
      R b (applyAll x ((basisRows t.owner.tenantRef t.versionRef .reenactment added).map
        Write.insertSeedBasis))) :
    Achieves (appendReenactments t refs applied) R x := by
  induction refs generalizing x applied with
  | nil => exact h applied [] (List.Sublist.refl _) trivial
  | cons ref rest ih =>
    refine Prog.wp_select.mpr ?_
    cases hc : alreadyContributed t ref x with
    | true =>
      exact ih fun b added hsub hnew => h b added (hsub.cons _) hnew
    | false =>
      simp only [Bool.false_eq_true, if_false]
      refine Prog.wp_bind.mpr (achieves_insertBasis apply_insertSeedBasis_of_mem fun _ => ?_)
      exact ih fun b added hsub hnew => h b (ref :: added) (hsub.cons_cons _) ⟨hc, hnew⟩

theorem achieves_applyReenactment {t : FeedbackTarget} {refs : List String} (hnone : Q {} x)
    (h : ∀ b added, added.Sublist (sortRefs refs) →
      (∀ ref ∈ refs, ref ∈ t.episodes ∧ alreadyBasis t ref x = false) → NewRuns t x added →
      Q ⟨"", b⟩
        (applyAll x (Deed.citeSeed t.owner t.versionRef .reenactment added []).writes)) :
    Achieves (applyReenactment t refs) Q x := by
  refine Prog.wp_bind.mpr (achieves_reenactable hnone fun hall => ?_)
  refine Prog.wp_bind.mpr (achieves_appendReenactments fun b added hsub hnew => ?_)
  have hq := h b added hsub hall hnew
  simp only [Deed.writes, basisRows, List.map_nil, List.append_nil] at hq
  exact hq

theorem achieves_applyInhibition {t : FeedbackTarget} {refs : List String} (hnone : Q {} x)
    (h : ∀ b episodes outcomes, feedbackBasis t refs false = some (episodes, outcomes) →
      Q ⟨"", b⟩
        (applyAll x (Deed.citeSeed t.owner t.versionRef .inhibition episodes outcomes).writes)) :
    Achieves (applyInhibition t refs) Q x := by
  unfold applyInhibition
  cases hbasis : feedbackBasis t refs false with
  | none => exact hnone
  | some basis =>
    obtain ⟨episodes, outcomes⟩ := basis
    refine Prog.wp_bind.mpr (achieves_insertBases
      (fun _ _ => apply_insertSeedBasis_of_mem) fun b => ?_)
    refine Prog.wp_bind.mpr (achieves_insertBases
      (fun _ _ => apply_insertSeedOutcomeBasis_of_mem) fun b' => ?_)
    have hq := h (b || b') episodes outcomes hbasis
    simp only [Deed.writes, applyAll_append] at hq
    exact hq

end

/-! ## Any change -/

/-- Whom a change is about. -/
inductive Addressee
  | newRecollection
  | newDisposition
  | recollection (r : ActiveRecollection)
  | disposition (t : FeedbackTarget)
  | nobody

def WindowState.addressee (w : WindowState) (target : String) : Addressee :=
  if target = targetNewRecollection then .newRecollection
  else if target = targetNewDisposition then .newDisposition
  else
    match w.recollectionOf target with
    | some r => .recollection r
    | none =>
      match targetByRef w.targets target with
      | some t => .disposition t
      | none => .nobody

theorem WindowState.validChange_addressee (w : WindowState) (change : Change) :
    w.validChange change =
      match w.addressee change.target with
      | .newRecollection => w.validRecollectionFormation change
      | .newDisposition => w.validDispositionFormation change
      | .recollection r => w.validRecollectionChange change r
      | .disposition t => w.validDispositionChange change t
      | .nobody => false := by
  unfold WindowState.validChange WindowState.addressee
  split
  · rfl
  split
  · rfl
  cases w.recollectionOf change.target with
  | some r => rfl
  | none => cases targetByRef w.targets change.target <;> rfl

theorem WindowState.recollectionOf_addressee {w : WindowState} {target : String}
    {r : ActiveRecollection} (h : w.addressee target = .recollection r) :
    r ∈ w.recollections ∧ r.versionRef = target := by
  unfold WindowState.addressee at h
  split at h
  · cases h
  split at h
  · cases h
  split at h
  · rename_i r' hr
    cases h
    have hf := List.find?_some hr
    exact ⟨List.mem_of_find?_eq_some hr, by simpa using hf⟩
  · split at h <;> cases h

theorem WindowState.target_addressee {w : WindowState} {target : String} {t : FeedbackTarget}
    (h : w.addressee target = .disposition t) : t ∈ w.targets ∧ t.versionRef = target := by
  unfold WindowState.addressee at h
  split at h
  · cases h
  split at h
  · cases h
  split at h
  · cases h
  · split at h
    · rename_i t' ht
      cases h
      have hf := List.find?_some ht
      exact ⟨List.mem_of_find?_eq_some ht, by simpa using hf⟩
    · cases h

/-- What a change of a loaded window may do, and what it reports.  `x` is the store the
change is applied to. -/
inductive Licensed (store : Store) (env : Ambient) (jobRef : String) (w : WindowState)
    (change : Change) (x : Db) : Applied → Deed → Prop
  | nothing : Licensed store env jobRef w change x {} .nothing
  | formRecollection {row : RecollectionVersionRow} {basis : List String}
      (htarget : w.addressee change.target = .newRecollection)
      (hbasis : eligibleRecollectionBasis change.basisRefs w.episodeOf = some basis)
      (htext : change.blank = false)
      (hrow : row = firstRecollectionVersion env (windowOwner w.episodes) jobRef
        change.application.lower (trimSpace change.text)
        (store.recollectionFormationRef (windowOwner w.episodes) jobRef change.application.lower
          (trimSpace change.text) basis)) :
      Licensed store env jobRef w change x ⟨row.ref, true⟩
        (.formRecollection (windowOwner w.episodes) row (sortRefs basis))
  | keep {r : ActiveRecollection} (b : Bool) (hr : w.addressee change.target = .recollection r)
      (hop : change.operation = .keep) :
      Licensed store env jobRef w change x ⟨"", b⟩
        (.citeRecollection r.owner r.versionRef (sortRefs change.basisRefs))
  | reviseRecollection {r : ActiveRecollection} {u : RecollectionVersionRow}
      (hr : w.addressee change.target = .recollection r) (hop : change.operation = .text)
      (htext : trimSpace change.text ≠ "") (hu : u.ref = r.versionRef) :
      Licensed store env jobRef w change x
        ⟨(r.next env jobRef (trimSpace change.text)).ref, true⟩
        (.reviseRecollection r.owner u (r.next env jobRef (trimSpace change.text))
          (sortRefs change.basisRefs))
  | formSeed {row : SeedVersionRow} {episodes outcomes : List String}
      (htarget : w.addressee change.target = .newDisposition)
      (hop : change.operation = .text ∨ change.operation = .adapt)
      (hbasis : formationBasis w change = some (episodes, outcomes)) (htext : change.blank = false)
      (hrow : row = firstSeedVersion (windowOwner w.episodes) jobRef (trimSpace change.text)
        (store.seedFormationRef (windowOwner w.episodes) jobRef (trimSpace change.text) episodes
          outcomes)) :
      Licensed store env jobRef w change x ⟨row.ref, true⟩
        (.formSeed (windowOwner w.episodes) row episodes outcomes)
  | reenact {t : FeedbackTarget} {added : List String} (b : Bool)
      (ht : w.addressee change.target = .disposition t) (hop : change.operation = .reenact)
      (hall : ∀ ref ∈ change.basisRefs, ref ∈ t.episodes ∧ alreadyBasis t ref x = false)
      (hadded : added.Sublist (sortRefs change.basisRefs)) (hnew : NewRuns t x added) :
      Licensed store env jobRef w change x ⟨"", b⟩
        (.citeSeed t.owner t.versionRef .reenactment added [])
  | inhibit {t : FeedbackTarget} {episodes outcomes : List String} (b : Bool)
      (ht : w.addressee change.target = .disposition t) (hop : change.operation = .inhibit)
      (hbasis : feedbackBasis t change.basisRefs false = some (episodes, outcomes)) :
      Licensed store env jobRef w change x ⟨"", b⟩
        (.citeSeed t.owner t.versionRef .inhibition episodes outcomes)
  | reviseSeed {t : FeedbackTarget} {u : SeedVersionRow} {episodes outcomes : List String}
      (ht : w.addressee change.target = .disposition t)
      (hop : change.operation = .text ∨ change.operation = .adapt)
      (hbasis : revisionBasis t change = some (episodes, outcomes)) (htext : change.text ≠ "")
      (hu : u.ref = t.versionRef) :
      Licensed store env jobRef w change x ⟨(t.next jobRef change.text).ref, true⟩
        (.reviseSeed t.owner u (t.next jobRef change.text) episodes outcomes)

/-- The change did one licensed deed. -/
structure Carried (store : Store) (env : Ambient) (jobRef : String) (w : WindowState)
    (change : Change) (x : Db) (a : Applied) (deed : Deed) (y : Db) : Prop where
  licensed : Licensed store env jobRef w change x a deed
  fits : deed.Fits x
  did : x.Did deed y

section

variable {store : Store} {env : Ambient} {jobRef : String} {w : WindowState} {change : Change}
variable {x : Db}

theorem did_writes (x : Db) (deed : Deed) : x.Did deed (applyAll x deed.writes) :=
  ⟨(applyAll x deed.writes).indexOperations, rfl⟩

theorem did_nothing (x : Db) : x.Did .nothing x := did_writes x .nothing

theorem carried_nothing :
    Carried store env jobRef w change x {} .nothing x :=
  ⟨.nothing, trivial, did_nothing x⟩

abbrev Carries (store : Store) (env : Ambient) (jobRef : String) (w : WindowState)
    (change : Change) (x : Db) (a : Applied) (y : Db) : Prop :=
  ∃ deed, Carried store env jobRef w change x a deed y

/-! Each function of a change, without the outbox. -/

theorem carries_recollectionFormation (htarget : w.addressee change.target = .newRecollection) :
    Achieves (store.applyRecollectionFormation env w jobRef change)
      (Carries store env jobRef w change x) x := by
  have hnone : Carries store env jobRef w change x {} x := ⟨_, carried_nothing⟩
  unfold Store.applyRecollectionFormation
  cases hbasis : eligibleRecollectionBasis change.basisRefs w.episodeOf with
  | none => exact hnone
  | some basis =>
    dsimp only
    split
    · exact hnone
    rename_i hop
    refine achieves_formRecollection hnone fun row hrow hfits => ?_
    exact ⟨_, .formRecollection htarget hbasis (by simp_all) hrow, hfits, did_writes x _⟩

theorem carries_dispositionFormation (htarget : w.addressee change.target = .newDisposition) :
    Achieves (store.applyDispositionFormation w jobRef change)
      (Carries store env jobRef w change x) x := by
  have hnone : Carries store env jobRef w change x {} x := ⟨_, carried_nothing⟩
  unfold Store.applyDispositionFormation
  dsimp only
  split
  · exact hnone
  rename_i hop
  cases hbasis : formationBasis w change with
  | none => exact hnone
  | some basis =>
    obtain ⟨episodes, outcomes⟩ := basis
    refine achieves_formSeed hnone fun row hrow hfits => ?_
    have hop' : change.operation = .text ∨ change.operation = .adapt := by
      by_contra hno
      simp_all
    exact ⟨_, .formSeed htarget hop' hbasis (by simp_all) hrow, hfits, did_writes x _⟩

theorem carries_recollectionKeep {r : ActiveRecollection}
    (hr : w.addressee change.target = .recollection r) (hop : change.operation = .keep) :
    Achieves (Store.applyRecollectionKeep r change.basisRefs)
      (Carries store env jobRef w change x) x :=
  achieves_applyRecollectionKeep fun b => ⟨_, .keep b hr hop, trivial, did_writes x _⟩

theorem carries_recollectionRevision {r : ActiveRecollection}
    (hr : w.addressee change.target = .recollection r) (hop : change.operation = .text) :
    Achieves (Store.applyRecollectionRevision env jobRef r change)
      (Carries store env jobRef w change x) x := by
  refine achieves_applyRecollectionRevision ⟨_, carried_nothing⟩ fun u htext hu hfits => ?_
  exact ⟨_, .reviseRecollection hr hop htext hu, hfits, did_writes x _⟩

theorem carries_reenactment {t : FeedbackTarget} (ht : w.addressee change.target = .disposition t)
    (hop : change.operation = .reenact) :
    Achieves (applyReenactment t change.basisRefs) (Carries store env jobRef w change x) x := by
  refine achieves_applyReenactment ⟨_, carried_nothing⟩ fun b added hsub hall hnew => ?_
  exact ⟨_, .reenact b ht hop hall hsub hnew, trivial, did_writes x _⟩

theorem carries_inhibition {t : FeedbackTarget} (ht : w.addressee change.target = .disposition t)
    (hop : change.operation = .inhibit) :
    Achieves (applyInhibition t change.basisRefs) (Carries store env jobRef w change x) x := by
  refine achieves_applyInhibition ⟨_, carried_nothing⟩ fun b episodes outcomes hbasis => ?_
  exact ⟨_, .inhibit b ht hop hbasis, trivial, did_writes x _⟩

theorem carries_revision {t : FeedbackTarget} (ht : w.addressee change.target = .disposition t)
    (hop : change.operation = .text ∨ change.operation = .adapt) :
    Achieves (applyRevision jobRef t change) (Carries store env jobRef w change x) x := by
  refine achieves_applyRevision ⟨_, carried_nothing⟩ fun u episodes outcomes hbasis htext hu hfits => ?_
  exact ⟨_, .reviseSeed ht hop hbasis htext hu, hfits, did_writes x _⟩

/-! The outbox. -/

theorem Carries.outbox {a : Applied} {y : Db} (h : Carries store env jobRef w change x a y)
    (operations : List IndexOperationRow) :
    Carries store env jobRef w change x a { y with indexOperations := operations } := by
  obtain ⟨deed, hl, hf, operations', rfl⟩ := h
  exact ⟨deed, hl, hf, operations, rfl⟩

theorem emits_projectFormation (store : Store) (kind : DocumentKind) (owner : OwnerScope)
    (a : Applied) : (store.projectFormation kind owner a).Emits
      fun w => ∃ r, w = .insertIndexOperation r := by
  unfold Store.projectFormation
  split
  · exact Prog.Emits.bind (emits_enqueueMemoryIndexOperation store _ _ _ _ _ _ fun r => ⟨r, rfl⟩)
      fun _ => trivial
  · exact trivial

theorem emits_projectRevision (store : Store) (kind : DocumentKind) (rootRef oldRef : String)
    (owner : OwnerScope) (a : Applied) : (store.projectRevision kind rootRef oldRef owner a).Emits
      fun w => ∃ r, w = .insertIndexOperation r := by
  unfold Store.projectRevision
  split
  · exact Prog.Emits.bind (Prog.Emits.bind
      (emits_enqueueMemoryIndexOperation store _ _ _ _ _ _ fun r => ⟨r, rfl⟩)
      fun _ => emits_enqueueMemoryIndexOperation store _ _ _ _ _ _ fun r => ⟨r, rfl⟩)
      fun _ => trivial
  · exact trivial

end

end ChoraMem
