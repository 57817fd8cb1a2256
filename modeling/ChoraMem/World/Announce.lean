/-
The operations of a consolidation.

A deed that makes a version has causes, one for the version and one for the version it takes
the place of, and the change announces just these.  So after a batch the causes of all its
versions are announced, and what was announced has its cause in the rows.
-/
import ChoraMem.World.Intake

namespace ChoraMem

open Txn Versions

/-! ## Causes of deeds -/

/-- The causes of the version that a deed makes. -/
def Deed.causes : Deed → List Cause
  | .formSeed owner row _ _ | .reviseSeed owner _ row _ _ =>
    versionCauses .disposition owner row.seedRef row.number
  | .formRecollection owner row _ | .reviseRecollection owner _ row _ =>
    versionCauses .recollection owner row.recollectionRef row.number
  | _ => []

section

variable {x y d : Db} {deed : Deed} {c : Cause}

/-- The causes of Memory, read off its shelves. -/
theorem mem_memoryCauses_shelves : c ∈ memoryCauses d ↔
    (∃ owner root n, d.recollectionShelf.Has recollectionFormat owner root n ∧
      c ∈ versionCauses .recollection owner root n) ∨
    ∃ owner root n, d.seedShelf.Has seedFormat owner root n ∧
      c ∈ versionCauses .disposition owner root n := by
  rw [mem_memoryCauses]
  constructor
  · intro h
    rcases h with ⟨root, hroot, v, hv, href, hc⟩ | ⟨root, hroot, v, hv, href, hc⟩
    · exact Or.inl ⟨root.owner, root.ref, v.number, ⟨⟨root, hroot, rfl⟩, v, hv, href, rfl⟩, hc⟩
    · exact Or.inr ⟨root.owner, root.ref, v.number, ⟨⟨root, hroot, rfl⟩, v, hv, href, rfl⟩, hc⟩
  · intro h
    rcases h with ⟨owner, root, n, ⟨hroot, v, hv, href, rfl⟩, hc⟩ |
      ⟨owner, root, n, ⟨hroot, v, hv, href, rfl⟩, hc⟩
    · exact Or.inl ⟨_, Db.mem_recollectionShelf_roots.mp hroot, v, hv, href, hc⟩
    · exact Or.inr ⟨_, Db.mem_seedShelf_roots.mp hroot, v, hv, href, hc⟩

theorem recollection_owned (hfits : deed.Fits x) (hreg : deed.Regular x)
    {row : RecollectionVersionRow} (hrow : deed.recollectionRow? = some row) :
    ∃ owner, deed.owner? = some owner ∧
      (owner, row.recollectionRef) ∈ (applyAll x deed.writes).recollectionShelf.roots := by
  cases deed with
  | formRecollection owner row' basis =>
    obtain rfl := Option.some.inj hrow
    refine ⟨owner, rfl, Db.mem_recollectionShelf_roots.mpr ?_⟩
    refine (gains_applyAll (x.apply (.insertRecollection ⟨owner, row'.recollectionRef⟩)) _).recollections
      (mem_insertRow.mpr (Or.inr ⟨rfl, fun r hr href => ?_⟩))
    exact Bool.eq_false_iff.mp hfits.2 (List.any_eq_true.mpr ⟨r, hr, decide_eq_true href⟩)
  | reviseRecollection owner u row' basis =>
    obtain rfl := Option.some.inj hrow
    obtain ⟨r, hr, hroot, rfl⟩ := Db.recollectionShelf_owns.mp hreg.1
    refine ⟨r.owner, rfl, Db.mem_recollectionShelf_roots.mpr ?_⟩
    have href : row'.recollectionRef = u.recollectionRef := hreg.2.1.root
    rw [href, ← hroot]
    exact (gains_applyAll x _).recollections hr
  | _ => cases hrow

theorem seed_owned (hfits : deed.Fits x) (hreg : deed.Regular x) {row : SeedVersionRow}
    (hrow : deed.seedRow? = some row) : ∃ owner, deed.owner? = some owner ∧
      (owner, row.seedRef) ∈ (applyAll x deed.writes).seedShelf.roots := by
  cases deed with
  | formSeed owner row' episodes outcomes =>
    obtain rfl := Option.some.inj hrow
    refine ⟨owner, rfl, Db.mem_seedShelf_roots.mpr ?_⟩
    refine (gains_applyAll (x.apply (.insertSeed ⟨owner, row'.seedRef⟩)) _).seeds
      (mem_insertRow.mpr (Or.inr ⟨rfl, fun r hr href => ?_⟩))
    exact Bool.eq_false_iff.mp hfits.2 (List.any_eq_true.mpr ⟨r, hr, decide_eq_true href⟩)
  | reviseSeed owner u row' episodes outcomes =>
    obtain rfl := Option.some.inj hrow
    obtain ⟨r, hr, hroot, rfl⟩ := Db.seedShelf_owns.mp hreg.1
    refine ⟨r.owner, rfl, Db.mem_seedShelf_roots.mpr ?_⟩
    have href : row'.seedRef = u.seedRef := hreg.2.1.root
    rw [href, ← hroot]
    exact (gains_applyAll x _).seeds hr
  | _ => cases hrow

theorem recollection_has (h : MemoryLaw x) (hfits : deed.Fits x) (hreg : deed.Regular x)
    {owner : OwnerScope} {root : String} {n : Nat} :
    (applyAll x deed.writes).recollectionShelf.Has recollectionFormat owner root n ↔
      x.recollectionShelf.Has recollectionFormat owner root n ∨
      ∃ row, deed.recollectionRow? = some row ∧ deed.owner? = some owner ∧
        row.recollectionRef = root ∧ row.number = n := by
  rcases recollection_step h hfits hreg with ⟨heq, hnone⟩ | ⟨step, hstep, _⟩
  · rw [heq, hnone]
    simp
  · rw [hstep.run]
    refine Shelf.has_run h.recollections hstep.allowed hstep.added fun v hv => ?_
    rw [← hstep.run]
    exact recollection_owned hfits hreg hv

theorem seed_has (h : MemoryLaw x) (hfits : deed.Fits x) (hreg : deed.Regular x)
    {owner : OwnerScope} {root : String} {n : Nat} :
    (applyAll x deed.writes).seedShelf.Has seedFormat owner root n ↔
      x.seedShelf.Has seedFormat owner root n ∨
      ∃ row, deed.seedRow? = some row ∧ deed.owner? = some owner ∧
        row.seedRef = root ∧ row.number = n := by
  rcases seed_step h hfits hreg with ⟨heq, hnone⟩ | ⟨step, hstep, _⟩
  · rw [heq, hnone]
    simp
  · rw [hstep.run]
    refine Shelf.has_run h.seeds hstep.allowed hstep.added fun v hv => ?_
    rw [← hstep.run]
    exact seed_owned hfits hreg hv

/-- A deed adds its causes, and takes none away. -/
theorem deed_causes (h : MemoryLaw x) (hfits : deed.Fits x) (hreg : deed.Regular x)
    (hdid : x.Did deed y) : c ∈ memoryCauses y ↔ c ∈ memoryCauses x ∨ c ∈ deed.causes := by
  obtain ⟨operations, rfl⟩ := hdid
  have hbeside : memoryCauses { applyAll x deed.writes with indexOperations := operations } =
      memoryCauses (applyAll x deed.writes) := rfl
  have hcauses : c ∈ deed.causes ↔
      (∃ owner root n, (∃ row, deed.recollectionRow? = some row ∧ deed.owner? = some owner ∧
        row.recollectionRef = root ∧ row.number = n) ∧
          c ∈ versionCauses .recollection owner root n) ∨
      ∃ owner root n, (∃ row, deed.seedRow? = some row ∧ deed.owner? = some owner ∧
        row.seedRef = root ∧ row.number = n) ∧ c ∈ versionCauses .disposition owner root n := by
    cases deed <;> simp [Deed.causes, Deed.recollectionRow?, Deed.seedRow?, Deed.owner?]
  rw [hbeside, mem_memoryCauses_shelves, mem_memoryCauses_shelves, hcauses]
  simp only [recollection_has h hfits hreg, seed_has h hfits hreg, or_and_right, exists_or]
  exact or_or_or_comm

end

/-! ## What a change announces -/

def formationCauses (kind : DocumentKind) (owner : OwnerScope) (a : Applied) : List Cause :=
  if a.applied then
    [{ action := .upsert, kind := kind, documentRef := a.versionRef, owner := owner,
       streamIdentity := Store.versionRootRef a.versionRef, fields := [a.versionRef] }]
  else []

def revisionCauses (kind : DocumentKind) (rootRef oldRef : String) (owner : OwnerScope)
    (a : Applied) : List Cause :=
  if a.applied && a.versionRef != "" then
    [{ action := .delete, kind := kind, documentRef := oldRef, owner := owner,
       streamIdentity := rootRef, fields := [a.versionRef] },
     { action := .upsert, kind := kind, documentRef := a.versionRef, owner := owner,
       streamIdentity := rootRef, fields := [a.versionRef] }]
  else []

/-- The operations that follow a change, by what it did. -/
def WindowState.announces (w : WindowState) (change : Change) (a : Applied) : List Cause :=
  match w.addressee change.target with
  | .newRecollection => formationCauses .recollection (windowOwner w.episodes) a
  | .newDisposition => formationCauses .disposition (windowOwner w.episodes) a
  | .recollection r =>
    match change.operation with
    | .text => revisionCauses .recollection r.recollection r.versionRef r.owner a
    | _ => []
  | .disposition t =>
    match change.operation with
    | .text | .adapt => revisionCauses .disposition t.seedRef t.versionRef t.owner a
    | _ => []
  | .nobody => []

/-- The part of a version's ref before its number. -/
theorem versionRootRef_versionRefOf {root : String} (h : root ≠ "") (n : Nat) :
    Store.versionRootRef (versionRefOf root n) = root := by
  have hlist : (versionRefOf root n).toList = root.toList ++ '@' :: Nat.toDigits 10 n := by
    simp only [versionRefOf, String.toList_append, Nat.toString_eq_ofList_toDigits,
      String.toList_ofList, List.append_assoc]
    rfl
  have htail : ((versionRefOf root n).toList.reverse.dropWhile (· != '@')).drop 1 =
      root.toList.reverse := by
    have hdigits : ∀ c ∈ (Nat.toDigits 10 n).reverse, (c != '@') = true := by
      intro c hc
      refine bne_iff_ne.mpr fun heq => at_not_mem_toDigits n ?_
      rw [← heq]
      exact List.mem_reverse.mp hc
    rw [hlist, List.reverse_append, List.reverse_cons, List.append_assoc,
      List.dropWhile_append_of_pos hdigits]
    simp
  have hne : root.toList.reverse.isEmpty = false := by
    rw [List.isEmpty_reverse]
    refine Bool.eq_false_iff.mpr fun hempty => h ?_
    rw [← String.toList_inj, List.isEmpty_iff.mp hempty]
    rfl
  unfold Store.versionRootRef
  rw [htail]
  simp only [hne, Bool.false_eq_true, if_false, List.reverse_reverse, String.ofList_toList]

section

variable {store : Store} {env : Ambient} {jobRef : String} {w : WindowState} {change : Change}
variable {x d : Db} {a : Applied} {deed : Deed} {c : Cause} {o : OwnerScope → Prop}
variable {known : String → String → Prop}

theorem formationCauses_first {kind : DocumentKind} {owner : OwnerScope} {root : String}
    (h : root ≠ "") :
    formationCauses kind owner ⟨versionRefOf root 1, true⟩ = versionCauses kind owner root 1 := by
  simp [formationCauses, versionCauses, versionRootRef_versionRefOf h]

theorem mem_revisionCauses {kind : DocumentKind} {owner : OwnerScope} {root oldRef : String}
    {n : Nat} (hn : 1 ≤ n) (hold : oldRef = versionRefOf root n) :
    c ∈ revisionCauses kind root oldRef owner ⟨versionRefOf root (n + 1), true⟩ ↔
      c ∈ versionCauses kind owner root (n + 1) := by
  have hne : (versionRefOf root (n + 1) != "") = true := bne_iff_ne.mpr (versionRefOf_ne_empty _ _)
  have hlater : ¬n + 1 ≤ 1 := by omega
  simp only [revisionCauses, versionCauses, hold, hne, Bool.and_self, if_true, if_neg hlater,
    Nat.add_sub_cancel, List.mem_cons, List.not_mem_nil, or_false]
  exact or_comm

theorem recollectionFormationRef_ne (owner : OwnerScope) (jobRef application text : String)
    (basis : List String) :
    store.recollectionFormationRef owner jobRef application text basis ≠ "" := by
  intro h
  have hl := congrArg String.toList h
  simp [Store.recollectionFormationRef] at hl

theorem seedFormationRef_ne (owner : OwnerScope) (jobRef tendency : String)
    (episodes outcomes : List String) :
    store.seedFormationRef owner jobRef tendency episodes outcomes ≠ "" := by
  intro h
  have hl := congrArg String.toList h
  simp [Store.seedFormationRef] at hl

/-- A change announces the causes of its deed. -/
theorem Licensed.announces (h : Licensed store env jobRef w change x a deed)
    (hw : w.Held o d known) (hx : MemoryLaw x) (hfits : deed.Fits x) :
    c ∈ w.announces change a ↔ c ∈ deed.causes := by
  unfold WindowState.announces
  cases h with
  | nothing =>
    cases w.addressee change.target <;>
      simp only [formationCauses, revisionCauses, Deed.causes, Bool.false_and] <;>
      first | rfl | (split <;> rfl)
  | formRecollection htarget hbasis htext hrow =>
    subst hrow
    rw [htarget]
    show c ∈ formationCauses .recollection _ ⟨versionRefOf _ 1, true⟩ ↔ _
    rw [formationCauses_first (recollectionFormationRef_ne _ _ _ _ _)]
    rfl
  | formSeed htarget hop hbasis htext hrow =>
    subst hrow
    rw [htarget]
    show c ∈ formationCauses .disposition _ ⟨versionRefOf _ 1, true⟩ ↔ _
    rw [formationCauses_first (seedFormationRef_ne _ _ _ _ _)]
    rfl
  | keep b hr hop =>
    rw [hr, hop]
    rfl
  | reenact b ht hop =>
    rw [ht, hop]
    rfl
  | inhibit b ht hop =>
    rw [ht, hop]
    rfl
  | @reviseRecollection r u hr hop htext hu =>
    have hheld := hw.recollections r (WindowState.recollectionOf_addressee hr).1
    have humem := (ref_of_activeRecollectionVersions hfits.2).1
    have hnumber : 1 ≤ r.versionNumber := by
      have hcount : 1 ≤ u.number := hx.recollections.counted u humem
      rwa [(recollectionRoot_of_ref hx humem (hu.trans hheld.name)).2] at hcount
    rw [hr, hop]
    exact mem_revisionCauses hnumber hheld.name
  | @reviseSeed t u episodes outcomes ht hop hbasis htext hu =>
    have hheld := hw.targets t (WindowState.target_addressee ht).1
    have humem := (ref_of_activeSeedVersions hfits.2).1
    have hnumber : 1 ≤ t.versionNumber := by
      have hcount : 1 ≤ u.number := hx.seeds.counted u humem
      rwa [(seedRoot_of_ref hx humem (hu.trans hheld.name)).2] at hcount
    rw [ht]
    rcases hop with hop | hop
    · rw [hop]
      exact mem_revisionCauses hnumber hheld.name
    · rw [hop]
      exact mem_revisionCauses hnumber hheld.name

end

end ChoraMem
