/-
The law of Memory, and deeds as steps of a shelf.

A deed that fits the store it is done in is one allowed step of the Seeds' shelf or of
the Recollections' shelf, and leaves the other shelf alone.  So the law of shelves
holds after it, old versions stay what they were, and nothing of another owner
changes.
-/
import ChoraMem.Memory.Deeds
import ChoraMem.Selection.Usable

namespace ChoraMem

open Txn Versions

/-- A version is in its owner's tenant and has a text. -/
def seedTag (owner : OwnerScope) (v : SeedVersionRow) : Prop :=
  v.tenantRef = owner.tenantRef ∧ v.tendency ≠ ""

def recollectionTag (owner : OwnerScope) (v : RecollectionVersionRow) : Prop :=
  v.tenantRef = owner.tenantRef

/-- The law of the Memory tables. -/
structure MemoryLaw (d : Db) : Prop where
  keys : UniqueMemory d
  seeds : d.seedShelf.Lawful seedFormat
  recollections : d.recollectionShelf.Lawful recollectionFormat
  seedTags : Shelf.Tagged seedFormat seedTag d.seedShelf
  recollectionTags : Shelf.Tagged recollectionFormat recollectionTag d.recollectionShelf

theorem memoryLaw_empty : MemoryLaw {} where
  keys := ⟨List.nodup_nil, List.nodup_nil, List.nodup_nil, List.nodup_nil⟩
  seeds := by
    have h : ({} : Db).seedShelf = Shelf.empty := by
      ext x
      · simp [Db.seedShelf, Shelf.empty]
      · simp [Db.seedShelf, Shelf.empty]
      · cases x <;> simp [Db.seedShelf, Shelf.empty]
    rw [h]
    exact Shelf.lawful_empty seedFormat
  recollections := by
    have h : ({} : Db).recollectionShelf = Shelf.empty := by
      ext x <;> simp [Db.recollectionShelf, Shelf.empty]
    rw [h]
    exact Shelf.lawful_empty recollectionFormat
  seedTags := fun v hv => absurd hv List.not_mem_nil
  recollectionTags := fun v hv => absurd hv List.not_mem_nil

/-- Memory does not read the other tables. -/
theorem MemoryLaw.congr {d d' : Db} (h : MemoryLaw d) (hs : d'.seeds = d.seeds)
    (hsv : d'.seedVersions = d.seedVersions) (hsb : d'.seedBasis = d.seedBasis)
    (hso : d'.seedOutcomeBasis = d.seedOutcomeBasis) (hr : d'.recollections = d.recollections)
    (hrv : d'.recollectionVersions = d.recollectionVersions)
    (hrb : d'.recollectionBasis = d.recollectionBasis) : MemoryLaw d' := by
  obtain ⟨⟨h₁, h₂, h₃, h₄⟩, hseeds, hrecollections, hst, hrt⟩ := h
  have hshelf : d'.seedShelf = d.seedShelf :=
    Db.seedShelf_congr (by simp [hs]) (by simp [hsv]) (by simp [hsb]) (by simp [hso])
  have hshelf' : d'.recollectionShelf = d.recollectionShelf :=
    Db.recollectionShelf_congr (by simp [hr]) (by simp [hrv]) (by simp [hrb])
  constructor
  · exact ⟨by rw [hs]; exact h₁, by rw [hsv]; exact h₂, by rw [hr]; exact h₃, by rw [hrv]; exact h₄⟩
  · rw [hshelf]
    exact hseeds
  · rw [hshelf']
    exact hrecollections
  · rw [hshelf]
    exact hst
  · rw [hshelf']
    exact hrt

theorem MemoryLaw.seedTenant {d : Db} (h : MemoryLaw d) {v : SeedVersionRow}
    (hv : v ∈ d.seedVersions) {s : SeedRow} (hs : s ∈ d.seeds) (href : s.ref = v.seedRef) :
    v.tenantRef = s.owner.tenantRef :=
  (h.seedTags v hv s.root ⟨s, hs, rfl⟩ href).1

theorem MemoryLaw.recollectionTenant {d : Db} (h : MemoryLaw d) {v : RecollectionVersionRow}
    (hv : v ∈ d.recollectionVersions) {r : RecollectionRow} (hr : r ∈ d.recollections)
    (href : r.ref = v.recollectionRef) : v.tenantRef = r.owner.tenantRef :=
  h.recollectionTags v hv r.root ⟨r, hr, rfl⟩ href

theorem MemoryLaw.seedName {d : Db} (h : MemoryLaw d) {v : SeedVersionRow} (hv : v ∈ d.seedVersions) :
    v.ref = versionRefOf v.seedRef v.number :=
  h.seeds.named v hv

theorem MemoryLaw.recollectionName {d : Db} (h : MemoryLaw d) {v : RecollectionVersionRow}
    (hv : v ∈ d.recollectionVersions) : v.ref = versionRefOf v.recollectionRef v.number :=
  h.recollections.named v hv

theorem MemoryLaw.tendency {d : Db} (h : MemoryLaw d) {v : SeedVersionRow}
    (hv : v ∈ d.seedVersions) : v.tendency ≠ "" := by
  obtain ⟨r, hr, href⟩ := h.seeds.rooted v hv
  exact (h.seedTags v hv r hr href).2

/-! ## What written rows do to a shelf -/

section

variable {x : Db}

theorem seedShelf_insertSeed {r : SeedRow} (h : ∀ s ∈ x.seeds, s.ref ≠ r.ref) :
    (x.apply (.insertSeed r)).seedShelf =
      { x.seedShelf with roots := insert r.root x.seedShelf.roots } := by
  ext a
  · simp only [Db.mem_seedShelf_roots, Set.mem_insert_iff, Db.apply]
    rw [insertRow_fresh h, List.mem_append, List.mem_singleton, or_comm]
    refine or_congr ⟨fun ha => ?_, fun ha => ?_⟩ Iff.rfl
    · rw [← ha]
      rfl
    · rw [ha]
      rfl
  · exact Iff.rfl
  · exact Iff.rfl

theorem seedShelf_insertSeedVersion {r : SeedVersionRow} (h : ∀ v ∈ x.seedVersions, v.ref ≠ r.ref) :
    (x.apply (.insertSeedVersion r)).seedShelf =
      { x.seedShelf with versions := insert r x.seedShelf.versions } := by
  ext a
  · exact Iff.rfl
  · simp only [Db.mem_seedShelf_versions, Set.mem_insert_iff, Db.apply]
    rw [insertRow_fresh h, List.mem_append, List.mem_singleton, or_comm]
  · exact Iff.rfl

theorem seedShelf_updateSeedVersion {u : SeedVersionRow} (hk : KeysUnique SeedVersionRow.ref x.seedVersions)
    (hu : u ∈ x.seedVersions) (u' : SeedVersionRow) (href : u'.ref = u.ref) :
    (x.apply (.updateSeedVersion u')).seedShelf =
      { x.seedShelf with versions := insert u' (x.seedShelf.versions \ {u}) } := by
  ext a
  · exact Iff.rfl
  · simp only [Db.mem_seedShelf_versions, Set.mem_insert_iff, Set.mem_sdiff, Set.mem_singleton_iff,
      Db.apply]
    rw [mem_updateRow, or_comm]
    refine or_congr Iff.rfl (and_congr_right fun ha => ?_)
    rw [href]
    exact ⟨fun hne hau => hne (by rw [hau]), fun hne hr => hne (hk.eq ha hu hr)⟩
  · exact Iff.rfl

theorem seedShelf_insertSeedBases (rows : List BasisRow) :
    (applyAll x (rows.map Write.insertSeedBasis)).seedShelf =
      { x.seedShelf with cites := x.seedShelf.cites ∪ {c | ∃ b ∈ rows, c = .episode b} } := by
  induction rows generalizing x with
  | nil =>
    ext a
    · exact Iff.rfl
    · exact Iff.rfl
    · simp
  | cons r rest ih =>
    rw [List.map_cons, applyAll_cons, ih]
    ext a
    · exact Iff.rfl
    · exact Iff.rfl
    · cases a with
      | episode b =>
        show (b ∈ insertRow id r x.seedBasis ∨ _) ↔ (b ∈ x.seedBasis ∨ _)
        rw [mem_insertRow_id]
        simp [or_assoc]
      | outcome b =>
        show (b ∈ x.seedOutcomeBasis ∨ _) ↔ (b ∈ x.seedOutcomeBasis ∨ _)
        simp

theorem seedShelf_insertSeedOutcomeBases (rows : List BasisRow) :
    (applyAll x (rows.map Write.insertSeedOutcomeBasis)).seedShelf =
      { x.seedShelf with cites := x.seedShelf.cites ∪ {c | ∃ b ∈ rows, c = .outcome b} } := by
  induction rows generalizing x with
  | nil =>
    ext a
    · exact Iff.rfl
    · exact Iff.rfl
    · simp
  | cons r rest ih =>
    rw [List.map_cons, applyAll_cons, ih]
    ext a
    · exact Iff.rfl
    · exact Iff.rfl
    · cases a with
      | outcome b =>
        show (b ∈ insertRow id r x.seedOutcomeBasis ∨ _) ↔ (b ∈ x.seedOutcomeBasis ∨ _)
        rw [mem_insertRow_id]
        simp [or_assoc]
      | episode b =>
        show (b ∈ x.seedBasis ∨ _) ↔ (b ∈ x.seedBasis ∨ _)
        simp

theorem recollectionShelf_insertRecollection {r : RecollectionRow}
    (h : ∀ s ∈ x.recollections, s.ref ≠ r.ref) :
    (x.apply (.insertRecollection r)).recollectionShelf =
      { x.recollectionShelf with roots := insert r.root x.recollectionShelf.roots } := by
  ext a
  · simp only [Db.mem_recollectionShelf_roots, Set.mem_insert_iff, Db.apply]
    rw [insertRow_fresh h, List.mem_append, List.mem_singleton, or_comm]
    refine or_congr ⟨fun ha => ?_, fun ha => ?_⟩ Iff.rfl
    · rw [← ha]
      rfl
    · rw [ha]
      rfl
  · exact Iff.rfl
  · exact Iff.rfl

theorem recollectionShelf_insertRecollectionVersion {r : RecollectionVersionRow}
    (h : ∀ v ∈ x.recollectionVersions, v.ref ≠ r.ref) :
    (x.apply (.insertRecollectionVersion r)).recollectionShelf =
      { x.recollectionShelf with versions := insert r x.recollectionShelf.versions } := by
  ext a
  · exact Iff.rfl
  · simp only [Db.mem_recollectionShelf_versions, Set.mem_insert_iff, Db.apply]
    rw [insertRow_fresh h, List.mem_append, List.mem_singleton, or_comm]
  · exact Iff.rfl

theorem recollectionShelf_updateRecollectionVersion {u : RecollectionVersionRow}
    (hk : KeysUnique RecollectionVersionRow.ref x.recollectionVersions)
    (hu : u ∈ x.recollectionVersions) (u' : RecollectionVersionRow) (href : u'.ref = u.ref) :
    (x.apply (.updateRecollectionVersion u')).recollectionShelf =
      { x.recollectionShelf with versions := insert u' (x.recollectionShelf.versions \ {u}) } := by
  ext a
  · exact Iff.rfl
  · simp only [Db.mem_recollectionShelf_versions, Set.mem_insert_iff, Set.mem_sdiff,
      Set.mem_singleton_iff, Db.apply]
    rw [mem_updateRow, or_comm]
    refine or_congr Iff.rfl (and_congr_right fun ha => ?_)
    rw [href]
    exact ⟨fun hne hau => hne (by rw [hau]), fun hne hr => hne (hk.eq ha hu hr)⟩
  · exact Iff.rfl

theorem recollectionShelf_insertRecollectionBases (rows : List BasisRow) :
    (applyAll x (rows.map Write.insertRecollectionBasis)).recollectionShelf =
      { x.recollectionShelf with cites := x.recollectionShelf.cites ∪ {b | b ∈ rows} } := by
  induction rows generalizing x with
  | nil =>
    ext a
    · exact Iff.rfl
    · exact Iff.rfl
    · simp
  | cons r rest ih =>
    rw [List.map_cons, applyAll_cons, ih]
    ext a
    · exact Iff.rfl
    · exact Iff.rfl
    · show (a ∈ insertRow id r x.recollectionBasis ∨ _) ↔ (a ∈ x.recollectionBasis ∨ _)
      rw [mem_insertRow_id]
      simp [or_assoc]

end

/-! ## Catalogues -/

section

variable {x : Db} {owner : OwnerScope}

theorem mem_ownedDispositions {a : ActiveDisposition} :
    a ∈ ownedDispositions owner x ↔ ∃ s ∈ x.seeds, s.owner = owner ∧ ∃ v ∈ x.seedVersions,
      v.tenantRef = owner.tenantRef ∧ v.seedRef = s.ref ∧ v.status = .active ∧
      a = { seedRef := v.seedRef, versionNumber := v.number, versionRef := v.ref,
            tendency := v.tendency, owner := owner } := by
  unfold ownedDispositions
  simp only [List.mem_flatMap, List.mem_filter, List.mem_map, decide_eq_true_eq, Bool.and_eq_true,
    beq_iff_eq]
  constructor
  · rintro ⟨s, ⟨hs, rfl⟩, v, ⟨hv, ⟨ht, hr⟩, ha⟩, rfl⟩
    exact ⟨s, hs, rfl, v, hv, ht, hr, ha, rfl⟩
  · rintro ⟨s, hs, rfl, v, hv, ht, hr, ha, rfl⟩
    exact ⟨s, ⟨hs, rfl⟩, v, ⟨hv, ⟨ht, hr⟩, ha⟩, rfl⟩

theorem mem_ownedRecollections {a : ActiveRecollection} :
    a ∈ ownedRecollections owner x ↔ ∃ r ∈ x.recollections, r.owner = owner ∧
      ∃ v ∈ x.recollectionVersions, v.tenantRef = owner.tenantRef ∧ v.recollectionRef = r.ref ∧
      v.status = .active ∧
      a = { owner := owner, recollection := v.recollectionRef, versionRef := v.ref,
            versionNumber := v.number, text := v.text, application := v.application,
            createdAt := v.createdAt, basisState := [] } := by
  unfold ownedRecollections
  simp only [List.mem_flatMap, List.mem_filter, List.mem_map, decide_eq_true_eq, Bool.and_eq_true,
    beq_iff_eq]
  constructor
  · rintro ⟨s, ⟨hs, rfl⟩, v, ⟨hv, ⟨ht, hr⟩, ha⟩, rfl⟩
    exact ⟨s, hs, rfl, v, hv, ht, hr, ha, rfl⟩
  · rintro ⟨s, hs, rfl, v, hv, ht, hr, ha, rfl⟩
    exact ⟨s, ⟨hs, rfl⟩, v, ⟨hv, ⟨ht, hr⟩, ha⟩, rfl⟩

/-- The duplicate query of a Seed looks at every live version of the owner. -/
theorem unlabelled_of_activeTendency (h : MemoryLaw x) {revised text : String}
    (hno : activeTendency owner revised text x = false) :
    x.seedShelf.Unlabelled seedFormat owner text fun v => v.ref = revised := by
  intro v hv hl hne ho htext
  obtain ⟨s, hs, href, hown⟩ := Db.seedShelf_owns.mp ho
  have hmem := mem_ownedDispositions.mpr ⟨s, hs, hown, v, hv,
    (h.seedTenant hv hs href).trans (by rw [hown]), href.symm, hl, rfl⟩
  have := List.any_eq_false.mp hno _ hmem
  simp only [bne_iff_ne, Bool.and_eq_true, beq_iff_eq, not_and] at this
  exact this hne htext

theorem unlabelled_of_activeText (h : MemoryLaw x) {revised application text : String}
    (hno : activeText owner revised application text x = false) :
    x.recollectionShelf.Unlabelled recollectionFormat owner (application, text)
      fun v => v.ref = revised := by
  intro v hv hl hne ho htext
  obtain ⟨s, hs, href, hown⟩ := Db.recollectionShelf_owns.mp ho
  have hmem := mem_ownedRecollections.mpr ⟨s, hs, hown, v, hv,
    (h.recollectionTenant hv hs href).trans (by rw [hown]), href.symm, hl, rfl⟩
  have := List.any_eq_false.mp hno _ hmem
  simp only [bne_iff_ne, Bool.and_eq_true, beq_iff_eq, not_and] at this
  obtain ⟨ha, ht⟩ := Prod.mk.inj htext
  exact this ⟨hne, ha⟩ ht

end

/-! ## Deeds are steps -/

namespace Deed

/-- The owner whose Memory the deed changes. -/
def owner? : Deed → Option OwnerScope
  | nothing => none
  | formSeed owner _ _ _ | reviseSeed owner _ _ _ _ | citeSeed owner _ _ _ _
  | formRecollection owner _ _ | reviseRecollection owner _ _ _ | citeRecollection owner _ _ =>
    some owner

/-- The version that the deed adds. -/
def seedRow? : Deed → Option SeedVersionRow
  | formSeed _ row _ _ | reviseSeed _ _ row _ _ => some row
  | _ => none

def recollectionRow? : Deed → Option RecollectionVersionRow
  | formRecollection _ row _ | reviseRecollection _ _ row _ => some row
  | _ => none

/-- The rows of the deed continue the chain they belong to. -/
def Regular (x : Db) : Deed → Prop
  | nothing => True
  | formSeed owner row _ _ => Shelf.Next seedFormat row.seedRef 1 row ∧
      row.tenantRef = owner.tenantRef ∧ row.tendency ≠ ""
  | reviseSeed owner u row _ _ => x.seedShelf.Owns (· = owner) u.seedRef ∧
      Shelf.Next seedFormat u.seedRef (u.number + 1) row ∧ row.tenantRef = owner.tenantRef ∧
      row.tendency ≠ ""
  | citeSeed owner versionRef _ _ _ => ∃ u ∈ x.seedVersions, u.ref = versionRef ∧
      u.status = .active ∧ x.seedShelf.Owns (· = owner) u.seedRef
  | formRecollection owner row _ => Shelf.Next recollectionFormat row.recollectionRef 1 row ∧
      row.tenantRef = owner.tenantRef
  | reviseRecollection owner u row _ => x.recollectionShelf.Owns (· = owner) u.recollectionRef ∧
      Shelf.Next recollectionFormat u.recollectionRef (u.number + 1) row ∧
      row.tenantRef = owner.tenantRef
  | citeRecollection owner versionRef _ => ∃ u ∈ x.recollectionVersions, u.ref = versionRef ∧
      u.status = .active ∧ x.recollectionShelf.Owns (· = owner) u.recollectionRef

end Deed

/-- The cites of a basis. -/
def seedCites (tenantRef versionRef : String) (role : BasisRole) (episodes outcomes : List String) :
    Set SeedCite :=
  {c | ∃ b ∈ basisRows tenantRef versionRef role episodes, c = .episode b} ∪
    {c | ∃ b ∈ basisRows tenantRef versionRef role outcomes, c = .outcome b}

theorem version_of_basisRows {tenantRef versionRef : String} {role : BasisRole}
    {refs : List String} {b : BasisRow} (h : b ∈ basisRows tenantRef versionRef role refs) :
    b.versionRef = versionRef := by
  obtain ⟨ref, _, rfl⟩ := List.mem_map.mp h
  rfl

theorem of_seedCites {tenantRef versionRef : String} {role : BasisRole}
    {episodes outcomes : List String} :
    ∀ c ∈ seedCites tenantRef versionRef role episodes outcomes, seedFormat.of c = versionRef := by
  rintro c (⟨b, hb, rfl⟩ | ⟨b, hb, rfl⟩)
  · exact version_of_basisRows hb
  · exact version_of_basisRows hb

theorem journal_apply (x : Db) (w : Write) : Journal.apply x w = x.apply w := rfl

section

variable {x : Db} {deed : Deed}

theorem seedShelf_bases (tenantRef versionRef : String) (role : BasisRole)
    (episodes outcomes : List String) :
    (applyAll (applyAll x ((basisRows tenantRef versionRef role episodes).map Write.insertSeedBasis))
      ((basisRows tenantRef versionRef role outcomes).map Write.insertSeedOutcomeBasis)).seedShelf =
      { x.seedShelf with
        cites := x.seedShelf.cites ∪ seedCites tenantRef versionRef role episodes outcomes } := by
  rw [seedShelf_insertSeedOutcomeBases, seedShelf_insertSeedBases]
  unfold seedCites
  simp only [Set.union_assoc]

/-- What a deed is on the Seeds' shelf. -/
structure SeedStepOf (x : Db) (deed : Deed) (step : SeedStep) : Prop where
  allowed : x.seedShelf.Allowed seedFormat step
  concerns : Shelf.Concerns seedFormat x.seedShelf (fun o => deed.owner? = some o) step
  run : (applyAll x deed.writes).seedShelf = x.seedShelf.run seedFormat step
  added : step.added = {v | deed.seedRow? = some v}

structure RecollectionStepOf (x : Db) (deed : Deed) (step : RecollectionStep) : Prop where
  allowed : x.recollectionShelf.Allowed recollectionFormat step
  concerns : Shelf.Concerns recollectionFormat x.recollectionShelf
    (fun o => deed.owner? = some o) step
  run : (applyAll x deed.writes).recollectionShelf = x.recollectionShelf.run recollectionFormat step
  added : step.added = {v | deed.recollectionRow? = some v}

theorem owns_some {ω ρ ν γ : Type} {s : Shelf ω ρ ν γ} {owner : ω} {root : ρ}
    (h : s.Owns (· = owner) root) : s.Owns (fun o => some owner = some o) root := by
  obtain ⟨r, hr, hroot, rfl⟩ := h
  exact ⟨r, hr, hroot, rfl⟩

theorem singleton_some {α : Type} (a : α) : ({a} : Set α) = {b | some a = some b} := by
  ext b
  constructor
  · rintro rfl
    rfl
  · exact fun h => (Option.some.inj h).symm

theorem empty_none {α : Type} : (∅ : Set α) = {b | none = some b} := by
  ext b
  constructor
  · exact fun h => h.elim
  · exact fun h => by cases h

theorem formSeed_step {owner : OwnerScope} {row : SeedVersionRow} {episodes outcomes : List String}
    (h : MemoryLaw x) (hfits : (Deed.formSeed owner row episodes outcomes).Fits x)
    (hreg : (Deed.formSeed owner row episodes outcomes).Regular x) :
    SeedStepOf x (.formSeed owner row episodes outcomes) (.form (owner, row.seedRef) row
      (seedCites owner.tenantRef row.ref .formation episodes outcomes)) := by
  obtain ⟨hdup, hroot⟩ := hfits
  have hfresh : ∀ s ∈ x.seeds, s.ref ≠ row.seedRef := by
    intro s hs
    simpa using List.any_eq_false.mp hroot s hs
  have hname : ∀ v ∈ (x.apply (.insertSeed ⟨owner, row.seedRef⟩)).seedVersions,
      v.ref ≠ row.ref := by
    intro v hv hr
    obtain ⟨r, hr', hroot'⟩ := h.seeds.rooted v hv
    exact hfresh _ (Db.mem_seedShelf_roots.mp hr')
      (hroot'.trans (h.seeds.ref_root hv (hr.trans hreg.1.ref)).1)
  refine ⟨⟨?_, hreg.1, of_seedCites, ?_⟩, rfl, ?_, singleton_some _⟩
  · intro r hr
    exact hfresh _ (Db.mem_seedShelf_roots.mp hr)
  · intro v hv hl _ ho
    refine unlabelled_of_activeTendency h hdup v hv hl (fun hr => ?_) ho
    have hn := h.seeds.named v hv
    exact versionRefOf_ne_empty _ _ (hn.symm.trans hr)
  · simp only [Deed.writes, applyAll_append, applyAll_cons, applyAll_nil, seedShelf_bases,
      journal_apply]
    rw [seedShelf_insertSeedVersion hname, seedShelf_insertSeed hfresh]
    rfl

theorem reviseSeed_step {owner : OwnerScope} {u row : SeedVersionRow}
    {episodes outcomes : List String} (h : MemoryLaw x)
    (hfits : (Deed.reviseSeed owner u row episodes outcomes).Fits x)
    (hreg : (Deed.reviseSeed owner u row episodes outcomes).Regular x) :
    SeedStepOf x (.reviseSeed owner u row episodes outcomes) (.revise u row
      (seedCites owner.tenantRef row.ref .revision episodes outcomes)) := by
  obtain ⟨hdup, hone⟩ := hfits
  obtain ⟨howns, hnext, _, _⟩ := hreg
  obtain ⟨hu, _, _, hul⟩ := ref_of_activeSeedVersions hone
  have hname : ∀ v ∈ (x.apply (.updateSeedVersion { u with status := .superseded })).seedVersions,
      v.ref ≠ row.ref := by
    intro v hv hr
    have hmem : ∃ v' ∈ x.seedVersions, v'.ref = v.ref := by
      rcases mem_updateRow.mp hv with ⟨hv, _⟩ | rfl
      · exact ⟨v, hv, rfl⟩
      · exact ⟨u, hu, rfl⟩
    obtain ⟨v', hv', hr'⟩ := hmem
    obtain ⟨hroot, hnumber⟩ := h.seeds.ref_root hv' ((hr'.trans hr).trans hnext.ref)
    have hle := h.seeds.last u hu hul v' hv' hroot
    have : v'.number ≤ u.number := hle
    have : v'.number = u.number + 1 := hnumber
    omega
  refine ⟨⟨⟨hu, hul⟩, hnext, of_seedCites, ?_⟩, ?_, ?_, singleton_some _⟩
  · intro owner' ho v hv hl hne hov
    obtain rfl := h.seeds.owner ho howns
    refine unlabelled_of_activeTendency h hdup v hv hl (fun hr => hne ?_) hov
    exact h.seeds.unique v hv u hu hr
  · exact owns_some howns
  · simp only [Deed.writes, applyAll_append, applyAll_cons, applyAll_nil, seedShelf_bases,
      journal_apply]
    rw [seedShelf_insertSeedVersion hname, seedShelf_updateSeedVersion h.keys.seedVersions hu]
    · rfl
    · rfl

theorem citeSeed_step {owner : OwnerScope} {versionRef : String} {role : BasisRole}
    {episodes outcomes : List String}
    (hreg : (Deed.citeSeed owner versionRef role episodes outcomes).Regular x) :
    ∃ u ∈ x.seedVersions, u.ref = versionRef ∧
      SeedStepOf x (.citeSeed owner versionRef role episodes outcomes)
        (.cite u (seedCites owner.tenantRef versionRef role episodes outcomes)) := by
  obtain ⟨u, hu, rfl, hl, howns⟩ := hreg
  refine ⟨u, hu, rfl, ⟨⟨hu, hl⟩, of_seedCites⟩, ?_, ?_, empty_none⟩
  · exact owns_some howns
  · simp only [Deed.writes, applyAll_append, seedShelf_bases]
    rfl

theorem recollectionShelf_bases (tenantRef versionRef : String) (role : BasisRole)
    (basis : List String) :
    (applyAll x
      ((basisRows tenantRef versionRef role basis).map Write.insertRecollectionBasis)).recollectionShelf =
      { x.recollectionShelf with
        cites := x.recollectionShelf.cites ∪ {b | b ∈ basisRows tenantRef versionRef role basis} } :=
  recollectionShelf_insertRecollectionBases _

theorem formRecollection_step {owner : OwnerScope} {row : RecollectionVersionRow}
    {basis : List String} (h : MemoryLaw x) (hfits : (Deed.formRecollection owner row basis).Fits x)
    (hreg : (Deed.formRecollection owner row basis).Regular x) :
    RecollectionStepOf x (.formRecollection owner row basis) (.form (owner, row.recollectionRef) row
      {b | b ∈ basisRows owner.tenantRef row.ref .formation basis}) := by
  obtain ⟨hdup, hroot⟩ := hfits
  have hfresh : ∀ s ∈ x.recollections, s.ref ≠ row.recollectionRef := by
    intro s hs
    simpa using List.any_eq_false.mp hroot s hs
  have hname : ∀ v ∈
      (x.apply (.insertRecollection ⟨owner, row.recollectionRef⟩)).recollectionVersions,
      v.ref ≠ row.ref := by
    intro v hv hr
    obtain ⟨r, hr', hroot'⟩ := h.recollections.rooted v hv
    exact hfresh _ (Db.mem_recollectionShelf_roots.mp hr')
      (hroot'.trans (h.recollections.ref_root hv (hr.trans hreg.1.ref)).1)
  refine ⟨⟨?_, hreg.1, fun b hb => version_of_basisRows hb, ?_⟩, rfl, ?_, singleton_some _⟩
  · intro r hr
    exact hfresh _ (Db.mem_recollectionShelf_roots.mp hr)
  · intro v hv hl _ ho
    refine unlabelled_of_activeText h hdup v hv hl (fun hr => ?_) ho
    have hn := h.recollections.named v hv
    exact versionRefOf_ne_empty _ _ (hn.symm.trans hr)
  · simp only [Deed.writes, applyAll_append, applyAll_cons, applyAll_nil, recollectionShelf_bases,
      journal_apply]
    rw [recollectionShelf_insertRecollectionVersion hname,
      recollectionShelf_insertRecollection hfresh]
    rfl

theorem reviseRecollection_step {owner : OwnerScope} {u row : RecollectionVersionRow}
    {basis : List String} (h : MemoryLaw x)
    (hfits : (Deed.reviseRecollection owner u row basis).Fits x)
    (hreg : (Deed.reviseRecollection owner u row basis).Regular x) :
    RecollectionStepOf x (.reviseRecollection owner u row basis) (.revise u row
      {b | b ∈ basisRows owner.tenantRef row.ref .revision basis}) := by
  obtain ⟨hdup, hone⟩ := hfits
  obtain ⟨howns, hnext, _⟩ := hreg
  obtain ⟨hu, _, _, hul⟩ := ref_of_activeRecollectionVersions hone
  have hname : ∀ v ∈
      (x.apply (.updateRecollectionVersion { u with status := .superseded })).recollectionVersions,
      v.ref ≠ row.ref := by
    intro v hv hr
    have hmem : ∃ v' ∈ x.recollectionVersions, v'.ref = v.ref := by
      rcases mem_updateRow.mp hv with ⟨hv, _⟩ | rfl
      · exact ⟨v, hv, rfl⟩
      · exact ⟨u, hu, rfl⟩
    obtain ⟨v', hv', hr'⟩ := hmem
    obtain ⟨hroot, hnumber⟩ := h.recollections.ref_root hv' ((hr'.trans hr).trans hnext.ref)
    have hle := h.recollections.last u hu hul v' hv' hroot
    have : v'.number ≤ u.number := hle
    have : v'.number = u.number + 1 := hnumber
    omega
  refine ⟨⟨⟨hu, hul⟩, hnext, fun b hb => version_of_basisRows hb, ?_⟩, ?_, ?_, singleton_some _⟩
  · intro owner' ho v hv hl hne hov
    obtain rfl := h.recollections.owner ho howns
    have happ : (recollectionFormat.label row) = (row.application, row.text) := rfl
    rw [happ]
    refine unlabelled_of_activeText h hdup v hv hl (fun hr => hne ?_) hov
    exact h.recollections.unique v hv u hu hr
  · exact owns_some howns
  · simp only [Deed.writes, applyAll_append, applyAll_cons, applyAll_nil, recollectionShelf_bases,
      journal_apply]
    rw [recollectionShelf_insertRecollectionVersion hname,
      recollectionShelf_updateRecollectionVersion h.keys.recollectionVersions hu]
    · rfl
    · rfl

theorem citeRecollection_step {owner : OwnerScope} {versionRef : String} {basis : List String}
    (hreg : (Deed.citeRecollection owner versionRef basis).Regular x) :
    ∃ u ∈ x.recollectionVersions, u.ref = versionRef ∧
      RecollectionStepOf x (.citeRecollection owner versionRef basis)
        (.cite u {b | b ∈ basisRows owner.tenantRef versionRef .support basis}) := by
  obtain ⟨u, hu, rfl, hl, howns⟩ := hreg
  refine ⟨u, hu, rfl, ⟨⟨hu, hl⟩, fun b hb => version_of_basisRows hb⟩, ?_, ?_, empty_none⟩
  · exact owns_some howns
  · simp only [Deed.writes, recollectionShelf_bases]
    rfl

/-- Every deed is a step of the Seeds' shelf, or none. -/
theorem seed_step (h : MemoryLaw x) (hfits : deed.Fits x) (hreg : deed.Regular x) :
    ((applyAll x deed.writes).seedShelf = x.seedShelf ∧ deed.seedRow? = none) ∨
      ∃ step, SeedStepOf x deed step ∧
      Shelf.TagsNew seedFormat seedTag x.seedShelf step := by
  have hkept : ∀ rows : List BasisRow, ∀ y : Db,
      (applyAll y (rows.map Write.insertRecollectionBasis)).seedShelf = y.seedShelf := by
    intro rows
    induction rows with
    | nil => exact fun y => rfl
    | cons r rest ih => exact fun y => ih _
  cases deed with
  | nothing => exact Or.inl ⟨rfl, rfl⟩
  | formSeed owner row episodes outcomes =>
    exact Or.inr ⟨_, formSeed_step h hfits hreg, hreg.2⟩
  | reviseSeed owner u row episodes outcomes =>
    refine Or.inr ⟨_, reviseSeed_step h hfits hreg, fun owner' ho => ?_⟩
    obtain rfl := h.seeds.owner ho hreg.1
    exact hreg.2.2
  | citeSeed owner versionRef role episodes outcomes =>
    obtain ⟨u, _, _, hstep⟩ := citeSeed_step hreg
    exact Or.inr ⟨_, hstep, trivial⟩
  | formRecollection owner row basis =>
    refine Or.inl ⟨?_, rfl⟩
    simp only [Deed.writes, applyAll_append, hkept]
    rfl
  | reviseRecollection owner u row basis =>
    refine Or.inl ⟨?_, rfl⟩
    simp only [Deed.writes, applyAll_append, hkept]
    rfl
  | citeRecollection owner versionRef basis =>
    refine Or.inl ⟨?_, rfl⟩
    simp only [Deed.writes, hkept]

/-- Every deed is a step of the Recollections' shelf, or none. -/
theorem recollection_step (h : MemoryLaw x) (hfits : deed.Fits x) (hreg : deed.Regular x) :
    ((applyAll x deed.writes).recollectionShelf = x.recollectionShelf ∧
      deed.recollectionRow? = none) ∨
      ∃ step, RecollectionStepOf x deed step ∧
        Shelf.TagsNew recollectionFormat recollectionTag x.recollectionShelf step := by
  have hepisodes : ∀ rows : List BasisRow, ∀ y : Db,
      (applyAll y (rows.map Write.insertSeedBasis)).recollectionShelf = y.recollectionShelf := by
    intro rows
    induction rows with
    | nil => exact fun y => rfl
    | cons r rest ih => exact fun y => ih _
  have houtcomes : ∀ rows : List BasisRow, ∀ y : Db,
      (applyAll y (rows.map Write.insertSeedOutcomeBasis)).recollectionShelf =
        y.recollectionShelf := by
    intro rows
    induction rows with
    | nil => exact fun y => rfl
    | cons r rest ih => exact fun y => ih _
  cases deed with
  | nothing => exact Or.inl ⟨rfl, rfl⟩
  | formSeed owner row episodes outcomes =>
    refine Or.inl ⟨?_, rfl⟩
    simp only [Deed.writes, applyAll_append, hepisodes, houtcomes]
    rfl
  | reviseSeed owner u row episodes outcomes =>
    refine Or.inl ⟨?_, rfl⟩
    simp only [Deed.writes, applyAll_append, hepisodes, houtcomes]
    rfl
  | citeSeed owner versionRef role episodes outcomes =>
    refine Or.inl ⟨?_, rfl⟩
    simp only [Deed.writes, applyAll_append, hepisodes, houtcomes]
  | formRecollection owner row basis =>
    exact Or.inr ⟨_, formRecollection_step h hfits hreg, hreg.2⟩
  | reviseRecollection owner u row basis =>
    refine Or.inr ⟨_, reviseRecollection_step h hfits hreg, fun owner' ho => ?_⟩
    obtain rfl := h.recollections.owner ho hreg.1
    exact hreg.2.2
  | citeRecollection owner versionRef basis =>
    obtain ⟨u, _, _, hstep⟩ := citeRecollection_step hreg
    exact Or.inr ⟨_, hstep, trivial⟩

theorem UniqueMemory.applyAll (h : UniqueMemory x) (ws : List Write) :
    UniqueMemory (Txn.applyAll x ws) := by
  induction ws generalizing x with
  | nil => exact h
  | cons w rest ih => exact ih (h.apply w)

/-- A deed keeps the law of Memory. -/
theorem memoryLaw_deed (h : MemoryLaw x) (hfits : deed.Fits x) (hreg : deed.Regular x) :
    MemoryLaw (Txn.applyAll x deed.writes) := by
  have hseeds : (Txn.applyAll x deed.writes).seedShelf.Lawful seedFormat ∧
      Shelf.Tagged seedFormat seedTag (Txn.applyAll x deed.writes).seedShelf := by
    rcases seed_step h hfits hreg with ⟨heq, _⟩ | ⟨step, hstep, htag⟩
    · rw [heq]
      exact ⟨h.seeds, h.seedTags⟩
    · rw [hstep.run]
      exact ⟨h.seeds.step hstep.allowed,
        h.seedTags.run h.seeds hstep.allowed (fun _ _ ht => ht) htag⟩
  have hrecollections :
      (Txn.applyAll x deed.writes).recollectionShelf.Lawful recollectionFormat ∧
      Shelf.Tagged recollectionFormat recollectionTag
        (Txn.applyAll x deed.writes).recollectionShelf := by
    rcases recollection_step h hfits hreg with ⟨heq, _⟩ | ⟨step, hstep, htag⟩
    · rw [heq]
      exact ⟨h.recollections, h.recollectionTags⟩
    · rw [hstep.run]
      exact ⟨h.recollections.step hstep.allowed,
        h.recollectionTags.run h.recollections hstep.allowed (fun _ _ ht => ht) htag⟩
  exact ⟨h.keys.applyAll _, hseeds.1, hrecollections.1, hseeds.2, hrecollections.2⟩

/-- How Memory may have grown. -/
structure Grown (d d' : Db) : Prop where
  seeds : Shelf.Evolves seedFormat d.seedShelf d'.seedShelf
  recollections : Shelf.Evolves recollectionFormat d.recollectionShelf d'.recollectionShelf

theorem Grown.refl (d : Db) : Grown d d := ⟨Shelf.Evolves.refl _, Shelf.Evolves.refl _⟩

theorem Grown.trans {d d' d'' : Db} (h : Grown d d') (h' : Grown d' d'') : Grown d d'' :=
  ⟨h.seeds.trans h'.seeds, h.recollections.trans h'.recollections⟩

theorem grown_deed (h : MemoryLaw x) (hfits : deed.Fits x) (hreg : deed.Regular x) :
    Grown x (Txn.applyAll x deed.writes) := by
  constructor
  · rcases seed_step h hfits hreg with ⟨heq, _⟩ | ⟨step, hstep, _⟩
    · rw [heq]
      exact Shelf.Evolves.refl _
    · rw [hstep.run]
      exact Shelf.evolves_run h.seeds hstep.allowed
  · rcases recollection_step h hfits hreg with ⟨heq, _⟩ | ⟨step, hstep, _⟩
    · rw [heq]
      exact Shelf.Evolves.refl _
    · rw [hstep.run]
      exact Shelf.evolves_run h.recollections hstep.allowed

/-- Two stores hold the same Memory of these owners. -/
structure SameMemory (o : OwnerScope → Prop) (d d' : Db) : Prop where
  seeds : Shelf.Same seedFormat o d.seedShelf d'.seedShelf
  recollections : Shelf.Same recollectionFormat o d.recollectionShelf d'.recollectionShelf

theorem SameMemory.refl (o : OwnerScope → Prop) (d : Db) : SameMemory o d d :=
  ⟨Shelf.Same.refl _ _, Shelf.Same.refl _ _⟩

theorem SameMemory.trans {o : OwnerScope → Prop} {d d' d'' : Db} (h : SameMemory o d d')
    (h' : SameMemory o d' d'') : SameMemory o d d'' :=
  ⟨h.seeds.trans h'.seeds, h.recollections.trans h'.recollections⟩

theorem SameMemory.mono {o o' : OwnerScope → Prop} {d d' : Db} (h : SameMemory o' d d')
    (ho : ∀ a, o a → o' a) : SameMemory o d d' :=
  ⟨h.seeds.mono ho, h.recollections.mono ho⟩

/-- A deed changes nothing of another owner. -/
theorem sameMemory_deed (h : MemoryLaw x) (hfits : deed.Fits x) (hreg : deed.Regular x)
    {o : OwnerScope → Prop} (ho : ∀ owner, deed.owner? = some owner → ¬o owner) :
    SameMemory o x (Txn.applyAll x deed.writes) := by
  constructor
  · rcases seed_step h hfits hreg with ⟨heq, _⟩ | ⟨step, hstep, _⟩
    · rw [heq]
      exact Shelf.Same.refl _ _
    · rw [hstep.run]
      exact Shelf.same_run h.seeds hstep.allowed hstep.concerns fun a ha hd => ho a hd ha
  · rcases recollection_step h hfits hreg with ⟨heq, _⟩ | ⟨step, hstep, _⟩
    · rw [heq]
      exact Shelf.Same.refl _ _
    · rw [hstep.run]
      exact Shelf.same_run h.recollections hstep.allowed hstep.concerns fun a ha hd => ho a hd ha

end

end ChoraMem
