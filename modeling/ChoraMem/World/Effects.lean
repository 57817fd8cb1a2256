/-
What a batch leaves.

The deeds of an accepted batch are about different existing versions, so every deed
finds the version it is about as it was loaded.  That makes each deed of the batch
regular, and what regular deeds keep, the batch keeps.
-/
import ChoraMem.World.Batch

namespace ChoraMem

open Txn Versions

/-! ## Loaded versions -/

/-- The store still has the version of the target, and it is active. -/
def FeedbackTarget.Current (t : FeedbackTarget) (x : Db) : Prop :=
  ∃ u ∈ x.seedVersions, u.ref = t.versionRef ∧ u.status = .active ∧ u.tendency = t.tendency

def ActiveRecollection.Current (r : ActiveRecollection) (x : Db) : Prop :=
  ∃ u ∈ x.recollectionVersions, u.ref = r.versionRef ∧ u.status = .active

/-- What a change is about is as it was loaded. -/
def WindowState.Finds (w : WindowState) (change : Change) (x : Db) : Prop :=
  match w.addressee change.target with
  | .recollection r => r.Current x
  | .disposition t => t.Current x
  | _ => True

/-- Different changes are about different existing versions. -/
def Orderly (changes : List Change) : Prop :=
  changes.Pairwise fun a b => a.isNew = false → b.target ≠ a.target

theorem orderly_of_valid {w : WindowState} {changes : List Change}
    (h : w.validConsolidationChanges changes = true) : Orderly changes := by
  have hcount : ∀ change ∈ changes, change.isNew = false →
      changes.countP (fun other => other.target == change.target) ≤ 1 := by
    intro change hc hnew
    have := List.all_eq_true.mp h change hc
    simp only [hnew, Bool.false_or, Bool.and_eq_true, beq_iff_eq] at this
    exact Nat.le_of_eq this.1.1
  clear h
  unfold Orderly
  induction changes with
  | nil => exact List.Pairwise.nil
  | cons c rest ih =>
    refine List.Pairwise.cons (fun b hb hnew heq => ?_) (ih fun change hc hnew => ?_)
    · have hone := hcount c List.mem_cons_self hnew
      have hpos : 0 < rest.countP fun other => other.target == c.target :=
        List.countP_pos_iff.mpr ⟨b, hb, by simpa using heq⟩
      rw [List.countP_cons, if_pos (beq_self_eq_true c.target)] at hone
      omega
    · have hone := hcount change (List.mem_cons_of_mem _ hc) hnew
      rw [List.countP_cons] at hone
      omega

/-! ## A deed and its outbox -/

section

variable {x y : Db} {deed : Deed}

theorem Db.Did.gains (h : x.Did deed y) : Gains x y := by
  obtain ⟨operations, rfl⟩ := h
  have hg := gains_applyAll x deed.writes
  exact ⟨hg.1, hg.2, hg.3, hg.4, hg.5, hg.6, hg.7, hg.8, hg.9, hg.10⟩

theorem Db.Did.memoryLaw (h : x.Did deed y) (hx : MemoryLaw x) (hfits : deed.Fits x)
    (hreg : deed.Regular x) : MemoryLaw y := by
  obtain ⟨operations, rfl⟩ := h
  exact (memoryLaw_deed hx hfits hreg).congr rfl rfl rfl rfl rfl rfl rfl

theorem Db.Did.grown (h : x.Did deed y) (hx : MemoryLaw x) (hfits : deed.Fits x)
    (hreg : deed.Regular x) : Grown x y := by
  obtain ⟨operations, rfl⟩ := h
  have hg := grown_deed hx hfits hreg
  exact ⟨hg.seeds, hg.recollections⟩

theorem Db.Did.sameMemory (h : x.Did deed y) (hx : MemoryLaw x) (hfits : deed.Fits x)
    (hreg : deed.Regular x) {o : OwnerScope → Prop}
    (ho : ∀ owner, deed.owner? = some owner → ¬o owner) : SameMemory o x y := by
  obtain ⟨operations, rfl⟩ := h
  have hs := sameMemory_deed hx hfits hreg ho
  exact ⟨hs.seeds, hs.recollections⟩

/-- The rows of deeds are rows of Memory. -/
def MemoryRow : Write → Prop
  | .insertSeed _ | .insertSeedVersion _ | .updateSeedVersion _ | .insertSeedBasis _
  | .insertSeedOutcomeBasis _ | .insertRecollection _ | .insertRecollectionVersion _
  | .updateRecollectionVersion _ | .insertRecollectionBasis _ => True
  | _ => False

theorem Deed.memoryRows (deed : Deed) : ∀ w ∈ deed.writes, MemoryRow w := by
  cases deed <;> simp only [Deed.writes, basisRows, List.mem_append, List.mem_cons, List.mem_map,
    List.not_mem_nil, or_false] <;> grind [MemoryRow]

/-- Everything but Memory and the outbox is as it was. -/
structure Beside (x y : Db) : Prop where
  sources : y.sources = x.sources
  episodes : y.episodes = x.episodes
  links : y.links = x.links
  requests : y.requests = x.requests
  outcomes : y.outcomes = x.outcomes
  deliveries : y.deliveries = x.deliveries
  contexts : y.contexts = x.contexts
  contextItems : y.contextItems = x.contextItems
  contextEvidence : y.contextEvidence = x.contextEvidence
  receipts : y.receipts = x.receipts
  jobs : y.jobs = x.jobs

theorem Beside.refl (x : Db) : Beside x x := by constructor <;> rfl

theorem Beside.trans {z : Db} (h : Beside x y) (h' : Beside y z) : Beside x z := by
  obtain ⟨h₁, h₂, h₃, h₄, h₅, h₆, h₇, h₈, h₉, h₁₀, h₁₁⟩ := h
  obtain ⟨k₁, k₂, k₃, k₄, k₅, k₆, k₇, k₈, k₉, k₁₀, k₁₁⟩ := h'
  exact ⟨k₁.trans h₁, k₂.trans h₂, k₃.trans h₃, k₄.trans h₄, k₅.trans h₅, k₆.trans h₆, k₇.trans h₇,
    k₈.trans h₈, k₉.trans h₉, k₁₀.trans h₁₀, k₁₁.trans h₁₁⟩

theorem beside_apply {w : Write} (h : MemoryRow w) (x : Db) : Beside x (x.apply w) := by
  cases w with
  | insertSeed _ | insertSeedVersion _ | updateSeedVersion _ | insertSeedBasis _
  | insertSeedOutcomeBasis _ | insertRecollection _ | insertRecollectionVersion _
  | updateRecollectionVersion _ | insertRecollectionBasis _ => constructor <;> rfl
  | _ => exact h.elim

theorem beside_applyAll {ws : List Write} (h : ∀ w ∈ ws, MemoryRow w) (x : Db) :
    Beside x (applyAll x ws) := by
  induction ws generalizing x with
  | nil => exact Beside.refl x
  | cons w rest ih =>
    exact (beside_apply (h w List.mem_cons_self) x).trans
      (ih (fun w' hw' => h w' (List.mem_cons_of_mem _ hw')) _)

theorem Db.Did.beside (h : x.Did deed y) : Beside x y := by
  obtain ⟨operations, rfl⟩ := h
  have hb := beside_applyAll deed.memoryRows x
  exact ⟨hb.1, hb.2, hb.3, hb.4, hb.5, hb.6, hb.7, hb.8, hb.9, hb.10, hb.11⟩

/-! ## Versions that a deed leaves -/

/-- The version that a deed supersedes. -/
def Deed.superseded? : Deed → Option String
  | .reviseSeed _ u _ _ _ => some u.ref
  | .reviseRecollection _ u _ _ => some u.ref
  | _ => none

theorem seedVersion_apply {u : SeedVersionRow} {w : Write} (hu : u ∈ x.seedVersions)
    (hw : ∀ v, w = .updateSeedVersion v → v.ref ≠ u.ref) : u ∈ (x.apply w).seedVersions := by
  cases w with
  | insertSeedVersion r => exact mem_insertRow_of_mem hu
  | updateSeedVersion r => exact mem_updateRow.mpr (Or.inl ⟨hu, (hw r rfl).symm⟩)
  | _ => exact hu

theorem recollectionVersion_apply {u : RecollectionVersionRow} {w : Write}
    (hu : u ∈ x.recollectionVersions) (hw : ∀ v, w = .updateRecollectionVersion v → v.ref ≠ u.ref) :
    u ∈ (x.apply w).recollectionVersions := by
  cases w with
  | insertRecollectionVersion r => exact mem_insertRow_of_mem hu
  | updateRecollectionVersion r => exact mem_updateRow.mpr (Or.inl ⟨hu, (hw r rfl).symm⟩)
  | _ => exact hu

theorem seedVersion_applyAll {u : SeedVersionRow} {ws : List Write} (hu : u ∈ x.seedVersions)
    (hw : ∀ v, .updateSeedVersion v ∈ ws → v.ref ≠ u.ref) : u ∈ (applyAll x ws).seedVersions := by
  induction ws generalizing x with
  | nil => exact hu
  | cons w rest ih =>
    refine ih (seedVersion_apply hu fun v hv => hw v (hv ▸ List.mem_cons_self)) fun v hv => ?_
    exact hw v (List.mem_cons_of_mem _ hv)

theorem recollectionVersion_applyAll {u : RecollectionVersionRow} {ws : List Write}
    (hu : u ∈ x.recollectionVersions)
    (hw : ∀ v, .updateRecollectionVersion v ∈ ws → v.ref ≠ u.ref) :
    u ∈ (applyAll x ws).recollectionVersions := by
  induction ws generalizing x with
  | nil => exact hu
  | cons w rest ih =>
    refine ih (recollectionVersion_apply hu fun v hv => hw v (hv ▸ List.mem_cons_self))
      fun v hv => ?_
    exact hw v (List.mem_cons_of_mem _ hv)

theorem Deed.updates (deed : Deed) :
    (∀ v, .updateSeedVersion v ∈ deed.writes → deed.superseded? = some v.ref) ∧
    ∀ v, .updateRecollectionVersion v ∈ deed.writes → deed.superseded? = some v.ref := by
  cases deed <;> simp [Deed.writes, Deed.superseded?, basisRows]

theorem Db.Did.seedVersion (h : x.Did deed y) {u : SeedVersionRow} (hu : u ∈ x.seedVersions)
    (hne : deed.superseded? ≠ some u.ref) : u ∈ y.seedVersions := by
  obtain ⟨operations, rfl⟩ := h
  refine seedVersion_applyAll hu fun v hv heq => hne ?_
  rw [deed.updates.1 v hv, heq]

theorem Db.Did.recollectionVersion (h : x.Did deed y) {u : RecollectionVersionRow}
    (hu : u ∈ x.recollectionVersions) (hne : deed.superseded? ≠ some u.ref) :
    u ∈ y.recollectionVersions := by
  obtain ⟨operations, rfl⟩ := h
  refine recollectionVersion_applyAll hu fun v hv heq => hne ?_
  rw [deed.updates.2 v hv, heq]

end

/-! ## Deeds of a loaded window -/

section

variable {store : Store} {env : Ambient} {jobRef : String} {w : WindowState} {change : Change}
variable {x y d : Db} {a : Applied} {deed : Deed} {o : OwnerScope → Prop}
variable {known : String → String → Prop}

theorem addressee_new {target : String} (h : target = targetNewRecollection ∨
    target = targetNewDisposition) : w.addressee target = .newRecollection ∨
      w.addressee target = .newDisposition := by
  unfold WindowState.addressee
  rcases h with rfl | rfl
  · left
    rw [if_pos rfl]
  · right
    rw [if_neg (by decide), if_pos rfl]

theorem isNew_false_of_addressee
    (h : w.addressee change.target ≠ .newRecollection ∧ w.addressee change.target ≠ .newDisposition) :
    change.isNew = false := by
  by_contra hnew
  simp only [Change.isNew, Bool.not_eq_false, Bool.or_eq_true, beq_iff_eq] at hnew
  rcases addressee_new (w := w) hnew with h' | h'
  · exact h.1 h'
  · exact h.2 h'

/-- A deed supersedes nothing but the version its change is about. -/
theorem Licensed.superseded (h : Licensed store env jobRef w change x a deed) {ref : String}
    (href : deed.superseded? = some ref) : change.isNew = false ∧ change.target = ref := by
  cases h with
  | reviseRecollection hr _ _ hu =>
    obtain rfl := Option.some.inj href
    exact ⟨isNew_false_of_addressee (w := w) (by rw [hr]; exact ⟨by simp, by simp⟩),
      ((WindowState.recollectionOf_addressee hr).2.symm.trans hu.symm)⟩
  | reviseSeed ht _ _ _ hu =>
    obtain rfl := Option.some.inj href
    exact ⟨isNew_false_of_addressee (w := w) (by rw [ht]; exact ⟨by simp, by simp⟩),
      ((WindowState.target_addressee ht).2.symm.trans hu.symm)⟩
  | _ => cases href

/-- What another change is about stays as it was loaded. -/
theorem Carried.finds (h : Carried store env jobRef w change x a deed y) {other : Change}
    (hother : change.isNew = false → other.target ≠ change.target) (hf : w.Finds other x) :
    w.Finds other y := by
  have hne : deed.superseded? ≠ some other.target := by
    intro heq
    obtain ⟨hnew, htarget⟩ := h.licensed.superseded heq
    exact hother hnew htarget.symm
  unfold WindowState.Finds at hf ⊢
  cases haddr : w.addressee other.target with
  | recollection r =>
    rw [haddr] at hf
    obtain ⟨u, hu, href, hactive⟩ := hf
    have htarget := (WindowState.recollectionOf_addressee haddr).2
    exact ⟨u, h.did.recollectionVersion hu (by rw [href, htarget]; exact hne), href, hactive⟩
  | disposition t =>
    rw [haddr] at hf
    obtain ⟨u, hu, href, hrest⟩ := hf
    have htarget := (WindowState.target_addressee haddr).2
    exact ⟨u, h.did.seedVersion hu (by rw [href, htarget]; exact hne), href, hrest⟩
  | newRecollection => exact trivial
  | newDisposition => exact trivial
  | nobody => exact trivial

theorem FeedbackTarget.Held.owns {t : FeedbackTarget} (h : t.Held o d known) (hg : Gains d x)
    {root : String} (hroot : root = t.seedRef) : x.seedShelf.Owns (· = t.owner) root :=
  Db.seedShelf_owns.mpr ⟨_, hg.seeds h.root, hroot.symm, rfl⟩

theorem ActiveRecollection.Held.owns {r : ActiveRecollection} (h : r.Held o d) (hg : Gains d x)
    {root : String} (hroot : root = r.recollection) :
    x.recollectionShelf.Owns (· = r.owner) root :=
  Db.recollectionShelf_owns.mpr ⟨_, hg.recollections h.root, hroot.symm, rfl⟩

/-- A version's row, by its ref. -/
theorem seedRoot_of_ref (hx : MemoryLaw x) {u : SeedVersionRow} (hu : u ∈ x.seedVersions)
    {root : String} {n : Nat} (href : u.ref = versionRefOf root n) : u.seedRef = root ∧ u.number = n :=
  versionRefOf_inj ((hx.seeds.named u hu).symm.trans href)

theorem recollectionRoot_of_ref (hx : MemoryLaw x) {u : RecollectionVersionRow}
    (hu : u ∈ x.recollectionVersions) {root : String} {n : Nat} (href : u.ref = versionRefOf root n) :
    u.recollectionRef = root ∧ u.number = n :=
  versionRefOf_inj ((hx.recollections.named u hu).symm.trans href)

/-- The deeds of a held window continue the chains they belong to. -/
theorem Carried.regular (h : Carried store env jobRef w change x a deed y) (hx : MemoryLaw x)
    (hw : w.Held o d known) (hg : Gains d x) (hf : w.Finds change x) : deed.Regular x := by
  obtain ⟨hlicensed, hfits, _⟩ := h
  unfold WindowState.Finds at hf
  cases hlicensed with
  | nothing => exact trivial
  | formRecollection htarget hbasis htext hrow =>
    subst hrow
    exact ⟨⟨rfl, rfl, rfl, rfl⟩, rfl⟩
  | @keep r b hr hop =>
    rw [hr] at hf
    obtain ⟨u, hu, href, hactive⟩ := hf
    have hheld := hw.recollections r (WindowState.recollectionOf_addressee hr).1
    exact ⟨u, hu, href, hactive,
      hheld.owns hg (recollectionRoot_of_ref hx hu (href.trans hheld.name)).1⟩
  | @reviseRecollection r u hr hop htext hu =>
    have hheld := hw.recollections r (WindowState.recollectionOf_addressee hr).1
    have humem := (ref_of_activeRecollectionVersions hfits.2).1
    obtain ⟨hroot, hnumber⟩ := recollectionRoot_of_ref hx humem (hu.trans hheld.name)
    refine ⟨hheld.owns hg hroot, ⟨hroot.symm, ?_, ?_, rfl⟩, rfl⟩
    · rw [hnumber]
      rfl
    · rw [hroot, hnumber]
      rfl
  | formSeed htarget hop hbasis htext hrow =>
    subst hrow
    have hne : trimSpace change.text ≠ "" := by simpa [Change.blank] using htext
    exact ⟨⟨rfl, rfl, rfl, rfl⟩, rfl, hne⟩
  | @reenact t added b ht hop hall hadded hnew =>
    rw [ht] at hf
    obtain ⟨u, hu, href, hactive, _⟩ := hf
    have hheld := hw.targets t (WindowState.target_addressee ht).1
    exact ⟨u, hu, href, hactive, hheld.owns hg (seedRoot_of_ref hx hu (href.trans hheld.name)).1⟩
  | @inhibit t episodes outcomes b ht hop hbasis =>
    rw [ht] at hf
    obtain ⟨u, hu, href, hactive, _⟩ := hf
    have hheld := hw.targets t (WindowState.target_addressee ht).1
    exact ⟨u, hu, href, hactive, hheld.owns hg (seedRoot_of_ref hx hu (href.trans hheld.name)).1⟩
  | @reviseSeed t u episodes outcomes ht hop hbasis htext hu =>
    have hheld := hw.targets t (WindowState.target_addressee ht).1
    have humem := (ref_of_activeSeedVersions hfits.2).1
    obtain ⟨hroot, hnumber⟩ := seedRoot_of_ref hx humem (hu.trans hheld.name)
    refine ⟨hheld.owns hg hroot, ⟨hroot.symm, ?_, ?_, rfl⟩, rfl, htext⟩
    · rw [hnumber]
      rfl
    · rw [hroot, hnumber]
      rfl

/-- The owners of deeds are held. -/
theorem Licensed.owner_held (h : Licensed store env jobRef w change x a deed)
    (hw : w.Held o d known) {owner : OwnerScope} (howner : deed.owner? = some owner) : o owner := by
  cases h with
  | nothing => cases howner
  | formRecollection | formSeed =>
    obtain rfl := Option.some.inj howner
    exact hw.owner
  | keep _ hr | reviseRecollection hr =>
    obtain rfl := Option.some.inj howner
    exact (hw.recollections _ (WindowState.recollectionOf_addressee hr).1).owner
  | reenact _ ht | inhibit _ ht | reviseSeed ht =>
    obtain rfl := Option.some.inj howner
    exact (hw.targets _ (WindowState.target_addressee ht).1).owner

/-! ## The whole batch -/

/-- One step of a batch, with all that is known of the store it is done in. -/
structure BatchStep (store : Store) (env : Ambient) (jobRef : String) (w : WindowState) (d : Db)
    (change : Change) (x : Db) (a : Applied) (deed : Deed) (y : Db) : Prop where
  carried : Carried store env jobRef w change x a deed y
  gains : Gains d x
  beside : Beside d x
  law : MemoryLaw x
  regular : deed.Regular x
  finds : w.Finds change x

/-- What every step of an accepted batch keeps, the batch keeps. -/
theorem Batch.keeps {changes : List Change} {effects : List (Change × Applied)}
    {P : Db → List (Change × Applied) → Prop} (h : Batch store env jobRef w changes d effects y)
    (hlaw : MemoryLaw d) (hw : w.Held o d known) (horder : Orderly changes)
    (hfinds : ∀ change ∈ changes, w.Finds change d) (h₀ : P d [])
    (hstep : ∀ x done change a deed z, change ∈ changes →
      BatchStep store env jobRef w d change x a deed z → P x done → P z (done ++ [(change, a)])) :
    P y effects ∧ MemoryLaw y ∧ Gains d y ∧ Beside d y := by
  have hgoal : ∀ {cs : List Change} {x z : Db} {es : List (Change × Applied)} (done),
      Batch store env jobRef w cs x es z → (∀ c ∈ cs, c ∈ changes) → Orderly cs → MemoryLaw x →
      Gains d x → Beside d x → (∀ c ∈ cs, w.Finds c x) → P x done →
      P z (done ++ es) ∧ MemoryLaw z ∧ Gains d z ∧ Beside d z := by
    intro cs x z es done hb
    induction hb generalizing done with
    | nil =>
      intro _ _ hx hg hbeside _ hP
      rw [List.append_nil]
      exact ⟨hP, hx, hg, hbeside⟩
    | @cons change rest x y' z a deed es hc _ ih =>
      intro hmem hord hx hg hbeside hf hP
      have hreg := hc.regular hx hw hg (hf change List.mem_cons_self)
      obtain ⟨hhead, hrest⟩ := List.pairwise_cons.mp hord
      have hcons := ih (done ++ [(change, a)]) (fun c hc' => hmem c (List.mem_cons_of_mem _ hc')) hrest
        (hc.did.memoryLaw hx hc.fits hreg) (hg.trans hc.did.gains) (hbeside.trans hc.did.beside)
        (fun c hc' => hc.finds (hhead c hc') (hf c (List.mem_cons_of_mem _ hc')))
        (hstep x done change a deed y' (hmem change List.mem_cons_self)
          ⟨hc, hg, hbeside, hx, hreg, hf change List.mem_cons_self⟩ hP)
      rw [List.append_assoc] at hcons
      exact hcons
  exact hgoal [] h (fun _ hc => hc) horder hlaw (Gains.refl d) (Beside.refl d) hfinds h₀

end

end ChoraMem
