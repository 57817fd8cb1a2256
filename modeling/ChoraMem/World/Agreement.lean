/-
What a transaction reads of the Memory it has locked.

While the locks of some owners are held, the store a statement sees and the store the
transaction commits to agree on everything those owners have, and on roots that nobody
else has.  The transaction's own rows fall on both alike, so the agreement holds in the
middle of a transaction too, and the queries that apply a change cannot tell the two
stores apart.
-/
import ChoraMem.World.Law

namespace ChoraMem

open Txn Versions

section

variable (o : OwnerScope → Prop) (d : Db)

/-- No other owner than these has the Seed. -/
def FreeSeed (ref : String) : Prop := ∀ s ∈ d.seeds, s.ref = ref → o s.owner

def FreeSeedVersion (ref : String) : Prop := ∃ root n, ref = versionRefOf root n ∧ FreeSeed o d root

def FreeRecollection (ref : String) : Prop := ∀ r ∈ d.recollections, r.ref = ref → o r.owner

def FreeRecollectionVersion (ref : String) : Prop :=
  ∃ root n, ref = versionRefOf root n ∧ FreeRecollection o d root

/-- Two stores hold the same rows of what no other owner has. -/
structure Agree (x y : Db) : Prop where
  seeds : SameRows (fun s => FreeSeed o d s.ref) x.seeds y.seeds
  seedVersions : SameRows (fun v => FreeSeedVersion o d v.ref) x.seedVersions y.seedVersions
  seedBasis : SameRows (fun b => FreeSeedVersion o d b.versionRef) x.seedBasis y.seedBasis
  seedOutcomeBasis :
    SameRows (fun b => FreeSeedVersion o d b.versionRef) x.seedOutcomeBasis y.seedOutcomeBasis
  recollections : SameRows (fun r => FreeRecollection o d r.ref) x.recollections y.recollections
  recollectionVersions : SameRows (fun v => FreeRecollectionVersion o d v.ref)
    x.recollectionVersions y.recollectionVersions
  recollectionBasis : SameRows (fun b => FreeRecollectionVersion o d b.versionRef)
    x.recollectionBasis y.recollectionBasis

/-- A store whose rows can be read by owner: versions carry the names of their roots, and
nobody else has the roots of these owners. -/
structure Readable (x : Db) : Prop where
  keys : UniqueMemory x
  seedNames : ∀ v ∈ x.seedVersions, v.ref = versionRefOf v.seedRef v.number
  seedRoots : ∀ s ∈ x.seeds, o s.owner → FreeSeed o d s.ref
  recollectionNames : ∀ v ∈ x.recollectionVersions, v.ref = versionRefOf v.recollectionRef v.number
  recollectionRoots : ∀ r ∈ x.recollections, o r.owner → FreeRecollection o d r.ref

/-- A row that leaves a readable store readable. -/
def RowOk (w : Write) : Prop :=
  match w with
  | .insertSeed r => ∀ s ∈ d.seeds, s.ref ≠ r.ref
  | .insertSeedVersion v | .updateSeedVersion v => v.ref = versionRefOf v.seedRef v.number
  | .insertRecollection r => ∀ s ∈ d.recollections, s.ref ≠ r.ref
  | .insertRecollectionVersion v | .updateRecollectionVersion v =>
    v.ref = versionRefOf v.recollectionRef v.number
  | .insertEpisode _ => False
  | _ => True

end

section

variable {o : OwnerScope → Prop} {d x y : Db}

/-! ## Rows fall on both alike -/

theorem Agree.apply (h : Agree o d x y) (w : Write) : Agree o d (x.apply w) (y.apply w) := by
  have hkey : ∀ {ρ : Type} {key : ρ → String} {p : String → Prop} (a b : ρ), key a = key b →
      (p (key a) ↔ p (key b)) := by
    intro ρ key p a b hab
    rw [hab]
  cases w with
  | insertSeed r => exact { h with seeds := h.seeds.insertRow hkey r }
  | insertSeedVersion r => exact { h with seedVersions := h.seedVersions.insertRow hkey r }
  | updateSeedVersion r => exact { h with seedVersions := h.seedVersions.updateRow r }
  | insertSeedBasis r =>
    exact { h with seedBasis := h.seedBasis.insertRow (fun a b hab => by rw [show a = b from hab]) r }
  | insertSeedOutcomeBasis r =>
    exact { h with
      seedOutcomeBasis := h.seedOutcomeBasis.insertRow (fun a b hab => by rw [show a = b from hab]) r }
  | insertRecollection r => exact { h with recollections := h.recollections.insertRow hkey r }
  | insertRecollectionVersion r =>
    exact { h with recollectionVersions := h.recollectionVersions.insertRow hkey r }
  | updateRecollectionVersion r =>
    exact { h with recollectionVersions := h.recollectionVersions.updateRow r }
  | insertRecollectionBasis r =>
    exact { h with
      recollectionBasis := h.recollectionBasis.insertRow (fun a b hab => by rw [show a = b from hab]) r }
  | _ => exact ⟨h.1, h.2, h.3, h.4, h.5, h.6, h.7⟩

theorem Agree.applyAll (h : Agree o d x y) (ws : List Write) :
    Agree o d (Txn.applyAll x ws) (Txn.applyAll y ws) := by
  induction ws generalizing x y with
  | nil => exact h
  | cons w rest ih => exact ih (h.apply w)

theorem Readable.apply (h : Readable o d x) {w : Write} (hw : RowOk d w) :
    Readable o d (x.apply w) := by
  obtain ⟨hk, h₁, h₂, h₃, h₄⟩ := h
  have hk' := hk.apply w
  cases w with
  | insertSeed r =>
    refine ⟨hk', h₁, fun s hs ho => ?_, h₃, h₄⟩
    rcases mem_insertRow.mp hs with hs | ⟨rfl, _⟩
    · exact h₂ s hs ho
    · exact fun s' hs' href => absurd href (hw s' hs')
  | insertSeedVersion r =>
    refine ⟨hk', fun v hv => ?_, h₂, h₃, h₄⟩
    rcases mem_insertRow.mp hv with hv | ⟨rfl, _⟩
    · exact h₁ v hv
    · exact hw
  | updateSeedVersion r =>
    refine ⟨hk', fun v hv => ?_, h₂, h₃, h₄⟩
    rcases mem_updateRow.mp hv with ⟨hv, _⟩ | rfl
    · exact h₁ v hv
    · exact hw
  | insertRecollection r =>
    refine ⟨hk', h₁, h₂, h₃, fun s hs ho => ?_⟩
    rcases mem_insertRow.mp hs with hs | ⟨rfl, _⟩
    · exact h₄ s hs ho
    · exact fun s' hs' href => absurd href (hw s' hs')
  | insertRecollectionVersion r =>
    refine ⟨hk', h₁, h₂, fun v hv => ?_, h₄⟩
    rcases mem_insertRow.mp hv with hv | ⟨rfl, _⟩
    · exact h₃ v hv
    · exact hw
  | updateRecollectionVersion r =>
    refine ⟨hk', h₁, h₂, fun v hv => ?_, h₄⟩
    rcases mem_updateRow.mp hv with ⟨hv, _⟩ | rfl
    · exact h₃ v hv
    · exact hw
  | _ => exact ⟨hk', h₁, h₂, h₃, h₄⟩

theorem Readable.applyAll (h : Readable o d x) {ws : List Write} (hws : ∀ w ∈ ws, RowOk d w) :
    Readable o d (Txn.applyAll x ws) := by
  induction ws generalizing x with
  | nil => exact h
  | cons w rest ih =>
    exact ih (h.apply (hws w List.mem_cons_self)) fun w' hw' => hws w' (List.mem_cons_of_mem _ hw')

/-! ## Committed stores -/

theorem MemoryLaw.readable (hx : MemoryLaw x) (hd : MemoryLaw d) (hg : Gains x d) :
    Readable o d x where
  keys := hx.keys
  seedNames := fun _ hv => hx.seedName hv
  seedRoots := fun s hs ho s' hs' href => by rwa [hd.keys.seeds.eq hs' (hg.seeds hs) href]
  recollectionNames := fun _ hv => hx.recollectionName hv
  recollectionRoots := fun r hr ho r' hr' href => by
    rwa [hd.keys.recollections.eq hr' (hg.recollections hr) href]

/-- What nobody else has of Memory is the same in a store and a later one that agrees
with it on these owners. -/
theorem SameMemory.agree (h : SameMemory o x d) (hx : MemoryLaw x) (hd : MemoryLaw d)
    (hg : Gains x d) : Agree o d x d := by
  have hseed : ∀ {root}, FreeSeed o d root → (∃ s ∈ d.seeds, s.ref = root) →
      d.seedShelf.Owns o root := by
    rintro root hfree ⟨s, hs, href⟩
    exact Db.seedShelf_owns.mpr ⟨s, hs, href, hfree s hs href⟩
  have hrecollection : ∀ {root}, FreeRecollection o d root → (∃ r ∈ d.recollections, r.ref = root) →
      d.recollectionShelf.Owns o root := by
    rintro root hfree ⟨r, hr, href⟩
    exact Db.recollectionShelf_owns.mpr ⟨r, hr, href, hfree r hr href⟩
  -- A version or a citation in either store has its root in the later one.
  have hrooted : ∀ {z : Db}, MemoryLaw z → z.seeds ⊆ d.seeds → ∀ v ∈ z.seedVersions, ∀ root n,
      v.ref = versionRefOf root n → ∃ s ∈ d.seeds, s.ref = root := by
    intro z hz hsub v hv root n href
    obtain ⟨r, hr, hroot⟩ := hz.seeds.rooted v hv
    exact ⟨_, hsub (Db.mem_seedShelf_roots.mp hr),
      hroot.trans (versionRefOf_inj ((hz.seedName hv).symm.trans href)).1⟩
  have hrooted' : ∀ {z : Db}, MemoryLaw z → z.recollections ⊆ d.recollections →
      ∀ v ∈ z.recollectionVersions, ∀ root n, v.ref = versionRefOf root n →
        ∃ r ∈ d.recollections, r.ref = root := by
    intro z hz hsub v hv root n href
    obtain ⟨r, hr, hroot⟩ := hz.recollections.rooted v hv
    exact ⟨_, hsub (Db.mem_recollectionShelf_roots.mp hr),
      hroot.trans (versionRefOf_inj ((hz.recollectionName hv).symm.trans href)).1⟩
  have hcites : ∀ c : SeedCite, FreeSeedVersion o d c.row.versionRef →
      (c ∈ x.seedShelf.cites ↔ c ∈ d.seedShelf.cites) := by
    rintro c ⟨root, n, href, hfree⟩
    have hsome : ∀ {z : Db}, MemoryLaw z → z.seeds ⊆ d.seeds → c ∈ z.seedShelf.cites →
        d.seedShelf.Owns o root := by
      intro z hz hsub hc
      obtain ⟨v, hv, hvc⟩ := hz.seeds.cited c hc
      exact hseed hfree (hrooted hz hsub v hv root n (hvc.trans href))
    constructor
    · intro hc
      exact (h.seeds.cites c root n href (h.seeds.owns.mpr (hsome hx hg.seeds hc))).mp hc
    · intro hc
      exact (h.seeds.cites c root n href
        (h.seeds.owns.mpr (hsome hd (fun _ hs => hs) hc))).mpr hc
  constructor
  · intro s hfree
    constructor
    · exact fun hs => hg.seeds hs
    · intro hs
      exact Db.mem_seedShelf_roots.mp ((h.seeds.roots s.root (hfree s hs rfl)).mpr ⟨s, hs, rfl⟩)
  · rintro v ⟨root, n, href, hfree⟩
    constructor
    · intro hv
      exact (h.seeds.versions v root n href (h.seeds.owns.mpr
        (hseed hfree (hrooted hx hg.seeds v hv root n href)))).mp hv
    · intro hv
      exact (h.seeds.versions v root n href (h.seeds.owns.mpr
        (hseed hfree (hrooted hd (fun _ hs => hs) v hv root n href)))).mpr hv
  · exact fun b hfree => hcites (.episode b) hfree
  · exact fun b hfree => hcites (.outcome b) hfree
  · intro r hfree
    constructor
    · exact fun hr => hg.recollections hr
    · intro hr
      exact Db.mem_recollectionShelf_roots.mp
        ((h.recollections.roots r.root (hfree r hr rfl)).mpr ⟨r, hr, rfl⟩)
  · rintro v ⟨root, n, href, hfree⟩
    constructor
    · intro hv
      exact (h.recollections.versions v root n href (h.recollections.owns.mpr
        (hrecollection hfree (hrooted' hx hg.recollections v hv root n href)))).mp hv
    · intro hv
      exact (h.recollections.versions v root n href (h.recollections.owns.mpr
        (hrecollection hfree (hrooted' hd (fun _ hr => hr) v hv root n href)))).mpr hv
  · rintro b ⟨root, n, href, hfree⟩
    have hsome : ∀ {z : Db}, MemoryLaw z → z.recollections ⊆ d.recollections →
        b ∈ z.recollectionBasis → d.recollectionShelf.Owns o root := by
      intro z hz hsub hb
      obtain ⟨v, hv, hvb⟩ := hz.recollections.cited b hb
      exact hrecollection hfree (hrooted' hz hsub v hv root n (hvb.trans href))
    constructor
    · intro hb
      exact (h.recollections.cites b root n href
        (h.recollections.owns.mpr (hsome hx hg.recollections hb))).mp hb
    · intro hb
      exact (h.recollections.cites b root n href
        (h.recollections.owns.mpr (hsome hd (fun _ hr => hr) hb))).mpr hb

/-! ## Queries -/

theorem Agree.mem_ownedDispositions (h : Agree o d x y) (hx : Readable o d x)
    {owner : OwnerScope} (ho : o owner) {a : ActiveDisposition} (ha : a ∈ ownedDispositions owner x) :
    a ∈ ownedDispositions owner y := by
  obtain ⟨s, hs, hown, v, hv, ht, href, hl, rfl⟩ := ChoraMem.mem_ownedDispositions.mp ha
  have hfree := hx.seedRoots s hs (hown ▸ ho)
  refine ChoraMem.mem_ownedDispositions.mpr ⟨s, (h.seeds s hfree).mp hs, hown, v, ?_, ht, href, hl, rfl⟩
  exact (h.seedVersions v ⟨s.ref, v.number, href ▸ hx.seedNames v hv, hfree⟩).mp hv

theorem Agree.mem_ownedRecollections (h : Agree o d x y) (hx : Readable o d x)
    {owner : OwnerScope} (ho : o owner) {a : ActiveRecollection}
    (ha : a ∈ ownedRecollections owner x) : a ∈ ownedRecollections owner y := by
  obtain ⟨s, hs, hown, v, hv, ht, href, hl, rfl⟩ := ChoraMem.mem_ownedRecollections.mp ha
  have hfree := hx.recollectionRoots s hs (hown ▸ ho)
  refine ChoraMem.mem_ownedRecollections.mpr
    ⟨s, (h.recollections s hfree).mp hs, hown, v, ?_, ht, href, hl, rfl⟩
  exact (h.recollectionVersions v ⟨s.ref, v.number, href ▸ hx.recollectionNames v hv, hfree⟩).mp hv

theorem Agree.symm (h : Agree o d x y) : Agree o d y x :=
  ⟨h.1.symm, h.2.symm, h.3.symm, h.4.symm, h.5.symm, h.6.symm, h.7.symm⟩

theorem Agree.activeTendency (h : Agree o d x y) (hx : Readable o d x) (hy : Readable o d y)
    {owner : OwnerScope} (ho : o owner) (revised text : String) :
    activeTendency owner revised text x = activeTendency owner revised text y := by
  unfold ChoraMem.activeTendency
  rw [Bool.eq_iff_iff, List.any_eq_true, List.any_eq_true]
  constructor
  · exact fun ⟨a, ha, hp⟩ => ⟨a, h.mem_ownedDispositions hx ho ha, hp⟩
  · exact fun ⟨a, ha, hp⟩ => ⟨a, h.symm.mem_ownedDispositions hy ho ha, hp⟩

theorem Agree.activeText (h : Agree o d x y) (hx : Readable o d x) (hy : Readable o d y)
    {owner : OwnerScope} (ho : o owner) (revised application text : String) :
    activeText owner revised application text x = activeText owner revised application text y := by
  unfold ChoraMem.activeText
  rw [Bool.eq_iff_iff, List.any_eq_true, List.any_eq_true]
  constructor
  · exact fun ⟨a, ha, hp⟩ => ⟨a, h.mem_ownedRecollections hx ho ha, hp⟩
  · exact fun ⟨a, ha, hp⟩ => ⟨a, h.symm.mem_ownedRecollections hy ho ha, hp⟩

/-- A new version's row meets another one in either store. -/
theorem Agree.seedVersionConflict (h : Agree o d x y) (hx : Readable o d x) (hy : Readable o d y)
    {row : SeedVersionRow} (hrow : row.ref = versionRefOf row.seedRef row.number)
    (hfree : FreeSeed o d row.seedRef) : seedVersionConflict row x = seedVersionConflict row y := by
  have hmeets : ∀ {z z' : Db}, Agree o d z z' → Readable o d z →
      ChoraMem.seedVersionConflict row z = true → ChoraMem.seedVersionConflict row z' = true := by
    intro z z' hagree hz hc
    obtain ⟨v, hv, hmeet⟩ := List.any_eq_true.mp hc
    have href : v.ref = row.ref := by
      simp only [Bool.or_eq_true, Bool.and_eq_true, decide_eq_true_eq] at hmeet
      rcases hmeet with href | ⟨⟨_, hroot⟩, hnumber⟩
      · exact href
      · rw [hz.seedNames v hv, hrow, hroot, hnumber]
    exact List.any_eq_true.mpr
      ⟨v, (hagree.seedVersions v ⟨_, _, href.trans hrow, hfree⟩).mp hv, hmeet⟩
  rw [Bool.eq_iff_iff]
  exact ⟨hmeets h hx, hmeets h.symm hy⟩

theorem Agree.recollectionVersionConflict (h : Agree o d x y) (hx : Readable o d x)
    (hy : Readable o d y) {row : RecollectionVersionRow}
    (hrow : row.ref = versionRefOf row.recollectionRef row.number)
    (hfree : FreeRecollection o d row.recollectionRef) :
    recollectionVersionConflict row x = recollectionVersionConflict row y := by
  have hmeets : ∀ {z z' : Db}, Agree o d z z' → Readable o d z →
      ChoraMem.recollectionVersionConflict row z = true →
      ChoraMem.recollectionVersionConflict row z' = true := by
    intro z z' hagree hz hc
    obtain ⟨v, hv, hmeet⟩ := List.any_eq_true.mp hc
    have hfreev : FreeRecollectionVersion o d v.ref := by
      simp only [Bool.or_eq_true, Bool.and_eq_true, decide_eq_true_eq] at hmeet
      rcases hmeet with href | ⟨⟨_, hroot⟩, _⟩
      · exact ⟨_, _, href.trans hrow, hfree⟩
      · exact ⟨_, _, hroot ▸ hz.recollectionNames v hv, hfree⟩
    exact List.any_eq_true.mpr ⟨v, (hagree.recollectionVersions v hfreev).mp hv, hmeet⟩
  rw [Bool.eq_iff_iff]
  exact ⟨hmeets h hx, hmeets h.symm hy⟩

/-- The one active row of a version. -/
theorem Agree.activeSeedVersions (h : Agree o d x y) (hy : Readable o d y)
    {tenantRef versionRef : String} (hfree : FreeSeedVersion o d versionRef) {u : SeedVersionRow}
    (hone : activeSeedVersions tenantRef versionRef x = [u]) :
    activeSeedVersions tenantRef versionRef y = [u] := by
  obtain ⟨hu, ht, href, hl⟩ := ref_of_activeSeedVersions hone
  have huy : u ∈ y.seedVersions := (h.seedVersions u (by subst href; exact hfree)).mp hu
  refine List.perm_singleton.mp ((List.perm_ext_iff_of_nodup ?_ (List.nodup_singleton u)).mpr ?_)
  · exact (List.Nodup.of_map _ hy.keys.seedVersions).filter _
  · intro v
    simp only [ChoraMem.activeSeedVersions, List.mem_filter, Bool.and_eq_true, decide_eq_true_eq,
      beq_iff_eq, List.mem_singleton]
    constructor
    · rintro ⟨hv, ⟨_, hvref⟩, _⟩
      exact hy.keys.seedVersions.eq hv huy (hvref.trans href.symm)
    · rintro rfl
      exact ⟨huy, ⟨ht, href⟩, hl⟩

theorem Agree.activeRecollectionVersions (h : Agree o d x y) (hy : Readable o d y)
    {tenantRef versionRef : String} (hfree : FreeRecollectionVersion o d versionRef)
    {u : RecollectionVersionRow} (hone : activeRecollectionVersions tenantRef versionRef x = [u]) :
    activeRecollectionVersions tenantRef versionRef y = [u] := by
  obtain ⟨hu, ht, href, hl⟩ := ref_of_activeRecollectionVersions hone
  have huy : u ∈ y.recollectionVersions := (h.recollectionVersions u (by subst href; exact hfree)).mp hu
  refine List.perm_singleton.mp ((List.perm_ext_iff_of_nodup ?_ (List.nodup_singleton u)).mpr ?_)
  · exact (List.Nodup.of_map _ hy.keys.recollectionVersions).filter _
  · intro v
    simp only [ChoraMem.activeRecollectionVersions, List.mem_filter, Bool.and_eq_true,
      decide_eq_true_eq, beq_iff_eq, List.mem_singleton]
    constructor
    · rintro ⟨hv, ⟨_, hvref⟩, _⟩
      exact hy.keys.recollectionVersions.eq hv huy (hvref.trans href.symm)
    · rintro rfl
      exact ⟨huy, ⟨ht, href⟩, hl⟩

theorem Agree.mem_versionBasis (h : Agree o d x y) {tenantRef versionRef : String}
    (hfree : FreeSeedVersion o d versionRef) {b : BasisRow} :
    b ∈ versionBasis tenantRef versionRef x.seedBasis ↔
      b ∈ versionBasis tenantRef versionRef y.seedBasis := by
  simp only [versionBasis, List.mem_filter, Bool.and_eq_true, decide_eq_true_eq]
  constructor
  · rintro ⟨hb, ht, href⟩
    exact ⟨(h.seedBasis b (by subst href; exact hfree)).mp hb, ht, href⟩
  · rintro ⟨hb, ht, href⟩
    exact ⟨(h.seedBasis b (by subst href; exact hfree)).mpr hb, ht, href⟩

theorem Agree.alreadyBasis (h : Agree o d x y) {t : FeedbackTarget}
    (hfree : FreeSeedVersion o d t.versionRef) (ref : String) :
    alreadyBasis t ref x = alreadyBasis t ref y := by
  unfold ChoraMem.alreadyBasis
  rw [Bool.eq_iff_iff, List.any_eq_true, List.any_eq_true]
  constructor
  · exact fun ⟨b, hb, hp⟩ => ⟨b, (h.mem_versionBasis hfree).mp hb, hp⟩
  · exact fun ⟨b, hb, hp⟩ => ⟨b, (h.mem_versionBasis hfree).mpr hb, hp⟩

theorem mem_tenantEpisodes {tenantRef ref : String} {e : EpisodeRow} :
    e ∈ tenantEpisodes tenantRef ref x ↔
      e ∈ x.episodes ∧ e.group.scope.tenantRef = tenantRef ∧ e.ref = ref := by
  simp only [tenantEpisodes, List.mem_filter, Bool.and_eq_true, decide_eq_true_eq]

/-- A ref that is known already names no more Episodes later. -/
theorem tenantEpisodes_later (hsub : x.episodes ⊆ y.episodes)
    (hunique : ∀ e ∈ y.episodes, ∀ e' ∈ y.episodes, e.ref = e'.ref → e = e') {tenantRef ref : String}
    (hknown : Known tenantRef ref x) {e : EpisodeRow} :
    e ∈ tenantEpisodes tenantRef ref x ↔ e ∈ tenantEpisodes tenantRef ref y := by
  rw [mem_tenantEpisodes, mem_tenantEpisodes]
  constructor
  · exact fun ⟨he, hrest⟩ => ⟨hsub he, hrest⟩
  · rintro ⟨he, ht, href⟩
    obtain ⟨e', he', href', _⟩ := hknown
    obtain rfl := hunique e he e' (hsub he') (href.trans href'.symm)
    exact ⟨he', ht, href⟩

theorem Agree.alreadyContributed (h : Agree o d x y) {t : FeedbackTarget}
    (hfree : FreeSeedVersion o d t.versionRef) (hsub : x.episodes ⊆ y.episodes)
    (hunique : ∀ e ∈ y.episodes, ∀ e' ∈ y.episodes, e.ref = e'.ref → e = e')
    (hcited : ∀ b ∈ x.seedBasis, Known b.tenantRef b.basisRef x) {ref : String}
    (hknown : Known t.owner.tenantRef ref x) :
    alreadyContributed t ref x = alreadyContributed t ref y := by
  have hprior : ∀ b ∈ versionBasis t.owner.tenantRef t.versionRef x.seedBasis,
      Known t.owner.tenantRef b.basisRef x := by
    intro b hb
    simp only [versionBasis, List.mem_filter, Bool.and_eq_true, decide_eq_true_eq] at hb
    have hk := hcited b hb.1
    rwa [hb.2.1] at hk
  unfold ChoraMem.alreadyContributed
  rw [Bool.eq_iff_iff, List.any_eq_true, List.any_eq_true]
  simp only [Bool.and_eq_true, List.any_eq_true]
  constructor
  · rintro ⟨b, hb, hrole, prior, hp, candidate, hc, hsame⟩
    exact ⟨b, (h.mem_versionBasis hfree).mp hb, hrole, prior,
      (tenantEpisodes_later hsub hunique (hprior b hb)).mp hp, candidate,
      (tenantEpisodes_later hsub hunique hknown).mp hc, hsame⟩
  · rintro ⟨b, hb, hrole, prior, hp, candidate, hc, hsame⟩
    have hbx := (h.mem_versionBasis hfree).mpr hb
    exact ⟨b, hbx, hrole, prior, (tenantEpisodes_later hsub hunique (hprior b hbx)).mpr hp,
      candidate, (tenantEpisodes_later hsub hunique hknown).mpr hc, hsame⟩

end

end ChoraMem
