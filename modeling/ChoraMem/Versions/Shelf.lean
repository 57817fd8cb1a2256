/-
Versioned entries under citations.

A shelf is a set of roots with owners, a set of numbered versions, and a set of
citations of versions.  It changes in three steps: a root is formed with its first
version, the live version of a root is revised by the next one, or a live version is
cited.  `Format` says how the rows of a shelf are read.

`Lawful` is the law of a shelf: every root has one live version, the last of a chain
without gaps, and no two live versions of one owner have one label.  Allowed steps
keep it, and change nothing about a version that is no longer live.
-/
import Mathlib.Data.Set.Image
import Mathlib.Data.Set.Insert

namespace Versions

variable {ω ρ κ ν γ σ : Type}

/-- How the versions `ν` and the citations `γ` of a shelf are read. -/
structure Format (ρ κ ν γ σ : Type) where
  root : ν → ρ
  number : ν → Nat
  ref : ν → κ
  label : ν → σ
  live : ν → Prop
  retire : ν → ν
  /-- The ref of the `n`-th version of a root. -/
  name : ρ → Nat → κ
  /-- The version a citation cites. -/
  of : γ → κ
  root_retire : ∀ v, root (retire v) = root v
  number_retire : ∀ v, number (retire v) = number v
  ref_retire : ∀ v, ref (retire v) = ref v
  not_live_retire : ∀ v, ¬live (retire v)
  name_inj : ∀ {r r' n n'}, name r n = name r' n' → r = r' ∧ n = n'

@[ext] structure Shelf (ω ρ ν γ : Type) where
  roots : Set (ω × ρ)
  versions : Set ν
  cites : Set γ

/-- What happens to a shelf. -/
inductive Step (ω ρ ν γ : Type)
  | form (r : ω × ρ) (v : ν) (cites : Set γ)
  | revise (u v : ν) (cites : Set γ)
  | cite (u : ν) (cites : Set γ)

/-- The version a step adds. -/
def Step.added : Step ω ρ ν γ → Set ν
  | .form _ v _ | .revise _ v _ => {v}
  | .cite _ _ => ∅

namespace Shelf

variable (F : Format ρ κ ν γ σ) (s : Shelf ω ρ ν γ)

def run : Step ω ρ ν γ → Shelf ω ρ ν γ
  | .form r v cites => ⟨insert r s.roots, insert v s.versions, s.cites ∪ cites⟩
  | .revise u v cites =>
    ⟨s.roots, insert v (insert (F.retire u) (s.versions \ {u})), s.cites ∪ cites⟩
  | .cite _ cites => ⟨s.roots, s.versions, s.cites ∪ cites⟩

/-- The root is one of the owners `o`. -/
def Owns (o : ω → Prop) (root : ρ) : Prop := ∃ r ∈ s.roots, r.2 = root ∧ o r.1

/-- No live version of the owner but `u` has the label. -/
def Unlabelled (owner : ω) (label : σ) (u : ν → Prop) : Prop :=
  ∀ v ∈ s.versions, F.live v → ¬u v → s.Owns (· = owner) (F.root v) → F.label v ≠ label

/-- The next version of a chain. -/
structure Next (r : ρ) (n : Nat) (v : ν) : Prop where
  root : F.root v = r
  number : F.number v = n
  ref : F.ref v = F.name r n
  live : F.live v

def Allowed : Step ω ρ ν γ → Prop
  | .form r v cites => (∀ r' ∈ s.roots, r'.2 ≠ r.2) ∧ Next F r.2 1 v ∧
      (∀ c ∈ cites, F.of c = F.ref v) ∧ s.Unlabelled F r.1 (F.label v) fun _ => False
  | .revise u v cites => (u ∈ s.versions ∧ F.live u) ∧ Next F (F.root u) (F.number u + 1) v ∧
      (∀ c ∈ cites, F.of c = F.ref v) ∧
      ∀ owner, s.Owns (· = owner) (F.root u) → s.Unlabelled F owner (F.label v) fun x => x = u
  | .cite u cites => (u ∈ s.versions ∧ F.live u) ∧ ∀ c ∈ cites, F.of c = F.ref u

/-! ## The law -/

structure Lawful : Prop where
  roots : ∀ r ∈ s.roots, ∀ r' ∈ s.roots, r.2 = r'.2 → r = r'
  named : ∀ v ∈ s.versions, F.ref v = F.name (F.root v) (F.number v)
  unique : ∀ v ∈ s.versions, ∀ v' ∈ s.versions, F.ref v = F.ref v' → v = v'
  rooted : ∀ v ∈ s.versions, ∃ r ∈ s.roots, r.2 = F.root v
  counted : ∀ v ∈ s.versions, 1 ≤ F.number v
  /-- No number of a chain is left out. -/
  gapless : ∀ v ∈ s.versions, ∀ n, 1 ≤ n → n ≤ F.number v →
    ∃ v' ∈ s.versions, F.root v' = F.root v ∧ F.number v' = n
  current : ∀ r ∈ s.roots, ∃ v ∈ s.versions, F.root v = r.2 ∧ F.live v
  /-- The live version is the last one. -/
  last : ∀ v ∈ s.versions, F.live v → ∀ v' ∈ s.versions, F.root v' = F.root v →
    F.number v' ≤ F.number v
  cited : ∀ c ∈ s.cites, ∃ v ∈ s.versions, F.ref v = F.of c
  labels : ∀ v ∈ s.versions, F.live v → ∀ owner, s.Owns (· = owner) (F.root v) →
    s.Unlabelled F owner (F.label v) fun x => x = v

/-- An empty shelf. -/
def empty : Shelf ω ρ ν γ := ⟨∅, ∅, ∅⟩

theorem lawful_empty : Lawful F (empty : Shelf ω ρ ν γ) where
  roots := fun _ hr => hr.elim
  named := fun _ hv => hv.elim
  unique := fun _ hv => hv.elim
  rooted := fun _ hv => hv.elim
  counted := fun _ hv => hv.elim
  gapless := fun _ hv => hv.elim
  current := fun _ hr => hr.elim
  last := fun _ hv => hv.elim
  cited := fun _ hc => hc.elim
  labels := fun _ hv => hv.elim

variable {F s} {o : ω → Prop} {u v : ν} {root : ρ}

/-- A root has one owner. -/
theorem Lawful.owner (h : s.Lawful F) {owner owner' : ω} (ho : s.Owns (· = owner) root)
    (ho' : s.Owns (· = owner') root) : owner = owner' := by
  obtain ⟨r, hr, hroot, rfl⟩ := ho
  obtain ⟨r', hr', hroot', rfl⟩ := ho'
  rw [h.roots r hr r' hr' (hroot.trans hroot'.symm)]

/-- A version is known by its root and its number. -/
theorem Lawful.eq (h : s.Lawful F) (hu : u ∈ s.versions) (hv : v ∈ s.versions)
    (hroot : F.root u = F.root v) (hnumber : F.number u = F.number v) : u = v :=
  h.unique u hu v hv (by rw [h.named u hu, h.named v hv, hroot, hnumber])

theorem Lawful.live_eq (h : s.Lawful F) (hu : u ∈ s.versions) (hv : v ∈ s.versions)
    (hul : F.live u) (hvl : F.live v) (hroot : F.root u = F.root v) : u = v := by
  refine h.eq hu hv hroot (Nat.le_antisymm ?_ ?_)
  · exact h.last v hv hvl u hu hroot
  · exact h.last u hu hul v hv hroot.symm

theorem Lawful.ref_root (h : s.Lawful F) (hv : v ∈ s.versions) {n : Nat}
    (href : F.ref v = F.name root n) : F.root v = root ∧ F.number v = n :=
  F.name_inj ((h.named v hv).symm.trans href)

/-! ## Steps keep the law -/

theorem Lawful.form (h : s.Lawful F) {r : ω × ρ} {cites : Set γ}
    (ha : s.Allowed F (.form r v cites)) : (s.run F (.form r v cites)).Lawful F := by
  obtain ⟨hfresh, hv, hcites, hlabel⟩ := ha
  have hroot : ∀ x ∈ s.versions, F.root x ≠ r.2 := by
    intro x hx hr
    obtain ⟨r', hr', hr'x⟩ := h.rooted x hx
    exact hfresh r' hr' (hr'x.trans hr)
  have hname : ∀ x ∈ s.versions, F.ref x ≠ F.ref v := by
    intro x hx hr
    exact hroot x hx (h.ref_root hx (hr.trans hv.ref)).1
  have howner : ∀ owner x, x ∈ s.versions →
      (s.run F (.form r v cites)).Owns (· = owner) (F.root x) → s.Owns (· = owner) (F.root x) := by
    rintro owner x hx ⟨r', hr' | hr', hrx, ho⟩
    · exact absurd (hrx.symm.trans (congrArg Prod.snd hr')) (hroot x hx)
    · exact ⟨r', hr', hrx, ho⟩
  have hnew : ∀ owner, (s.run F (.form r v cites)).Owns (· = owner) (F.root v) → owner = r.1 := by
    rintro owner ⟨r', hr' | hr', hrx, ho⟩
    · exact ho.symm.trans (congrArg Prod.fst hr')
    · exact absurd (hrx.trans hv.root) (hfresh r' hr')
  constructor
  · rintro a (rfl | ha) b (rfl | hb) hab
    · rfl
    · exact absurd hab.symm (hfresh b hb)
    · exact absurd hab (hfresh a ha)
    · exact h.roots a ha b hb hab
  · rintro x (rfl | hx)
    · rw [hv.ref, hv.root, hv.number]
    · exact h.named x hx
  · rintro x (rfl | hx) y (rfl | hy) hxy
    · rfl
    · exact absurd hxy.symm (hname y hy)
    · exact absurd hxy (hname x hx)
    · exact h.unique x hx y hy hxy
  · rintro x (rfl | hx)
    · exact ⟨r, Set.mem_insert _ _, hv.root.symm⟩
    · obtain ⟨r', hr', hr'x⟩ := h.rooted x hx
      exact ⟨r', Set.mem_insert_of_mem _ hr', hr'x⟩
  · rintro x (rfl | hx)
    · exact le_of_eq hv.number.symm
    · exact h.counted x hx
  · rintro x (rfl | hx) n h1 hn
    · refine ⟨x, Set.mem_insert _ _, rfl, ?_⟩
      rw [hv.number] at hn ⊢
      omega
    · obtain ⟨y, hy, hyx⟩ := h.gapless x hx n h1 hn
      exact ⟨y, Set.mem_insert_of_mem _ hy, hyx⟩
  · rintro a (rfl | ha)
    · exact ⟨v, Set.mem_insert _ _, hv.root, hv.live⟩
    · obtain ⟨x, hx, hxa⟩ := h.current a ha
      exact ⟨x, Set.mem_insert_of_mem _ hx, hxa⟩
  · rintro x (rfl | hx) hxl y (rfl | hy) hyx
    · exact Nat.le_refl _
    · exact absurd (hyx.trans hv.root) (hroot y hy)
    · exact absurd (hyx.symm.trans hv.root) (hroot x hx)
    · exact h.last x hx hxl y hy hyx
  · rintro c (hc | hc)
    · obtain ⟨x, hx, hxc⟩ := h.cited c hc
      exact ⟨x, Set.mem_insert_of_mem _ hx, hxc⟩
    · exact ⟨v, Set.mem_insert _ _, (hcites c hc).symm⟩
  · rintro x (rfl | hx) hxl owner ho y (rfl | hy) hyl hyx hoy
    · exact absurd rfl hyx
    · obtain rfl := hnew owner ho
      exact hlabel y hy hyl (fun hf => hf) (howner _ y hy hoy)
    · obtain rfl := hnew owner hoy
      exact Ne.symm (hlabel x hx hxl (fun hf => hf) (howner _ x hx ho))
    · exact h.labels x hx hxl owner (howner owner x hx ho) y hy hyl hyx (howner owner y hy hoy)

theorem Lawful.revise (h : s.Lawful F) {cites : Set γ} (ha : s.Allowed F (.revise u v cites)) :
    (s.run F (.revise u v cites)).Lawful F := by
  obtain ⟨⟨hu, hul⟩, hv, hcites, hlabel⟩ := ha
  -- Every version that was there is there still, itself or retired.
  have hkept : ∀ x ∈ s.versions, ∃ y ∈ (s.run F (.revise u v cites)).versions,
      F.root y = F.root x ∧ F.number y = F.number x ∧ F.ref y = F.ref x := by
    intro x hx
    by_cases hxu : x = u
    · subst hxu
      exact ⟨F.retire x, Or.inr (Or.inl rfl), F.root_retire x, F.number_retire x, F.ref_retire x⟩
    · exact ⟨x, Or.inr (Or.inr ⟨hx, hxu⟩), rfl, rfl, rfl⟩
  have hfrom : ∀ y ∈ (s.run F (.revise u v cites)).versions, y = v ∨
      ∃ x ∈ s.versions, F.root y = F.root x ∧ F.number y = F.number x ∧ F.ref y = F.ref x ∧
        (y = F.retire u ∧ x = u ∨ y = x ∧ x ≠ u) := by
    rintro y (rfl | rfl | ⟨hy, hyu⟩)
    · exact Or.inl rfl
    · exact Or.inr ⟨u, hu, F.root_retire u, F.number_retire u, F.ref_retire u, Or.inl ⟨rfl, rfl⟩⟩
    · exact Or.inr ⟨y, hy, rfl, rfl, rfl, Or.inr ⟨rfl, hyu⟩⟩
  have hname : ∀ x ∈ s.versions, F.ref x ≠ F.ref v := by
    intro x hx hr
    obtain ⟨hroot, hnumber⟩ := h.ref_root hx (hr.trans hv.ref)
    have := h.last u hu hul x hx hroot
    omega
  have hlive : ∀ y ∈ (s.run F (.revise u v cites)).versions, F.live y →
      y = v ∨ (y ∈ s.versions ∧ y ≠ u ∧ F.root y ≠ F.root u) := by
    intro y hy hyl
    rcases hfrom y hy with rfl | ⟨x, hx, _, _, _, ⟨rfl, rfl⟩ | ⟨rfl, hyu⟩⟩
    · exact Or.inl rfl
    · exact absurd hyl (F.not_live_retire x)
    · exact Or.inr ⟨hx, hyu, fun hr => hyu (h.live_eq hx hu hyl hul hr)⟩
  constructor
  · exact h.roots
  · intro y hy
    rcases hfrom y hy with rfl | ⟨x, hx, hr, hn, hf, _⟩
    · rw [hv.ref, hv.root, hv.number]
    · rw [hr, hn, hf]
      exact h.named x hx
  · intro y hy z hz hyz
    rcases hfrom y hy with rfl | ⟨x, hx, _, _, hf, hyx⟩ <;>
      rcases hfrom z hz with rfl | ⟨x', hx', _, _, hf', hzx⟩
    · rfl
    · exact absurd (hf'.symm.trans hyz.symm) (hname x' hx')
    · exact absurd (hf.symm.trans hyz) (hname x hx)
    · obtain rfl := h.unique x hx x' hx' (hf.symm.trans (hyz.trans hf'))
      rcases hyx with ⟨rfl, rfl⟩ | ⟨rfl, hne⟩ <;> rcases hzx with ⟨rfl, hzu⟩ | ⟨rfl, hne'⟩
      · rfl
      · exact absurd rfl hne'
      · exact absurd hzu hne
      · rfl
  · intro y hy
    rcases hfrom y hy with rfl | ⟨x, hx, hr, _⟩
    · rw [hv.root]
      exact h.rooted u hu
    · rw [hr]
      exact h.rooted x hx
  · intro y hy
    rcases hfrom y hy with rfl | ⟨x, hx, _, hn, _⟩
    · rw [hv.number]
      omega
    · rw [hn]
      exact h.counted x hx
  · intro y hy n h1 hn
    rcases hfrom y hy with rfl | ⟨x, hx, hr, hnx, _⟩
    · rw [hv.number] at hn
      by_cases hlast : n = F.number u + 1
      · exact ⟨y, Or.inl rfl, rfl, hv.number.trans hlast.symm⟩
      · obtain ⟨x, hx, hxr, hxn⟩ := h.gapless u hu n h1 (by omega)
        obtain ⟨z, hz, hzr, hzn, _⟩ := hkept x hx
        exact ⟨z, hz, by rw [hzr, hxr, hv.root], hzn.trans hxn⟩
    · obtain ⟨x', hx', hxr, hxn⟩ := h.gapless x hx n h1 (hnx ▸ hn)
      obtain ⟨z, hz, hzr, hzn, _⟩ := hkept x' hx'
      exact ⟨z, hz, by rw [hzr, hxr, hr], hzn.trans hxn⟩
  · intro r hr
    by_cases hru : r.2 = F.root u
    · exact ⟨v, Or.inl rfl, hv.root.trans hru.symm, hv.live⟩
    · obtain ⟨x, hx, hxr, hxl⟩ := h.current r hr
      have hxu : x ≠ u := fun hxu => hru (hxr.symm.trans (congrArg F.root hxu))
      exact ⟨x, Or.inr (Or.inr ⟨hx, hxu⟩), hxr, hxl⟩
  · intro y hy hyl z hz hzy
    rcases hlive y hy hyl with rfl | ⟨hys, _, hyr⟩
    · rcases hfrom z hz with rfl | ⟨x, hx, hr, hn, _⟩
      · exact Nat.le_refl _
      · have := h.last u hu hul x hx (hr.symm.trans (hzy.trans hv.root))
        rw [hv.number, hn]
        omega
    · rcases hfrom z hz with rfl | ⟨x, hx, hr, hn, _⟩
      · exact absurd (hzy.symm.trans hv.root) hyr
      · rw [hn]
        exact h.last y hys hyl x hx (hr.symm.trans hzy)
  · rintro c (hc | hc)
    · obtain ⟨x, hx, hxc⟩ := h.cited c hc
      obtain ⟨z, hz, _, _, hzf⟩ := hkept x hx
      exact ⟨z, hz, hzf.trans hxc⟩
    · exact ⟨v, Or.inl rfl, (hcites c hc).symm⟩
  · intro y hy hyl owner ho z hz hzl hzy hoz
    rcases hlive y hy hyl with rfl | ⟨hys, _, _⟩
    · rcases hlive z hz hzl with rfl | ⟨hzs, hzu, _⟩
      · exact absurd rfl hzy
      · exact hlabel owner (hv.root ▸ ho) z hzs hzl hzu hoz
    · rcases hlive z hz hzl with rfl | ⟨hzs, _, _⟩
      · exact Ne.symm (hlabel owner (hv.root ▸ hoz) y hys hyl (by assumption) ho)
      · exact h.labels y hys hyl owner ho z hzs hzl hzy hoz

theorem Lawful.cite (h : s.Lawful F) {cites : Set γ} (ha : s.Allowed F (.cite u cites)) :
    (s.run F (.cite u cites)).Lawful F := by
  refine ⟨h.roots, h.named, h.unique, h.rooted, h.counted, h.gapless, h.current, h.last, ?_, h.labels⟩
  rintro c (hc | hc)
  · exact h.cited c hc
  · exact ⟨u, ha.1.1, (ha.2 c hc).symm⟩

theorem Lawful.step (h : s.Lawful F) {step : Step ω ρ ν γ} (ha : s.Allowed F step) :
    (s.run F step).Lawful F := by
  cases step with
  | form r v cites => exact h.form ha
  | revise u v cites => exact h.revise ha
  | cite u cites => exact h.cite ha

/-! ## What a step adds -/

theorem Lawful.added_fresh (h : s.Lawful F) {step : Step ω ρ ν γ} (ha : s.Allowed F step) :
    ∀ v ∈ step.added, ∀ x ∈ s.versions, F.ref x ≠ F.ref v := by
  intro v hv x hx href
  cases step with
  | form r v' cites =>
    obtain rfl := hv
    obtain ⟨hfresh, hnext, _⟩ := ha
    obtain ⟨r', hr', hroot⟩ := h.rooted x hx
    exact hfresh r' hr' (hroot.trans (h.ref_root hx (href.trans hnext.ref)).1)
  | revise u v' cites =>
    obtain rfl := hv
    obtain ⟨⟨hu, hlive⟩, hnext, _⟩ := ha
    obtain ⟨hroot, hnumber⟩ := h.ref_root hx (href.trans hnext.ref)
    have hlast := h.last u hu hlive x hx hroot
    omega
  | cite u cites => exact hv.elim

/-- What retiring a version leaves alone is that of the versions there were, and of the
added one. -/
theorem image_run {τ : Type} {f : ν → τ} (hf : ∀ v, f (F.retire v) = f v)
    {step : Step ω ρ ν γ} (ha : s.Allowed F step) :
    f '' (s.run F step).versions = f '' s.versions ∪ f '' step.added := by
  cases step with
  | form r v cites =>
    show f '' insert v s.versions = f '' s.versions ∪ f '' {v}
    rw [Set.image_insert_eq, Set.image_singleton, Set.union_singleton]
  | revise u v cites =>
    show f '' insert v (insert (F.retire u) (s.versions \ {u})) = f '' s.versions ∪ f '' {v}
    have hu : insert u (s.versions \ {u}) = s.versions := Set.insert_sdiff_self_of_mem ha.1.1
    rw [Set.image_insert_eq, Set.image_insert_eq, hf, ← Set.image_insert_eq, hu,
      Set.image_singleton, Set.union_singleton]
  | cite u cites =>
    show f '' s.versions = f '' s.versions ∪ f '' ∅
    rw [Set.image_empty, Set.union_empty]

/-! ## Numbers of a chain -/

variable (F) in
/-- The chain of an owner's root has come to this number. -/
def Has (s : Shelf ω ρ ν γ) (owner : ω) (root : ρ) (n : Nat) : Prop :=
  (owner, root) ∈ s.roots ∧ ∃ v ∈ s.versions, F.root v = root ∧ F.number v = n

/-- A step gives a number to the version it adds, and takes none away. -/
theorem has_run (h : s.Lawful F) {step : Step ω ρ ν γ} (ha : s.Allowed F step) {new : Option ν}
    {own : Option ω} (hadded : step.added = {v | new = some v})
    (hown : ∀ v, new = some v → ∃ owner, own = some owner ∧ (owner, F.root v) ∈ (s.run F step).roots)
    {owner : ω} {n : Nat} :
    (s.run F step).Has F owner root n ↔ s.Has F owner root n ∨
      ∃ v, new = some v ∧ own = some owner ∧ F.root v = root ∧ F.number v = n := by
  have himage : (∃ v ∈ (s.run F step).versions, F.root v = root ∧ F.number v = n) ↔
      (∃ v ∈ s.versions, F.root v = root ∧ F.number v = n) ∨
        ∃ v ∈ step.added, F.root v = root ∧ F.number v = n := by
    have hpair : ∀ {t : Set ν}, (∃ v ∈ t, F.root v = root ∧ F.number v = n) ↔
        (root, n) ∈ (fun v => (F.root v, F.number v)) '' t :=
      exists_congr fun v => and_congr_right fun _ => Prod.mk.injEq .. ▸ Iff.rfl
    have hretire : ∀ v, (F.root (F.retire v), F.number (F.retire v)) = (F.root v, F.number v) :=
      fun v => by rw [F.root_retire, F.number_retire]
    rw [hpair, hpair, hpair, image_run hretire ha, Set.mem_union]
  simp only [hadded, Set.mem_ofPred_eq] at himage
  unfold Has
  rw [himage]
  constructor
  · intro hhas
    obtain ⟨hroots, hold | hnew⟩ := hhas
    · refine Or.inl ⟨?_, hold⟩
      cases step with
      | form r v cites =>
        rcases hroots with heq | hroots
        · obtain ⟨v', hv', hroot, _⟩ := hold
          obtain ⟨r', hr', hroot'⟩ := h.rooted v' hv'
          refine absurd ?_ (ha.1 r' hr')
          rw [hroot', hroot, ← heq]
        · exact hroots
      | revise u v cites => exact hroots
      | cite u cites => exact hroots
    · obtain ⟨v, hv, hroot, hnumber⟩ := hnew
      obtain ⟨owner', howner, howned⟩ := hown v hv
      rw [hroot] at howned
      have hsame := (h.step ha).roots _ hroots _ howned rfl
      rw [← (Prod.mk.inj hsame).1] at howner
      exact Or.inr ⟨v, hv, howner, hroot, hnumber⟩
  · intro hhas
    rcases hhas with ⟨hroots, hold⟩ | ⟨v, hv, howner, hrest⟩
    · refine ⟨?_, Or.inl hold⟩
      cases step with
      | form r v cites => exact Set.mem_insert_of_mem _ hroots
      | revise u v cites => exact hroots
      | cite u cites => exact hroots
    · obtain ⟨owner', howner', howned⟩ := hown v hv
      rw [hrest.1, ← Option.some.inj (howner.symm.trans howner')] at howned
      exact ⟨howned, Or.inr ⟨v, hv, hrest⟩⟩

/-! ## What every version has -/

variable (F) in
/-- Every version has the tag its root's owner asks for. -/
def Tagged (tag : ω → ν → Prop) (s : Shelf ω ρ ν γ) : Prop :=
  ∀ v ∈ s.versions, ∀ r ∈ s.roots, r.2 = F.root v → tag r.1 v

variable (F) in
/-- The version that a step adds has the tag. -/
def TagsNew (tag : ω → ν → Prop) (s : Shelf ω ρ ν γ) : Step ω ρ ν γ → Prop
  | .form r v _ => tag r.1 v
  | .revise u v _ => ∀ owner, s.Owns (· = owner) (F.root u) → tag owner v
  | .cite _ _ => True

theorem Tagged.run {tag : ω → ν → Prop} (hs : s.Lawful F) {step : Step ω ρ ν γ}
    (ha : s.Allowed F step) (h : Tagged F tag s) (hretire : ∀ o v, tag o v → tag o (F.retire v))
    (hnew : TagsNew F tag s step) : Tagged F tag (s.run F step) := by
  cases step with
  | form r v cites =>
    obtain ⟨hfresh, hv, _, _⟩ := ha
    rintro x (rfl | hx) a (rfl | har) hroot
    · exact hnew
    · exact absurd (hroot.trans hv.root) (hfresh a har)
    · obtain ⟨b, hb, hbx⟩ := hs.rooted x hx
      exact absurd (hbx.trans hroot.symm) (hfresh b hb)
    · exact h x hx a har hroot
  | revise u v cites =>
    obtain ⟨⟨hu, _⟩, hv, _, _⟩ := ha
    rintro x (rfl | rfl | hx) a har hroot
    · exact hnew a.1 ⟨a, har, hroot.trans hv.root, rfl⟩
    · exact hretire _ _ (h u hu a har (hroot.trans (F.root_retire u)))
    · exact h x hx.1 a har hroot
  | cite u cites => exact h

/-! ## What steps leave alone -/

variable (F) in
/-- How a shelf may have grown: a version stays or is retired, and the citations of a
retired one are final. -/
structure Evolves (s s' : Shelf ω ρ ν γ) : Prop where
  roots : s.roots ⊆ s'.roots
  versions : ∀ v ∈ s.versions, v ∈ s'.versions ∨ (F.live v ∧ F.retire v ∈ s'.versions)
  cites : s.cites ⊆ s'.cites
  frozen : ∀ v ∈ s.versions, ¬F.live v → ∀ c, F.of c = F.ref v → c ∈ s'.cites → c ∈ s.cites

theorem Evolves.refl (s : Shelf ω ρ ν γ) : Evolves F s s :=
  ⟨subset_rfl, fun _ hv => Or.inl hv, subset_rfl, fun _ _ _ _ _ hc => hc⟩

theorem Evolves.trans {s s' s'' : Shelf ω ρ ν γ} (h : Evolves F s s') (h' : Evolves F s' s'') :
    Evolves F s s'' := by
  refine ⟨h.roots.trans h'.roots, ?_, h.cites.trans h'.cites, ?_⟩
  · intro v hv
    rcases h.versions v hv with hv' | ⟨hl, hv'⟩
    · exact h'.versions v hv'
    · rcases h'.versions _ hv' with hv'' | ⟨hl', _⟩
      · exact Or.inr ⟨hl, hv''⟩
      · exact absurd hl' (F.not_live_retire v)
  · intro v hv hl c hc hm
    rcases h.versions v hv with hv' | ⟨hl', _⟩
    · exact h.frozen v hv hl c hc (h'.frozen v hv' hl c hc hm)
    · exact absurd hl' hl

theorem evolves_run (h : s.Lawful F) {step : Step ω ρ ν γ} (ha : s.Allowed F step) :
    Evolves F s (s.run F step) := by
  have hfrozen : ∀ {w : ν} {cites : Set γ}, (∀ c ∈ cites, F.of c = F.ref w) →
      (∀ x ∈ s.versions, ¬F.live x → F.ref x ≠ F.ref w) →
      ∀ x ∈ s.versions, ¬F.live x → ∀ c, F.of c = F.ref x → c ∈ s.cites ∪ cites → c ∈ s.cites := by
    intro w cites hcites hne x hx hl c hc hm
    rcases hm with hm | hm
    · exact hm
    · exact absurd (hc.symm.trans (hcites c hm)) (hne x hx hl)
  cases step with
  | form r v cites =>
    obtain ⟨hfresh, hv, hcites, _⟩ := ha
    refine ⟨Set.subset_insert _ _, fun x hx => Or.inl (Or.inr hx), Set.subset_union_left,
      hfrozen hcites fun x hx _ hr => ?_⟩
    obtain ⟨r', hr', hr'x⟩ := h.rooted x hx
    exact hfresh r' hr' (hr'x.trans (h.ref_root hx (hr.trans hv.ref)).1)
  | revise u v cites =>
    obtain ⟨⟨hu, hul⟩, hv, hcites, _⟩ := ha
    refine ⟨subset_rfl, fun x hx => ?_, Set.subset_union_left, hfrozen hcites fun x hx _ hr => ?_⟩
    · by_cases hxu : x = u
      · subst hxu
        exact Or.inr ⟨hul, Or.inr (Or.inl rfl)⟩
      · exact Or.inl (Or.inr (Or.inr ⟨hx, hxu⟩))
    · obtain ⟨hroot, hnumber⟩ := h.ref_root hx (hr.trans hv.ref)
      have := h.last u hu hul x hx hroot
      omega
  | cite u cites =>
    refine ⟨subset_rfl, fun x hx => Or.inl hx, Set.subset_union_left,
      hfrozen ha.2 fun x hx hl hr => hl ?_⟩
    rw [h.unique x hx u ha.1.1 hr]
    exact ha.1.2

/-! ## What is shown of a shelf -/

variable (F) in
/-- The live version that goes by this ref, of such an owner. -/
structure Shows (s : Shelf ω ρ ν γ) (key : κ) (o : ω → Prop) (v : ν) : Prop where
  mem : v ∈ s.versions
  live : F.live v
  ref : F.ref v = key
  owned : s.Owns o (F.root v)

/-- What is shown of a chain is its last version. -/
theorem Lawful.not_shows (h : s.Lawful F) {key : κ} {owner : ω} {n : Nat} (hs : s.Shows F key o v)
    (hkey : key = F.name root n) : ¬s.Has F owner root (n + 1) := by
  intro hhas
  obtain ⟨_, u, hu, hroot, hnumber⟩ := hhas
  obtain ⟨hvroot, hvnumber⟩ := h.ref_root hs.mem (hs.ref.trans hkey)
  have hle := h.last v hs.mem hs.live u hu (hroot.trans hvroot.symm)
  omega

variable {s' : Shelf ω ρ ν γ}

/-- What is shown of a grown shelf was shown before, or has a number that is new. -/
theorem Evolves.shown (he : Evolves F s s') (h' : s'.Lawful F) {key : κ} (hs : s'.Shows F key o v) :
    s.Shows F key o v ∨ ∃ owner, o owner ∧ s'.Has F owner (F.root v) (F.number v) ∧
      ¬s.Has F owner (F.root v) (F.number v) := by
  obtain ⟨r, hr, hroot, ho⟩ := hs.owned
  have hrow : (r.1, F.root v) ∈ s'.roots := by
    rw [← hroot]
    exact hr
  by_cases hhas : s.Has F r.1 (F.root v) (F.number v)
  · left
    obtain ⟨hrs, u, hu, huroot, hunumber⟩ := hhas
    rcases he.versions u hu with hu' | ⟨_, hu'⟩
    · have heq := h'.eq hu' hs.mem huroot hunumber
      rw [heq] at hu
      exact ⟨hu, hs.live, hs.ref, _, hrs, rfl, ho⟩
    · have heq := h'.eq hu' hs.mem ((F.root_retire u).trans huroot)
        ((F.number_retire u).trans hunumber)
      refine absurd hs.live ?_
      rw [← heq]
      exact F.not_live_retire u
  · exact Or.inr ⟨r.1, ho, ⟨hrow, v, hs.mem, rfl, rfl⟩, hhas⟩

/-- What was shown is shown of a grown shelf, or the next version took its place. -/
theorem Evolves.shows (he : Evolves F s s') (h : s.Lawful F) (h' : s'.Lawful F) {key : κ}
    (hs : s.Shows F key o v) :
    s'.Shows F key o v ∨ ∃ owner, o owner ∧ s'.Has F owner (F.root v) (F.number v + 1) ∧
      ¬s.Has F owner (F.root v) (F.number v + 1) := by
  obtain ⟨r, hr, hroot, ho⟩ := hs.owned
  rcases he.versions v hs.mem with hv | ⟨_, hv⟩
  · exact Or.inl ⟨hv, hs.live, hs.ref, r, he.roots hr, hroot, ho⟩
  · right
    obtain ⟨u, hu, huroot, hulive⟩ := h'.current r (he.roots hr)
    have hchain : F.root (F.retire v) = F.root u := by
      rw [F.root_retire, huroot, hroot]
    have hlast := h'.last u hu hulive _ hv hchain
    rw [F.number_retire] at hlast
    have hne : F.number v ≠ F.number u := by
      intro hnumber
      have heq := h'.eq hv hu hchain ((F.number_retire v).trans hnumber)
      rw [← heq] at hulive
      exact F.not_live_retire v hulive
    obtain ⟨x, hx, hxroot, hxnumber⟩ := h'.gapless u hu (F.number v + 1) (by omega) (by omega)
    refine ⟨r.1, ho, ⟨?_, x, hx, ?_, hxnumber⟩, h.not_shows hs ?_⟩
    · rw [← hroot]
      exact he.roots hr
    · rw [hxroot, huroot, hroot]
    · rw [← hs.ref]
      exact h.named v hs.mem


variable (F) in
/-- Two shelves agree on what the owners `o` have. -/
structure Same (o : ω → Prop) (s s' : Shelf ω ρ ν γ) : Prop where
  roots : ∀ r, o r.1 → (r ∈ s.roots ↔ r ∈ s'.roots)
  versions : ∀ v root n, F.ref v = F.name root n → s.Owns o root →
    (v ∈ s.versions ↔ v ∈ s'.versions)
  cites : ∀ c root n, F.of c = F.name root n → s.Owns o root → (c ∈ s.cites ↔ c ∈ s'.cites)

theorem Same.refl (o : ω → Prop) (s : Shelf ω ρ ν γ) : Same F o s s :=
  ⟨fun _ _ => Iff.rfl, fun _ _ _ _ _ => Iff.rfl, fun _ _ _ _ _ => Iff.rfl⟩

theorem Same.owns {s s' : Shelf ω ρ ν γ} (h : Same F o s s') : s.Owns o root ↔ s'.Owns o root := by
  constructor
  · rintro ⟨r, hr, hroot, ho⟩
    exact ⟨r, (h.roots r ho).mp hr, hroot, ho⟩
  · rintro ⟨r, hr, hroot, ho⟩
    exact ⟨r, (h.roots r ho).mpr hr, hroot, ho⟩

theorem Same.symm {s s' : Shelf ω ρ ν γ} (h : Same F o s s') : Same F o s' s :=
  ⟨fun r ho => (h.roots r ho).symm,
    fun v root n hv ho => (h.versions v root n hv (h.owns.mpr ho)).symm,
    fun c root n hc ho => (h.cites c root n hc (h.owns.mpr ho)).symm⟩

theorem Same.trans {s s' s'' : Shelf ω ρ ν γ} (h : Same F o s s') (h' : Same F o s' s'') :
    Same F o s s'' :=
  ⟨fun r ho => (h.roots r ho).trans (h'.roots r ho),
    fun v root n hv ho => (h.versions v root n hv ho).trans (h'.versions v root n hv (h.owns.mp ho)),
    fun c root n hc ho => (h.cites c root n hc ho).trans (h'.cites c root n hc (h.owns.mp ho))⟩

theorem Same.mono {o' : ω → Prop} {s s' : Shelf ω ρ ν γ} (h : Same F o' s s') (ho : ∀ x, o x → o' x) :
    Same F o s s' := by
  have howns : ∀ {root}, s.Owns o root → s.Owns o' root := fun ⟨r, hr, hroot, hor⟩ =>
    ⟨r, hr, hroot, ho _ hor⟩
  exact ⟨fun r hr => h.roots r (ho _ hr), fun v root n hv hor => h.versions v root n hv (howns hor),
    fun c root n hc hor => h.cites c root n hc (howns hor)⟩

/-- The root a step is about is one of the owners. -/
def Concerns (F : Format ρ κ ν γ σ) (s : Shelf ω ρ ν γ) (o : ω → Prop) : Step ω ρ ν γ → Prop
  | .form r _ _ => o r.1
  | .revise u _ _ | .cite u _ => s.Owns o (F.root u)

/-- A step changes nothing that other owners have. -/
theorem same_run (h : s.Lawful F) {step : Step ω ρ ν γ} (ha : s.Allowed F step) {o' : ω → Prop}
    (hc : Concerns F s o' step) (hdis : ∀ x, o x → ¬o' x) : Same F o s (s.run F step) := by
  have hroot : ∀ {root}, s.Owns o root → ¬s.Owns o' root := by
    rintro root ⟨r, hr, hrr, ho⟩ ⟨r', hr', hrr', ho'⟩
    exact hdis _ ho (h.roots r hr r' hr' (hrr.trans hrr'.symm) ▸ ho')
  have hcite : ∀ {w : ν} {cites : Set γ} {root' : ρ} {n' : Nat}, (∀ c ∈ cites, F.of c = F.ref w) →
      F.ref w = F.name root' n' → ¬s.Owns o root' → ∀ c root n, F.of c = F.name root n →
      s.Owns o root → (c ∈ s.cites ↔ c ∈ s.cites ∪ cites) := by
    intro w cites root' n' hcites hw hno c root n hc ho
    refine ⟨Or.inl, fun hm => hm.elim id fun hm => ?_⟩
    have hname : F.name root n = F.name root' n' := hc.symm.trans ((hcites c hm).trans hw)
    exact absurd ((F.name_inj hname).1 ▸ ho) hno
  cases step with
  | form r v cites =>
    obtain ⟨hfresh, hv, hcites, _⟩ := ha
    have hno : ¬s.Owns o r.2 := fun ⟨r', hr', hrr, _⟩ => hfresh r' hr' hrr
    refine ⟨fun a ho => ⟨Or.inr, fun ha => ha.elim (fun har => ?_) id⟩,
      fun x root n hx ho => ⟨Or.inr, fun hm => hm.elim (fun hxv => ?_) id⟩, hcite hcites hv.ref hno⟩
    · exact absurd (har ▸ hc) (hdis _ ho)
    · subst hxv
      exact absurd ((F.name_inj (hx.symm.trans hv.ref)).1 ▸ ho) hno
  | revise u v cites =>
    obtain ⟨⟨hu, _⟩, hv, hcites, _⟩ := ha
    have hno : ¬s.Owns o (F.root u) := fun ho => hroot ho hc
    refine ⟨fun a _ => Iff.rfl, fun x root n hx ho => ?_, hcite hcites hv.ref hno⟩
    have hne : ∀ {y m}, F.ref y = F.name (F.root u) m → x ≠ y := by
      rintro y m hy rfl
      exact hno ((F.name_inj (hx.symm.trans hy)).1 ▸ ho)
    have hxu : x ≠ u := hne (h.named u hu)
    have hxr : x ≠ F.retire u := hne ((F.ref_retire u).trans (h.named u hu))
    constructor
    · intro hm
      exact Or.inr (Or.inr ⟨hm, hxu⟩)
    · rintro (hxv | hxv | hm)
      · exact absurd hxv (hne hv.ref)
      · exact absurd hxv hxr
      · exact hm.1
  | cite u cites =>
    exact ⟨fun a _ => Iff.rfl, fun x _ _ _ _ => Iff.rfl,
      hcite ha.2 (h.named u ha.1.1) fun ho => hroot ho hc⟩

end Shelf

end Versions
