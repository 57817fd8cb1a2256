/-
One receipt for one job.

A version names the job it comes from, and it is written with the receipt of that job in
one commit.  A job with a receipt makes no more versions, so the receipt that is rebuilt
from the versions stays the one that the commit returned.
-/
import ChoraMem.Intake.OutcomeHash
import ChoraMem.World.Chains

namespace ChoraMem

open Txn Versions

/-! ## Where versions come from -/

/-- The job a version comes from, and its ref. -/
def SeedVersionRow.source (v : SeedVersionRow) : (String × String) × String :=
  ((v.tenantRef, v.originJobRef), v.ref)

def RecollectionVersionRow.source (v : RecollectionVersionRow) : (String × String) × String :=
  ((v.tenantRef, v.originJobRef), v.ref)

def seedSources (d : Db) : Set ((String × String) × String) :=
  SeedVersionRow.source '' {v | v ∈ d.seedVersions}

def recollectionSources (d : Db) : Set ((String × String) × String) :=
  RecollectionVersionRow.source '' {v | v ∈ d.recollectionVersions}

section

variable {x y : Db} {deed : Deed} {key : String × String} {ref : String}

theorem mem_seedSources : (key, ref) ∈ seedSources x ↔
    ∃ v ∈ x.seedVersions, (v.tenantRef, v.originJobRef) = key ∧ v.ref = ref := by
  constructor
  · rintro ⟨v, hv, heq⟩
    exact ⟨v, hv, Prod.mk.inj heq⟩
  · intro ⟨v, hv, hkey, href⟩
    exact ⟨v, hv, Prod.ext hkey href⟩

theorem mem_recollectionSources : (key, ref) ∈ recollectionSources x ↔
    ∃ v ∈ x.recollectionVersions, (v.tenantRef, v.originJobRef) = key ∧ v.ref = ref := by
  constructor
  · rintro ⟨v, hv, heq⟩
    exact ⟨v, hv, Prod.mk.inj heq⟩
  · intro ⟨v, hv, hkey, href⟩
    exact ⟨v, hv, Prod.ext hkey href⟩

/-- A deed adds its own version, under a ref that no version has. -/
theorem seedSources_did (h : MemoryLaw x) (hfits : deed.Fits x) (hreg : deed.Regular x)
    (hdid : x.Did deed y) :
    seedSources y = seedSources x ∪ SeedVersionRow.source '' {v | deed.seedRow? = some v} ∧
      ∀ v, deed.seedRow? = some v → ∀ u ∈ x.seedVersions, u.ref ≠ v.ref := by
  obtain ⟨operations, rfl⟩ := hdid
  rcases seed_step h hfits hreg with ⟨heq, hnone⟩ | ⟨step, hstep, _⟩
  · have hversions := congrArg Shelf.versions heq
    rw [hnone]
    refine ⟨?_, fun v hv => by cases hv⟩
    rw [← empty_none, Set.image_empty, Set.union_empty]
    exact congrArg (Set.image SeedVersionRow.source) hversions
  · have hversions := congrArg Shelf.versions hstep.run
    refine ⟨?_, fun v hv => h.seeds.added_fresh hstep.allowed v (hstep.added ▸ hv)⟩
    rw [← hstep.added]
    refine Eq.trans ?_ (Shelf.image_run (f := SeedVersionRow.source) (fun _ => rfl) hstep.allowed)
    exact congrArg (Set.image SeedVersionRow.source) hversions

theorem recollectionSources_did (h : MemoryLaw x) (hfits : deed.Fits x) (hreg : deed.Regular x)
    (hdid : x.Did deed y) :
    recollectionSources y =
        recollectionSources x ∪ RecollectionVersionRow.source '' {v | deed.recollectionRow? = some v} ∧
      ∀ v, deed.recollectionRow? = some v → ∀ u ∈ x.recollectionVersions, u.ref ≠ v.ref := by
  obtain ⟨operations, rfl⟩ := hdid
  rcases recollection_step h hfits hreg with ⟨heq, hnone⟩ | ⟨step, hstep, _⟩
  · have hversions := congrArg Shelf.versions heq
    rw [hnone]
    refine ⟨?_, fun v hv => by cases hv⟩
    rw [← empty_none, Set.image_empty, Set.union_empty]
    exact congrArg (Set.image RecollectionVersionRow.source) hversions
  · have hversions := congrArg Shelf.versions hstep.run
    refine ⟨?_, fun v hv => h.recollections.added_fresh hstep.allowed v (hstep.added ▸ hv)⟩
    rw [← hstep.added]
    refine Eq.trans ?_
      (Shelf.image_run (f := RecollectionVersionRow.source) (fun _ => rfl) hstep.allowed)
    exact congrArg (Set.image RecollectionVersionRow.source) hversions

end

/-! ## The receipt of a batch -/

section

variable {store : Store} {env : Ambient} {jobRef : String} {w : WindowState} {change : Change}
variable {x y : Db} {a : Applied} {deed : Deed} {tenantRef : String}

theorem madeVersions_append (done : List (Change × Applied)) (r : Change × Applied)
    (p : Change × Applied → Bool) : madeVersions ((done ++ [r]).filter p) =
      madeVersions (done.filter p) ++ madeVersions ([r].filter p) := by
  unfold madeVersions
  rw [List.filter_append, List.filter_append, List.map_append]

theorem recollects_addressee (w : WindowState) (change : Change) :
    w.recollects change = match w.addressee change.target with
      | .newRecollection | .recollection _ => true
      | _ => false := by
  unfold WindowState.recollects WindowState.addressee
  by_cases hrec : change.target = targetNewRecollection
  · simp [hrec]
  by_cases hdis : change.target = targetNewDisposition
  · rw [if_neg hrec, if_pos hdis]
    simp [hdis, targetNewDisposition, targetNewRecollection]
  cases hr : w.recollectionOf change.target with
  | some r => simp [hrec, hdis]
  | none => cases ht : targetByRef w.targets change.target <;> simp [hrec, hdis]

theorem madeVersions_none (href : a.versionRef = "") (p : Change × Applied → Bool) :
    madeVersions ([(change, a)].filter p) = [] := by
  unfold madeVersions
  by_cases hp : p (change, a) = true <;> simp [hp, href]

/-- A version that is made is of one kind. -/
theorem madeVersions_one {ref : String} (href : ref ≠ "") :
    madeVersions ([(change, (⟨ref, true⟩ : Applied))].filter fun e => w.recollects e.1) =
        (if w.recollects change then [ref] else []) ∧
      madeVersions ([(change, (⟨ref, true⟩ : Applied))].filter fun e => !w.recollects e.1) =
        if w.recollects change then [] else [ref] := by
  unfold madeVersions
  cases hkind : w.recollects change <;> simp [hkind, href]

/-- The versions a change added, as its effect tells them. -/
def effectSources (key : String × String) (refs : List String) :
    Set ((String × String) × String) := {o | o.1 = key ∧ o.2 ∈ refs}

@[simp] theorem effectSources_nil (key : String × String) : effectSources key [] = ∅ := by
  ext o
  simp [effectSources]

theorem effectSources_append (key : String × String) (refs more : List String) :
    effectSources key (refs ++ more) = effectSources key refs ∪ effectSources key more := by
  ext o
  simp [effectSources, and_or_left]

theorem effectSources_one (key : String × String) (ref : String) :
    effectSources key [ref] = {(key, ref)} := by
  ext o
  simp [effectSources, Prod.ext_iff]

/-- What the effect of a change tells of the versions that its deed adds. -/
theorem Licensed.made (h : Licensed store env jobRef w change x a deed)
    (howner : (windowOwner w.episodes).tenantRef = tenantRef)
    (htargets : ∀ t ∈ w.targets, t.owner.tenantRef = tenantRef)
    (hrecollections : ∀ r ∈ w.recollections, r.owner.tenantRef = tenantRef) :
    SeedVersionRow.source '' {v | deed.seedRow? = some v} = effectSources (tenantRef, jobRef)
        (madeVersions ([(change, a)].filter fun e => !w.recollects e.1)) ∧
      RecollectionVersionRow.source '' {v | deed.recollectionRow? = some v} =
        effectSources (tenantRef, jobRef)
          (madeVersions ([(change, a)].filter fun e => w.recollects e.1)) := by
  have hkind := recollects_addressee w change
  have hnone : SeedVersionRow.source '' {v | none = some v} = ∅ := by
    rw [← empty_none, Set.image_empty]
  have hnone' : RecollectionVersionRow.source '' {v | none = some v} = ∅ := by
    rw [← empty_none, Set.image_empty]
  have hsome : ∀ u, SeedVersionRow.source '' {v | some u = some v} = {u.source} := by
    intro u
    rw [← singleton_some, Set.image_singleton]
  have hsome' : ∀ u, RecollectionVersionRow.source '' {v | some u = some v} = {u.source} := by
    intro u
    rw [← singleton_some, Set.image_singleton]
  cases h with
  | nothing | keep | reenact | inhibit =>
    rw [madeVersions_none rfl, madeVersions_none rfl, effectSources_nil]
    exact ⟨hnone, hnone'⟩
  | @formRecollection row basis htarget _ _ hrow =>
    have hne : row.ref ≠ "" := by
      rw [hrow]
      exact versionRefOf_ne_empty _ _
    have hmade := @madeVersions_one w change _ hne
    rw [htarget] at hkind
    rw [hmade.1, hmade.2, hkind, if_pos rfl, if_pos rfl, effectSources_nil, effectSources_one,
      ← howner]
    refine ⟨hnone, (hsome' row).trans ?_⟩
    rw [hrow]
    rfl
  | @reviseRecollection r u hr =>
    have hmade := @madeVersions_one w change (r.next env jobRef (trimSpace change.text)).ref
      (versionRefOf_ne_empty _ _)
    rw [hr] at hkind
    rw [hmade.1, hmade.2, hkind, if_pos rfl, if_pos rfl, effectSources_nil, effectSources_one,
      ← hrecollections r (WindowState.recollectionOf_addressee hr).1]
    exact ⟨hnone, hsome' _⟩
  | @formSeed row episodes outcomes htarget _ _ _ hrow =>
    have hne : row.ref ≠ "" := by
      rw [hrow]
      exact versionRefOf_ne_empty _ _
    have hmade := @madeVersions_one w change _ hne
    rw [htarget] at hkind
    rw [hmade.1, hmade.2, hkind, if_neg (by simp), if_neg (by simp), effectSources_nil,
      effectSources_one, ← howner]
    refine ⟨(hsome row).trans ?_, hnone'⟩
    rw [hrow]
    rfl
  | @reviseSeed t u episodes outcomes ht =>
    have hmade := @madeVersions_one w change (t.next jobRef change.text).ref
      (versionRefOf_ne_empty _ _)
    rw [ht] at hkind
    rw [hmade.1, hmade.2, hkind, if_neg (by simp), if_neg (by simp), effectSources_nil,
      effectSources_one, ← htargets t (WindowState.target_addressee ht).1]
    exact ⟨hsome _, hnone'⟩

/-- The versions of a batch are those its effects tell, each told once. -/
structure Accounted (key : String × String) (w : WindowState) (d z : Db)
    (done : List (Change × Applied)) : Prop where
  seeds : seedSources z = seedSources d ∪
    effectSources key (madeVersions (done.filter fun e => !w.recollects e.1))
  recollections : recollectionSources z = recollectionSources d ∪
    effectSources key (madeVersions (done.filter fun e => w.recollects e.1))
  seedRefs : (madeVersions (done.filter fun e => !w.recollects e.1)).Nodup
  recollectionRefs : (madeVersions (done.filter fun e => w.recollects e.1)).Nodup

theorem accounted_nil (key : String × String) (w : WindowState) (d : Db) : Accounted key w d d [] := by
  have hnone : ∀ p : Change × Applied → Bool, madeVersions (([] : List (Change × Applied)).filter p) = [] :=
    fun _ => rfl
  constructor
  · rw [hnone, effectSources_nil, Set.union_empty]
  · rw [hnone, effectSources_nil, Set.union_empty]
  · exact List.nodup_nil
  · exact List.nodup_nil

theorem nodup_madeVersions_one (e : Change × Applied) (p : Change × Applied → Bool) :
    (madeVersions ([e].filter p)).Nodup := by
  refine List.Nodup.sublist ((List.filter_sublist.trans List.filter_sublist).map _) ?_
  exact List.nodup_singleton _

theorem Accounted.step {d : Db} {done : List (Change × Applied)}
    (h : Accounted (tenantRef, jobRef) w d x done)
    (hstep : BatchStep store env jobRef w d change x a deed y)
    (howner : (windowOwner w.episodes).tenantRef = tenantRef)
    (htargets : ∀ t ∈ w.targets, t.owner.tenantRef = tenantRef)
    (hrecollections : ∀ r ∈ w.recollections, r.owner.tenantRef = tenantRef) :
    Accounted (tenantRef, jobRef) w d y (done ++ [(change, a)]) := by
  obtain ⟨hlicensed, hfits, hdid⟩ := hstep.carried
  obtain ⟨hmade, hmade'⟩ := hlicensed.made howner htargets hrecollections
  obtain ⟨hseeds, hfresh⟩ := seedSources_did hstep.law hfits hstep.regular hdid
  obtain ⟨hrecs, hfresh'⟩ := recollectionSources_did hstep.law hfits hstep.regular hdid
  constructor
  · rw [madeVersions_append, effectSources_append, ← hmade, hseeds, h.seeds, Set.union_assoc]
  · rw [madeVersions_append, effectSources_append, ← hmade', hrecs, h.recollections,
      Set.union_assoc]
  · rw [madeVersions_append]
    refine List.nodup_append.mpr ⟨h.seedRefs, nodup_madeVersions_one _ _, ?_⟩
    rintro ref hold _ hnew rfl
    have hin : ((tenantRef, jobRef), ref) ∈ seedSources x := by
      rw [h.seeds]
      exact Or.inr ⟨rfl, hold⟩
    obtain ⟨u, hu, _, huref⟩ := mem_seedSources.mp hin
    have hadded : ((tenantRef, jobRef), ref) ∈ effectSources (tenantRef, jobRef) _ := ⟨rfl, hnew⟩
    rw [← hmade] at hadded
    obtain ⟨v, hv, heq⟩ := hadded
    exact hfresh v hv u hu (huref.trans (Prod.mk.inj heq).2.symm)
  · rw [madeVersions_append]
    refine List.nodup_append.mpr ⟨h.recollectionRefs, nodup_madeVersions_one _ _, ?_⟩
    rintro ref hold _ hnew rfl
    have hin : ((tenantRef, jobRef), ref) ∈ recollectionSources x := by
      rw [h.recollections]
      exact Or.inr ⟨rfl, hold⟩
    obtain ⟨u, hu, _, huref⟩ := mem_recollectionSources.mp hin
    have hadded : ((tenantRef, jobRef), ref) ∈ effectSources (tenantRef, jobRef) _ := ⟨rfl, hnew⟩
    rw [← hmade'] at hadded
    obtain ⟨v, hv, heq⟩ := hadded
    exact hfresh' v hv u hu (huref.trans (Prod.mk.inj heq).2.symm)

end

/-! ## Rebuilt receipts -/

section

variable {d d' : Db} {tenantRef jobRef : String} {seeds recollections : List String}

theorem sortRefs_eq_of_mem {refs refs' : List String} (h : refs.Nodup) (h' : refs'.Nodup)
    (hmem : ∀ ref, ref ∈ refs ↔ ref ∈ refs') : sortRefs refs = sortRefs refs' :=
  sortRefs_eq_iff.mpr ((List.perm_ext_iff_of_nodup h h').mpr hmem)

/-- A receipt is rebuilt from the sources of the versions. -/
theorem jobEffects_eq (h : MemoryLaw d) (hseeds : seeds.Nodup) (hrecollections : recollections.Nodup)
    (hs : ∀ ref, ((tenantRef, jobRef), ref) ∈ seedSources d ↔ ref ∈ seeds)
    (hr : ∀ ref, ((tenantRef, jobRef), ref) ∈ recollectionSources d ↔ ref ∈ recollections) :
    jobEffects tenantRef jobRef d = ⟨sortRefs recollections, sortRefs seeds⟩ := by
  unfold jobEffects
  congr 1
  · refine sortRefs_eq_of_mem (nodup_filter_refs h.keys.recollectionVersions _) hrecollections
      fun ref => ?_
    rw [← hr, mem_recollectionSources]
    simp only [List.mem_map, List.mem_filter, Bool.and_eq_true, decide_eq_true_eq, Prod.mk.injEq,
      and_assoc]
  · refine sortRefs_eq_of_mem (nodup_filter_refs h.keys.seedVersions _) hseeds fun ref => ?_
    rw [← hs, mem_seedSources]
    simp only [List.mem_map, List.mem_filter, Bool.and_eq_true, decide_eq_true_eq, Prod.mk.injEq,
      and_assoc]

theorem jobEffects_congr (h : MemoryLaw d) (h' : MemoryLaw d')
    (hs : ∀ ref, ((tenantRef, jobRef), ref) ∈ seedSources d ↔
      ((tenantRef, jobRef), ref) ∈ seedSources d')
    (hr : ∀ ref, ((tenantRef, jobRef), ref) ∈ recollectionSources d ↔
      ((tenantRef, jobRef), ref) ∈ recollectionSources d') :
    jobEffects tenantRef jobRef d = jobEffects tenantRef jobRef d' := by
  unfold jobEffects
  congr 1
  · refine sortRefs_eq_of_mem (nodup_filter_refs h.keys.recollectionVersions _)
      (nodup_filter_refs h'.keys.recollectionVersions _) fun ref => ?_
    have hiff := hr ref
    rw [mem_recollectionSources, mem_recollectionSources] at hiff
    simpa [and_assoc] using hiff
  · refine sortRefs_eq_of_mem (nodup_filter_refs h.keys.seedVersions _)
      (nodup_filter_refs h'.keys.seedVersions _) fun ref => ?_
    have hiff := hs ref
    rw [mem_seedSources, mem_seedSources] at hiff
    simpa [and_assoc] using hiff

/-- A job has one receipt, and every version has the receipt of its job. -/
structure Receipted (d : Db) : Prop where
  unique : KeysUnique ConsolidationReceiptRow.key d.receipts
  seeds : ∀ o ∈ seedSources d, ∃ r ∈ d.receipts, r.key = o.1
  recollections : ∀ o ∈ recollectionSources d, ∃ r ∈ d.receipts, r.key = o.1

theorem receipted_empty : Receipted {} where
  unique := List.nodup_nil
  seeds := by
    rintro _ ⟨v, hv, _⟩
    cases hv
  recollections := by
    rintro _ ⟨v, hv, _⟩
    cases hv

/-- What a commit may do to the receipts and the versions of the jobs. -/
structure KeepsReceipts (d d' : Db) : Prop where
  receipted : Receipted d'
  receipts : d.receipts ⊆ d'.receipts
  effects : ∀ r ∈ d.receipts, jobEffects r.key.1 r.key.2 d' = jobEffects r.key.1 r.key.2 d

theorem KeepsReceipts.of_same (h : Receipted d) (hsame : SameShelves d d') : KeepsReceipts d d' := by
  have hs : seedSources d' = seedSources d := by
    unfold seedSources
    rw [hsame.seedVersions]
  have hr : recollectionSources d' = recollectionSources d := by
    unfold recollectionSources
    rw [hsame.recollectionVersions]
  refine ⟨⟨?_, ?_, ?_⟩, ?_, fun r _ => ?_⟩
  · rw [hsame.receipts]
    exact h.unique
  · rw [hs, hsame.receipts]
    exact h.seeds
  · rw [hr, hsame.receipts]
    exact h.recollections
  · rw [hsame.receipts]
    exact fun _ hr => hr
  · unfold jobEffects
    rw [hsame.seedVersions, hsame.recollectionVersions]

end

/-! ## The commit of a consolidation -/

section

variable {store : Store} {env : Ambient} {p : Proposal} {text : String} {d e x y : Db}
variable {effects : List (Change × Applied)} {receipt : Receipt}

theorem Sight.tenants (s : Sight store p e d) (hvalid : p.window.valid = true) :
    (windowOwner s.window.episodes).tenantRef = p.owner.tenantRef ∧
      (∀ t ∈ s.window.targets, t.owner.tenantRef = p.owner.tenantRef) ∧
      ∀ r ∈ s.window.recollections, r.owner.tenantRef = p.owner.tenantRef := by
  refine ⟨?_, fun t ht => ?_, fun r hr => ?_⟩
  · rw [Sight.window_episodes, s.owner hvalid]
  · rw [Sight.window_targets] at ht
    exact (tenant_of_shown (s.target_owner ht)).1
  · rw [Sight.window_recollections] at hr
    obtain ⟨a, ha, rfl⟩ := mem_loadActiveRecollections hr
    obtain ⟨row, hrow, hrown, v, hv, _, _, _, rfl⟩ := mem_ownedRecollections.mp ha
    rfl

/-- A batch accounts for its versions. -/
theorem Sight.accounted (s : Sight store p e d) (hd : WorldLaw store d) (hge : Gains e d)
    (hp : Proposed store p x) (hlocked : ∀ t ∈ s.targets, p.locks t.owner)
    (hbatch : Batch store env p.window.jobRef s.window (s.window.accepted text) d effects y) :
    Accounted (p.owner.tenantRef, p.window.jobRef) s.window d y effects ∧ MemoryLaw y ∧
      y.receipts = d.receipts := by
  obtain ⟨howner, htargets, hrecollections⟩ := s.tenants hp.valid
  obtain ⟨haccounted, hlaw, _, hbeside⟩ := s.keeps hd hge hp hlocked hbatch
    (accounted_nil (p.owner.tenantRef, p.window.jobRef) s.window d)
    fun x done change a deed z _ hstep h => h.step hstep howner htargets hrecollections
  exact ⟨haccounted, hlaw, hbeside.receipts⟩

/-- The versions of another job are as they were. -/
theorem Accounted.other {key key' : String × String} {w : WindowState}
    (h : Accounted key w d y effects) (hne : key' ≠ key) (ref : String) :
    ((key', ref) ∈ seedSources y ↔ (key', ref) ∈ seedSources d) ∧
      ((key', ref) ∈ recollectionSources y ↔ (key', ref) ∈ recollectionSources d) := by
  have hno : ∀ refs, (key', ref) ∉ effectSources key refs := fun _ hmem => hne hmem.1
  rw [h.seeds, h.recollections, Set.mem_union, Set.mem_union]
  simp [hno]

/-- The versions of a job that had none are those of the batch. -/
theorem Accounted.own {key : String × String} {w : WindowState} (h : Accounted key w d y effects)
    (hnone : ∀ ref, (key, ref) ∉ seedSources d ∧ (key, ref) ∉ recollectionSources d)
    (ref : String) :
    ((key, ref) ∈ seedSources y ↔
        ref ∈ madeVersions (effects.filter fun e => !w.recollects e.1)) ∧
      ((key, ref) ∈ recollectionSources y ↔
        ref ∈ madeVersions (effects.filter fun e => w.recollects e.1)) := by
  have hown : ∀ refs, (key, ref) ∈ effectSources key refs ↔ ref ∈ refs := by
    intro refs
    simp [effectSources]
  rw [h.seeds, h.recollections, Set.mem_union, Set.mem_union, hown, hown]
  simp [hnone ref]

/-- A commit that changes the store freezes the receipt it returns, of a job that had none. -/
theorem Concluded.receipted (h : Concluded store env p text d receipt y) (hd : WorldLaw store d)
    (hp : Proposed store p x) (hr : Receipted d) :
    KeepsReceipts d y ∧ (y ≠ d →
      jobEffects p.owner.tenantRef p.window.jobRef d = {} ∧
      (⟨p.owner, p.window.jobRef, p.requestHash⟩ : ConsolidationReceiptRow) ∈ y.receipts ∧
      (∀ r ∈ d.receipts, r.key ≠ (p.owner.tenantRef, p.window.jobRef)) ∧
      jobEffects p.owner.tenantRef p.window.jobRef y = receipt) := by
  cases h with
  | frozen _ _ _ _ hsame =>
    subst hsame
    refine ⟨.of_same hr (SameShelves.refl _), fun hne => absurd rfl hne⟩
  | @committed e z effects sight hge hlinks hlocked hunchanged hbatch hreceipt hfree hsame =>
    obtain ⟨haccounted, hlaw, hreceipts⟩ := sight.accounted hd hge hp hlocked hbatch
    generalize hrow : (⟨p.owner, p.window.jobRef, p.requestHash⟩ : ConsolidationReceiptRow) = row
    have hkey : row.key = (p.owner.tenantRef, p.window.jobRef) := by
      subst hrow
      rfl
    rw [hrow] at hsame
    rw [hreceipts, ← hkey] at hfree
    have hnew : (z.apply (.insertReceipt row)).receipts = d.receipts ++ [row] := by
      rw [← hreceipts] at hfree ⊢
      exact insertRow_fresh hfree
    have hseeds : seedSources (z.apply (.insertReceipt row)) = seedSources z := rfl
    have hrecollections :
        recollectionSources (z.apply (.insertReceipt row)) = recollectionSources z := rfl
    have heffects : ∀ t j, jobEffects t j (z.apply (.insertReceipt row)) = jobEffects t j z :=
      fun _ _ => rfl
    have hnone : ∀ ref, ((p.owner.tenantRef, p.window.jobRef), ref) ∉ seedSources d ∧
        ((p.owner.tenantRef, p.window.jobRef), ref) ∉ recollectionSources d := by
      intro ref
      rw [← hkey]
      constructor
      · intro hmem
        obtain ⟨r, hr', hrkey⟩ := hr.seeds _ hmem
        exact hfree r hr' hrkey
      · intro hmem
        obtain ⟨r, hr', hrkey⟩ := hr.recollections _ hmem
        exact hfree r hr' hrkey
    subst hsame
    refine ⟨⟨⟨?_, ?_, ?_⟩, ?_, ?_⟩, fun _ => ⟨?_, ?_, ?_, ?_⟩⟩
    · rw [hnew]
      exact keysUnique_append hr.unique fun ⟨r, hr', hrkey⟩ => hfree r hr' hrkey
    · intro o ho
      rw [hseeds, haccounted.seeds] at ho
      rw [hnew]
      rcases ho with ho | ho
      · obtain ⟨r, hr', hrkey⟩ := hr.seeds o ho
        exact ⟨r, List.mem_append_left _ hr', hrkey⟩
      · exact ⟨row, by simp, hkey.trans ho.1.symm⟩
    · intro o ho
      rw [hrecollections, haccounted.recollections] at ho
      rw [hnew]
      rcases ho with ho | ho
      · obtain ⟨r, hr', hrkey⟩ := hr.recollections o ho
        exact ⟨r, List.mem_append_left _ hr', hrkey⟩
      · exact ⟨row, by simp, hkey.trans ho.1.symm⟩
    · rw [hnew]
      exact List.subset_append_left _ _
    · intro r hr'
      rw [heffects]
      have hne := hkey ▸ hfree r hr'
      exact jobEffects_congr hlaw hd.memory (fun ref => (haccounted.other hne ref).1)
        fun ref => (haccounted.other hne ref).2
    · refine jobEffects_eq hd.memory List.nodup_nil List.nodup_nil (fun ref => ?_) fun ref => ?_
      · simp [hnone ref]
      · simp [hnone ref]
    · rw [hnew]
      simp
    · rw [← hkey]
      exact hfree
    · rw [heffects, hreceipt]
      exact jobEffects_eq hlaw haccounted.seedRefs haccounted.recollectionRefs
        (fun ref => (haccounted.own hnone ref).1) fun ref => (haccounted.own hnone ref).2

end

/-! ## Reached stores -/

section

variable {store : Store} {d : Db} {s s' : MemorySys}

theorem keepsReceipts_done {a : MemoryReply} {l : Local Write String} (hd : WorldLaw store d)
    (h : store.Done d a l) (hr : Receipted d) : KeepsReceipts d (applyAll d l.log) := by
  cases a with
  | selected request context => exact .of_same hr (Selected.keeps h hd).2
  | frozen window receipt =>
    rw [h.1]
    exact .of_same hr (SameShelves.refl d)
  | consolidated env p text receipt =>
    obtain ⟨⟨index, window, x, _, hsnapshot⟩, hconcluded, _⟩ := h
    exact (hconcluded.receipted hd (snapshot_proposed hsnapshot).2 hr).1
  | intake reply => exact .of_same hr (worldLaw_plains hd h).2
  | leased job => exact .of_same hr (worldLaw_plains hd h).2
  | acknowledged => exact .of_same hr (worldLaw_plains hd h).2

theorem receipted_reach (hhash : Collisionless store) (h : MemoryReach store s) :
    Receipted s.db :=
  memory_keeps (C := fun _ _ _ => True) hhash receipted_empty
    (fun _ _ _ hd _ hdone hr => (keepsReceipts_done hd hdone hr).receipted)
    (h.mono fun _ _ _ _ _ _ _ _ _ => trivial)

/-- A receipt is in the store, and the versions of its job are those it names. -/
structure FrozenReceipt (row : ConsolidationReceiptRow) (receipt : Receipt) (d : Db) : Prop where
  receipted : Receipted d
  stored : row ∈ d.receipts
  effects : jobEffects row.key.1 row.key.2 d = receipt

/-- A frozen receipt stays. -/
theorem frozenReceipt_reach (hhash : Collisionless store) {row : ConsolidationReceiptRow}
    {receipt : Receipt} (h : MemoryReach store s) (hfrozen : FrozenReceipt row receipt s.db)
    (h' : Reach .readCommitted store.Calls s s') : FrozenReceipt row receipt s'.db := by
  refine Pact.reach_keeps (starts_perform hhash) (fun _ _ _ hd hdone => commits_done hd hdone)
    (memory_sound hhash h) (J := FrozenReceipt row receipt) hfrozen ?_ h'
  intro s₁ i a l v _ _ hd hdone hJ
  obtain ⟨hr, hsub, heffects⟩ := keepsReceipts_done hd hdone hJ.receipted
  exact ⟨hr, hsub hJ.stored, (heffects row hJ.stored).trans hJ.effects⟩

/-- A job with a receipt is answered from it. -/
theorem loadConsolidationReceipt_frozen {row : ConsolidationReceiptRow} {receipt : Receipt}
    (h : FrozenReceipt row receipt d) (requestHash : String) :
    loadConsolidationReceipt row.key.1 row.key.2 requestHash d =
      if row.requestHash = requestHash then .ok (some receipt)
      else .error ⟨.windowConflict, row.key.2, ""⟩ := by
  unfold loadConsolidationReceipt
  rw [h.receipted.unique.find h.stored rfl]
  by_cases hhash : row.requestHash = requestHash
  · simp [hhash, h.effects]
  · simp [hhash]

/-! ## Windows in later stores -/

theorem Earlier.trans {x y z : Db} (h : Earlier store x y) (h' : Earlier store y z) :
    Earlier store x z :=
  ⟨h.law, h.gains.trans h'.gains, h.grown.trans h'.grown, h.links.trans h'.links,
    h.contexts.trans h.gains h'.contexts⟩

/-- A window of materialized Episodes stays one, of the same owner. -/
theorem loadConsolidationEpisodes_later {x : Db} (hhash : Collisionless store)
    (hx : Earlier store x d) (hd : WorldLaw store d) {refs : List String}
    {episodes : List EpisodeEvidence} {owner : OwnerScope}
    (h : loadConsolidationEpisodes refs x = .ok (episodes, owner)) :
    ∃ episodes', loadConsolidationEpisodes refs d = .ok (episodes', owner) := by
  have hmap : ∀ {refs : List String} {es : List EpisodeEvidence},
      (refs.mapM fun ref => loadEpisode ref x) = some es →
      ∃ es', (refs.mapM fun ref => loadEpisode ref d) = some es' ∧
        es'.map (·.owner) = es.map (·.owner) := by
    intro refs
    induction refs with
    | nil =>
      intro es hes
      rw [List.mapM_nil] at hes
      obtain rfl := Option.some.inj hes
      exact ⟨[], rfl, rfl⟩
    | cons ref rest ih =>
      intro es hes
      rw [List.mapM_cons] at hes
      obtain ⟨e, he, hes⟩ := Option.bind_eq_some_iff.mp hes
      obtain ⟨tail, htail, hes⟩ := Option.bind_eq_some_iff.mp hes
      obtain rfl := Option.some.inj hes
      obtain ⟨e', he', hwithin⟩ := loadEpisode_later hx.law hd hhash hx.gains hx.links he
      obtain ⟨tail', htail', howners⟩ := ih htail
      refine ⟨e' :: tail', ?_, ?_⟩
      · rw [List.mapM_cons, he', htail']
        rfl
      · rw [List.map_cons, List.map_cons, hwithin.owner, howners]
  unfold loadConsolidationEpisodes at h ⊢
  cases hload : refs.mapM fun ref => loadEpisode ref x with
  | none =>
    rw [hload] at h
    cases h
  | some es =>
    obtain ⟨es', hload', howners⟩ := hmap hload
    rw [hload] at h
    rw [hload']
    cases es with
    | nil =>
      obtain rfl := List.map_eq_nil_iff.mp howners
      exact ⟨[], by cases h; rfl⟩
    | cons first rest =>
      obtain ⟨first', rest', rfl⟩ : ∃ first' rest', es' = first' :: rest' := by
        cases es' with
        | nil => cases howners
        | cons first' rest' => exact ⟨first', rest', rfl⟩
      obtain ⟨hfirst, hrest⟩ := List.cons.inj howners
      change first'.owner = first.owner at hfirst
      dsimp only at h ⊢
      have hall : (rest'.all fun e => decide (e.owner = first'.owner)) =
          rest.all fun e => decide (e.owner = first.owner) := by
        have hmapped := congrArg (fun os => os.all fun o => decide (o = first.owner)) hrest
        simp only [List.all_map] at hmapped
        rw [hfirst]
        exact hmapped
      rw [hall, hfirst]
      split at h
      · rename_i hsame
        rw [if_pos hsame]
        obtain ⟨_, rfl⟩ := Prod.mk.inj (Except.ok.inj h)
        exact ⟨_, rfl⟩
      · cases h

/-- A window that loads is put to its receipt before anything else. -/
theorem snapshotWindow_frozen {index : Option MemoryIndex} {window : Window}
    {row : ConsolidationReceiptRow} {receipt : Receipt} {episodes : List EpisodeEvidence}
    {owner : OwnerScope} (hvalid : window.valid = true)
    (hload : loadConsolidationEpisodes window.episodeRefs d = .ok (episodes, owner))
    (hkey : row.key = (owner.tenantRef, window.jobRef)) (h : FrozenReceipt row receipt d) :
    store.snapshotWindow index window d =
      if row.requestHash = store.consolidationWindowHash owner window then .ok (.frozen receipt)
      else .error ⟨.windowConflict, window.jobRef, ""⟩ := by
  have hreceipt := loadConsolidationReceipt_frozen h (store.consolidationWindowHash owner window)
  rw [hkey] at hreceipt
  unfold Store.snapshotWindow
  simp only [hvalid, Bool.not_true, Bool.false_eq_true, if_false, bind, Except.bind, pure,
    Except.pure, hload, hreceipt]
  by_cases hhash : row.requestHash = store.consolidationWindowHash owner window
  · simp [hhash]
  · simp [hhash]

/-! ## Requests -/

/-- No Episode has the ref that separates Episodes from Outcomes. -/
theorem outcomes_not_mem (hd : WorldLaw store d) {refs : List String}
    {episodes : List EpisodeEvidence} {owner : OwnerScope}
    (h : loadConsolidationEpisodes refs d = .ok (episodes, owner)) : "outcomes" ∉ refs := by
  intro hmem
  have hloaded := (loadConsolidationEpisodes_ok h).1
  rw [← hloaded.refs] at hmem
  obtain ⟨e, he, href⟩ := List.mem_map.mp hmem
  obtain ⟨row, hrow, hrowref, _⟩ := loadEpisode_row (hloaded.loaded e he)
  have hl := congrArg String.toList ((hrowref.trans href).symm.trans (hd.episodes row hrow).1)
  simp [Store.episodeRef] at hl

theorem consolidationWindowHash_injective (hhash : Collisionless store) {owner owner' : OwnerScope}
    {window window' : Window} (h : "outcomes" ∉ window.episodeRefs)
    (h' : "outcomes" ∉ window'.episodeRefs)
    (heq : store.consolidationWindowHash owner window = store.consolidationWindowHash owner' window') :
    window.episodeRefs = window'.episodeRefs ∧
      window.outcomeEventRefs = window'.outcomeEventRefs := by
  have hfields := hhash _ _ heq
  simp only [List.append_assoc, List.cons_append, List.nil_append, List.cons.injEq, true_and] at hfields
  exact Text.append_cons_inj h h' hfields.2.2.2.2

end

end ChoraMem
