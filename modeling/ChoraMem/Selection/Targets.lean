/-
The Recollections a window may target.

The owner's Recollections are ranked by the window and the first of them are kept, then
those that the index named are merged in, and the result is sorted by ref.  Neither sort
need be stable: version refs are distinct, so the order of the ranking tells any two
Recollections apart and so does the order by ref.  The result is one list, whatever order
the catalogue and the refs come in.
-/
import Mathlib.Data.String.Basic
import Mathlib.Algebra.Order.Ring.Unbundled.Rat
import ChoraMem.Order.Best
import ChoraMem.Storage.ActiveMemory

namespace ChoraMem

/-! ## The code -/

/-- The first comparison of `boundedActiveRecollections`. -/
def Store.rankedLess (store : Store) (query : String) (left right : ActiveRecollection) : Bool :=
  if store.score query left.text != store.score query right.text then
    decide (store.score query right.text < store.score query left.text)
  else if left.createdAt != right.createdAt then decide (right.createdAt < left.createdAt)
  else decide (left.versionRef < right.versionRef)

def versionLess (left right : ActiveRecollection) : Bool := decide (left.versionRef < right.versionRef)

/-- What `sort.Slice` may leave: the items in some order that no comparison contradicts. -/
def SortSlice {α : Type} (less : α → α → Bool) (items sorted : List α) : Prop :=
  sorted.Perm items ∧ sorted.Pairwise fun left right => less right left = false

/-- The loop over the indexed refs, with the refs that are selected.  `byVersion` keeps the
last of a ref. -/
def mergeIndexed (recollections : List ActiveRecollection) :
    List String → List ActiveRecollection → List String → List ActiveRecollection
  | [], result, _ => result
  | ref :: refs, result, selected =>
    if selected.contains ref then mergeIndexed recollections refs result selected
    else
      match recollections.reverse.find? (·.versionRef == ref) with
      | some recollection =>
        mergeIndexed recollections refs (result ++ [recollection]) (ref :: selected)
      | none => mergeIndexed recollections refs result selected

/-- The results of `boundedActiveRecollections`, one for every way the sorts may go. -/
def Store.Bounds (store : Store) (recollections : List ActiveRecollection)
    (episodes : List EpisodeEvidence) (indexedRefs : List String)
    (result : List ActiveRecollection) : Prop :=
  ∃ ranked, SortSlice (store.rankedLess (recollectionWindowQuery episodes)) recollections ranked ∧
    SortSlice versionLess
      (mergeIndexed recollections indexedRefs (ranked.take maxActiveRecollectionTargets)
        ((ranked.take maxActiveRecollectionTargets).map (·.versionRef))) result

/-! ## Keys -/

/-- The higher score first, then the later creation, then the ref. -/
def Store.targetKey (store : Store) (query : String) (r : ActiveRecollection) :
    ℚᵒᵈ ×ₗ ℕᵒᵈ ×ₗ String :=
  toLex (OrderDual.toDual (store.score query r.text), toLex (OrderDual.toDual r.createdAt, r.versionRef))

/-- No two Recollections have one version ref. -/
def DistinctVersions (l : List ActiveRecollection) : Prop := (l.map (·.versionRef)).Nodup

section

variable {store : Store} {query : String} {l l' : List ActiveRecollection}

theorem rankedLess_eq (a b : ActiveRecollection) :
    store.rankedLess query a b = decide (store.targetKey query a < store.targetKey query b) := by
  rw [Store.targetKey, Store.targetKey, Best.decide_toLex_lt, Best.decide_toLex_lt]
  rfl

theorem targetKey_versionRef {a b : ActiveRecollection}
    (h : store.targetKey query a = store.targetKey query b) : a.versionRef = b.versionRef :=
  congrArg (fun k => (ofLex (ofLex k).2).2) h

theorem DistinctVersions.faithful (h : DistinctVersions l) :
    Best.Faithful ActiveRecollection.versionRef l :=
  fun _ ha _ hb hkey => List.inj_on_of_nodup_map h ha hb hkey

theorem DistinctVersions.perm (h : DistinctVersions l) (hperm : l.Perm l') : DistinctVersions l' :=
  (hperm.map _).nodup_iff.mp h

/-- Sorted by a faithful key is strictly sorted. -/
theorem sorted_strict {κ : Type} [LinearOrder κ] {key : ActiveRecollection → κ} {less}
    (hless : ∀ a b, less a b = decide (key a < key b)) (hnodup : l.Nodup)
    (hkey : Best.Faithful key l) (h : SortSlice less l l') :
    l'.Pairwise fun a b => key a < key b := by
  obtain ⟨hperm, hsorted⟩ := h
  refine (hsorted.and (hperm.nodup_iff.mpr hnodup)).imp_of_mem fun {a b} ha hb hab => ?_
  have hle : key a ≤ key b := by
    rw [← not_lt]
    intro hlt
    rw [hless, decide_eq_true hlt] at hab
    cases hab.1
  refine lt_of_le_of_ne hle fun heq => hab.2 ?_
  exact hkey a (hperm.mem_iff.mp ha) b (hperm.mem_iff.mp hb) heq

/-! ## The merge -/

/-- What one ref adds: the listed Recollection it names, unless that is selected. -/
theorem merge_indexed {recollections : List ActiveRecollection} (hdistinct : DistinctVersions recollections)
    (refs : List String) {result : List ActiveRecollection} (hresult : DistinctVersions result)
    (hsub : ∀ a ∈ result, a ∈ recollections) :
    DistinctVersions (mergeIndexed recollections refs result (result.map (·.versionRef))) ∧
      ∀ a, a ∈ mergeIndexed recollections refs result (result.map (·.versionRef)) ↔
        a ∈ result ∨ a ∈ recollections ∧ a.versionRef ∈ refs := by
  have hselected : ∀ (selected : List String), (∀ ref, ref ∈ selected ↔ ref ∈ result.map (·.versionRef)) →
      DistinctVersions (mergeIndexed recollections refs result selected) ∧
        ∀ a, a ∈ mergeIndexed recollections refs result selected ↔
          a ∈ result ∨ a ∈ recollections ∧ a.versionRef ∈ refs := by
    induction refs generalizing result with
    | nil => exact fun selected _ => ⟨hresult, fun a => by simp [mergeIndexed]⟩
    | cons ref refs ih =>
      intro selected hsel
      rw [mergeIndexed]
      by_cases hmem : selected.contains ref = true
      · rw [if_pos hmem]
        obtain ⟨hnodup, hiff⟩ := ih hresult hsub selected hsel
        refine ⟨hnodup, fun a => ?_⟩
        rw [hiff, List.mem_cons]
        constructor
        · rintro (ha | ⟨ha, href⟩)
          · exact .inl ha
          · exact .inr ⟨ha, .inr href⟩
        · rintro (ha | ⟨ha, rfl | href⟩)
          · exact .inl ha
          · obtain ⟨b, hb, heq⟩ := List.mem_map.mp ((hsel _).mp (List.contains_iff_mem.mp hmem))
            rw [← hdistinct.faithful b (hsub b hb) a ha heq]
            exact .inl hb
          · exact .inr ⟨ha, href⟩
      · rw [if_neg hmem]
        have hnew : ref ∉ result.map (·.versionRef) := fun h =>
          hmem (List.contains_iff_mem.mpr ((hsel ref).mpr h))
        cases hfind : recollections.reverse.find? (·.versionRef == ref) with
        | none =>
          obtain ⟨hnodup, hiff⟩ := ih hresult hsub selected hsel
          refine ⟨hnodup, fun a => ?_⟩
          show a ∈ mergeIndexed recollections refs result selected ↔ _
          rw [hiff, List.mem_cons]
          have hnone : a ∈ recollections → a.versionRef ≠ ref := fun ha heq => by
            have hfalse := List.find?_eq_none.mp hfind a (List.mem_reverse.mpr ha)
            exact hfalse (beq_iff_eq.mpr heq)
          constructor
          · rintro (ha | ⟨ha, href⟩)
            · exact .inl ha
            · exact .inr ⟨ha, .inr href⟩
          · rintro (ha | ⟨ha, href | href⟩)
            · exact .inl ha
            · exact absurd href (hnone ha)
            · exact .inr ⟨ha, href⟩
        | some r =>
          have hr : r ∈ recollections := List.mem_reverse.mp (List.mem_of_find?_eq_some hfind)
          have href : r.versionRef = ref := by simpa using List.find?_some hfind
          subst href
          have hdistinct' : DistinctVersions (result ++ [r]) := by
            rw [DistinctVersions, List.map_append, List.nodup_append]
            refine ⟨hresult, List.nodup_singleton _, fun x hx y hy heq => ?_⟩
            rw [heq, List.mem_singleton.mp hy] at hx
            exact hnew hx
          have hsub' : ∀ a ∈ result ++ [r], a ∈ recollections := by
            intro a ha
            rcases List.mem_append.mp ha with ha | ha
            · exact hsub a ha
            · rw [List.mem_singleton.mp ha]
              exact hr
          obtain ⟨hnodup, hiff⟩ := ih hdistinct' hsub' (r.versionRef :: selected) (fun x => by
            rw [List.mem_cons, hsel, List.map_append, List.mem_append, or_comm]
            simp)
          refine ⟨hnodup, fun a => ?_⟩
          show a ∈ mergeIndexed recollections refs (result ++ [r]) (r.versionRef :: selected) ↔ _
          rw [hiff, List.mem_append, List.mem_singleton, List.mem_cons]
          constructor
          · rintro ((ha | rfl) | ⟨ha, href⟩)
            · exact .inl ha
            · exact .inr ⟨hr, .inl rfl⟩
            · exact .inr ⟨ha, .inr href⟩
          · rintro (ha | ⟨ha, href | href⟩)
            · exact .inl (.inl ha)
            · exact .inl (.inr (hdistinct.faithful a ha r hr href))
            · exact .inr ⟨ha, href⟩
  exact hselected _ fun _ => Iff.rfl

/-! ## The result -/

theorem exists_sorted {κ : Type} [LinearOrder κ] {key : ActiveRecollection → κ} {less}
    (hless : ∀ a b, less a b = decide (key a < key b)) : ∃ sorted, SortSlice less l sorted := by
  refine ⟨l.insertionSort fun a b => key a ≤ key b, List.perm_insertionSort _ _, ?_⟩
  refine (Best.insertionSort_sorted _ (fun a b => Iff.rfl) l).imp fun {a b} hle => ?_
  rw [hless, decide_eq_false hle.not_gt]

/-- A Recollection is kept when the index names it or few come before it. -/
def Store.Targeted (store : Store) (recollections : List ActiveRecollection)
    (episodes : List EpisodeEvidence) (indexedRefs : List String) (a : ActiveRecollection) : Prop :=
  a ∈ recollections ∧ (a.versionRef ∈ indexedRefs ∨
    Best.place (store.targetKey (recollectionWindowQuery episodes)) recollections a <
      maxActiveRecollectionTargets)

variable {recollections result : List ActiveRecollection} {episodes : List EpisodeEvidence}
  {indexedRefs : List String}

theorem DistinctVersions.targets (h : DistinctVersions recollections) :
    Best.Faithful (store.targetKey query) recollections :=
  fun a ha b hb hkey => h.faithful a ha b hb (targetKey_versionRef hkey)

theorem bounds_spec (h : DistinctVersions recollections)
    (hbounds : store.Bounds recollections episodes indexedRefs result) :
    (result.Pairwise fun a b => a.versionRef < b.versionRef) ∧
      ∀ a, a ∈ result ↔ store.Targeted recollections episodes indexedRefs a := by
  obtain ⟨ranked, hranked, hresult⟩ := hbounds
  have hstrict := sorted_strict rankedLess_eq (List.Nodup.of_map _ h) h.targets hranked
  have htake : ∀ a, a ∈ ranked.take maxActiveRecollectionTargets ↔ a ∈ recollections ∧
      Best.place (store.targetKey (recollectionWindowQuery episodes)) recollections a <
        maxActiveRecollectionTargets := fun a => by
    rw [Best.mem_take_iff hstrict, hranked.1.mem_iff, Best.place_perm hranked.1]
  obtain ⟨hdistinct, hmem⟩ := merge_indexed h indexedRefs
    ((h.perm hranked.1.symm).sublist ((List.take_sublist _ _).map _)) fun a ha => ((htake a).mp ha).1
  refine ⟨sorted_strict (fun _ _ => rfl) (List.Nodup.of_map _ hdistinct) hdistinct.faithful hresult,
    fun a => ?_⟩
  rw [hresult.1.mem_iff, hmem, htake, Store.Targeted]
  constructor
  · rintro (⟨ha, hplace⟩ | ⟨ha, href⟩)
    · exact ⟨ha, .inr hplace⟩
    · exact ⟨ha, .inl href⟩
  · rintro ⟨ha, href | hplace⟩
    · exact .inr ⟨ha, href⟩
    · exact .inl ⟨ha, hplace⟩

/-- The sorts leave something, whatever they are given. -/
theorem exists_bounds : ∃ result, store.Bounds recollections episodes indexedRefs result := by
  obtain ⟨ranked, hranked⟩ : ∃ ranked,
      SortSlice (store.rankedLess (recollectionWindowQuery episodes)) recollections ranked :=
    exists_sorted rankedLess_eq
  obtain ⟨result, hresult⟩ : ∃ result, SortSlice versionLess _ result :=
    exists_sorted fun _ _ => rfl
  exact ⟨result, ranked, hranked, hresult⟩

theorem sorted_nodup (h : l.Pairwise fun a b => a.versionRef < b.versionRef) : l.Nodup := by
  refine List.Pairwise.imp (fun {a b} hlt heq => ?_) h
  rw [heq] at hlt
  exact lt_irrefl _ hlt

/-- Two lists in strict order of refs with the same members are one list. -/
theorem sorted_ext (hl : l.Pairwise fun a b => a.versionRef < b.versionRef)
    (hl' : l'.Pairwise fun a b => a.versionRef < b.versionRef) (h : ∀ a, a ∈ l ↔ a ∈ l') : l = l' := by
  have hperm : l.Perm l' := (List.perm_ext_iff_of_nodup (sorted_nodup hl) (sorted_nodup hl')).mpr h
  refine List.Perm.eq_of_pairwise ?_ hl hl' hperm
  intro a b _ _ hab hba
  exact absurd (hab.trans hba) (lt_irrefl _)

theorem sortRecollections_sorted :
    (sortRecollections l).Pairwise fun a b => a.versionRef ≤ b.versionRef :=
  Best.insertionSort_sorted _ (fun _ _ => Iff.rfl) l

theorem rankRecollections_sorted :
    (store.rankRecollections query l).Pairwise fun a b =>
      store.targetKey query a ≤ store.targetKey query b := by
  let key (r : ActiveRecollection) : ℚᵒᵈ ×ₗ ℕᵒᵈ :=
    toLex (OrderDual.toDual (store.score query r.text), OrderDual.toDual r.createdAt)
  have hkey : ∀ a b : ActiveRecollection, (store.score query b.text < store.score query a.text ∨
      store.score query a.text = store.score query b.text ∧ b.createdAt ≤ a.createdAt) ↔
        key a ≤ key b := by
    intro a b
    rw [Prod.Lex.toLex_le_toLex]
    rfl
  have hsort := Best.insertionSort_lex _ hkey (sortRecollections_sorted (l := l))
  rw [Store.rankRecollections, hsort]
  exact (Best.insertionSort_sorted _ (fun _ _ => Iff.rfl) _).imp fun hle =>
    (Best.toLex_le_assoc _ _ _ _ _ _).mp hle

/-- With stable sorts the result has the same Recollections in the same order. -/
theorem boundedActiveRecollections_spec (h : DistinctVersions recollections) :
    ((store.boundedActiveRecollections recollections episodes indexedRefs).Pairwise fun a b =>
      a.versionRef < b.versionRef) ∧
      ∀ a, a ∈ store.boundedActiveRecollections recollections episodes indexedRefs ↔
        store.Targeted recollections episodes indexedRefs a := by
  have hperm : (store.rankRecollections (recollectionWindowQuery episodes) recollections).Perm
      recollections := (List.perm_insertionSort _ _).trans (List.perm_insertionSort _ _)
  have hstrict : (store.rankRecollections (recollectionWindowQuery episodes) recollections).Pairwise
      fun a b => store.targetKey (recollectionWindowQuery episodes) a <
        store.targetKey (recollectionWindowQuery episodes) b :=
    sorted_strict rankedLess_eq (List.Nodup.of_map _ h) h.targets ⟨hperm,
      rankRecollections_sorted.imp fun hle => by rw [rankedLess_eq, decide_eq_false hle.not_gt]⟩
  have htake : ∀ a, a ∈ (store.rankRecollections (recollectionWindowQuery episodes)
      recollections).take maxActiveRecollectionTargets ↔ a ∈ recollections ∧
        Best.place (store.targetKey (recollectionWindowQuery episodes)) recollections a <
          maxActiveRecollectionTargets := fun a => by
    rw [Best.mem_take_iff hstrict, hperm.mem_iff, Best.place_perm hperm]
  have hdistinct : DistinctVersions ((store.rankRecollections (recollectionWindowQuery episodes)
      recollections).take maxActiveRecollectionTargets) :=
    (h.perm hperm.symm).sublist ((List.take_sublist _ _).map _)
  rw [Store.boundedActiveRecollections]
  generalize (store.rankRecollections (recollectionWindowQuery episodes) recollections).take
    maxActiveRecollectionTargets = best at htake hdistinct
  have hnamed : ∀ a, a ∈ recollections.filter (fun a => indexedRefs.contains a.versionRef &&
      !best.any (·.versionRef == a.versionRef)) ↔
        a ∈ recollections ∧ a.versionRef ∈ indexedRefs ∧ a.versionRef ∉ best.map (·.versionRef) := by
    intro a
    rw [List.mem_filter, Bool.and_eq_true, List.contains_iff_mem, Bool.not_eq_true',
      List.any_eq_false, List.mem_map]
    simp only [beq_iff_eq, not_exists, not_and]
  have hboth : DistinctVersions (best ++ recollections.filter fun a =>
      indexedRefs.contains a.versionRef && !best.any (·.versionRef == a.versionRef)) := by
    rw [DistinctVersions, List.map_append, List.nodup_append]
    refine ⟨hdistinct, h.sublist (List.filter_sublist.map _), fun x hx y hy heq => ?_⟩
    obtain ⟨a, ha, rfl⟩ := List.mem_map.mp hy
    rw [heq] at hx
    exact ((hnamed a).mp ha).2.2 hx
  constructor
  · refine sorted_strict (fun _ _ => rfl) (List.Nodup.of_map _ hboth) hboth.faithful
      ⟨List.perm_insertionSort _ _, ?_⟩
    exact List.Pairwise.imp (fun hle => decide_eq_false hle.not_gt) sortRecollections_sorted
  · intro a
    rw [sortRecollections, List.mem_insertionSort, List.mem_append, htake, hnamed, Store.Targeted]
    constructor
    · rintro (⟨ha, hplace⟩ | ⟨ha, href, _⟩)
      · exact ⟨ha, .inr hplace⟩
      · exact ⟨ha, .inl href⟩
    · rintro ⟨ha, href | hplace⟩
      · by_cases hbest : a.versionRef ∈ best.map (·.versionRef)
        · obtain ⟨b, hb, heq⟩ := List.mem_map.mp hbest
          have hab := h.faithful b ((htake b).mp hb).1 a ha heq
          rw [hab, htake] at hb
          exact .inl hb
        · exact .inr ⟨ha, href, hbest⟩
      · exact .inl ⟨ha, hplace⟩

/-- Whichever way the sorts go, there is one result. -/
theorem bounds_iff (h : DistinctVersions recollections) :
    store.Bounds recollections episodes indexedRefs result ↔
      result = store.boundedActiveRecollections recollections episodes indexedRefs := by
  obtain ⟨hmodel, hmodelMem⟩ := @boundedActiveRecollections_spec store recollections episodes indexedRefs h
  have hunique : ∀ result', store.Bounds recollections episodes indexedRefs result' →
      result' = store.boundedActiveRecollections recollections episodes indexedRefs := by
    intro result' hbounds
    obtain ⟨hsorted, hmem⟩ := bounds_spec h hbounds
    exact sorted_ext hsorted hmodel fun a => by rw [hmem, hmodelMem]
  constructor
  · exact hunique result
  · rintro rfl
    obtain ⟨result', hbounds⟩ := @exists_bounds store recollections episodes indexedRefs
    rw [← hunique result' hbounds]
    exact hbounds

/-- The first in the order and the named ones, in the order of refs, are the result of the code,
whichever way its sorts go and in whatever order the lists come. -/
theorem bounded_recollections (store : Store) (recollections : List ActiveRecollection)
    (episodes : List EpisodeEvidence) (indexedRefs : List String)
    (h : (recollections.map (·.versionRef)).Nodup) :
    ∃ result, (∀ recollections' indexedRefs', recollections'.Perm recollections →
        (∀ ref, ref ∈ indexedRefs' ↔ ref ∈ indexedRefs) → ∀ result',
          store.Bounds recollections' episodes indexedRefs' result' ↔ result' = result) ∧
      result.Nodup ∧ (result.Pairwise fun a b => a.versionRef < b.versionRef) ∧
      ∀ a, a ∈ result ↔ a ∈ recollections ∧ (a.versionRef ∈ indexedRefs ∨
        recollections.countP (fun b => decide (store.targetKey (recollectionWindowQuery episodes) b <
          store.targetKey (recollectionWindowQuery episodes) a)) < maxActiveRecollectionTargets) := by
  obtain ⟨hsorted, hmem⟩ := @boundedActiveRecollections_spec store recollections episodes indexedRefs h
  refine ⟨_, ?_, sorted_nodup hsorted, hsorted, hmem⟩
  intro recollections' indexedRefs' hperm hrefs result'
  have h' : DistinctVersions recollections' := DistinctVersions.perm h hperm.symm
  obtain ⟨hsorted', hmem'⟩ :=
    @boundedActiveRecollections_spec store recollections' episodes indexedRefs' h'
  have heq : store.boundedActiveRecollections recollections' episodes indexedRefs' =
      store.boundedActiveRecollections recollections episodes indexedRefs := by
    refine sorted_ext hsorted' hsorted fun a => ?_
    rw [hmem', hmem, Store.Targeted, Store.Targeted, hperm.mem_iff, hrefs, Best.place_perm hperm]
  rw [bounds_iff h', heq]

end

/-- Two of one text and one time, the index naming one of them twice and one that is gone. -/
theorem bounded_recollections_tie :
    let owner : OwnerScope := ⟨.relationship, "T", "A", "R"⟩
    let recollections : List ActiveRecollection :=
      [⟨owner, "r2", "v2", 1, "tea", "", 0, []⟩, ⟨owner, "r1", "v1", 1, "tea", "", 0, []⟩]
    let store := plainStore .postgres
    ∃ result, (∀ recollections' indexedRefs', recollections'.Perm recollections →
        (∀ ref, ref ∈ indexedRefs' ↔ ref ∈ ["v2", "gone", "v2"]) → ∀ result',
          store.Bounds recollections' [] indexedRefs' result' ↔ result' = result) ∧
      result.Nodup ∧ (result.Pairwise fun a b => a.versionRef < b.versionRef) ∧
      ∀ a, a ∈ result ↔ a ∈ recollections ∧ (a.versionRef ∈ ["v2", "gone", "v2"] ∨
        recollections.countP (fun b => decide (store.targetKey (recollectionWindowQuery []) b <
          store.targetKey (recollectionWindowQuery []) a)) < maxActiveRecollectionTargets) :=
  bounded_recollections _ _ [] _ (by decide)

end ChoraMem
