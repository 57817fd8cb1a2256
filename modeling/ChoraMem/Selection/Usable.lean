/-
Usable answers of the index.

An answer is usable in its lane when it names an Episode or an active Memory of the
lane's owner, or, where the lane is of a relationship, of the baseline of its agent,
whose Memory such a lane looks up too.  Any other answer is invisible: nothing that a
selection reads of its lanes changes when such answers are left out.
-/
import Mathlib.Data.List.Nodup
import ChoraMem.Storage.MemoryContext
import ChoraMem.Txn.Keeps

namespace ChoraMem

open Txn

/-! ## Lists -/

section

variable {α β : Type} {r : α → α → Prop} [DecidableRel r] {p : α → Bool}

theorem orderedInsert_of_forall {a : α} {l : List α} (h : ∀ b ∈ l, r a b) :
    l.orderedInsert r a = a :: l := by
  cases l with
  | nil => rfl
  | cons b rest => rw [List.orderedInsert_cons, if_pos (h b List.mem_cons_self)]

theorem filter_orderedInsert (htrans : ∀ a b c, r a b → r b c → r a c) {a : α} {l : List α}
    (hl : l.Pairwise r) :
    (l.orderedInsert r a).filter p =
      if p a then (l.filter p).orderedInsert r a else l.filter p := by
  induction l with
  | nil => cases h : p a <;> simp [h]
  | cons b rest ih =>
    obtain ⟨hb, hrest⟩ := List.pairwise_cons.mp hl
    rw [List.orderedInsert_cons]
    by_cases hab : r a b
    · rw [if_pos hab]
      have hfirst : ∀ c ∈ (b :: rest).filter p, r a c := by
        intro c hc
        rcases List.mem_cons.mp (List.mem_of_mem_filter hc) with rfl | hc
        · exact hab
        · exact htrans a b c hab (hb c hc)
      rw [orderedInsert_of_forall hfirst, List.filter_cons]
    · rw [if_neg hab, List.filter_cons, ih hrest, List.filter_cons]
      cases hpb : p b <;> cases hpa : p a <;> simp [hab]

/-- A stable sort keeps the order of a part. -/
theorem filter_insertionSort (htotal : ∀ a b, r a b ∨ r b a)
    (htrans : ∀ a b c, r a b → r b c → r a c) (l : List α) :
    (l.insertionSort r).filter p = (l.filter p).insertionSort r := by
  have : Std.Total r := ⟨htotal⟩
  have : IsTrans α r := ⟨htrans⟩
  induction l with
  | nil => rfl
  | cons a rest ih =>
    rw [List.insertionSort_cons, filter_orderedInsert htrans (List.pairwise_insertionSort r rest), ih,
      List.filter_cons]
    cases p a <;> simp

omit [DecidableRel r] in
/-- A fold that skips what `p` rejects. -/
theorem foldl_filter_skip {step : β → α → β} (hskip : ∀ b a, p a = false → step b a = b) (b : β)
    (l : List α) : l.foldl step b = (l.filter p).foldl step b := by
  induction l generalizing b with
  | nil => rfl
  | cons a rest ih =>
    rw [List.foldl_cons, List.filter_cons]
    cases hp : p a with
    | true => rw [if_pos rfl, List.foldl_cons, ih]
    | false => rw [hskip b a hp, ih, if_neg (by simp)]

/-- The positions below a limit, one after the other. -/
theorem filterMap_take_zipIdx (f : α × Nat → Option β) (limit : Nat) (l : List α) :
    (l.take limit).zipIdx.filterMap f =
      (List.range limit).filterMap fun i => (l[i]?).bind fun a => f (a, i) := by
  induction limit with
  | zero => rfl
  | succ n ih =>
    rw [List.take_add_one, List.zipIdx_append, List.filterMap_append, ih, List.range_succ,
      List.filterMap_append]
    cases hn : l[n]? with
    | none => simp [hn]
    | some a =>
      have hlt : n < l.length := by
        by_contra hge
        rw [List.getElem?_eq_none (by omega)] at hn
        cases hn
      have hlen : (l.take n).length = n := by simp [Nat.le_of_lt hlt]
      simp [hlen, List.filterMap_cons, hn]

end

/-! ## Unique versions -/

/-- No two rows of the memory tables share their ref. -/
structure UniqueMemory (d : Db) : Prop where
  seeds : KeysUnique SeedRow.ref d.seeds
  seedVersions : KeysUnique SeedVersionRow.ref d.seedVersions
  recollections : KeysUnique RecollectionRow.ref d.recollections
  recollectionVersions : KeysUnique RecollectionVersionRow.ref d.recollectionVersions

theorem UniqueMemory.apply {d : Db} (h : UniqueMemory d) (w : Write) :
    UniqueMemory (Journal.apply d w) := by
  obtain ⟨h₁, h₂, h₃, h₄⟩ := h
  cases w with
  | insertSeed r => exact ⟨h₁.insertRow r, h₂, h₃, h₄⟩
  | insertSeedVersion r => exact ⟨h₁, h₂.insertRow r, h₃, h₄⟩
  | updateSeedVersion r => exact ⟨h₁, h₂.updateRow r, h₃, h₄⟩
  | insertRecollection r => exact ⟨h₁, h₂, h₃.insertRow r, h₄⟩
  | insertRecollectionVersion r => exact ⟨h₁, h₂, h₃, h₄.insertRow r⟩
  | updateRecollectionVersion r => exact ⟨h₁, h₂, h₃, h₄.updateRow r⟩
  | _ => exact ⟨h₁, h₂, h₃, h₄⟩

/-- Whatever transactions run, refs stay unique. -/
theorem uniqueMemory_reach {ε α : Type} {iso : Isolation} {starts : Prog Db Write String ε α → Prop}
    {cond : Sys Db Write String ε α → Act Db Write String ε α → Prop} {s : Sys Db Write String ε α}
    (h : ReachIf iso starts cond ⟨{}, []⟩ s) : UniqueMemory s.db := by
  have h₀ : UniqueMemory {} := ⟨List.nodup_nil, List.nodup_nil, List.nodup_nil, List.nodup_nil⟩
  have hall : ∀ p : Prog Db Write String ε α, starts p → p.Keeps UniqueMemory (fun _ => True) :=
    fun p _ => .of_emits (Prog.emits_true p)
  exact (reach_lawful (fun d w hd _ => hd.apply w) hall h₀ h).db

/-- Versions of distinct roots, each root's picked from one table. -/
theorem nodup_joined {ρ ν : Type} {root : ρ → String} {ref : ν → String} {roots : List ρ}
    {versions : List ν} (pick : ρ → ν → Bool) (hroots : KeysUnique root roots)
    (hversions : KeysUnique ref versions)
    (hpick : ∀ a b v, pick a v = true → pick b v = true → root a = root b) :
    ((roots.flatMap fun a => versions.filter (pick a)).map ref).Nodup := by
  rw [List.map_flatMap, List.nodup_flatMap]
  constructor
  · intro a _
    exact (List.filter_sublist.map ref).nodup hversions
  · refine (List.Nodup.pairwise_of_forall_ne (List.Nodup.of_map _ hroots) ?_)
    intro a ha b hb hne x hx hx'
    obtain ⟨v, hv, rfl⟩ := List.mem_map.mp hx
    obtain ⟨v', hv', heq⟩ := List.mem_map.mp hx'
    rw [List.mem_filter] at hv hv'
    obtain rfl := hversions.eq hv'.1 hv.1 heq
    exact hne (hroots.eq ha hb (hpick a b v' hv.2 hv'.2))

theorem nodup_ownedRecollections {d : Db} (h : UniqueMemory d) (owner : OwnerScope) :
    ((ownedRecollections owner d).map (·.versionRef)).Nodup := by
  have hroots : KeysUnique RecollectionRow.ref (d.recollections.filter fun r => decide (r.owner = owner)) :=
    (List.filter_sublist.map _).nodup h.recollections
  have hjoined := nodup_joined (fun r v => decide (v.tenantRef = r.owner.tenantRef) &&
    decide (v.recollectionRef = r.ref) && v.status == .active) hroots h.recollectionVersions
    fun a b v ha hb => by
      simp at ha hb
      exact ha.1.2.symm.trans hb.1.2
  unfold ownedRecollections
  rw [List.map_flatMap] at hjoined ⊢
  simpa [List.map_map, Function.comp_def] using hjoined

theorem nodup_ownedDispositions {d : Db} (h : UniqueMemory d) (owner : OwnerScope) :
    ((ownedDispositions owner d).map (·.versionRef)).Nodup := by
  have hroots : KeysUnique SeedRow.ref (d.seeds.filter fun s => decide (s.owner = owner)) :=
    (List.filter_sublist.map _).nodup h.seeds
  have hjoined := nodup_joined (fun s v => decide (v.tenantRef = s.owner.tenantRef) &&
    decide (v.seedRef = s.ref) && v.status == .active) hroots h.seedVersions
    fun a b v ha hb => by
      simp at ha hb
      exact ha.1.2.symm.trans hb.1.2
  unfold ownedDispositions
  rw [List.map_flatMap] at hjoined ⊢
  simpa [List.map_map, Function.comp_def] using hjoined

/-! ## Answers -/

/-- The owners whose Memory a lane of this owner looks up. -/
def laneOwners (owner : OwnerScope) : List OwnerScope :=
  owner :: (catalogueOwners owner.laneScope).map (·.1)

/-- The ref names an Episode or an active Memory that a lane of the owner may use. -/
def usableRef (d : Db) (owner : OwnerScope) (kind : DocumentKind) (ref : String) : Bool :=
  match kind with
  | .episode => d.episodes.any fun e => decide (e.group.scope.owner ∈ laneOwners owner) && e.ref == ref
  | .recollection => (laneOwners owner).any fun o => (ownedRecollections o d).any (·.versionRef == ref)
  | .disposition => (laneOwners owner).any fun o => (ownedDispositions o d).any (·.versionRef == ref)

def ScopedIndexCandidate.usable (d : Db) (c : ScopedIndexCandidate) : Bool :=
  usableRef d c.scope c.kind c.ref

/-- What of an answer of a lane is usable. -/
def IndexCandidate.usable (d : Db) (lane : Lane) (c : IndexCandidate) : Bool :=
  c.kind.any fun kind => usableRef d lane.owner kind c.ref

/-- The answers that a selection sees, position by position. -/
def Lane.usableAt (d : Db) (limit : Nat) (index : MemoryIndex) (lane : Lane) (i : Nat) :
    Option IndexCandidate :=
  (((index (lane.indexQuery limit)).getD [])[i]?).filter (IndexCandidate.usable d lane)

theorem Lane.scoped_usable {d : Db} {lane : Lane} {c : IndexCandidate} {i : Nat}
    {s : ScopedIndexCandidate} (h : lane.scoped (c, i) = some s) : s.usable d = c.usable d lane := by
  unfold Lane.scoped at h
  cases hk : c.kind with
  | none => simp [hk] at h
  | some kind =>
    simp only [hk] at h
    split at h
    · cases h
    · rw [← Option.some.inj h]
      simp [ScopedIndexCandidate.usable, IndexCandidate.usable, hk]

/-- The usable part of a lane's bounded answer, read off its positions. -/
theorem Lane.filter_search (d : Db) (limit : Nat) (index : MemoryIndex) (lane : Lane) :
    (lane.search index limit).filter (ScopedIndexCandidate.usable d) =
      (List.range limit).filterMap fun i => (lane.usableAt d limit index i).bind fun c =>
        lane.scoped (c, i) := by
  unfold Lane.search
  rw [List.filter_filterMap, filterMap_take_zipIdx]
  refine List.filterMap_congr fun i _ => ?_
  unfold Lane.usableAt
  cases ((index (lane.indexQuery limit)).getD [])[i]? with
  | none => rfl
  | some c =>
    cases hs : lane.scoped (c, i) with
    | none => cases hu : c.usable d lane <;> simp [Option.filter, hs, hu]
    | some s => cases hu : c.usable d lane <;> simp [Option.filter, hs, hu, Lane.scoped_usable hs]

/-! ## Repeats -/

theorem ScopedIndexCandidate.usable_of_repeats {d : Db} {a b : ScopedIndexCandidate}
    (h : a.repeats b = true) : a.usable d = b.usable d := by
  simp only [repeats, Bool.and_eq_true, decide_eq_true_eq, beq_iff_eq] at h
  simp only [usable, h.1.1.1, h.1.1.2, h.1.2]

theorem filter_dropRepeats (d : Db) (l : List ScopedIndexCandidate) :
    (dropRepeats l).filter (ScopedIndexCandidate.usable d) =
      dropRepeats (l.filter (ScopedIndexCandidate.usable d)) := by
  suffices h : ∀ acc : List ScopedIndexCandidate,
      (l.foldl (fun acc c => if acc.any c.repeats then acc else acc ++ [c]) acc).filter
          (ScopedIndexCandidate.usable d) =
        (l.filter (ScopedIndexCandidate.usable d)).foldl
          (fun acc c => if acc.any c.repeats then acc else acc ++ [c])
          (acc.filter (ScopedIndexCandidate.usable d)) from h []
  induction l with
  | nil => exact fun acc => rfl
  | cons c rest ih =>
    intro acc
    rw [List.foldl_cons, ih, List.filter_cons]
    cases hu : c.usable d with
    | false =>
      have hstep : (if acc.any c.repeats then acc else acc ++ [c]).filter
          (ScopedIndexCandidate.usable d) = acc.filter (ScopedIndexCandidate.usable d) := by
        split
        · rfl
        · simp [hu]
      rw [hstep, if_neg (by simp)]
    | true =>
      have hany : (acc.filter (ScopedIndexCandidate.usable d)).any c.repeats = acc.any c.repeats := by
        rw [Bool.eq_iff_iff]
        simp only [List.any_eq_true, List.mem_filter]
        constructor
        · rintro ⟨a, ⟨ha, _⟩, hr⟩
          exact ⟨a, ha, hr⟩
        · rintro ⟨a, ha, hr⟩
          exact ⟨a, ⟨ha, (ScopedIndexCandidate.usable_of_repeats hr).symm.trans hu⟩, hr⟩
      have hstep : (if acc.any c.repeats then acc else acc ++ [c]).filter
            (ScopedIndexCandidate.usable d) =
          if (acc.filter (ScopedIndexCandidate.usable d)).any c.repeats then
            acc.filter (ScopedIndexCandidate.usable d)
          else acc.filter (ScopedIndexCandidate.usable d) ++ [c] := by
        rw [hany]
        split
        · rfl
        · simp [hu]
      rw [hstep, if_pos rfl, List.foldl_cons]

/-- The usable part of everything the lanes of a selection return depends on the usable
answers and their positions. -/
theorem filter_searchSelectionIndex {d : Db} {scope : Scope} {queries : List Query} {limit : Nat}
    {index index' : MemoryIndex}
    (h : ∀ lane ∈ selectionLanes scope queries, ∀ i < limit,
      lane.usableAt d limit index i = lane.usableAt d limit index' i) :
    (searchSelectionIndex (some index) scope queries limit).filter (ScopedIndexCandidate.usable d) =
      (searchSelectionIndex (some index') scope queries limit).filter
        (ScopedIndexCandidate.usable d) := by
  have hlanes : ((selectionLanes scope queries).flatMap (Lane.search index limit)).filter
        (ScopedIndexCandidate.usable d) =
      ((selectionLanes scope queries).flatMap (Lane.search index' limit)).filter
        (ScopedIndexCandidate.usable d) := by
    rw [List.filter_flatMap, List.filter_flatMap]
    refine List.flatMap_congr fun lane hlane => ?_
    rw [Lane.filter_search, Lane.filter_search]
    refine List.filterMap_congr fun i hi => ?_
    rw [h lane hlane i (List.mem_range.mp hi)]
  simp only [searchSelectionIndex]
  rw [filter_dropRepeats, filter_dropRepeats, hlanes]

end ChoraMem
