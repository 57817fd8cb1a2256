/-
Freezing a collecting job.

A lease puts the tail of the last completed window before the collected Episodes,
keeps as many as fit, and carries the rest into a new collecting job.  On a store
that obeys the law of the queue this never fails: each Outcome is found with its
Episode, goes where its Episode goes, and nothing collected is left out.
-/
import ChoraMem.Queue.Growth

namespace ChoraMem

open Txn

/-! ## Splitting Outcomes by their Episodes -/

/-- What a partition of Outcome refs yields: each ref goes with its Episode. -/
structure Partitioned (selectedEpisodes : List String) (d : Db) (refs selected remainder : List String) :
    Prop where
  chosen : selected.Sublist refs
  left : remainder.Sublist refs
  into : ∀ ref ∈ refs, ref ∈ selected ∨ ref ∈ remainder
  inside : ∀ ref ∈ selected, ∀ o ∈ d.outcomes, o.ref = ref → o.episodeRef ∈ selectedEpisodes
  outside : ∀ ref ∈ remainder, ∀ o ∈ d.outcomes, o.ref = ref → o.episodeRef ∉ selectedEpisodes

/-- Every ref names an Outcome of the owner whose Episode is among the collected. -/
def Collected (owner : OwnerScope) (episodes : List String) (d : Db) (refs : List String) : Prop :=
  ∀ ref ∈ refs, ∃ o ∈ d.outcomes, o.ref = ref ∧ o.group.scope.owner = owner ∧ o.episodeRef ∈ episodes

theorem partition_ok {owner : OwnerScope} {collected refs : List String} {d : Db}
    (selectedEpisodes : List String) (hu : OutcomeRefsUnique d) (h : Collected owner collected d refs) :
    ∃ selected remainder,
      partitionConsolidationOutcomes owner collected selectedEpisodes d refs =
        .ok (selected, remainder) ∧ Partitioned selectedEpisodes d refs selected remainder := by
  induction refs with
  | nil =>
    exact ⟨[], [], rfl, List.Sublist.refl _, List.Sublist.refl _, fun _ hr => absurd hr List.not_mem_nil,
      fun _ hr => absurd hr List.not_mem_nil, fun _ hr => absurd hr List.not_mem_nil⟩
  | cons ref rest ih =>
    obtain ⟨selected, remainder, hrest, hp⟩ := ih fun r hr => h r (List.mem_cons_of_mem _ hr)
    obtain ⟨o, ho, href, how, hep⟩ := h ref List.mem_cons_self
    have hfind : d.outcomes.find?
        (fun o => decide (o.group.scope.owner = owner) && decide (o.ref = ref)) = some o := by
      refine find_only ho (by simp [how, href]) fun o' ho' hp => ?_
      simp only [Bool.and_eq_true, decide_eq_true_eq] at hp
      exact hu.eq ho' ho (hp.2.trans href.symm)
    have hown : ∀ o' ∈ d.outcomes, o'.ref = ref → o'.episodeRef = o.episodeRef := fun o' ho' hr' =>
      congrArg OutcomeRow.episodeRef (hu.eq ho' ho (hr'.trans href.symm))
    simp only [partitionConsolidationOutcomes, hfind, List.contains_iff_mem.mpr hep, Bool.not_true,
      Bool.false_eq_true, if_false, hrest]
    by_cases hsel : o.episodeRef ∈ selectedEpisodes
    · rw [if_pos (List.contains_iff_mem.mpr hsel)]
      refine ⟨_, _, rfl, hp.chosen.cons_cons _, hp.left.cons _, fun r hr => ?_,
        fun r hr o' ho' hr' => ?_, hp.outside⟩
      · rcases List.mem_cons.mp hr with rfl | hr
        · exact Or.inl List.mem_cons_self
        · exact (hp.into r hr).imp (List.mem_cons_of_mem _) id
      · rcases List.mem_cons.mp hr with rfl | hr
        · rw [hown o' ho' hr']
          exact hsel
        · exact hp.inside r hr o' ho' hr'
    · rw [if_neg (fun hc => hsel (List.contains_iff_mem.mp hc))]
      refine ⟨_, _, rfl, hp.chosen.cons _, hp.left.cons_cons _, fun r hr => ?_, hp.inside,
        fun r hr o' ho' hr' => ?_⟩
      · rcases List.mem_cons.mp hr with rfl | hr
        · exact Or.inr List.mem_cons_self
        · exact (hp.into r hr).imp id (List.mem_cons_of_mem _)
      · rcases List.mem_cons.mp hr with rfl | hr
        · rw [hown o' ho' hr']
          exact hsel
        · exact hp.outside r hr o' ho' hr'

theorem wp_selectOrFail {α β : Type} {q : Db → Except Fault α} {f : α → Tx β} {Q : β → Db → Prop}
    {F : Fault → Prop} {d : Db} {a : α} (h : q d = .ok a) :
    (selectOrFail q >>= f).wp Q F d ↔ (f a).wp Q F d := by
  rw [Prog.wp_bind]
  unfold selectOrFail
  simp only [Prog.wp, h]

/-! ## The overlap -/

theorem foldl_unseen (acc l : List String) (hl : l.Nodup) :
    l.foldl (fun acc ref => if acc.contains ref then acc else acc ++ [ref]) acc =
      acc ++ l.filter fun ref => !acc.contains ref := by
  induction l generalizing acc with
  | nil => simp
  | cons ref rest ih =>
    obtain ⟨hnot, hrest⟩ := List.nodup_cons.mp hl
    rw [List.foldl_cons]
    by_cases h : acc.contains ref = true
    · rw [if_pos h, ih acc hrest, List.filter_cons_of_neg (by simpa using h)]
    · rw [if_neg h, ih _ hrest, List.filter_cons_of_pos (by simpa using h), List.append_assoc,
        List.singleton_append]
      refine congrArg (fun t => acc ++ ref :: t) (List.filter_congr fun x hx => ?_)
      have hne : x ≠ ref := fun he => hnot (he ▸ hx)
      simp [hne]

/-- The window before it is cut: an overlap that fits, and every collected ref. -/
structure Combined (owner : OwnerScope) (current : List String) (limit : Nat) (d : Db)
    (tail combined outcomes : List String) : Prop where
  nodup : combined.Nodup
  split : ∃ rest, combined = tail ++ rest
  fits : tail.length ≤ limit
  mem : ∀ ref, ref ∈ combined ↔ ref ∈ tail ∨ ref ∈ current
  known : ∀ ref ∈ tail, ref ≠ "" ∧ ∃ e ∈ d.episodes, e.ref = ref ∧ e.group.scope.owner = owner
  outcomesNodup : outcomes.Nodup
  outcomes : Collected owner tail d outcomes

theorem previousJob_some {owner : OwnerScope} {d : Db} {j : JobRow}
    (h : previousJob owner d = some j) : j ∈ d.jobs ∧ j.owner = owner ∧ j.completedAt.isSome := by
  have hm := List.mem_of_mem_head? (by rw [← previousJob]; exact h)
  rw [List.mem_insertionSort, List.mem_filter] at hm
  simp only [Bool.and_eq_true, decide_eq_true_eq] at hm
  exact ⟨hm.1, hm.2.1, hm.2.2⟩

section

variable {store : Store} {d : Db} {owner : OwnerScope} {current : List String} {limit : Nat}

theorem combined_alone (hc : current.Nodup) : Combined owner current limit d [] current [] where
  nodup := hc
  split := ⟨current, rfl⟩
  fits := Nat.zero_le _
  mem := fun ref => by simp
  known := fun _ hr => absurd hr List.not_mem_nil
  outcomesNodup := List.nodup_nil
  outcomes := fun _ hr => absurd hr List.not_mem_nil

theorem prependPreviousOverlap_wp (hjobs : JobsOk none d) (hu : OutcomeRefsUnique d)
    (hc : current.Nodup) :
    (prependPreviousOverlap owner current limit).wp
      (fun r d' => d' = d ∧ ∃ tail, Combined owner current limit d tail r.1 r.2)
      (fun _ => False) d := by
  unfold prependPreviousOverlap
  split
  · exact ⟨rfl, [], combined_alone hc⟩
  refine Prog.wp_select.mpr ?_
  cases hprev : previousJob owner d with
  | none => exact ⟨rfl, [], combined_alone hc⟩
  | some j =>
    obtain ⟨hj, how, _⟩ := previousJob_some hprev
    have hok := hjobs.rows j hj
    have hsub : (takeLast limit j.episodeRefs).Sublist j.episodeRefs := List.drop_sublist _ _
    have hnd : (takeLast limit j.episodeRefs).Nodup := hsub.nodup hok.nodup
    have hcollected : Collected owner j.episodeRefs d j.outcomeEventRefs := fun ref hr =>
      have ⟨o, ho, href, ho', hep⟩ := hok.outcomes ref hr
      ⟨o, ho, href, ho'.trans how, hep⟩
    obtain ⟨selected, remainder, hpart, hp⟩ :=
      partition_ok (takeLast limit j.episodeRefs) hu hcollected
    refine (wp_selectOrFail hpart).mpr ?_
    have hfold : (takeLast limit j.episodeRefs ++ current).foldl
        (fun acc ref => if acc.contains ref then acc else acc ++ [ref]) [] =
        takeLast limit j.episodeRefs ++
          current.filter fun ref => !(takeLast limit j.episodeRefs).contains ref := by
      rw [List.foldl_append, foldl_unseen [] _ hnd, foldl_unseen _ _ hc]
      simp
    refine ⟨rfl, takeLast limit j.episodeRefs, ?_⟩
    dsimp only
    rw [hfold]
    refine ⟨?_, ⟨_, rfl⟩, ?_, fun ref => ?_, fun ref hr => ?_, hp.chosen.nodup hok.outcomesNodup,
      fun ref hr => ?_⟩
    · refine List.nodup_append.mpr ⟨hnd, hc.filter _, fun a ha b hb hab => ?_⟩
      have hb' := (List.mem_filter.mp hb).2
      simp [← hab, ha] at hb'
    · unfold takeLast
      rw [List.length_drop]
      omega
    · rw [List.mem_append, List.mem_filter]
      by_cases ht : ref ∈ takeLast limit j.episodeRefs <;> simp [ht]
    · refine ⟨fun hz => hok.named (hz ▸ hsub.subset hr), ?_⟩
      obtain ⟨e, he, href, ho'⟩ := hok.episodes ref (hsub.subset hr)
      exact ⟨e, he, href, ho'.trans how⟩
    · obtain ⟨o, ho, href, ho', _⟩ := hok.outcomes ref (hp.chosen.subset hr)
      exact ⟨o, ho, href, ho'.trans how, hp.inside ref hr o ho href⟩

end

/-! ## The frozen window -/

/-- What the source asks of a lease request. -/
structure LeaseRequest.Valid (request : LeaseRequest) : Prop where
  episodes : 2 ≤ request.maxEpisodes
  overlap : 0 ≤ request.overlap
  deadline : request.leaseUntil ≠ 0

/-- What freezing makes of a collecting job: a window that fits, and a remainder,
each of them a job in order, which together hold everything collected. -/
structure Frozen (store : Store) (request : LeaseRequest) (j : JobRow) (d : Db) (w : FrozenWindow) :
    Prop where
  hash : w.windowHash =
    store.consolidationQueueWindowHash j.owner w.episodeRefs w.outcomeEventRefs
  fits : (w.episodeRefs.length : Int) ≤ request.maxEpisodes
  window : ∀ r : JobRow, r.owner = j.owner → r.episodeRefs = w.episodeRefs →
    r.outcomeEventRefs = w.outcomeEventRefs → JobRowOk d r
  rest : w.remainderEpisodes ≠ [] → ∀ r : JobRow, r.owner = j.owner →
    r.episodeRefs = w.remainderEpisodes → r.outcomeEventRefs = w.remainderOutcomes → JobRowOk d r
  episodes : ∀ ref ∈ j.episodeRefs, ref ∈ w.episodeRefs ∨ ref ∈ w.remainderEpisodes
  outcomes : ∀ o ∈ d.outcomes, o.ref ∈ j.outcomeEventRefs →
    (o.ref ∈ w.outcomeEventRefs ∧ o.episodeRef ∈ w.episodeRefs) ∨
      (o.ref ∈ w.remainderOutcomes ∧ o.episodeRef ∈ w.remainderEpisodes)

section

variable {store : Store} {d : Db} {request : LeaseRequest} {j : JobRow}

/-- Cutting the combined window and sending each Outcome after its Episode. -/
theorem frozen_of_combined {limit : Nat} {tail combined overlap selected remainder : List String}
    (hjobs : JobsOk none d) (hu : OutcomeRefsUnique d) (hj : j ∈ d.jobs)
    (hc : Combined j.owner j.episodeRefs limit d tail combined overlap)
    (hmax : 2 ≤ request.maxEpisodes) (hlimit : limit < request.maxEpisodes.toNat)
    (hp : Partitioned (combined.take request.maxEpisodes.toNat) d
      (appendUniqueRefs overlap j.outcomeEventRefs).1 selected remainder) :
    Frozen store request j d
      { episodeRefs := combined.take request.maxEpisodes.toNat, outcomeEventRefs := selected,
        windowHash := store.consolidationQueueWindowHash j.owner
          (combined.take request.maxEpisodes.toNat) selected,
        remainderEpisodes := j.episodeRefs.filter fun ref =>
          !(combined.take request.maxEpisodes.toNat).contains ref,
        remainderOutcomes := remainder } := by
  have hok := hjobs.rows j hj
  have htake : ∀ ref ∈ combined.take request.maxEpisodes.toNat, ref ∈ combined :=
    fun ref hr => List.mem_of_mem_take hr
  have htail : ∀ ref ∈ tail, ref ∈ combined.take request.maxEpisodes.toNat := by
    intro ref hr
    obtain ⟨rest, rfl⟩ := hc.split
    have hlen : tail.length ≤ request.maxEpisodes.toNat := by have := hc.fits; omega
    rw [List.take_append, List.take_of_length_le hlen]
    exact List.mem_append_left _ hr
  have hrest : ∀ ref, ref ∈ (j.episodeRefs.filter fun ref =>
      !(combined.take request.maxEpisodes.toNat).contains ref) ↔
      ref ∈ j.episodeRefs ∧ ref ∉ combined.take request.maxEpisodes.toNat := by
    intro ref
    rw [List.mem_filter, Bool.not_eq_true', ← Bool.not_eq_true, List.contains_iff_mem]
  -- An Outcome that is not selected belongs to an Episode of the job itself.
  have hoverlap : ∀ ref ∈ (appendUniqueRefs overlap j.outcomeEventRefs).1, ∃ o ∈ d.outcomes,
      o.ref = ref ∧ o.group.scope.owner = j.owner ∧ (o.episodeRef ∈ tail ∨ o.episodeRef ∈ j.episodeRefs) := by
    intro ref hr
    rcases mem_appendUniqueRefs.mp hr with hr | ⟨hr, _⟩
    · obtain ⟨o, ho, href, how, hep⟩ := hc.outcomes ref hr
      exact ⟨o, ho, href, how, Or.inl hep⟩
    · obtain ⟨o, ho, href, how, hep⟩ := hok.outcomes ref hr
      exact ⟨o, ho, href, how, Or.inr hep⟩
  have hknown : ∀ ref ∈ combined, ref ≠ "" ∧ ∃ e ∈ d.episodes, e.ref = ref ∧
      e.group.scope.owner = j.owner := by
    intro ref hr
    rcases (hc.mem ref).mp hr with hr | hr
    · exact hc.known ref hr
    · exact ⟨fun hz => hok.named (hz ▸ hr), hok.episodes ref hr⟩
  have hcandidates : (appendUniqueRefs overlap j.outcomeEventRefs).1.Nodup :=
    nodup_appendUniqueRefs hc.outcomesNodup
  constructor
  · rfl
  · have hlen := List.length_take_le request.maxEpisodes.toNat combined
    dsimp only
    omega
  · intro r how hep hout
    refine ⟨?_, ?_, ?_, ?_, ?_, ?_⟩
    · rw [hep]
      intro hz
      have hne := List.exists_mem_of_ne_nil _ hok.nonempty
      obtain ⟨ref, hr⟩ := hne
      have hm := (hc.mem ref).mpr (Or.inr hr)
      rcases List.take_eq_nil_iff.mp hz with h0 | h0
      · omega
      · rw [h0] at hm
        cases hm
    · rw [hep]
      exact (List.take_sublist _ _).nodup hc.nodup
    · rw [hout]
      exact hp.chosen.nodup hcandidates
    · rw [hep]
      exact fun hm => (hknown "" (htake "" hm)).1 rfl
    · intro ref hr
      rw [hep] at hr
      rw [how]
      exact (hknown ref (htake ref hr)).2
    · intro ref hr
      rw [hout] at hr
      obtain ⟨o, ho, href, ho', _⟩ := hoverlap ref (hp.chosen.subset hr)
      rw [how, hep]
      exact ⟨o, ho, href, ho', hp.inside ref hr o ho href⟩
  · intro hne r how hep hout
    refine ⟨hep ▸ hne, ?_, ?_, ?_, ?_, ?_⟩
    · rw [hep]
      exact hok.nodup.filter _
    · rw [hout]
      exact hp.left.nodup hcandidates
    · rw [hep]
      exact fun hm => hok.named ((hrest "").mp hm).1
    · intro ref hr
      rw [hep] at hr
      rw [how]
      exact hok.episodes ref ((hrest ref).mp hr).1
    · intro ref hr
      rw [hout] at hr
      obtain ⟨o, ho, href, ho', hin⟩ := hoverlap ref (hp.left.subset hr)
      have hnot := hp.outside ref hr o ho href
      rw [how, hep]
      exact ⟨o, ho, href, ho', (hrest _).mpr ⟨hin.resolve_left fun ht => hnot (htail _ ht), hnot⟩⟩
  · intro ref hr
    by_cases hin : ref ∈ combined.take request.maxEpisodes.toNat
    · exact Or.inl hin
    · exact Or.inr ((hrest ref).mpr ⟨hr, hin⟩)
  · intro o ho hr
    have hcand : o.ref ∈ (appendUniqueRefs overlap j.outcomeEventRefs).1 :=
      mem_appendUniqueRefs.mpr (Or.inr ⟨hr, hjobs.named o ho⟩)
    obtain ⟨o', ho', href, _, hep⟩ := hok.outcomes o.ref hr
    obtain rfl := hu.eq ho' ho href
    rcases hp.into _ hcand with hsel | hrem
    · exact Or.inl ⟨hsel, hp.inside _ hsel o' ho rfl⟩
    · have hnot := hp.outside _ hrem o' ho rfl
      exact Or.inr ⟨hrem, (hrest _).mpr ⟨hep, hnot⟩⟩

theorem freezeWindow_wp (hjobs : JobsOk none d) (hu : OutcomeRefsUnique d) (hj : j ∈ d.jobs)
    (hvalid : request.Valid) :
    (store.freezeWindow request j).wp (fun w d' => d' = d ∧ Frozen store request j d w)
      (fun _ => False) d := by
  have hok := hjobs.rows j hj
  unfold Store.freezeWindow
  refine Prog.wp_bind.mpr ((prependPreviousOverlap_wp hjobs hu hok.nodup).conseq ?_)
  rintro ⟨combined, overlap⟩ d' ⟨rfl, tail, hc⟩
  have hcollected : Collected j.owner combined d' (appendUniqueRefs overlap j.outcomeEventRefs).1 := by
    intro ref hr
    rcases mem_appendUniqueRefs.mp hr with hr | ⟨hr, _⟩
    · obtain ⟨o, ho, href, how, hep⟩ := hc.outcomes ref hr
      exact ⟨o, ho, href, how, (hc.mem _).mpr (Or.inl hep)⟩
    · obtain ⟨o, ho, href, how, hep⟩ := hok.outcomes ref hr
      exact ⟨o, ho, href, how, (hc.mem _).mpr (Or.inr hep)⟩
  obtain ⟨selected, remainder, hpart, hp⟩ :=
    partition_ok (combined.take request.maxEpisodes.toNat) hu hcollected
  refine (wp_selectOrFail hpart).mpr ⟨rfl, frozen_of_combined hjobs hu hj hc hvalid.episodes ?_ hp⟩
  have := hvalid.episodes
  have := hvalid.overlap
  split <;> omega

end

end ChoraMem
