/-
The store's Observe refines the ledger's.

Two programs admit source events: the in-memory ledger, and the store in one transaction
over its tables.  `Mirrors` is the relation between them: the source rows are the
ledger's events, the link rows its links, and a group has an Episode row exactly when its
links make one.  A call with a fresh key keeps the relation and ends as the ledger does.
A call with a committed key does nothing but read its receipt.
-/
import ChoraMem.Core.Admission
import ChoraMem.Core.Observe
import ChoraMem.Intake.Materialize
import ChoraMem.Intake.OutcomeHash
import ChoraMem.Txn.Alone
import ChoraMem.World.Law

namespace ChoraMem

open Txn Prog

/-! ## What follows an intake cannot fail -/

theorem le_foldl_max {n : Nat} {l : List Nat} (b : Nat) (h : n ≤ b ∨ n ∈ l) : n ≤ l.foldl max b := by
  induction l generalizing b with
  | nil => exact h.resolve_right List.not_mem_nil
  | cons first rest ih =>
    rw [List.foldl_cons]
    apply ih
    rcases h with h | h
    · exact Or.inl (h.trans (le_max_left b first))
    · rcases List.mem_cons.mp h with rfl | h
      · exact Or.inl (le_max_right b n)
      · exact Or.inr h

theorem lt_nextSequence {d : Db} {r : IndexOperationRow} (h : r ∈ d.indexOperations) :
    r.streamSequence < Store.nextSequence r.streamRef d := by
  unfold Store.nextSequence
  have hmem : r.streamSequence ∈
      ((d.indexOperations.filter (·.streamRef = r.streamRef)).map (·.streamSequence)) :=
    List.mem_map_of_mem (List.mem_filter.mpr ⟨h, decide_eq_true rfl⟩)
  have := le_foldl_max 0 (Or.inr hmem)
  omega

section

variable {store : Store} {d : Db}

/-- An operation of a complete identity is enqueued, or is there. -/
theorem wp_enqueueMemoryIndexOperation {action : IndexAction} {kind : DocumentKind}
    {documentRef streamIdentity : String} {owner : OwnerScope} {causeFields : List String}
    (hdoc : documentRef ≠ "") (hstream : streamIdentity ≠ "") (hcause : causeFields ≠ [])
    (hfields : ∀ f ∈ causeFields, f ≠ "") :
    wp (store.enqueueMemoryIndexOperation action kind documentRef owner streamIdentity causeFields)
      (fun _ _ => True) (fun _ => False) d := by
  have hnone : causeFields.any (· == "") = false := by
    simpa [List.any_eq_false] using hfields
  have hempty : causeFields.isEmpty = false := by simpa using hcause
  simp only [Store.enqueueMemoryIndexOperation]
  rw [if_neg (by simp [hdoc, hstream, hempty]), if_neg (by simp [hnone])]
  simp only [wp_acquire, wp_select]
  split
  · trivial
  rename_i hexist
  rw [wp_select]
  unfold insertFresh
  simp only [wp]
  rw [if_neg]
  · trivial
  · intro htaken
    obtain ⟨r, hr, hor⟩ := List.any_eq_true.mp htaken
    simp only [Bool.or_eq_true, decide_eq_true_eq, Bool.and_eq_true] at hor
    rcases hor with hid | ⟨hs, hseq⟩
    · apply hexist
      exact List.any_eq_true.mpr ⟨r, hr, decide_eq_true hid⟩
    · have hlt := lt_nextSequence hr
      rw [hs] at hlt
      omega

/-- The jobs are old ones, or the one this call makes. -/
def JobsFrom (ref : String) (d d' : Db) : Prop :=
  ∀ j ∈ d'.jobs, j.jobRef = ref ∨ ∃ j' ∈ d.jobs, j'.jobRef = j.jobRef

theorem JobsFrom.refl (ref : String) (d : Db) : JobsFrom ref d d := fun j hj => Or.inr ⟨j, hj, rfl⟩

theorem JobsFrom.put {ref : String} {d' : Db} (h : JobsFrom ref d d') {rows : List JobRow}
    (hrows : ∀ r ∈ rows, r.jobRef = ref ∨ ∃ j ∈ d.jobs, j.jobRef = r.jobRef) :
    JobsFrom ref d (applyAll d' (rows.map Write.updateJob)) := by
  induction rows generalizing d' with
  | nil => exact h
  | cons r rest ih =>
    rw [List.map_cons, applyAll_cons]
    refine ih (fun j hj => ?_) fun r' hr' => hrows r' (List.mem_cons_of_mem _ hr')
    rcases mem_updateRow.mp hj with ⟨hj, _⟩ | rfl
    · exact h j hj
    · exact hrows j List.mem_cons_self

theorem JobsFrom.rewrite {ref : String} {d' : Db} (h : JobsFrom ref d d')
    {matching : JobRow → Bool} {f : JobRow → JobRow} (hf : ∀ j, (f j).jobRef = j.jobRef) :
    JobsFrom ref d (applyAll d' (updateJobs matching f d')) := by
  have hmap : updateJobs matching f d' = ((d'.jobs.filter matching).map f).map Write.updateJob := by
    rw [List.map_map]
    rfl
  rw [hmap]
  refine h.put fun r hr => ?_
  obtain ⟨j, hj, rfl⟩ := List.mem_map.mp hr
  rw [hf j]
  exact h j (List.mem_of_mem_filter hj)

theorem wp_extendCollectingJob {env : Ambient} {ref jobRef : String} {episodes outcomes : List String}
    {d' : Db} (h : JobsFrom ref d d') :
    wp (extendCollectingJob env jobRef episodes outcomes) (fun _ d'' => JobsFrom ref d d'')
      (fun _ => False) d' :=
  h.rewrite fun _ => rfl

theorem JobsFrom.touch {ref : String} {d' : Db} (h : JobsFrom ref d d') {stored : Option JobRow}
    (hstored : ∀ j, stored = some j → j ∈ d'.jobs) :
    JobsFrom ref d (applyAll d' (touchJob stored)) := by
  cases stored with
  | none => exact h
  | some j =>
    show JobsFrom ref d (applyAll d' ([j].map Write.updateJob))
    refine h.put fun r hr => ?_
    rw [List.mem_singleton.mp hr]
    exact h j (hstored j rfl)

theorem collectingJob_mem {owner : OwnerScope} {j : JobRow} (h : collectingJob owner d = some j) :
    j ∈ d.jobs ∧ j.owner = owner ∧ j.collecting = true := by
  unfold collectingJob at h
  have hp := List.find?_some h
  simp only [Bool.and_eq_true, decide_eq_true_eq] at hp
  exact ⟨List.mem_of_find?_eq_some h, hp.1, hp.2⟩

theorem isSome_collectingJob {owner : OwnerScope} {j : JobRow} (hj : j ∈ d.jobs)
    (howner : j.owner = owner) (hc : j.collecting = true) : (collectingJob owner d).isSome := by
  unfold collectingJob
  rw [List.find?_isSome]
  exact ⟨j, hj, by simp [howner, hc]⟩

theorem wp_enqueueConsolidationEvidence {env : Ambient} {scope : Scope} {episodes outcomes : List String}
    (hfresh : ∀ j ∈ d.jobs, j.jobRef ≠ env.jobRef) :
    wp (store.enqueueConsolidationEvidence env scope episodes outcomes)
      (fun _ d' => JobsFrom env.jobRef d d') (fun _ => False) d := by
  simp only [Store.enqueueConsolidationEvidence]
  split
  · exact JobsFrom.refl _ d
  rw [wp_acquire]
  unfold selectJobForUpdate
  rw [wp_statement]
  cases hstored : collectingJob scope.owner d with
  | none =>
    simp only [touchJob, applyAll_nil, Option.map_none, Option.getD_none, List.isEmpty_nil, if_true]
    split
    · exact JobsFrom.refl _ d
    have hno : jobConflict env.jobRef scope.owner d = false := by
      unfold jobConflict
      rw [List.any_eq_false]
      intro j hj
      have hne := hfresh j hj
      have hnot := List.find?_eq_none.mp hstored j hj
      simpa [hne] using hnot
    rw [wp_statement]
    simp only [hno, newCollectingJob, newJob, Bool.not_false, if_true, Bool.false_eq_true, if_false]
    intro j hj
    rcases mem_updateRow.mp hj with ⟨hj, _⟩ | rfl
    · exact Or.inr ⟨j, hj, rfl⟩
    · exact Or.inl rfl
  | some job =>
    obtain ⟨hjob, howner, hcollecting⟩ := collectingJob_mem hstored
    have htouch : JobsFrom env.jobRef d (applyAll d (touchJob (some job))) :=
      (JobsFrom.refl _ d).touch fun j hj => Option.some.inj hj ▸ hjob
    have hself : job ∈ (applyAll d (touchJob (some job))).jobs := self_mem_updateRow
    generalize applyAll d (touchJob (some job)) = d' at htouch hself
    simp only [Option.map_some, Option.getD_some]
    split
    · exact htouch
    split
    · have hconflict : jobConflict job.jobRef scope.owner d' = true :=
        List.any_eq_true.mpr ⟨job, hself, by simp⟩
      rw [wp_statement]
      simp only [hconflict, newCollectingJob, newJob, Bool.not_true, Bool.false_eq_true, if_false,
        if_true, applyAll_nil]
      rw [wp_statement]
      obtain ⟨joined, hjoined⟩ := Option.isSome_iff_exists.mp
        (isSome_collectingJob hself howner hcollecting)
      have hstored : ∀ j, some joined = some j → j ∈ _ := fun j hj =>
        Option.some.inj hj ▸ (collectingJob_mem hjoined).1
      have htouch' := htouch.touch hstored
      rw [hjoined]
      simp only [joinCollectingJob]
      split
      · exact htouch'
      · exact wp_extendCollectingJob htouch'
    · exact wp_extendCollectingJob htouch

theorem wp_enqueueEpisodeState {env : Ambient} {scope : Scope} {episodeRef : String}
    (hfresh : ∀ j ∈ d.jobs, j.jobRef ≠ env.jobRef) :
    wp (store.enqueueEpisodeState env scope episodeRef) (fun _ d' => JobsFrom env.jobRef d d')
      (fun _ => False) d := by
  simp only [Store.enqueueEpisodeState]
  split
  · exact JobsFrom.refl _ d
  · rw [wp_select]
    exact wp_enqueueConsolidationEvidence hfresh

end

/-! ## The relation -/

section

variable {store : Store} {l : Ledger} {d d' : Db} {g : StableGroupRef} {link : SourceLink}

/-- The link rows are the ledger's links. -/
def SameLinks (l : Ledger) (d : Db) : Prop :=
  ∀ g ref role, (g, ref, role) ∈ d.links.map LinkRow.key ↔
    ∃ links known, l.groups g = some links ∧ (⟨ref, role, known⟩ : SourceLink) ∈ links

theorem SameLinks.congr (h : SameLinks l d) (hk : d'.links.map LinkRow.key = d.links.map LinkRow.key) :
    SameLinks l d' := by
  intro g ref role
  rw [hk]
  exact h g ref role

theorem SameLinks.append (h : SameLinks l d) {row : LinkRow}
    (hrow : row.key = (g, link.sourceEventRef, link.role)) :
    SameLinks (l.append g link) (d.apply (.insertLink row)) := by
  intro g' ref role
  have hkeys : (g', ref, role) ∈ (d.apply (.insertLink row)).links.map LinkRow.key ↔
      (g', ref, role) ∈ d.links.map LinkRow.key ∨ (g', ref, role) = row.key := by
    constructor
    · intro hmem
      obtain ⟨x, hx, hkey⟩ := List.mem_map.mp hmem
      rcases mem_insertRow.mp hx with hx | ⟨rfl, _⟩
      · exact Or.inl (hkey ▸ List.mem_map_of_mem hx)
      · exact Or.inr hkey.symm
    · intro hor
      rcases hor with hmem | heq
      · obtain ⟨x, hx, hkey⟩ := List.mem_map.mp hmem
        exact hkey ▸ List.mem_map_of_mem (mem_insertRow_of_mem hx)
      · by_cases hin : ∃ x ∈ d.links, x.key = row.key
        · obtain ⟨x, hx, hkey⟩ := hin
          rw [heq, ← hkey]
          exact List.mem_map_of_mem (mem_insertRow_of_mem hx)
        · rw [heq]
          refine List.mem_map_of_mem (mem_insertRow.mpr (Or.inr ⟨rfl, fun y hy hkey => ?_⟩))
          exact hin ⟨y, hy, hkey⟩
  rw [hkeys, h g' ref role, hrow, Ledger.append_groups]
  by_cases hg : g' = g
  · subst hg
    simp only [if_true, Prod.mk.injEq, true_and]
    constructor
    · intro hor
      rcases hor with ⟨links, known, hl, hin⟩ | ⟨rfl, rfl⟩
      · exact ⟨_, known, rfl, by rw [hl]; exact Finset.mem_insert_of_mem hin⟩
      · exact ⟨_, link.known, rfl, Finset.mem_insert_self _ _⟩
    · rintro ⟨links, known, hl, hin⟩
      obtain rfl := Option.some.inj hl
      rcases Finset.mem_insert.mp hin with rfl | hin
      · exact Or.inr ⟨rfl, rfl⟩
      · cases hgroup : l.groups g' with
        | none =>
          rw [hgroup] at hin
          cases hin
        | some links =>
          rw [hgroup] at hin
          exact Or.inl ⟨links, known, rfl, hin⟩
  · simp [hg]

/-- The gate of the tables is the ledger's. -/
theorem SameLinks.gate (h : SameLinks l d) (hashFields : List String → String) (g : StableGroupRef) :
    roleGate g d = (l.episode hashFields g).isSome := by
  rw [Bool.eq_iff_iff, roleGate_iff]
  have hepisode : (l.episode hashFields g).isSome = true ↔ ∃ links, l.groups g = some links ∧
      ∃ s ∈ links, ∃ a ∈ links, s.role = .situation ∧ a.role = .agentAct ∧
        s.sourceEventRef ≠ a.sourceEventRef := by
    unfold Ledger.episode snapshot hasDistinctSituationAndAgentAct sourcesOf
    cases hg : l.groups g with
    | none => simp
    | some links =>
      simp only [Option.bind_some]
      split
      · rename_i hgate
        have hgate := of_decide_eq_true hgate
        simp only [Finset.mem_image, Finset.mem_filter] at hgate
        obtain ⟨_, ⟨s, ⟨hs, hsr⟩, rfl⟩, _, ⟨a, ⟨ha, har⟩, rfl⟩, hne⟩ := hgate
        simp only [Option.isSome_some, true_iff]
        exact ⟨links, rfl, s, hs, a, ha, hsr, har, hne⟩
      · rename_i hgate
        simp only [Option.isSome_none, Bool.false_eq_true, false_iff]
        rintro ⟨links', hl, s, hs, a, ha, hsr, har, hne⟩
        obtain rfl := Option.some.inj hl
        apply hgate
        refine decide_eq_true ⟨s.sourceEventRef, ?_, a.sourceEventRef, ?_, hne⟩
        · exact Finset.mem_image_of_mem _ (Finset.mem_filter.mpr ⟨hs, hsr⟩)
        · exact Finset.mem_image_of_mem _ (Finset.mem_filter.mpr ⟨ha, har⟩)
  rw [hepisode]
  have hmem : ∀ ref role, (∃ r ∈ d.links, r.group = g ∧ r.sourceEventRef = ref ∧ r.role = role) ↔
      (g, ref, role) ∈ d.links.map LinkRow.key := by
    intro ref role
    simp [LinkRow.key]
  constructor
  · rintro ⟨s, hs, a, ha, hsg, hag, hsr, har, hne⟩
    obtain ⟨links, known, hl, hin⟩ := (h g s.sourceEventRef .situation).mp
      ((hmem _ _).mp ⟨s, hs, hsg, rfl, hsr⟩)
    obtain ⟨links', known', hl', hin'⟩ := (h g a.sourceEventRef .agentAct).mp
      ((hmem _ _).mp ⟨a, ha, hag, rfl, har⟩)
    rw [hl] at hl'
    obtain rfl := Option.some.inj hl'
    exact ⟨links, hl, _, hin, _, hin', rfl, rfl, hne⟩
  · rintro ⟨links, hl, s, hs, a, ha, hsr, har, hne⟩
    obtain ⟨s', hs', hsg, hsref, hsrole⟩ := (hmem s.sourceEventRef s.role).mpr
      ((h g _ _).mpr ⟨links, s.known, hl, hs⟩)
    obtain ⟨a', ha', hag, haref, harole⟩ := (hmem a.sourceEventRef a.role).mpr
      ((h g _ _).mpr ⟨links, a.known, hl, ha⟩)
    exact ⟨s', hs', a', ha', hsg, hag, hsrole.trans hsr, harole.trans har, by rw [hsref, haref]; exact hne⟩

/-- The tables hold what the ledger holds. -/
structure Mirrors (store : Store) (l : Ledger) (d : Db) : Prop where
  sources : ∀ k event, l.events k = some event ↔ ∃ r ∈ d.sources, r.key = k ∧ r.event = event
  links : SameLinks l d
  episodes : ∀ g, hasEpisode g d = (l.episode store.hashFields g).isSome
  refs : ∀ e ∈ d.episodes, e.ref = store.episodeRef e.group

theorem mirrors_new (store : Store) : Mirrors store Ledger.new {} where
  sources := fun k event => by simp [Ledger.new]
  links := fun g ref role => by simp [Ledger.new]
  episodes := fun g => rfl
  refs := fun e he => absurd he List.not_mem_nil

theorem Mirrors.congr (h : Mirrors store l d) (hs : d'.sources = d.sources) (hl : d'.links = d.links)
    (he : d'.episodes = d.episodes) : Mirrors store l d' where
  sources := by rw [hs]; exact h.sources
  links := h.links.congr (by rw [hl])
  episodes := fun g => by
    unfold hasEpisode
    rw [he]
    exact h.episodes g
  refs := by rw [he]; exact h.refs

/-- The ref an Episode is reported by, empty for none. -/
def reportedRef (e : Option Episode) : String := (e.map (·.ref)).getD ""

theorem reportedRef_episode (l : Ledger) (g : StableGroupRef) :
    reportedRef (l.episode store.hashFields g) =
      if (l.episode store.hashFields g).isSome then store.episodeRef g else "" := by
  cases he : l.episode store.hashFields g with
  | none => rfl
  | some e =>
    cases hl : l.groups g with
    | none => simp [Ledger.episode, hl] at he
    | some links =>
      rw [Ledger.mem_episode_links hl he]
      rfl

theorem Mirrors.findEpisode (h : Mirrors store l d) (g : StableGroupRef) :
    findEpisode g d = reportedRef (l.episode store.hashFields g) := by
  rw [reportedRef_episode, ← h.episodes g]
  unfold ChoraMem.findEpisode findEpisodeRow
  cases hf : d.episodes.find? fun e => decide (e.group = g) with
  | none =>
    have hno := List.find?_eq_none.mp hf
    have hhas : hasEpisode g d = false := by
      unfold hasEpisode
      rw [List.any_eq_false]
      exact hno
    rw [hhas]
    rfl
  | some e =>
    have hg := List.find?_some hf
    have hmem := List.mem_of_find?_eq_some hf
    have hhas : hasEpisode g d = true := List.any_eq_true.mpr ⟨e, hmem, hg⟩
    rw [hhas, if_pos rfl, Option.map_some, Option.getD_some, h.refs e hmem, of_decide_eq_true hg]

/-! ## A link -/

theorem append_of_mem {links : Finset SourceLink} (hl : l.groups g = some links) (hin : link ∈ links) :
    l.append g link = l := by
  have hgroups : (l.append g link).groups = l.groups := by
    funext g'
    rw [Ledger.append_groups]
    by_cases hg : g' = g
    · subst hg
      rw [if_pos rfl, hl, Option.getD_some, Finset.insert_eq_of_mem hin]
    · rw [if_neg hg]
  cases l
  simp only [Ledger.append] at hgroups ⊢
  rw [hgroups]

theorem append_episode_of_ne {g' : StableGroupRef} (hg : g' ≠ g) (hashFields : List String → String) :
    (l.append g link).episode hashFields g' = l.episode hashFields g' := by
  unfold Ledger.episode
  rw [Ledger.append_groups, if_neg hg]

/-- A new link in the tables, with the Episode it may make. -/
theorem Mirrors.appended (h : Mirrors store l d) (hs : d'.sources = d.sources)
    (hl : SameLinks (l.append g link) d') (hothers : ∀ g', g' ≠ g → hasEpisode g' d' = hasEpisode g' d)
    (hg : hasEpisode g d' = ((l.append g link).episode store.hashFields g).isSome)
    (hrefs : ∀ e ∈ d'.episodes, e.ref = store.episodeRef e.group) :
    Mirrors store (l.append g link) d' where
  sources := by rw [hs]; exact h.sources
  links := hl
  episodes := fun g' => by
    by_cases hne : g' = g
    · subst hne
      exact hg
    · rw [hothers g' hne, h.episodes g', append_episode_of_ne hne]
  refs := hrefs

theorem episodeLinkExists_iff {ref : String} {role : SourceRole} :
    episodeLinkExists g ref role d = true ↔ (g, ref, role) ∈ d.links.map LinkRow.key := by
  simp [episodeLinkExists, LinkRow.key, and_assoc]

/-- The row of a link, inserted or there already. -/
theorem SameLinks.newLink (h : SameLinks l d) {row : LinkRow}
    (hrow : row.key = (g, link.sourceEventRef, link.role)) :
    SameLinks (l.append g link) (applyAll d (newLink row d)) := by
  unfold ChoraMem.newLink
  split
  · rename_i hin
    obtain ⟨x, hx, hkey⟩ := List.any_eq_true.mp hin
    have hmem : (g, link.sourceEventRef, link.role) ∈ d.links.map LinkRow.key := by
      rw [← hrow, ← of_decide_eq_true hkey]
      exact List.mem_map_of_mem hx
    obtain ⟨links, known, hl, hin⟩ := (h g link.sourceEventRef link.role).mp hmem
    rw [append_of_mem hl hin]
    exact h
  · exact h.append hrow

theorem newLink_tables (row : LinkRow) (d : Db) :
    (applyAll d (newLink row d)).sources = d.sources ∧
      (applyAll d (newLink row d)).episodes = d.episodes ∧
      (applyAll d (newLink row d)).requests = d.requests ∧
      (applyAll d (newLink row d)).jobs = d.jobs := by
  unfold newLink
  split <;> exact ⟨rfl, rfl, rfl, rfl⟩

/-- What an append ends with: it is refused as the ledger refuses it, or the relation
holds of the ledger with the link. -/
def Linked (store : Store) (l : Ledger) (g : StableGroupRef) (link : SourceLink) (d : Db)
    (r : String × Bool) (d' : Db) : Prop :=
  l.sealedAgainst store.hashFields g link = false ∧
    r.1 = reportedRef ((l.append g link).episode store.hashFields g) ∧
    Mirrors store (l.append g link) d' ∧ d'.requests = d.requests ∧ d'.jobs = d.jobs

/-- A group whose links open the gate gets its Episode. -/
theorem wp_materialize (hrefs : ∀ g g', store.episodeRef g = store.episodeRef g' → g = g')
    (h : Mirrors store l d) (hnone : l.episode store.hashFields g = none)
    (hl : SameLinks (l.append g link) d') (hs : d'.sources = d.sources)
    (he : d'.episodes = d.episodes) (hr : d'.requests = d.requests) (hj : d'.jobs = d.jobs)
    (hopen : l.sealedAgainst store.hashFields g link = false) (linkChanged : Bool) :
    wp (store.materialize g linkChanged) (Linked store l g link d) (fun _ => False) d' := by
  have hhas : hasEpisode g d' = false := by
    unfold hasEpisode
    rw [he]
    have := h.episodes g
    rw [hnone] at this
    exact this
  have hothers : ∀ g', hasEpisode g' d' = hasEpisode g' d := fun g' => by
    unfold hasEpisode
    rw [he]
  simp only [Store.materialize]
  rw [wp_select, hl.gate store.hashFields g]
  cases hgate : ((l.append g link).episode store.hashFields g).isSome with
  | false =>
    simp only [Bool.not_false, if_true]
    refine ⟨hopen, ?_, ?_, hr, hj⟩
    · rw [reportedRef_episode, hgate]
      rfl
    · exact h.appended hs hl (fun g' _ => hothers g') (by rw [hhas, hgate]) (by rw [he]; exact h.refs)
  | true =>
    simp only [Bool.not_true, Bool.false_eq_true, if_false]
    have htaken : episodeRefTaken (store.episodeRef g) d' = false := by
      rw [Bool.eq_false_iff]
      intro htaken
      obtain ⟨e, hmem, href⟩ := episodeRefTaken_iff.mp htaken
      rw [he] at hmem
      rw [h.refs e hmem] at href
      have hin : hasEpisode g d' = true := by
        rw [hothers g]
        exact hasEpisode_iff.mpr ⟨e, hmem, hrefs _ _ href⟩
      rw [hhas] at hin
      cases hin
    rw [wp_bind]
    unfold Store.insertEpisode
    simp only [wp, hhas, htaken, Bool.or_self, Bool.false_eq_true, if_false, Bool.not_false,
      Bool.and_false, Bool.false_and]
    rw [wp_bind]
    simp only [Store.bindEpisode]
    rw [wp_statement]
    simp only [Prog.statement, wp, apply_updateLinks, apply_updateOutcomes]
    have hrow : ∀ e, e ∈ (applyAll d' [Write.insertEpisode ⟨g, store.episodeRef g⟩]).episodes ↔
        e ∈ d'.episodes ∨ e = ⟨g, store.episodeRef g⟩ := by
      intro e
      have hfree : ∀ y ∈ d'.episodes, y.group ≠ g := fun y hy hyg => by
        have := hasEpisode_iff.mpr ⟨y, hy, hyg⟩
        rw [hhas] at this
        cases this
      change e ∈ insertRow EpisodeRow.group _ d'.episodes ↔ _
      rw [mem_insertRow]
      exact or_congr Iff.rfl ⟨And.left, fun h => ⟨h, hfree⟩⟩
    generalize hd₁ : applyAll d' [Write.insertEpisode ⟨g, store.episodeRef g⟩] = d₁ at hrow
    have hlinks : d₁.links = d'.links := by rw [← hd₁]; rfl
    have hsources : d₁.sources = d.sources := by rw [← hd₁, ← hs]; rfl
    refine ⟨hopen, ?_, ?_, ?_, ?_⟩
    · rw [reportedRef_episode, hgate, if_pos rfl]
    · refine h.appended hsources (hl.congr ?_) (fun g' hne => ?_) ?_ ?_
      · rw [← hlinks]
        refine map_key_updateRows fun r hr => ?_
        obtain ⟨x, hx, rfl⟩ := List.mem_map.mp hr
        exact ⟨x, List.mem_of_mem_filter hx, rfl⟩
      · rw [← hothers g', Bool.eq_iff_iff, hasEpisode_iff, hasEpisode_iff]
        constructor
        · rintro ⟨e, hmem, heg⟩
          rcases (hrow e).mp hmem with hmem | rfl
          · exact ⟨e, hmem, heg⟩
          · exact absurd heg.symm hne
        · rintro ⟨e, hmem, heg⟩
          exact ⟨e, (hrow e).mpr (Or.inl hmem), heg⟩
      · rw [hgate]
        exact hasEpisode_iff.mpr ⟨_, (hrow _).mpr (Or.inr rfl), rfl⟩
      · intro e hmem
        rcases (hrow e).mp hmem with hmem | rfl
        · rw [he] at hmem
          exact h.refs e hmem
        · rfl
    · rw [← hr, ← hd₁]
      rfl
    · rw [← hj, ← hd₁]
      rfl

theorem wp_appendLinkAndMaterialize
    (hrefs : ∀ g g', store.episodeRef g = store.episodeRef g' → g = g') (h : Mirrors store l d)
    {event : SourceEvent} {binding : EpisodeBinding} (hg : g = binding.group event.scope)
    (hsource : link.sourceEventRef = event.ref) (hrole : link.role = binding.role) :
    wp (store.appendLinkAndMaterialize event binding) (Linked store l g link d)
      (fun e => l.sealedAgainst store.hashFields g link = true ∧ e = ⟨.episodeSealed, "", ""⟩) d := by
  subst hg
  set g := binding.group event.scope with hgdef
  have hexists : episodeLinkExists g event.ref binding.role d = true ↔
      ∃ links, l.groups g = some links ∧ link ∈ links := by
    rw [episodeLinkExists_iff, h.links g event.ref binding.role, ← hsource, ← hrole]
    exact ⟨fun ⟨links, _, hl, hin⟩ => ⟨links, hl, hin⟩, fun ⟨links, hl, hin⟩ => ⟨links, link.known, hl, hin⟩⟩
  have hkey : ∀ ref : String, (⟨g, event.ref, binding.role, ref⟩ : LinkRow).key =
      (g, link.sourceEventRef, link.role) := fun ref => by rw [hsource, hrole]; rfl
  simp only [Store.appendLinkAndMaterialize]
  rw [wp_acquire, wp_select, ← hgdef, h.findEpisode g, reportedRef_episode]
  cases he : l.episode store.hashFields g with
  | none =>
    have hopen : l.sealedAgainst store.hashFields g link = false := by
      unfold Ledger.sealedAgainst
      cases hl : l.groups g with
      | none => rfl
      | some links =>
        rw [Ledger.episode, hl, Option.bind_some] at he
        simp [he]
    simp only [Option.isSome_none, Bool.false_eq_true, if_false, alreadyLinked, bne_self_eq_false,
      wp_bind, wp, Bool.false_and, appendLink, Prog.statement]
    obtain ⟨hs, hep, hr, hj⟩ := newLink_tables ⟨g, event.ref, binding.role, ""⟩ d
    exact (wp_materialize hrefs h he (h.links.newLink (hkey "")) hs hep hr hj hopen _).mono
      (fun _ _ hq => hq) fun _ hf => hf.elim
  | some e =>
    have hne : store.episodeRef g ≠ "" := store.episodeRef_ne g
    have hbne : (store.episodeRef g != "") = true := by simpa using hne
    simp only [Option.isSome_some, if_true, alreadyLinked, hbne, Bool.true_and]
    rw [wp_select]
    split
    · rename_i hin
      obtain ⟨links, hl, hin⟩ := hexists.mp hin
      have hopen : l.sealedAgainst store.hashFields g link = false := by
        simp [Ledger.sealedAgainst, hl, hin]
      refine ⟨hopen, ?_, ?_, rfl, rfl⟩
      · rw [append_of_mem hl hin, reportedRef_episode, he]
        rfl
      · rw [append_of_mem hl hin]
        exact h
    · rename_i hno
      have hsealed : l.sealedAgainst store.hashFields g link = (binding.role != .outcome) := by
        cases hl : l.groups g with
        | none => simp [Ledger.episode, hl] at he
        | some links =>
          have hnot : link ∉ links := fun hin => hno (hexists.mpr ⟨links, hl, hin⟩)
          rw [Ledger.episode, hl, Option.bind_some] at he
          simp [Ledger.sealedAgainst, hl, hnot, he, hrole]
      split
      · rename_i hrefuse
        exact ⟨hsealed.trans hrefuse, rfl⟩
      · rename_i htake
        have hopen : l.sealedAgainst store.hashFields g link = false := by
          rw [hsealed]
          simpa using htake
        obtain ⟨hs, hep, hr, hj⟩ := newLink_tables ⟨g, event.ref, binding.role, store.episodeRef g⟩ d
        have hlinks := h.links.newLink (hkey (store.episodeRef g))
        have hhas : ∀ g', hasEpisode g' (applyAll d
            (newLink ⟨g, event.ref, binding.role, store.episodeRef g⟩ d)) = hasEpisode g' d :=
          fun g' => by
            unfold hasEpisode
            rw [hep]
        have hstill : ((l.append g link).episode store.hashFields g).isSome = true := by
          cases hl : l.groups g with
          | none => simp [Ledger.episode, hl] at he
          | some links =>
            rw [Ledger.episode, hl, Option.bind_some] at he
            rw [Ledger.episode, Ledger.append_groups, if_pos rfl, hl, Option.bind_some,
              Option.getD_some]
            exact Ledger.isSome_snapshot_mono (Finset.subset_insert link links) (by rw [he]; rfl)
        simp only [wp_bind, appendLink, Prog.statement, wp]
        refine ⟨hopen, ?_, ?_, hr, hj⟩
        · rw [reportedRef_episode, hstill, if_pos rfl]
        · refine h.appended hs hlinks (fun g' _ => hhas g') ?_ (by rw [hep]; exact h.refs)
          rw [hhas g, h.episodes g, he, hstill]
          rfl

/-! ## A source event -/

theorem Mirrors.event (h : Mirrors store l d) {r : SourceRow} (hr : r ∈ d.sources) :
    l.events r.key = some r.event :=
  (h.sources _ _).mpr ⟨r, hr, rfl, rfl⟩

theorem wp_admitSource (h : Mirrors store l d) (env : Ambient) (c : Command) :
    wp (Store.admitSource env c.event)
      (fun _ d' => (l.events c.key).any (· != c.event) = false ∧ Mirrors store (l.admitEvent c) d' ∧
        d'.requests = d.requests ∧ d'.jobs = d.jobs)
      (fun e => (l.events c.key).any (· != c.event) = true ∧
        e = ⟨.sourceEventConflict, c.event.ref, ""⟩) d := by
  have hadmit : ∀ d₁ : Db, (∀ k event, (l.admitEvent c).events k = some event ↔
      ∃ r ∈ d₁.sources, r.key = k ∧ r.event = event) → d₁.links = d.links → d₁.episodes = d.episodes →
      Mirrors store (l.admitEvent c) d₁ := by
    intro d₁ hsources hl he
    have hgroups := Ledger.admit_groups l c
    refine ⟨hsources, fun g ref role => ?_, fun g => ?_, by rw [he]; exact h.refs⟩
    · rw [hl, hgroups]
      exact h.links g ref role
    · unfold hasEpisode Ledger.episode
      rw [he, hgroups]
      exact h.episodes g
  simp only [Store.admitSource]
  rw [wp_statement]
  cases hany : d.sources.any
      (fun r => decide (r.key = (⟨c.event, env.admissionOrder⟩ : SourceRow).key)) with
  | false =>
    have hnone : l.events c.key = none := by
      cases he : l.events c.key with
      | none => rfl
      | some event =>
        obtain ⟨r, hr, hkey, _⟩ := (h.sources _ _).mp he
        have := List.any_eq_false.mp hany r hr
        exact absurd (decide_eq_true hkey) this
    have hfree : ∀ y ∈ d.sources, y.key ≠ c.key := fun y hy hkey =>
      List.any_eq_false.mp hany y hy (decide_eq_true hkey)
    simp only [Bool.not_false, if_true, Bool.false_eq_true, if_false]
    refine ⟨by rw [hnone]; rfl, hadmit _ (fun k event => ?_) rfl rfl, rfl, rfl⟩
    change _ ↔ ∃ r ∈ insertRow SourceRow.key ⟨c.event, env.admissionOrder⟩ d.sources, _
    rw [Ledger.admit_events, hnone, Option.getD_none]
    by_cases hk : k = c.key
    · rw [if_pos hk]
      constructor
      · intro hevent
        exact ⟨⟨c.event, env.admissionOrder⟩, mem_insertRow.mpr (Or.inr ⟨rfl, hfree⟩), hk.symm,
          Option.some.inj hevent⟩
      · rintro ⟨r, hr, hkey, hevent⟩
        rcases mem_insertRow.mp hr with hr | ⟨rfl, _⟩
        · exact absurd (hkey.trans hk) (hfree r hr)
        · rw [← hevent]
    · rw [if_neg hk, h.sources k event]
      constructor
      · rintro ⟨r, hr, hrest⟩
        exact ⟨r, mem_insertRow_of_mem hr, hrest⟩
      · rintro ⟨r, hr, hkey, hevent⟩
        rcases mem_insertRow.mp hr with hr | ⟨rfl, _⟩
        · exact ⟨r, hr, hkey, hevent⟩
        · exact absurd hkey.symm hk
  | true =>
    simp only [Bool.not_true, Bool.false_eq_true, if_false, if_true, applyAll_nil]
    rw [wp_select]
    cases hfind : d.sources.find?
        (fun r => decide (r.key = (⟨c.event, env.admissionOrder⟩ : SourceRow).key)) with
    | none =>
      obtain ⟨r, hr, hkey⟩ := List.any_eq_true.mp hany
      exact absurd hkey (List.find?_eq_none.mp hfind r hr)
    | some r =>
      have hkey : r.key = c.key := by
        have := List.find?_some hfind
        exact of_decide_eq_true this
      have hevent := h.event (List.mem_of_find?_eq_some hfind)
      rw [hkey] at hevent
      have hscope : r.event.scope = c.event.scope := congrArg Prod.fst hkey
      have href : r.event.ref = c.event.ref := congrArg Prod.snd hkey
      have hsame : (r.event != c.event) = (r.event.actorKind != c.event.actorKind ||
          r.event.actorRef != c.event.actorRef || r.event.text != c.event.text ||
          r.event.constitution != c.event.constitution) := by
        generalize r.event = x at hscope href
        generalize c.event = y at hscope href
        cases x
        cases y
        simp only at hscope href
        subst hscope href
        rw [Bool.eq_iff_iff]
        simp [SourceEvent.mk.injEq]
        tauto
      simp only [ ← hsame, hevent, Option.any_some]
      cases hne : r.event != c.event with
      | true =>
        rw [if_pos rfl]
        exact ⟨rfl, rfl⟩
      | false =>
        rw [if_neg (by simp)]
        have hadmitted : l.admitEvent c = l := by
          unfold Ledger.admitEvent
          rw [hevent]
        refine ⟨rfl, ?_, rfl, rfl⟩
        rw [hadmitted]
        exact h

/-! ## A call -/

/-- The link of a valid command. -/
theorem link_of_valid {c : Command} (h : validate c.event c.binding = .ok ()) :
    (completeBinding c.binding = false ∧ c.link = none) ∨
      (completeBinding c.binding = true ∧ ∃ known, c.link =
        some (c.binding.group c.event.scope, ⟨c.event.ref, c.binding.role, known⟩)) := by
  obtain ⟨_, g, hg⟩ := admitted_of_validate h
  unfold Command.link completeBinding
  rw [hg]
  rcases groupOf_ok hg with ⟨hempty, rfl⟩ | ⟨hrun, hgroup, hrole, rfl⟩
  · refine Or.inl ⟨?_, rfl⟩
    rcases hempty with hempty | hempty <;> simp [hempty]
  · have hr := ne_empty_of_validStableRef hrun
    have hs := ne_empty_of_validStableRef hgroup
    refine Or.inr ⟨by simp [hr, hs], hrole, ?_⟩
    simp only [hrole, dif_pos]
    rfl

theorem SourceRole.text_ne_empty {r : SourceRole} (h : validRole r = true) : r.text ≠ "" := by
  cases r with
  | other raw unknown => cases h
  | _ => decide

/-- Rows of a job or of the outbox. -/
def Write.Queued : Write → Prop
  | .insertJob _ | .updateJob _ | .insertIndexOperation _ => True
  | _ => False

/-- What the queues do not touch. -/
structure SameIntake (d d' : Db) : Prop where
  sources : d'.sources = d.sources
  episodes : d'.episodes = d.episodes
  links : d'.links = d.links
  requests : d'.requests = d.requests

theorem SameIntake.apply (h : SameIntake d d') {w : Write} (hw : w.Queued) :
    SameIntake d (Journal.apply d' w) := by
  obtain ⟨hs, he, hl, hr⟩ := h
  cases w <;> first | exact absurd hw id | exact ⟨hs, he, hl, hr⟩

/-- What follows a changed Episode touches the queues alone, and does not fail. -/
theorem wp_enqueueObserved {env : Ambient} {event : SourceEvent} {role : SourceRole}
    (hfresh : ∀ j ∈ d.jobs, j.jobRef ≠ env.jobRef) {episodeRef : String} (hne : episodeRef ≠ "")
    (hrole : validRole role = true) (href : event.ref ≠ "") :
    wp (store.enqueueEpisodeState env event.scope episodeRef >>= fun _ =>
        store.enqueueEpisodeProjection event.scope episodeRef role event.ref >>= fun _ => .ret episodeRef)
      (fun ref d' => ref = episodeRef ∧ SameIntake d d' ∧ JobsFrom env.jobRef d d')
      (fun _ => False) d := by
  have hstate : wp (store.enqueueEpisodeState env event.scope episodeRef)
      (fun _ d' => JobsFrom env.jobRef d d' ∧ SameIntake d d') (fun _ => False) d := by
    refine (wp_enqueueEpisodeState hfresh).and (wp_of_emits (J := SameIntake d) (P := Write.Queued)
      (emits_enqueueEpisodeState store env event.scope episodeRef (fun _ => trivial) fun _ => trivial)
      (fun d' w h hw => h.apply hw) ⟨rfl, rfl, rfl, rfl⟩)
  rw [wp_bind]
  refine hstate.conseq fun _ d₁ ⟨hjobs, hsame⟩ => ?_
  rw [wp_bind]
  have hcause : ∀ f ∈ ["typed-link", role.text, event.ref], f ≠ "" := by
    intro f hf
    simp only [List.mem_cons, List.not_mem_nil, or_false] at hf
    rcases hf with rfl | rfl | rfl
    · decide
    · exact SourceRole.text_ne_empty hrole
    · exact href
  have hproject : wp (store.enqueueEpisodeProjection event.scope episodeRef role event.ref)
      (fun _ d' => True ∧ SameIntake d₁ d' ∧ d'.jobs = d₁.jobs) (fun _ => False) d₁ := by
    refine (wp_enqueueMemoryIndexOperation hne hne (by simp) hcause).and
      (wp_of_emits (J := fun d' => SameIntake d₁ d' ∧ d'.jobs = d₁.jobs)
        (P := fun w => ∃ r, w = .insertIndexOperation r)
        (emits_enqueueMemoryIndexOperation store .upsert .episode episodeRef _ _ _ fun r => ⟨r, rfl⟩)
        (fun d' w h hw => ?_) ⟨⟨rfl, rfl, rfl, rfl⟩, rfl⟩)
    obtain ⟨r, rfl⟩ := hw
    exact ⟨h.1.apply trivial, h.2⟩
  refine hproject.conseq fun _ d₂ ⟨_, hsame', hjobs'⟩ => ?_
  refine ⟨rfl, ⟨hsame'.sources.trans hsame.sources, hsame'.episodes.trans hsame.episodes,
    hsame'.links.trans hsame.links, hsame'.requests.trans hsame.requests⟩, fun j hj => ?_⟩
  rw [hjobs'] at hj
  exact hjobs j hj

/-- The row of a request that ends with this receipt. -/
def requestRow (store : Store) (key : String) (c : Command) (episodeRef : String) : RequestRow :=
  { tenantRef := c.event.scope.tenantRef, idempotencyKey := key,
    requestHash := store.requestHash c.event c.binding, sourceEventRef := c.event.ref,
    episodeRef := episodeRef }

theorem wp_bindObserved (hrefs : ∀ g g', store.episodeRef g = store.episodeRef g' → g = g')
    {l₀ : Ledger} {c : Command} (h : Mirrors store (l₀.admitEvent c) d)
    (hvalid : validate c.event c.binding = .ok ()) (hsame : (l₀.events c.key).any (· != c.event) = false)
    {env : Ambient} (hfresh : ∀ j ∈ d.jobs, j.jobRef ≠ env.jobRef) :
    wp (store.bindObserved env c.event c.binding)
      (fun ref d' => ∃ r, (l₀.observe store.hashFields c).1 = .ok r ∧ ref = reportedRef r ∧
        Mirrors store (l₀.observe store.hashFields c).2 d' ∧ d'.requests = d.requests ∧
        JobsFrom env.jobRef d d')
      (fun e => (l₀.observe store.hashFields c).1 = .error e) d := by
  have hunbound : c.link = none → l₀.observe store.hashFields c = (.ok none, l₀.admitEvent c) := by
    intro hlink
    unfold Ledger.observe
    rw [hvalid, hlink]
    simp [hsame]
  have hbound : ∀ g link, c.link = some (g, link) → l₀.observe store.hashFields c =
      if l₀.sealedAgainst store.hashFields g link then (.error ⟨.episodeSealed, "", ""⟩, l₀)
      else (.ok (((l₀.admitEvent c).append g link).episode store.hashFields g),
        (l₀.admitEvent c).append g link) := by
    intro g link hlink
    unfold Ledger.observe
    rw [hvalid, hlink]
    simp [hsame]
  unfold Store.bindObserved
  rcases link_of_valid hvalid with ⟨hincomplete, hlink⟩ | ⟨hcomplete, known, hlink⟩
  · rw [hunbound hlink, if_neg (by simp [hincomplete])]
    exact ⟨none, rfl, rfl, h, rfl, JobsFrom.refl _ d⟩
  · rw [hbound _ _ hlink, if_pos hcomplete]
    have hsealed : (l₀.admitEvent c).sealedAgainst store.hashFields (c.binding.group c.event.scope)
        ⟨c.event.ref, c.binding.role, known⟩ = l₀.sealedAgainst store.hashFields
          (c.binding.group c.event.scope) ⟨c.event.ref, c.binding.role, known⟩ := by
      unfold Ledger.sealedAgainst
      rw [Ledger.admit_groups]
    rw [wp_bind]
    have hrun : wp (store.appendLinkAndMaterialize c.event c.binding)
        (Linked store (l₀.admitEvent c) (c.binding.group c.event.scope)
          ⟨c.event.ref, c.binding.role, known⟩ d) _ d :=
      wp_appendLinkAndMaterialize hrefs h rfl rfl rfl
    refine hrun.mono (fun r d₁ hlinked => ?_) fun e he => ?_
    · obtain ⟨hopen, href, hmirrors, hreq, hjob⟩ := hlinked
      rw [hsealed] at hopen
      have hevent := ne_empty_of_validStableRef (admitted_of_validate hvalid).1.ref
      simp only [hopen, Bool.false_eq_true, if_false]
      split
      · rename_i hchanged
        simp only [Bool.and_eq_true, bne_iff_ne] at hchanged
        have hfresh₁ : ∀ j ∈ d₁.jobs, j.jobRef ≠ env.jobRef := by
          rw [hjob]
          exact hfresh
        refine (wp_enqueueObserved hfresh₁ hchanged.2 known hevent).mono (fun ref d₂ hq => ?_)
          fun _ hf => hf.elim
        obtain ⟨rfl, hsame', hjobs⟩ := hq
        refine ⟨_, rfl, href, hmirrors.congr hsame'.sources hsame'.links hsame'.episodes,
          hsame'.requests.trans hreq, fun j hj => ?_⟩
        have := hjobs j hj
        rwa [hjob] at this
      · refine ⟨_, rfl, href, hmirrors, hreq, fun j hj => ?_⟩
        rw [hjob] at hj
        exact Or.inr ⟨j, hj, rfl⟩
    · obtain ⟨hrefuse, rfl⟩ := he
      rw [hsealed] at hrefuse
      simp only [hrefuse, if_true]

/-- The last row takes the Episode ref. -/
theorem freeze_last {rows : List RequestRow} {row : RequestRow} (row' : RequestRow)
    (hfree : ∀ r ∈ rows, r.key ≠ row.key) (hkey : row'.key = row.key) :
    updateRow RequestRow.key row' (rows ++ [row]) = rows ++ [row'] := by
  unfold updateRow
  rw [if_pos ⟨row, List.mem_append_right _ List.mem_cons_self, hkey.symm⟩, List.map_append,
    List.map_singleton, if_pos hkey.symm]
  have hsame : rows.map (fun x => if x.key = row'.key then row' else x) = rows := by
    conv_rhs => rw [← List.map_id rows]
    refine List.map_congr_left fun x hx => ?_
    rw [if_neg (by rw [hkey]; exact hfree x hx)]
    rfl
  rw [hsame]

theorem insert_last {rows : List RequestRow} (row : RequestRow) (hfree : ∀ r ∈ rows, r.key ≠ row.key) :
    insertRow RequestRow.key row rows = rows ++ [row] := by
  unfold insertRow
  rw [if_neg]
  rintro ⟨x, hx, hkey⟩
  exact hfree x hx hkey

/-- A fresh key is claimed. -/
theorem wp_claimRequest {key : String} {c : Command}
    (hfree : ∀ r ∈ d.requests, r.key ≠ (c.event.scope.tenantRef, key)) :
    wp (store.claimRequest key c.event c.binding)
      (fun claim d' => claim = (⟨c.event.ref, ""⟩, true) ∧
        d' = { d with requests := d.requests ++ [requestRow store key c ""] })
      (fun _ => False) d := by
  have hno : (d.requests.any fun r => decide (r.key = (requestRow store key c "").key)) = false := by
    rw [List.any_eq_false]
    exact fun r hr hkey => hfree r hr (of_decide_eq_true hkey)
  have hclaim : applyAll d (if (d.requests.any fun r =>
      decide (r.key = (requestRow store key c "").key)) = true then []
      else [Write.insertRequest (requestRow store key c "")]) =
      { d with requests := d.requests ++ [requestRow store key c ""] } := by
    rw [hno]
    simp only [Bool.false_eq_true, if_false, applyAll_cons, applyAll_nil]
    change { d with requests := insertRow RequestRow.key _ d.requests } = _
    rw [insert_last (requestRow store key c "") hfree]
  simp only [Store.claimRequest]
  rw [wp_statement]
  change wp _ _ _ (applyAll d (if (d.requests.any fun r =>
      decide (r.key = (requestRow store key c "").key)) = true then []
      else [Write.insertRequest (requestRow store key c "")]))
  rw [hclaim]
  split
  · exact ⟨rfl, rfl⟩
  · rename_i htaken
    exact absurd (congrArg (! ·) hno) htaken

/-- A call with a fresh key ends as the ledger does. -/
theorem wp_observe (hrefs : ∀ g g', store.episodeRef g = store.episodeRef g' → g = g')
    (h : Mirrors store l d) {env : Ambient} {key : String} {c : Command}
    (hkey : validStableRef key = true)
    (hfree : ∀ r ∈ d.requests, r.key ≠ (c.event.scope.tenantRef, key))
    (hfresh : ∀ j ∈ d.jobs, j.jobRef ≠ env.jobRef) :
    wp (store.observe env key c.event c.binding)
      (fun receipt d' => ∃ r, (l.observe store.hashFields c).1 = .ok r ∧
        receipt = ⟨c.event.ref, reportedRef r⟩ ∧ Mirrors store (l.observe store.hashFields c).2 d' ∧
        d'.requests = d.requests ++ [requestRow store key c (reportedRef r)] ∧
        JobsFrom env.jobRef d d')
      (fun e => (l.observe store.hashFields c).1 = .error e) d := by
  unfold Store.observe
  rw [if_neg (by simp [hkey])]
  split
  · rename_i e hinvalid
    simp only [wp, Ledger.observe, hinvalid]
  rename_i hvalid
  have hfree₀ : ∀ r ∈ d.requests, r.key ≠ (requestRow store key c "").key := hfree
  rw [wp_bind]
  refine (wp_claimRequest hfree).mono (fun claim d₁ hclaim => ?_) fun _ hf => hf.elim
  obtain ⟨rfl, hd₁⟩ := hclaim
  simp only [Bool.not_true, Bool.false_eq_true, if_false]
  have h₁ : Mirrors store l d₁ := by
    rw [hd₁]
    exact h.congr rfl rfl rfl
  have hlock : ∀ Q F, wp (store.lockActedRun c.event.scope c.binding) Q F d₁ ↔ Q () d₁ := by
    intro Q F
    unfold Store.lockActedRun
    split <;> exact Iff.rfl
  rw [wp_bind, hlock, wp_bind]
  refine (wp_admitSource h₁ env c).mono (fun _ d₂ hadmitted => ?_) fun e he => ?_
  · obtain ⟨hsame, h₂, hreq, hjob⟩ := hadmitted
    have hfresh₂ : ∀ j ∈ d₂.jobs, j.jobRef ≠ env.jobRef := by
      rw [hjob, hd₁]
      exact hfresh
    rw [wp_bind]
    refine (wp_bindObserved hrefs h₂ hvalid hsame hfresh₂).conseq fun ref d₃ hbound => ?_
    obtain ⟨r, hok, rfl, h₃, hreq₃, hjobs₃⟩ := hbound
    have hrequests : d₃.requests = d.requests ++ [requestRow store key c ""] := by
      rw [hreq₃, hreq, hd₁]
    have hfilter : d₃.requests.filter (fun x => decide (x.key = (c.event.scope.tenantRef, key))) =
        [requestRow store key c ""] := by
      rw [hrequests, List.filter_append]
      have hnone : d.requests.filter (fun x => decide (x.key = (c.event.scope.tenantRef, key))) = [] :=
        List.filter_eq_nil_iff.mpr fun x hx => by simpa using hfree x hx
      rw [hnone, List.nil_append]
      simp [RequestRow.key, requestRow]
    unfold Store.freezeObserveReceipt
    rw [wp_statement, hfilter]
    have hlast := freeze_last (requestRow store key c (reportedRef r)) hfree₀ rfl
    refine ⟨r, hok, rfl, h₃.congr rfl rfl rfl, ?_, fun j hj => ?_⟩
    · change updateRow RequestRow.key (requestRow store key c (reportedRef r)) d₃.requests = _
      rw [hrequests, hlast]
    · have hj' := hjobs₃ j hj
      rwa [hjob, hd₁] at hj'
  · obtain ⟨hconflict, rfl⟩ := he
    unfold Ledger.observe
    simp only [hvalid, hconflict, if_true]

/-! ## A committed key -/

theorem SourceRole.text_injective {r r' : SourceRole} (h : r.text = r'.text) : r = r' := by
  cases r <;> cases r' <;> simp only [SourceRole.text] at h <;> first
    | rfl
    | exact absurd h (by decide)
    | (subst h; rename_i unknown; exact absurd unknown (by decide))
    | (subst h; rfl)

/-- A digest of a request is of that request alone. -/
theorem requestHash_injective (hhash : Collisionless store) {c c' : Command}
    (h : store.requestHash c.event c.binding = store.requestHash c'.event c'.binding) : c = c' := by
  have hfields := hhash _ _ h
  obtain ⟨⟨ref, ⟨kind, tenant, agent, relationship, session⟩, actor, actorRef, text, constitution⟩,
    ⟨run, group, role⟩⟩ := c
  obtain ⟨⟨ref', ⟨kind', tenant', agent', relationship', session'⟩, actor', actorRef', text',
    constitution'⟩, ⟨run', group', role'⟩⟩ := c'
  simp only [List.cons_append, List.nil_append, List.cons.injEq] at hfields
  obtain ⟨_, rfl, hkind, rfl, rfl, rfl, rfl, hactor, rfl, rfl, rfl, rfl, hrole, hconstitution⟩ := hfields
  obtain rfl := ScopeKind.text_injective hkind
  obtain rfl := ActorKind.text_injective hactor
  obtain rfl := SourceRole.text_injective hrole
  have hsame : constitution = constitution' := by
    unfold Store.constitutionFields at hconstitution
    split at hconstitution
    · rename_i hc
      split at hconstitution
      · rename_i hc'
        rw [hc, hc']
      · cases hconstitution
    · split at hconstitution
      · cases hconstitution
      · cases constitution
        cases constitution'
        simp_all
  rw [hsame]

theorem find_request (hkeys : KeysUnique RequestRow.key d.requests) {r : RequestRow}
    (hr : r ∈ d.requests) : d.requests.find? (fun x => decide (x.key = r.key)) = some r := by
  cases hf : d.requests.find? (fun x => decide (x.key = r.key)) with
  | none => exact absurd (decide_eq_true rfl) (List.find?_eq_none.mp hf r hr)
  | some x =>
    have hx := List.find?_some hf
    rw [hkeys.eq (List.mem_of_find?_eq_some hf) hr (of_decide_eq_true hx)]

/-- A valid call with a committed key reads its receipt, or conflicts. -/
theorem run_observe_committed (hkeys : KeysUnique RequestRow.key d.requests) {r : RequestRow}
    (hr : r ∈ d.requests) (env : Ambient) {key : String} {c : Command}
    (hkey : r.key = (c.event.scope.tenantRef, key)) (hvalidKey : validStableRef key = true)
    (hvalid : validate c.event c.binding = .ok ()) :
    run (store.observe env key c.event c.binding) d =
      if r.requestHash = store.requestHash c.event c.binding then
        .ok (⟨r.sourceEventRef, r.episodeRef⟩, d)
      else .error ⟨.idempotencyConflict, key, ""⟩ := by
  have hfind := find_request hkeys hr
  have hany : (d.requests.any fun x => decide (x.key = r.key)) = true :=
    List.any_eq_true.mpr ⟨r, hr, decide_eq_true rfl⟩
  rw [hkey] at hfind hany
  have hwp : wp (store.claimRequest key c.event c.binding)
      (fun claim d' => r.requestHash = store.requestHash c.event c.binding ∧
        claim = (⟨r.sourceEventRef, r.episodeRef⟩, false) ∧ d' = d)
      (fun e => r.requestHash ≠ store.requestHash c.event c.binding ∧
        e = ⟨.idempotencyConflict, key, ""⟩) d := by
    simp only [Store.claimRequest]
    rw [wp_statement]
    have hwrites : (if (d.requests.any fun x => decide (x.key = (requestRow store key c "").key)) = true
        then [] else [Write.insertRequest (requestRow store key c "")]) = [] := if_pos hany
    change wp _ _ _ (applyAll d (if (d.requests.any fun x =>
        decide (x.key = (requestRow store key c "").key)) = true then []
        else [Write.insertRequest (requestRow store key c "")]))
    rw [hwrites, applyAll_nil]
    split
    · rename_i hfree
      exact absurd ((congrArg (! ·) hany).symm.trans hfree) (by decide)
    · rw [wp_select]
      have hrow : (d.requests.find? fun x => decide (x.key = (requestRow store key c "").key)) =
          some r := hfind
      erw [hrow]
      simp only
      split
      · rename_i hne
        exact ⟨by simpa using hne, rfl⟩
      · rename_i heq
        exact ⟨by simpa using heq, rfl, rfl⟩
  have hobserve : wp (store.observe env key c.event c.binding)
      (fun receipt d' => r.requestHash = store.requestHash c.event c.binding ∧
        receipt = ⟨r.sourceEventRef, r.episodeRef⟩ ∧ d' = d)
      (fun e => r.requestHash ≠ store.requestHash c.event c.binding ∧
        e = ⟨.idempotencyConflict, key, ""⟩) d := by
    unfold Store.observe
    rw [if_neg (by simp [hvalidKey]), hvalid, wp_bind]
    refine hwp.conseq fun claim d' hclaim => ?_
    obtain ⟨hsame, rfl, rfl⟩ := hclaim
    exact ⟨hsame, rfl, rfl⟩
  have hrun := wp_run.mp hobserve
  cases hres : run (store.observe env key c.event c.binding) d with
  | ok res =>
    rw [hres] at hrun
    obtain ⟨hsame, hreceipt, hd'⟩ := hrun
    rw [if_pos hsame, ← hreceipt, ← hd']
  | error e =>
    rw [hres] at hrun
    rw [if_neg hrun.1, hrun.2]

/-! ## Runs -/

structure ObserveCall where
  env : Ambient
  key : String
  command : Command

def ObserveCall.request (o : ObserveCall) : String × String :=
  (o.command.event.scope.tenantRef, o.key)

namespace Store

/-- The transaction of a call. -/
def observeTx (store : Store) (o : ObserveCall) : Tx ObserveReceipt :=
  store.observe o.env o.key o.command.event o.command.binding

/-- The tables after calls one after the other, from none. -/
def observed (store : Store) (calls : List ObserveCall) : Db :=
  calls.foldl (fun d o => (store.observeTx o).after d) {}

/-- The ledger after the same commands. -/
def told (store : Store) (calls : List ObserveCall) : Ledger :=
  Ledger.new.run store.hashFields (calls.map (·.command))

end Store

/-- Valid keys that are new for their tenant, and new random refs. -/
structure FreshCalls (calls : List ObserveCall) : Prop where
  valid : ∀ o ∈ calls, validStableRef o.key = true
  keys : (calls.map ObserveCall.request).Nodup
  jobs : (calls.map (·.env.jobRef)).Nodup

theorem FreshCalls.before {calls later : List ObserveCall} (h : FreshCalls (calls ++ later)) :
    FreshCalls calls where
  valid := fun o ho => h.valid o (List.mem_append_left _ ho)
  keys := by
    have := h.keys
    rw [List.map_append] at this
    exact this.of_append_left
  jobs := by
    have := h.jobs
    rw [List.map_append] at this
    exact this.of_append_left

/-- What holds after calls with fresh keys. -/
structure Kept (store : Store) (calls : List ObserveCall) (l : Ledger) (d : Db) : Prop where
  mirrors : Mirrors store l d
  requests : ∀ r ∈ d.requests, r.key ∈ calls.map ObserveCall.request
  unique : KeysUnique RequestRow.key d.requests
  jobs : ∀ j ∈ d.jobs, j.jobRef ∈ calls.map (·.env.jobRef)

/-- A call and a command end alike. -/
def Matches (c : Command) : Except Fault (ObserveReceipt × Db) → Except Fault (Option Episode) → Prop
  | .ok (receipt, _), .ok e => receipt = ⟨c.event.ref, reportedRef e⟩
  | .error e, .error e' => e = e' ∧ e.sentinel ∈
      [.invalidSourceEvent, .invalidEpisodeBinding, .sourceEventConflict, .episodeSealed]
  | _, _ => False

/-- One call with a fresh key. -/
theorem Kept.call (hrefs : ∀ g g', store.episodeRef g = store.episodeRef g' → g = g')
    {calls : List ObserveCall} (h : Kept store calls l d) {o : ObserveCall}
    (hfresh : FreshCalls (calls ++ [o])) :
    wp (store.observeTx o)
      (fun receipt d' => ∃ r, (l.observe store.hashFields o.command).1 = .ok r ∧
        receipt = ⟨o.command.event.ref, reportedRef r⟩ ∧
        d'.requests = d.requests ++ [requestRow store o.key o.command (reportedRef r)] ∧
        Kept store (calls ++ [o]) (l.observe store.hashFields o.command).2 d')
      (fun e => (l.observe store.hashFields o.command).1 = .error e) d := by
  have hkeys := hfresh.keys
  have hjobs := hfresh.jobs
  rw [List.map_append, List.map_singleton] at hkeys hjobs
  have hnew : ∀ r ∈ d.requests, r.key ≠ o.request := fun r hr heq =>
    (List.nodup_append.mp hkeys).2.2 _ (h.requests r hr) _ List.mem_cons_self heq
  have hnewJob : ∀ j ∈ d.jobs, j.jobRef ≠ o.env.jobRef := fun j hj heq =>
    (List.nodup_append.mp hjobs).2.2 _ (h.jobs j hj) _ List.mem_cons_self heq
  refine (wp_observe hrefs h.mirrors (hfresh.valid o (by simp)) hnew hnewJob).conseq
    fun receipt d' hq => ?_
  obtain ⟨r, hok, hreceipt, hmirrors, hrequests, hfrom⟩ := hq
  refine ⟨r, hok, hreceipt, hrequests, hmirrors, fun x hx => ?_, ?_, fun j hj => ?_⟩
  · rw [hrequests] at hx
    rw [List.map_append]
    rcases List.mem_append.mp hx with hx | hx
    · exact List.mem_append_left _ (h.requests x hx)
    · rw [List.mem_singleton.mp hx]
      exact List.mem_append_right _ List.mem_cons_self
  · rw [hrequests]
    exact keysUnique_append h.unique fun ⟨x, hx, heq⟩ => hnew x hx heq
  · rw [List.map_append]
    rcases hfrom j hj with hj | ⟨j', hj', heq⟩
    · exact List.mem_append_right _ (by simp [hj])
    · exact List.mem_append_left _ (heq ▸ h.jobs j' hj')

theorem Kept.more {calls : List ObserveCall} (h : Kept store calls l d) (o : ObserveCall) :
    Kept store (calls ++ [o]) l d where
  mirrors := h.mirrors
  requests := fun r hr => by
    rw [List.map_append]
    exact List.mem_append_left _ (h.requests r hr)
  unique := h.unique
  jobs := fun j hj => by
    rw [List.map_append]
    exact List.mem_append_left _ (h.jobs j hj)

theorem observed_append (store : Store) (calls : List ObserveCall) (o : ObserveCall) :
    store.observed (calls ++ [o]) = (store.observeTx o).after (store.observed calls) := by
  simp [Store.observed]

theorem told_append (store : Store) (calls : List ObserveCall) (o : ObserveCall) :
    store.told (calls ++ [o]) =
      ((store.told calls).observe store.hashFields o.command).2 := by
  simp [Store.told, Ledger.run]

theorem kept_observed (hrefs : ∀ g g', store.episodeRef g = store.episodeRef g' → g = g')
    {calls : List ObserveCall} (hcalls : FreshCalls calls) :
    Kept store calls (store.told calls) (store.observed calls) := by
  induction calls using List.reverseRecOn with
  | nil =>
    exact ⟨mirrors_new store, fun r hr => absurd hr List.not_mem_nil, List.nodup_nil,
      fun j hj => absurd hj List.not_mem_nil⟩
  | append_singleton calls o ih =>
    have hbefore := ih hcalls.before
    have hcall := wp_run.mp (hbefore.call hrefs hcalls)
    rw [observed_append, told_append]
    unfold Prog.after
    cases hrun : run (store.observeTx o) (store.observed calls) with
    | ok res =>
      rw [hrun] at hcall
      obtain ⟨r, _, _, _, hkept⟩ := hcall
      exact hkept
    | error e =>
      rw [hrun] at hcall
      rw [Ledger.observe_refused hcall]
      exact hbefore.more o

/-- A request row stays as it was committed. -/
theorem observed_requests (hrefs : ∀ g g', store.episodeRef g = store.episodeRef g' → g = g')
    {calls : List ObserveCall} (later : List ObserveCall) (hcalls : FreshCalls (calls ++ later))
    {r : RequestRow} (hr : r ∈ (store.observed calls).requests) :
    r ∈ (store.observed (calls ++ later)).requests := by
  induction later using List.reverseRecOn with
  | nil => simpa using hr
  | append_singleton later o ih =>
    rw [← List.append_assoc] at hcalls ⊢
    have hin := ih hcalls.before
    have hcall := wp_run.mp ((kept_observed hrefs hcalls.before).call hrefs hcalls)
    rw [observed_append]
    unfold Prog.after
    cases hrun : run (store.observeTx o) (store.observed (calls ++ later)) with
    | ok res =>
      rw [hrun] at hcall
      obtain ⟨e, _, _, hrequests, _⟩ := hcall
      simp only
      rw [hrequests]
      exact List.mem_append_left _ hin
    | error e => exact hin

theorem sentinel_of_observe {c : Command} {e : Fault} {hashFields : List String → String}
    (h : (l.observe hashFields c).1 = .error e) : e.sentinel ∈
      [.invalidSourceEvent, .invalidEpisodeBinding, .sourceEventConflict, .episodeSealed] := by
  unfold Ledger.observe at h
  split at h
  · rename_i hinvalid
    obtain rfl := Except.error.inj h
    rcases sentinel_of_validate hinvalid with hs | hs <;> simp [hs]
  split at h
  · rw [← Except.error.inj h]
    simp
  split at h
  · cases h
  split at h
  · rw [← Except.error.inj h]
    simp
  · cases h

/-- The store refines the ledger over every sequence of calls with fresh keys: its tables
are the ledger's entries, the next call ends as the next command does, a call that fails
changes nothing, and a committed key later reads its receipt or conflicts, unless the
call it comes with is not valid. -/
theorem observe_refines (store : Store) (hhash : Collisionless store) {calls : List ObserveCall}
    (hcalls : FreshCalls calls) :
    Mirrors store (store.told calls) (store.observed calls) ∧
    (∀ o, FreshCalls (calls ++ [o]) →
      Matches o.command (run (store.observeTx o) (store.observed calls))
        ((store.told calls).observe store.hashFields o.command).1) ∧
    (∀ o e, run (store.observeTx o) (store.observed calls) = .error e →
      (store.observeTx o).after (store.observed calls) = store.observed calls) ∧
    (∀ before o later receipt d', calls = before ++ o :: later →
      run (store.observeTx o) (store.observed before) = .ok (receipt, d') →
      ∀ again : ObserveCall, again.request = o.request →
        run (store.observeTx again) (store.observed calls) =
          match validate again.command.event again.command.binding with
          | .error e => .error e
          | .ok _ =>
            if again.command = o.command then .ok (receipt, store.observed calls)
            else .error ⟨.idempotencyConflict, o.key, ""⟩) := by
  have hrefs : ∀ g g', store.episodeRef g = store.episodeRef g' → g = g' :=
    fun g g' => episodeRef_injective hhash
  have hkept := kept_observed hrefs hcalls
  refine ⟨hkept.mirrors, fun o ho => ?_, fun o e he => ?_, ?_⟩
  · have hcall := wp_run.mp (hkept.call hrefs ho)
    cases hrun : run (store.observeTx o) (store.observed calls) with
    | ok res =>
      rw [hrun] at hcall
      obtain ⟨r, hok, hreceipt, _⟩ := hcall
      rw [hok]
      exact hreceipt
    | error e =>
      rw [hrun] at hcall
      rw [hcall]
      exact ⟨rfl, sentinel_of_observe hcall⟩
  · unfold Prog.after
    rw [he]
  · intro before o later receipt d' heq hrun again hagain
    have hsplit : calls = (before ++ [o]) ++ later := by
      rw [heq, List.append_assoc, List.singleton_append]
    rw [hsplit] at hcalls
    have hcall := wp_run.mp ((kept_observed hrefs hcalls.before.before).call hrefs hcalls.before)
    rw [hrun] at hcall
    obtain ⟨r, _, rfl, hrequests, _⟩ := hcall
    have hrow : requestRow store o.key o.command (reportedRef r) ∈ (store.observed calls).requests := by
      rw [hsplit]
      refine observed_requests hrefs later hcalls ?_
      rw [observed_append]
      unfold Prog.after
      rw [hrun]
      simp only
      rw [hrequests]
      exact List.mem_append_right _ List.mem_cons_self
    have htenant : again.command.event.scope.tenantRef = o.command.event.scope.tenantRef :=
      congrArg Prod.fst hagain
    have hkey : again.key = o.key := congrArg Prod.snd hagain
    have hvalidKey : validStableRef again.key = true := by
      rw [hkey]
      exact hcalls.valid o (by simp)
    cases hvalid : validate again.command.event again.command.binding with
    | error e =>
      unfold Store.observeTx Store.observe
      rw [if_neg (by simp [hvalidKey]), hvalid]
      rfl
    | ok u =>
      have hagainKey : (requestRow store o.key o.command (reportedRef r)).key =
          (again.command.event.scope.tenantRef, again.key) := by
        rw [htenant, hkey]
        rfl
      have hcommitted : run (store.observe again.env again.key again.command.event
          again.command.binding) (store.observed calls) = _ :=
        run_observe_committed hkept.unique hrow again.env hagainKey hvalidKey hvalid
      unfold Store.observeTx
      rw [hcommitted]
      by_cases hsame : again.command = o.command
      · rw [if_pos (by rw [hsame]; rfl), if_pos hsame]
        rfl
      · have hdiff : (requestRow store o.key o.command (reportedRef r)).requestHash ≠
            store.requestHash again.command.event again.command.binding :=
          fun h => hsame (requestHash_injective hhash h).symm
        rw [if_neg hdiff, hkey]
        simp only [if_neg hsame]

end

/-! ## A call sent again -/

def sampleAsk : ObserveCall := ⟨plainAmbient 1, "k1", ⟨sampleSituation, ⟨"run", "group", .situation⟩⟩⟩

def sampleActed : ObserveCall := ⟨plainAmbient 2, "k2", ⟨sampleAct, ⟨"run", "group", .agentAct⟩⟩⟩

/-- The key of `sampleAsk` with an event that is not valid. -/
def sampleAskAgain : ObserveCall :=
  ⟨plainAmbient 3, "k1", ⟨{ sampleSituation with text := "" }, ⟨"run", "group", .situation⟩⟩⟩

theorem observe_sentAgain_invalid :
    (∃ receipt d', run ((plainStore .postgres).observeTx sampleAsk) {} = .ok (receipt, d')) ∧
      sampleAskAgain.request = sampleAsk.request ∧ sampleAskAgain.command ≠ sampleAsk.command ∧
      run ((plainStore .postgres).observeTx sampleAskAgain)
        ((plainStore .postgres).observed [sampleAsk]) =
        .error ⟨.invalidSourceEvent, "text is required", ""⟩ := by
  refine ⟨?_, rfl, by decide, ?_⟩
  · have hok : (run ((plainStore .postgres).observeTx sampleAsk) {}).toBool = true := by
      decide
    cases hrun : run ((plainStore .postgres).observeTx sampleAsk) {} with
    | ok res => exact ⟨res.1, res.2, rfl⟩
    | error e =>
      rw [hrun] at hok
      cases hok
  · have hinvalid : validate sampleAskAgain.command.event sampleAskAgain.command.binding =
        .error ⟨.invalidSourceEvent, "text is required", ""⟩ := by decide
    unfold Store.observeTx Store.observe
    rw [if_neg (by decide), hinvalid]
    rfl

theorem freshCalls_sample : FreshCalls [sampleAsk, sampleActed] :=
  ⟨by decide, by decide, by decide⟩

theorem observe_refines_sample :
    Mirrors (plainStore .postgres) ((plainStore .postgres).told [sampleAsk, sampleActed])
      ((plainStore .postgres).observed [sampleAsk, sampleActed]) :=
  (observe_refines (plainStore .postgres) (fun _ _ => plainFields_injective) freshCalls_sample).1

end ChoraMem
