/-
Links bound among other transactions.

A transaction that appends a link holds the lock of its group, so what it found of the group
is there when it commits.  A link that it leaves bound and that was not bound before belongs
to its group, and then the link it was asked for is one of them: this is the link whose
operation is enqueued.
-/
import ChoraMem.Intake.Enqueue
import ChoraMem.World.Enqueue
import ChoraMem.World.Commit

namespace ChoraMem

open Txn

/-- What appending a link did to the links and Episodes of a store, and what it reports. -/
structure Attaches (store : Store) (g : StableGroupRef) (sourceRef : String) (role : SourceRole)
    (a : String × Bool) (x y : Db) : Prop where
  operations : y.indexOperations = x.indexOperations
  memory : memoryCauses y = memoryCauses x
  sources : y.sources = x.sources
  keys : ∀ k ∈ y.links, (∃ k₀ ∈ x.links, k₀.key = k.key) ∨ k.key = (g, sourceRef, role)
  links : ∀ k ∈ y.links, k.episodeRef ≠ "" → k ∈ x.links ∨
    (a.2 && a.1 != "") = true ∧ k.group = g ∧ k.episodeRef = store.episodeRef g
  episodes : ∀ e ∈ y.episodes, e ∈ x.episodes ∨ (a.2 && a.1 != "") = true ∧ e.group = g
  kept : x.episodes ⊆ y.episodes
  made : (a.2 && a.1 != "") = true → a.1 = store.episodeRef g ∧ Materialized g y ∧
    (⟨g, sourceRef, role, store.episodeRef g⟩ : LinkRow) ∈ y.links ∧
    ∀ k ∈ x.links, k.key = (g, sourceRef, role) → k.episodeRef = ""

/-- The rows of a materialization. -/
def Write.Bound : Write → Prop
  | .insertEpisode _ | .insertLink _ | .updateLink _ | .updateOutcome _ => True
  | _ => False

section

variable {store : Store} {g : StableGroupRef} {sourceRef : String} {role : SourceRole}
variable {d e x y : Db} {l : Local Write String}

theorem Attaches.unchanged {a : String × Bool} (ha : (a.2 && a.1 != "") = false) :
    Attaches store g sourceRef role a x x where
  operations := rfl
  memory := rfl
  sources := rfl
  keys := fun k hk => Or.inl ⟨k, hk, rfl⟩
  links := fun k hk _ => Or.inl hk
  episodes := fun e he => Or.inl he
  kept := fun _ h => h
  made := fun h => by rw [ha] at h; cases h

/-- Rows of a materialization touch neither the outbox nor Memory. -/
theorem bound_applyAll {ws : List Write} (h : ∀ w ∈ ws, w.Bound) (x : Db) :
    (applyAll x ws).indexOperations = x.indexOperations ∧
      memoryCauses (applyAll x ws) = memoryCauses x ∧ (applyAll x ws).sources = x.sources := by
  induction ws generalizing x with
  | nil => exact ⟨rfl, rfl, rfl⟩
  | cons w rest ih =>
    have hrest := ih (fun w' hw' => h w' (List.mem_cons_of_mem _ hw')) (x.apply w)
    have hw := h w List.mem_cons_self
    cases w with
    | insertEpisode r | insertLink r | updateLink r | updateOutcome r => exact hrest
    | _ => exact hw.elim

/-! ## The rows of a group -/

theorem findEpisode_locked {e : Db} (hlaw : WorldLaw store e) (hs : SameGroup g e d) :
    (Materialized g d → findEpisode g e = store.episodeRef g) ∧
      (¬Materialized g d → findEpisode g e = "") := by
  unfold findEpisode findEpisodeRow
  cases hf : e.episodes.find? fun r => decide (r.group = g) with
  | some r =>
    have hg : r.group = g := by simpa using List.find?_some hf
    have hr := List.mem_of_find?_eq_some hf
    refine ⟨fun _ => ?_, fun hno => absurd ⟨r, (hs.episodes r hg).mp hr, hg⟩ hno⟩
    show r.ref = store.episodeRef g
    rw [(hlaw.episodes r hr).1, hg]
  | none =>
    refine ⟨fun hm => ?_, fun _ => rfl⟩
    obtain ⟨r, hr, hg⟩ := hm
    exact absurd (decide_eq_true hg) (List.find?_eq_none.mp hf r ((hs.episodes r hg).mpr hr))

/-- Keys of a group's links are the same where the group is. -/
theorem SameGroup.linkKey (hs : SameGroup g e d) {key : StableGroupRef × String × SourceRole}
    (hg : key.1 = g) : (∃ k ∈ e.links, k.key = key) ↔ ∃ k ∈ d.links, k.key = key := by
  have hgroup : ∀ k : LinkRow, k.key = key → k.group = g := fun k hk =>
    (congrArg Prod.fst hk).trans hg
  constructor
  · intro h
    obtain ⟨k, hk, hkey⟩ := h
    exact ⟨k, (hs.links k (hgroup k hkey)).mp hk, hkey⟩
  · intro h
    obtain ⟨k, hk, hkey⟩ := h
    exact ⟨k, (hs.links k (hgroup k hkey)).mpr hk, hkey⟩

/-- An Outcome's link of a group that has its Episode. -/
theorem Attaches.extended (hm : Materialized g x) (hne : store.episodeRef g ≠ "")
    (hfree : ¬∃ k ∈ x.links, k.key = (g, sourceRef, role)) :
    Attaches store g sourceRef role (store.episodeRef g, true) x
      (x.apply (.insertLink ⟨g, sourceRef, role, store.episodeRef g⟩)) where
  operations := rfl
  memory := rfl
  sources := rfl
  keys := by
    intro k hk
    rcases mem_insertRow.mp hk with hk | ⟨rfl, _⟩
    · exact Or.inl ⟨k, hk, rfl⟩
    · exact Or.inr rfl
  links := by
    intro k hk _
    rcases mem_insertRow.mp hk with hk | ⟨rfl, _⟩
    · exact Or.inl hk
    · exact Or.inr ⟨by simpa using hne, rfl, rfl⟩
  episodes := fun r hr => Or.inl hr
  kept := fun _ h => h
  made := by
    intro _
    refine ⟨rfl, hm, mem_insertRow.mpr (Or.inr ⟨rfl, fun k hk hkey => hfree ⟨k, hk, hkey⟩⟩), ?_⟩
    exact fun k hk hkey => absurd ⟨k, hk, hkey⟩ hfree

/-- The rows that bind a group, once the key of a link is there. -/
theorem mem_bound_of_key {rows : List LinkRow} {t : List LinkRow} {k : LinkRow} {ref : String}
    (hk : { k with episodeRef := ref } ∈ rows) (hrows : ∀ r ∈ rows, r.episodeRef = ref) :
    { k with episodeRef := ref } ∈ updateRows LinkRow.key rows t := by
  induction rows generalizing t with
  | nil => exact absurd hk List.not_mem_nil
  | cons r rest ih =>
    show _ ∈ updateRows LinkRow.key rest (updateRow LinkRow.key r t)
    by_cases hmem : { k with episodeRef := ref } ∈ rest
    · exact ih hmem fun r' hr' => hrows r' (List.mem_cons_of_mem _ hr')
    · obtain hhead | hrest := List.mem_cons.mp hk
      · have hself : { k with episodeRef := ref } ∈ updateRow LinkRow.key r t := by
          rw [hhead]
          exact self_mem_updateRow
        refine mem_updateRows_of_ne hself fun r' hr' hkey => hmem ?_
        have href := hrows r' (List.mem_cons_of_mem r hr')
        obtain ⟨g₁, s₁, ro₁, e₁⟩ := r'
        obtain ⟨g₂, s₂, ro₂, e₂⟩ := k
        simp only [LinkRow.key, Prod.mk.injEq] at hkey
        obtain ⟨rfl, rfl, rfl⟩ := hkey
        have href : e₁ = ref := href
        rw [← href]
        exact hr'
      · exact absurd hrest hmem

/-- Rows that bind a group, written to a store that has the same rows of it. -/
structure Binds (ref : String) (g : StableGroupRef) (x : Db) (rows : List LinkRow) : Prop where
  bound : ∀ r ∈ rows, r.group = g ∧ r.episodeRef = ref
  all : ∀ k ∈ x.links, k.group = g → { k with episodeRef := ref } ∈ rows
  only : ∀ r ∈ rows, ∃ k ∈ x.links, k.key = r.key

theorem binds_boundLinks {ref : String} (hs : SameGroup g e x) : Binds ref g x (boundLinks ref g e) where
  bound := by
    intro r hr
    obtain ⟨k, hk, rfl⟩ := List.mem_map.mp hr
    exact ⟨of_decide_eq_true (List.mem_filter.mp hk).2, rfl⟩
  all := by
    intro k hk hg
    exact List.mem_map_of_mem (List.mem_filter.mpr ⟨(hs.links k hg).mpr hk, decide_eq_true hg⟩)
  only := by
    intro r hr
    obtain ⟨k, hk, rfl⟩ := List.mem_map.mp hr
    obtain ⟨hmem, hg⟩ := List.mem_filter.mp hk
    exact ⟨k, (hs.links k (of_decide_eq_true hg)).mp hmem, rfl⟩

/-- The links after a binding: those of other groups, and the bound ones. -/
theorem Binds.of_mem {ref : String} {rows : List LinkRow} (h : Binds ref g x rows) {k : LinkRow}
    (hk : k ∈ updateRows LinkRow.key rows x.links) :
    (k ∈ x.links ∧ k.group ≠ g) ∨ (k.group = g ∧ k.episodeRef = ref ∧ ∃ k₀ ∈ x.links, k₀.key = k.key) := by
  rcases of_mem_updateRows hk with hrow | ⟨hmem, hne⟩
  · exact Or.inr ⟨(h.bound k hrow).1, (h.bound k hrow).2, h.only k hrow⟩
  · by_cases hg : k.group = g
    · exact absurd rfl (hne { k with episodeRef := ref } (h.all k hmem hg))
    · exact Or.inl ⟨hmem, hg⟩

/-- A group that is materialized binds its links, all of them new. -/
theorem Attaches.materialized {rows : List LinkRow} {outcomes : List OutcomeRow}
    {x₁ : Db} (hne : store.episodeRef g ≠ "")
    (hempty : ∀ k ∈ x.links, k.group = g → k.episodeRef = "")
    (hkey : ∃ k ∈ x₁.links, k.key = (g, sourceRef, role))
    (hx₁ : x₁.links = x.links ∨ x₁.links = insertRow LinkRow.key ⟨g, sourceRef, role, ""⟩ x.links)
    (hepisodes : x₁.episodes = x.episodes) (hops : x₁.indexOperations = x.indexOperations)
    (hmemory : memoryCauses x₁ = memoryCauses x) (hsources : x₁.sources = x.sources)
    (hrows : Binds (store.episodeRef g) g x₁ rows) (hy : y = applyAll x₁
      ([Write.insertEpisode ⟨g, store.episodeRef g⟩] ++ rows.map Write.updateLink ++
        outcomes.map Write.updateOutcome)) :
    Attaches store g sourceRef role (store.episodeRef g, true) x y := by
  have hlinks : y.links = updateRows LinkRow.key rows x₁.links := by
    rw [hy, applyAll_append, applyAll_append, apply_updateOutcomes, apply_updateLinks]
    rfl
  have hmade : y.episodes = insertRow EpisodeRow.group ⟨g, store.episodeRef g⟩ x.episodes := by
    rw [hy, applyAll_append, applyAll_append, apply_updateOutcomes, apply_updateLinks, ← hepisodes]
    rfl
  have hbound : ∀ w ∈ [Write.insertEpisode ⟨g, store.episodeRef g⟩] ++ rows.map Write.updateLink ++
      outcomes.map Write.updateOutcome, w.Bound := by
    intro w hw
    rcases List.mem_append.mp hw with hw | hw
    · rcases List.mem_append.mp hw with hw | hw
      · rw [List.mem_singleton.mp hw]
        exact trivial
      · obtain ⟨r, _, rfl⟩ := List.mem_map.mp hw
        exact trivial
    · obtain ⟨r, _, rfl⟩ := List.mem_map.mp hw
      exact trivial
  have hbeside := bound_applyAll hbound x₁
  rw [← hy] at hbeside
  have hof : ∀ k ∈ x₁.links, k ∈ x.links ∨ k = ⟨g, sourceRef, role, ""⟩ := by
    intro k hk
    rcases hx₁ with heq | heq
    · rw [heq] at hk
      exact Or.inl hk
    · rw [heq] at hk
      exact (mem_insertRow.mp hk).imp_right And.left
  have hchanged : (true && store.episodeRef g != "") = true := by simpa using hne
  have hold : ∀ k₀ ∈ x₁.links, ∀ k : LinkRow, k₀.key = k.key →
      (∃ k₀ ∈ x.links, k₀.key = k.key) ∨ k.key = (g, sourceRef, role) := by
    intro k₀ hk₀ k heq
    rcases hof k₀ hk₀ with hk₀ | rfl
    · exact Or.inl ⟨k₀, hk₀, heq⟩
    · exact Or.inr heq.symm
  constructor
  · exact hbeside.1.trans hops
  · exact hbeside.2.1.trans hmemory
  · exact hbeside.2.2.trans hsources
  · intro k hk
    rw [hlinks] at hk
    rcases hrows.of_mem hk with ⟨hk, _⟩ | ⟨_, _, k₀, hk₀, heq⟩
    · exact hold k hk k rfl
    · exact hold k₀ hk₀ k heq
  · intro k hk hkne
    rw [hlinks] at hk
    rcases hrows.of_mem hk with ⟨hk, hother⟩ | ⟨hg, href, _⟩
    · rcases hof k hk with hk | rfl
      · exact Or.inl hk
      · exact absurd rfl hother
    · exact Or.inr ⟨hchanged, hg, href⟩
  · intro r hr
    rw [hmade] at hr
    rcases mem_insertRow.mp hr with hr | ⟨rfl, _⟩
    · exact Or.inl hr
    · exact Or.inr ⟨hchanged, rfl⟩
  · intro r hr
    rw [hmade]
    exact mem_insertRow_of_mem hr
  · intro _
    refine ⟨rfl, ?_, ?_, fun k hk hkey' => hempty k hk (congrArg Prod.fst hkey')⟩
    · unfold Materialized
      rw [hmade]
      by_cases hm : Materialized g x
      · obtain ⟨r, hr, hg⟩ := hm
        exact ⟨r, mem_insertRow_of_mem hr, hg⟩
      · exact ⟨_, mem_insertRow.mpr (Or.inr ⟨rfl, fun r hr hg => hm ⟨r, hr, hg⟩⟩), rfl⟩
    · obtain ⟨k, hk, hkey'⟩ := hkey
      rw [hlinks]
      have hmem := mem_bound_of_key (t := x₁.links)
        (hrows.all k hk (congrArg Prod.fst hkey')) fun r hr => (hrows.bound r hr).2
      obtain ⟨g', s', ro', e'⟩ := k
      simp only [LinkRow.key, Prod.mk.injEq] at hkey'
      obtain ⟨rfl, rfl, rfl⟩ := hkey'
      exact hmem

/-! ## Appending a link -/

/-- What a part of an intake call leaves of the groups and the outbox. -/
structure Attached (store : Store) (g : StableGroupRef) (sourceRef : String) (role : SourceRole)
    (a : String × Bool) (x y : Db) (l : Local Write String) : Prop where
  attaches : Attaches store g sourceRef role a x y
  guarded : store.Guarded l
  locked : store.groupLockKey g ∈ l.held

theorem findEpisode_congr (h : x.episodes = y.episodes) : findEpisode g x = findEpisode g y := by
  unfold findEpisode findEpisodeRow
  rw [h]

theorem Store.Guarded.group (h : store.Guarded l) (hlock : store.groupLockKey g ∈ l.held)
    {ws : List Write} (hws : ∀ w ∈ ws, w.group = some g) :
    store.Guarded { l with log := l.log ++ ws } := by
  refine h.write (fun w hw g' hg' => ?_) fun o ho => ?_
  · obtain rfl := Option.some.inj ((hws w hw).symm.trans hg')
    exact hlock
  · cases hws _ ho

/-- The group has no Episode, and its gate opens: all its links are bound. -/
theorem ends_materialize {changed : Bool} {l₀ : Local Write String}
    (hhash : Collisionless store) (hlog₀ : ∀ w ∈ l₀.log, w.group = none)
    (hno : ¬Materialized g d) (hempty : ∀ k ∈ d.links, k.group = g → k.episodeRef = "")
    {ws : List Write} (hl : l.log = l₀.log ++ ws)
    (hws : ws = [] ∨ ws = [.insertLink ⟨g, sourceRef, role, ""⟩])
    (hkey : ∃ k ∈ (applyAll d l.log).links, k.key = (g, sourceRef, role))
    (hguard : store.Guarded l) (hlock : store.groupLockKey g ∈ l.held) :
    (servicePact store).Ends d (store.materialize g changed)
      (fun a l' _ => Attached store g sourceRef role a (applyAll d l₀.log) (applyAll d l'.log) l')
      l e := by
  obtain ⟨hepisodes₀, hlinks₀, _⟩ := groupless_tables hlog₀ d
  have hne := store.episodeRef_ne g
  -- The link's own row is unbound.
  have hD : applyAll d l.log = applyAll (applyAll d l₀.log) ws := by
    rw [hl, applyAll_append]
  have hx₁ : (applyAll d l.log).links = (applyAll d l₀.log).links ∨
      (applyAll d l.log).links =
        insertRow LinkRow.key ⟨g, sourceRef, role, ""⟩ (applyAll d l₀.log).links := by
    rw [hD]
    rcases hws with rfl | rfl
    · exact Or.inl rfl
    · exact Or.inr rfl
  have hrest : (applyAll d l.log).episodes = (applyAll d l₀.log).episodes ∧
      (applyAll d l.log).indexOperations = (applyAll d l₀.log).indexOperations ∧
      memoryCauses (applyAll d l.log) = memoryCauses (applyAll d l₀.log) ∧
      (applyAll d l.log).sources = (applyAll d l₀.log).sources := by
    rw [hD]
    rcases hws with rfl | rfl
    · exact ⟨rfl, rfl, rfl, rfl⟩
    · exact ⟨rfl, rfl, rfl, rfl⟩
  have hsame : ∀ {m : Local Write String} {e' : Db}, store.groupLockKey g ∈ m.held →
      (servicePact store).rel m e' d → SameGroup g (applyAll e' m.log) (applyAll d m.log) :=
    fun hk hrel => (hrel.2.groups g hk).applyAll _
  have hempty₀ : ∀ k ∈ (applyAll d l₀.log).links, k.group = g → k.episodeRef = "" := by
    rw [hlinks₀]
    exact hempty
  refine Pact.Ends.select fun e₁ hb₁ => ?_
  split
  · -- The gate is shut.
    refine ⟨⟨hrest.2.1, hrest.2.2.1, hrest.2.2.2, ?_, ?_, ?_, ?_, ?_⟩, hguard, hlock⟩
    · intro k hk
      rcases hx₁ with heq | heq
      · rw [heq] at hk
        exact Or.inl ⟨k, hk, rfl⟩
      · rw [heq] at hk
        rcases mem_insertRow.mp hk with hk | ⟨rfl, _⟩
        · exact Or.inl ⟨k, hk, rfl⟩
        · exact Or.inr rfl
    · intro k hk hkne
      rcases hx₁ with heq | heq
      · rw [heq] at hk
        exact Or.inl hk
      · rw [heq] at hk
        rcases mem_insertRow.mp hk with hk | ⟨rfl, _⟩
        · exact Or.inl hk
        · exact absurd rfl hkne
    · intro r hr
      rw [hrest.1] at hr
      exact Or.inl hr
    · rw [hrest.1]
      exact fun _ h => h
    · intro hmade
      simp at hmade
  · refine Pact.Ends.bind ?_
    intro e₂ hb₂ hrel₂
    have hnone : ¬Materialized g (applyAll e₂ l.log) := by
      intro hm
      have hm := (hsame hlock hb₂.before).materialized hm
      unfold Materialized at hm
      rw [hrest.1, hepisodes₀] at hm
      exact hno hm
    have hfalse : hasEpisode g (applyAll e₂ l.log) = false :=
      Bool.eq_false_iff.mpr fun hm => hnone (hasEpisode_iff.mp hm)
    have hlaw₂ : ∀ r ∈ (applyAll e₂ l.log).episodes, r.ref = store.episodeRef r.group := by
      intro r hr
      rw [hl, applyAll_append] at hr
      have hep : (applyAll (applyAll e₂ l₀.log) ws).episodes = e₂.episodes := by
        rw [← (groupless_tables hlog₀ e₂).1]
        rcases hws with rfl | rfl
        · rfl
        · rfl
      rw [hep] at hr
      exact (hb₂.inv.1.episodes r hr).1
    have hfree : episodeRefTaken (store.episodeRef g) (applyAll e₂ l.log) = false := by
      refine Bool.eq_false_iff.mpr fun htaken => ?_
      obtain ⟨r, hr, href⟩ := episodeRefTaken_iff.mp htaken
      have hg : r.group = g := episodeRef_injective hhash ((hlaw₂ r hr).symm.trans href)
      exact hnone ⟨r, hr, hg⟩
    simp only [hfalse, hfree, Bool.or_self, Bool.false_eq_true, if_false, Bool.not_false,
      Bool.and_false, Bool.false_and]
    have hepisode : ∀ w ∈ [Write.insertEpisode ⟨g, store.episodeRef g⟩], w.group = some g :=
      fun w hw => by
        rw [List.mem_singleton.mp hw]
        rfl
    have hguard₂ := hguard.group hlock hepisode
    refine Pact.Ends.bind (Pact.Ends.statement fun e₃ hb₃ hrel₃ => ?_)
    let opened := l.log ++ [Write.insertEpisode ⟨g, store.episodeRef g⟩]
    let rows := boundLinks (store.episodeRef g) g (applyAll e₃ opened)
    have hrows : Binds (store.episodeRef g) g (applyAll d l.log) rows := by
      have hgroup : SameGroup g (applyAll e₃ opened) (applyAll d opened) :=
        hsame (m := ⟨l.held, opened⟩) hlock hb₃.before
      have hb : Binds (store.episodeRef g) g (applyAll d opened) rows := binds_boundLinks hgroup
      rw [show applyAll d opened = _ from applyAll_append d l.log _] at hb
      exact ⟨hb.bound, hb.all, hb.only⟩
    have hattaches : ∀ outcomes : List OutcomeRow, Attaches store g sourceRef role
        (store.episodeRef g, true) (applyAll d l₀.log)
        (applyAll d (opened ++ rows.map Write.updateLink ++ outcomes.map Write.updateOutcome)) := by
      intro outcomes
      have hopened : applyAll d (opened ++ rows.map Write.updateLink ++
          outcomes.map Write.updateOutcome) = applyAll (applyAll d l.log)
            ([Write.insertEpisode ⟨g, store.episodeRef g⟩] ++ rows.map Write.updateLink ++
              outcomes.map Write.updateOutcome) := by
        rw [← applyAll_append, ← List.append_assoc, ← List.append_assoc]
      exact Attaches.materialized hne hempty₀ hkey hx₁ hrest.1 hrest.2.1 hrest.2.2.1 hrest.2.2.2
        hrows hopened
    refine Pact.Ends.statement fun e₄ hb₄ hrel₄ => ?_
    have hbinding : ∀ w ∈ rows.map Write.updateLink, w.group = some g := fun w hw => by
      obtain ⟨r, hr, rfl⟩ := List.mem_map.mp hw
      exact congrArg some (hrows.bound r hr).1
    have hguard₃ := hguard₂.group hlock hbinding
    refine ⟨hattaches _, ?_, hlock⟩
    refine hguard₃.group hlock fun w hw => ?_
    obtain ⟨r, hr, rfl⟩ := List.mem_map.mp hw
    obtain ⟨o, ho, rfl⟩ := List.mem_map.mp hr
    have hp := (List.mem_filter.mp ho).2
    simp only [Bool.and_eq_true, decide_eq_true_eq] at hp
    exact congrArg some hp.1

theorem ends_appendLinkAndMaterialize {event : SourceEvent} {binding : EpisodeBinding}
    (hg : binding.group event.scope = g) (ho : OutboxLaw store d) (hhash : Collisionless store)
    (hlog : ∀ w ∈ l.log, w.group = none) (hguard : store.Guarded l) :
    (servicePact store).Ends d (store.appendLinkAndMaterialize event binding)
      (fun a l' _ => Attached store g event.ref binding.role a (applyAll d l.log) (applyAll d l'.log)
        l') l e := by
  obtain ⟨hepisodes, hlinks, _⟩ := groupless_tables hlog d
  have hne := store.episodeRef_ne g
  unfold Store.appendLinkAndMaterialize
  rw [hg]
  refine Pact.Ends.acquire fun e₁ _ _ => ?_
  have hlock : store.groupLockKey g ∈ store.groupLockKey g :: l.held := List.mem_cons_self
  have hguard₁ := hguard.hold (store.groupLockKey g)
  have hsame : ∀ {e' : Db}, (servicePact store).rel ⟨store.groupLockKey g :: l.held, l.log⟩ e' d →
      SameGroup g (applyAll e' l.log) (applyAll d l.log) :=
    fun hrel => (hrel.2.groups g hlock).applyAll _
  have hwaits : ∀ {ref : String}, Attached store g event.ref binding.role (ref, false)
      (applyAll d l.log) (applyAll d l.log) ⟨store.groupLockKey g :: l.held, l.log⟩ :=
    ⟨Attaches.unchanged rfl, hguard₁, hlock⟩
  refine Pact.Ends.select fun e₂ hb₂ => ?_
  have hfound := findEpisode_locked hb₂.inv.1 (hb₂.before.2.groups g hlock)
  dsimp only
  rw [findEpisode_congr (groupless_tables hlog e₂).1]
  by_cases hm : Materialized g d
  · -- The group has its Episode: only an Outcome's link is new.
    have hmx : Materialized g (applyAll d l.log) := by
      obtain ⟨r, hr, hrg⟩ := hm
      exact ⟨r, hepisodes ▸ hr, hrg⟩
    rw [hfound.1 hm]
    have hnonempty : (store.episodeRef g != "") = true := bne_iff_ne.mpr hne
    simp only [alreadyLinked, hnonempty, if_true, Bool.true_and]
    refine Pact.Ends.select fun e₃ hb₃ => ?_
    dsimp only
    split
    · exact hwaits
    split
    · exact trivial
    refine Pact.Ends.statement fun e₄ hb₄ hrel₄ => ?_
    dsimp only
    unfold newLink
    split
    · rename_i hany
      rw [List.append_nil, hany]
      exact hwaits
    · rename_i hany
      rw [Bool.eq_false_iff.mpr hany]
      have hfree : ¬∃ k ∈ (applyAll d l.log).links, k.key = (g, event.ref, binding.role) := by
        intro hex
        obtain ⟨k, hk, hkey⟩ := ((hsame hb₄.before).linkKey rfl).mpr hex
        exact hany (List.any_eq_true.mpr ⟨k, hk, decide_eq_true hkey⟩)
      refine ⟨?_, hguard₁.group hlock fun w hw => ?_, hlock⟩
      · rw [applyAll_append]
        exact Attaches.extended hmx hne hfree
      · rw [List.mem_singleton.mp hw]
        rfl
  · -- No Episode yet, so no link of the group is bound.
    rw [hfound.2 hm]
    have hempty : ∀ k ∈ d.links, k.group = g → k.episodeRef = "" := by
      intro k hk hkg
      by_contra hkne
      exact hm (hkg ▸ (ho.bound k hk hkne).2)
    simp only [alreadyLinked, bne_self_eq_false, Bool.false_eq_true, if_false, Bool.false_and]
    refine Pact.Ends.statement fun e₃ hb₃ hrel₃ => ?_
    dsimp only
    unfold newLink
    split
    · rename_i hany
      obtain ⟨k, hk, hkey⟩ := List.any_eq_true.mp hany
      have hex := ((hsame hb₃.before).linkKey rfl).mp ⟨k, hk, of_decide_eq_true hkey⟩
      refine ends_materialize hhash hlog hm hempty rfl (Or.inl rfl) ?_ ?_ hlock
      · rw [List.append_nil]
        exact hex
      · rw [List.append_nil]
        exact hguard₁
    · refine ends_materialize hhash hlog hm hempty rfl (Or.inr rfl) ?_ ?_ hlock
      · rw [applyAll_append]
        by_cases hold : ∃ k ∈ (applyAll d l.log).links, k.key = (g, event.ref, binding.role)
        · obtain ⟨k, hk, hkey⟩ := hold
          exact ⟨k, mem_insertRow_of_mem hk, hkey⟩
        · exact ⟨_, mem_insertRow.mpr (Or.inr ⟨rfl, fun k hk hkey => hold ⟨k, hk, hkey⟩⟩), rfl⟩
      · refine hguard₁.group hlock fun w hw => ?_
        rw [List.mem_singleton.mp hw]
        rfl

/-! ## Sources -/

/-- The source of the key is stored. -/
def Sourced (key : Scope × String) (x : Db) : Prop := ∃ s ∈ x.sources, s.key = key

theorem sourced_applyAll {key : Scope × String} {ws : List Write} :
    Sourced key (applyAll x ws) ↔ Sourced key x ∨ ∃ r, .insertSource r ∈ ws ∧ r.key = key := by
  induction ws generalizing x with
  | nil => simp
  | cons w rest ih =>
    rw [applyAll_cons, ih]
    cases w with
    | insertSource r =>
      have hone : Sourced key (Journal.apply x (Write.insertSource r)) ↔
          Sourced key x ∨ r.key = key := key_insertRow
      rw [hone, or_assoc]
      simp only [List.mem_cons, Write.insertSource.injEq, or_and_right, exists_or, exists_eq_left]
    | _ => simp only [List.mem_cons, reduceCtorEq, false_or]; rfl

/-- A source that is admitted is there when the transaction commits. -/
theorem ends_admitSource {env : Ambient} {event : SourceEvent} :
    (servicePact store).Ends d (Store.admitSource env event)
      (fun _ l' _ => Sourced (event.scope, event.ref) (applyAll d l'.log)) l e := by
  unfold Store.admitSource
  refine Pact.Ends.statement fun e₁ hb₁ hrel₁ => ?_
  have hstays : Sourced (event.scope, event.ref) (applyAll e₁ l.log) →
      Sourced (event.scope, event.ref) (applyAll d l.log) := by
    intro h
    refine sourced_applyAll.mpr ((sourced_applyAll.mp h).imp_left fun h => ?_)
    obtain ⟨s, hs, hkey⟩ := h
    exact ⟨s, hb₁.before.1.gains.sources hs, hkey⟩
  by_cases hany : (applyAll e₁ l.log).sources.any
      fun r => decide (r.key = (⟨event, env.admissionOrder⟩ : SourceRow).key)
  · rw [if_pos hany, hany, List.append_nil]
    obtain ⟨s, hs, hkey⟩ := List.any_eq_true.mp hany
    have hsourced := hstays ⟨s, hs, of_decide_eq_true hkey⟩
    simp only [Bool.not_true, Bool.false_eq_true, if_false]
    refine Pact.Ends.select fun e₂ _ => ?_
    dsimp only
    split
    · exact trivial
    split
    · exact trivial
    · exact hsourced
  · rw [if_neg hany, Bool.eq_false_iff.mpr hany]
    exact sourced_applyAll.mpr (Or.inr ⟨_, List.mem_append_right _ (List.mem_singleton.mpr rfl), rfl⟩)

end

end ChoraMem
