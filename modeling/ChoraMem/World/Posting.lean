/-
What a commit puts into the outbox.

`Posting` says of a commit that its new operations have causes, and that what it changed has
its operations: a new version is posted, and so is one link of every group that it bound
links of, a link that was not bound before.  A commit of that kind keeps the law of the
outbox.  Observed sources and reported Outcomes commit so.
-/
import ChoraMem.World.Calls
import ChoraMem.World.Links

namespace ChoraMem

open Txn

/-- A link that the commit has bound, and that is posted for its Episode. -/
structure Posts (store : Store) (d y : Db) (g : StableGroupRef) (t : LinkRow) : Prop where
  mem : t ∈ y.links
  group : t.group = g
  bound : t.episodeRef = store.episodeRef g
  new : ∀ k ∈ d.links, k.key = t.key → k.episodeRef = ""
  posted : y.Posts (store.operationRef (typedLink t))

structure Posting (store : Store) (d y : Db) : Prop where
  founded : ∀ o ∈ y.indexOperations, o ∈ d.indexOperations ∨
    ∃ c ∈ causes y, ∃ n, o = store.operationOf c n
  posted : ∀ c ∈ memoryCauses y, c ∈ memoryCauses d ∨ y.Posts (store.operationRef c)
  links : ∀ k ∈ y.links, k.episodeRef ≠ "" → k ∈ d.links ∨
    k.episodeRef = store.episodeRef k.group ∧ Materialized k.group y ∧
      ∃ t, Posts store d y k.group t
  episodes : ∀ e ∈ y.episodes, e ∈ d.episodes ∨ ∃ t, Posts store d y e.group t
  sourced : ∀ k ∈ y.links, Sourced (k.group.scope, k.sourceEventRef) y
  numbered : Numbered y.indexOperations

section

variable {store : Store} {d x y : Db}

theorem Materialized.gains {g : StableGroupRef} (h : Materialized g d) (hg : Gains d y) :
    Materialized g y := by
  obtain ⟨e, he, hgroup⟩ := h
  exact ⟨e, hg.episodes he, hgroup⟩

/-- Such a commit keeps the law. -/
theorem Posting.law (h : Posting store d y) (hd : OutboxLaw store d) (hgains : Gains d y)
    (hgrown : Grown d y) (hlinks : KeepsLinks store d y)
    (hops : d.indexOperations ⊆ y.indexOperations) : OutboxLaw store y where
  founded := by
    intro o ho
    rcases h.founded o ho with hold | hnew
    · obtain ⟨c, hc, n, heq⟩ := hd.founded o hold
      exact ⟨c, causes_later hd hlinks hgrown hc, n, heq⟩
    · exact hnew
  posted := by
    intro c hc
    rcases h.posted c hc with hold | hnew
    · exact (hd.posted c hold).mono hops
    · exact hnew
  episodes := by
    intro e he
    rcases h.episodes e he with hold | ⟨t, ht⟩
    · obtain ⟨l, hl, hgroup, href, hposts⟩ := hd.episodes e hold
      exact ⟨l, hlinks l hl (by rw [href, hgroup]), hgroup, href, hposts.mono hops⟩
    · exact ⟨t, ht.mem, ht.group, ht.bound, ht.posted⟩
  bound := by
    intro k hk hne
    rcases h.links k hk hne with hold | ⟨href, hmade, _⟩
    · obtain ⟨href, hmade⟩ := hd.bound k hold hne
      exact ⟨href, hmade.gains hgains⟩
    · exact ⟨href, hmade⟩
  sourced := h.sourced
  numbered := h.numbered

/-! ## Rows beside the outbox -/

/-- The row is none of a group, of Memory or of the outbox. -/
def Write.Quiet : Write → Prop
  | .insertSource _ | .insertRequest _ | .updateRequest _ | .insertDelivery _ | .insertContext _
  | .insertContextItem _ | .insertContextEvidence _ | .insertReceipt _ | .insertJob _
  | .updateJob _ => True
  | _ => False

theorem Write.Quiet.group {w : Write} (h : w.Quiet) : w.group = none := by
  cases w <;> first | rfl | exact h.elim

/-- Both stores have the same groups, the same Memory and the same outbox. -/
structure Calm (x y : Db) : Prop where
  operations : y.indexOperations = x.indexOperations
  memory : memoryCauses y = memoryCauses x
  links : y.links = x.links
  episodes : y.episodes = x.episodes
  sources : x.sources ⊆ y.sources

theorem Calm.refl (x : Db) : Calm x x := ⟨rfl, rfl, rfl, rfl, fun _ h => h⟩

theorem Calm.trans {z : Db} (h : Calm x y) (h' : Calm y z) : Calm x z :=
  ⟨h'.operations.trans h.operations, h'.memory.trans h.memory, h'.links.trans h.links,
    h'.episodes.trans h.episodes, fun _ hs => h'.sources (h.sources hs)⟩

theorem calm_applyAll {ws : List Write} (h : ∀ w ∈ ws, w.Quiet) (x : Db) :
    Calm x (applyAll x ws) := by
  induction ws generalizing x with
  | nil => exact Calm.refl x
  | cons w rest ih =>
    refine Calm.trans ?_ (ih (fun w' hw' => h w' (List.mem_cons_of_mem _ hw')) _)
    have hw := h w List.mem_cons_self
    cases w with
    | insertSource r => exact ⟨rfl, rfl, rfl, rfl, subset_insertRow⟩
    | insertRequest _ | updateRequest _ | insertDelivery _ | insertContext _ | insertContextItem _
    | insertContextEvidence _ | insertReceipt _ | insertJob _ | updateJob _ =>
      exact ⟨rfl, rfl, rfl, rfl, fun _ h => h⟩
    | _ => exact hw.elim

theorem Sourced.mono {key : Scope × String} (h : Sourced key x) (hsub : x.sources ⊆ y.sources) :
    Sourced key y := by
  obtain ⟨s, hs, hkey⟩ := h
  exact ⟨s, hsub hs, hkey⟩

theorem Calm.posting (h : Calm d y) (hd : OutboxLaw store d) : Posting store d y where
  founded := fun o ho => Or.inl (h.operations ▸ ho)
  posted := fun c hc => Or.inl (h.memory ▸ hc)
  links := fun k hk _ => Or.inl (h.links ▸ hk)
  episodes := fun e he => Or.inl (h.episodes ▸ he)
  sourced := by
    intro k hk
    rw [h.links] at hk
    exact Sourced.mono (hd.sourced k hk) h.sources
  numbered := by
    rw [h.operations]
    exact hd.numbered

/-! ## A link and its operation -/

section

variable {g : StableGroupRef} {sourceRef : String} {role : SourceRole} {a : String × Bool}
variable {x₁ x₂ : Db}

theorem Attaches.sourced (h : Attaches store g sourceRef role a x₁ x₂) (hx : Calm d x₁)
    (hd : OutboxLaw store d) (hsource : Sourced (g.scope, sourceRef) x₁) {k : LinkRow}
    (hk : k ∈ x₂.links) : Sourced (k.group.scope, k.sourceEventRef) x₁ := by
  rcases h.keys k hk with ⟨k₀, hk₀, heq⟩ | heq
  · rw [hx.links] at hk₀
    have hold := Sourced.mono (hd.sourced k₀ hk₀) hx.sources
    obtain ⟨hgroup, href, _⟩ : k₀.group = k.group ∧ k₀.sourceEventRef = k.sourceEventRef ∧
        k₀.role = k.role := by simpa [LinkRow.key] using heq
    rw [← hgroup, ← href]
    exact hold
  · obtain ⟨hgroup, href, _⟩ : k.group = g ∧ k.sourceEventRef = sourceRef ∧ k.role = role := by
      simpa [LinkRow.key] using heq
    rw [hgroup, href]
    exact hsource

/-- A link that bound nothing needs no operation. -/
theorem Attaches.calmly (h : Attaches store g sourceRef role a x₁ x₂) (hx : Calm d x₁)
    (hy : Calm x₂ y) (hd : OutboxLaw store d) (hsource : Sourced (g.scope, sourceRef) x₁)
    (ha : (a.2 && a.1 != "") = false) : Posting store d y where
  founded := by
    intro o ho
    rw [hy.operations, h.operations, hx.operations] at ho
    exact Or.inl ho
  posted := by
    intro c hc
    rw [hy.memory, h.memory, hx.memory] at hc
    exact Or.inl hc
  links := by
    intro k hk hne
    rw [hy.links] at hk
    rcases h.links k hk hne with hk | ⟨htrue, _⟩
    · rw [hx.links] at hk
      exact Or.inl hk
    · rw [ha] at htrue
      cases htrue
  episodes := by
    intro e he
    rw [hy.episodes] at he
    rcases h.episodes e he with he | ⟨htrue, _⟩
    · rw [hx.episodes] at he
      exact Or.inl he
    · rw [ha] at htrue
      cases htrue
  sourced := by
    intro k hk
    rw [hy.links] at hk
    refine (h.sourced hx hd hsource hk).mono ?_
    rw [← h.sources]
    exact hy.sources
  numbered := by
    rw [hy.operations, h.operations, hx.operations]
    exact hd.numbered

/-- A link that bound a group is followed by its operation. -/
theorem Attaches.posted {x₃ x₄ : Db} (h : Attaches store g sourceRef role a x₁ x₂)
    (hx : Calm d x₁) (hc : Calm x₂ x₃)
    (henqueued : Enqueued store (typedLink ⟨g, sourceRef, role, a.1⟩) x₃ x₄)
    (hy : Calm x₄ y) (hd : OutboxLaw store d) (hsource : Sourced (g.scope, sourceRef) x₁)
    (ha : (a.2 && a.1 != "") = true) : Posting store d y := by
  obtain ⟨href, hmade, htrigger, hnew⟩ := h.made ha
  rw [href] at henqueued
  have hne : store.episodeRef g ≠ "" := store.episodeRef_ne g
  obtain ⟨operations, hx₄, hsub⟩ := henqueued.outbox
  have hlinks : y.links = x₂.links := by rw [hy.links, hx₄, hc.links]
  have hepisodes : y.episodes = x₂.episodes := by rw [hy.episodes, hx₄, hc.episodes]
  have hmemory : memoryCauses y = memoryCauses d := by
    rw [hy.memory, hx₄]
    exact hc.memory.trans (h.memory.trans hx.memory)
  have hops : x₃.indexOperations = d.indexOperations := by
    rw [hc.operations, h.operations, hx.operations]
  have hmaterialized : Materialized g y := by
    unfold Materialized
    rw [hepisodes]
    exact hmade
  have hposts : Posts store d y g ⟨g, sourceRef, role, store.episodeRef g⟩ := by
    refine ⟨?_, rfl, rfl, ?_, ?_⟩
    · rw [hlinks]
      exact htrigger
    · rw [← hx.links]
      exact hnew
    · exact henqueued.posts.mono (by rw [hy.operations]; exact fun _ h => h)
  constructor
  · intro o ho
    rw [hy.operations] at ho
    rcases henqueued.of_mem ho with hold | ⟨n, heq⟩
    · rw [hops] at hold
      exact Or.inl hold
    · refine Or.inr ⟨_, List.mem_append_left _ (mem_linkCauses.mpr ⟨_, hposts.mem, hne, rfl⟩), n, heq⟩
  · intro c hc
    rw [hmemory] at hc
    exact Or.inl hc
  · intro k hk hkne
    rw [hlinks] at hk
    rcases h.links k hk hkne with hk | ⟨_, hgroup, hkref⟩
    · rw [hx.links] at hk
      exact Or.inl hk
    · subst hgroup
      exact Or.inr ⟨hkref, hmaterialized, _, hposts⟩
  · intro e he
    rw [hepisodes] at he
    rcases h.episodes e he with he | ⟨_, hgroup⟩
    · rw [hx.episodes] at he
      exact Or.inl he
    · subst hgroup
      exact Or.inr ⟨_, hposts⟩
  · intro k hk
    rw [hlinks] at hk
    refine (h.sourced hx hd hsource hk).mono ?_
    rw [← h.sources]
    have hsources : x₂.sources ⊆ x₄.sources := by
      rw [hx₄]
      exact hc.sources
    exact fun _ hs => hy.sources (hsources hs)
  · rw [hy.operations]
    refine henqueued.numbered ?_
    rw [hops]
    exact hd.numbered

end

end

end ChoraMem
