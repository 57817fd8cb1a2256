/-
The law of the whole store, and what transactions promise each other.

The calls run under read committed.  Between two statements of a transaction the others
may add rows to every table, but they leave alone the Memory of the owners whose locks
it holds and the rows whose unique keys it has written.  `memoryPact` is this promise
with the law of the store as its invariant.
-/
import ChoraMem.Memory.Laws
import ChoraMem.Storage.MemoryContext
import ChoraMem.Txn.Pact

namespace ChoraMem

open Txn Versions

/-! ## The law -/

/-- A scope that validation accepts, as far as its owner goes. -/
structure Scope.Whole (s : Scope) : Prop where
  tenant : s.tenantRef ≠ ""
  agent : s.agentRef ≠ ""
  relationship : s.kind = .agent ∧ s.relationshipRef = "" ∨
    s.kind = .relationship ∧ s.relationshipRef ≠ ""

/-- The ref names an Episode of the tenant. -/
def Known (tenantRef ref : String) (d : Db) : Prop :=
  ∃ e ∈ d.episodes, e.ref = ref ∧ e.group.scope.tenantRef = tenantRef

/-- The ref names a version of a Seed of one of these owners. -/
def SeedOf (owners : List OwnerScope) (ref : String) (d : Db) : Prop :=
  ∃ s ∈ d.seeds, ∃ n, ref = versionRefOf s.ref n ∧ s.owner ∈ owners

def RecollectionOf (owners : List OwnerScope) (ref : String) (d : Db) : Prop :=
  ∃ r ∈ d.recollections, ∃ n, ref = versionRefOf r.ref n ∧ r.owner ∈ owners

/-- The text renders sources of an Episode that one of these owners has. -/
def EpisodeOf (owners : List OwnerScope) (ref text : String) (d : Db) : Prop :=
  ∃ e ∈ d.episodes, e.ref = ref ∧ e.group.scope.owner ∈ owners ∧
    ∃ shown : EpisodeEvidence, text = renderEpisodeEvidence shown ∧ ∀ s ∈ shown.sources,
      ∃ row ∈ d.sources, row.key = (e.group.scope, s.ref) ∧ row.event.text = s.text

/-- The Memory of an item is of its kind and of one of these owners. -/
def MemoryOf (owners : List OwnerScope) (kind : ItemKind) (ref : String) (d : Db) : Prop :=
  match kind with
  | .recollection => RecollectionOf owners ref d
  | .disposition => SeedOf owners ref d

structure WorldLaw (store : Store) (d : Db) : Prop where
  memory : MemoryLaw d
  episodes : ∀ e ∈ d.episodes, e.ref = store.episodeRef e.group ∧ e.group.scope.Whole
  seedRefs : ∀ s ∈ d.seeds, s.ref ≠ ""
  deliveries : ∀ r ∈ d.deliveries, r.ref ≠ ""
  cited : ∀ b ∈ d.seedBasis, Known b.tenantRef b.basisRef d
  contexts : KeysUnique ContextRow.ref d.contexts
  /-- What a context froze is of the owners that its run may be shown. -/
  items : ∀ i ∈ d.contextItems, ∃ c ∈ d.contexts, c.ref = i.contextRef ∧
    c.scope.tenantRef = i.tenantRef ∧ MemoryOf (selectionOwners c.scope) i.kind i.memoryRef d
  evidence : ∀ i ∈ d.contextEvidence, ∃ c ∈ d.contexts, c.ref = i.contextRef ∧
    c.scope.tenantRef = i.tenantRef ∧ EpisodeOf (selectionOwners c.scope) i.episodeRef i.text d
  sources : KeysUnique SourceRow.key d.sources

theorem worldLaw_empty (store : Store) : WorldLaw store {} where
  memory := memoryLaw_empty
  episodes := fun _ h => absurd h List.not_mem_nil
  seedRefs := fun _ h => absurd h List.not_mem_nil
  deliveries := fun _ h => absurd h List.not_mem_nil
  cited := fun _ h => absurd h List.not_mem_nil
  contexts := List.nodup_nil
  items := fun _ h => absurd h List.not_mem_nil
  evidence := fun _ h => absurd h List.not_mem_nil
  sources := List.nodup_nil

/-- A digest without collisions. -/
abbrev Collisionless (store : Store) : Prop :=
  ∀ a b, store.hashFields a = store.hashFields b → a = b

theorem episodeRef_injective {store : Store} (h : Collisionless store) {g g' : StableGroupRef}
    (hg : store.episodeRef g = store.episodeRef g') : g = g' := by
  have hfields := h _ _ (String.append_right_inj _ |>.mp hg)
  obtain ⟨⟨kind, tenant, agent, relationship, session⟩, run, group⟩ := g
  obtain ⟨⟨kind', tenant', agent', relationship', session'⟩, run', group'⟩ := g'
  simp only [List.cons.injEq, and_true, true_and] at hfields
  obtain ⟨hk, rfl, rfl, rfl, rfl, rfl, rfl⟩ := hfields
  rw [ScopeKind.text_injective hk]

/-- A ref names one Episode. -/
theorem WorldLaw.episode_eq {store : Store} {d : Db} (h : WorldLaw store d)
    (hhash : Collisionless store) {e e' : EpisodeRow} (he : e ∈ d.episodes) (he' : e' ∈ d.episodes)
    (href : e.ref = e'.ref) : e = e' := by
  have hgroup : e.group = e'.group := by
    apply episodeRef_injective hhash
    rw [← (h.episodes e he).1, ← (h.episodes e' he').1, href]
  obtain ⟨g, r⟩ := e
  obtain ⟨g', r'⟩ := e'
  simp only at hgroup href
  rw [hgroup, href]

/-! ## Growth -/

/-- Tables that only gain rows. -/
structure Gains (d d' : Db) : Prop where
  sources : d.sources ⊆ d'.sources
  episodes : d.episodes ⊆ d'.episodes
  deliveries : d.deliveries ⊆ d'.deliveries
  contexts : d.contexts ⊆ d'.contexts
  contextItems : d.contextItems ⊆ d'.contextItems
  contextEvidence : d.contextEvidence ⊆ d'.contextEvidence
  seeds : d.seeds ⊆ d'.seeds
  seedBasis : d.seedBasis ⊆ d'.seedBasis
  recollections : d.recollections ⊆ d'.recollections
  receipts : d.receipts ⊆ d'.receipts

theorem Gains.refl (d : Db) : Gains d d := by constructor <;> exact fun _ h => h

theorem Gains.trans {d d' d'' : Db} (h : Gains d d') (h' : Gains d' d'') : Gains d d'' where
  sources := fun _ hx => h'.sources (h.sources hx)
  episodes := fun _ hx => h'.episodes (h.episodes hx)
  deliveries := fun _ hx => h'.deliveries (h.deliveries hx)
  contexts := fun _ hx => h'.contexts (h.contexts hx)
  contextItems := fun _ hx => h'.contextItems (h.contextItems hx)
  contextEvidence := fun _ hx => h'.contextEvidence (h.contextEvidence hx)
  seeds := fun _ hx => h'.seeds (h.seeds hx)
  seedBasis := fun _ hx => h'.seedBasis (h.seedBasis hx)
  recollections := fun _ hx => h'.recollections (h.recollections hx)
  receipts := fun _ hx => h'.receipts (h.receipts hx)

/-- Sources are never written again. -/
theorem keysUnique_sources {d : Db} (h : KeysUnique SourceRow.key d.sources) (w : Write) :
    KeysUnique SourceRow.key (d.apply w).sources := by
  cases w with
  | insertSource r => exact h.insertRow r
  | _ => exact h

theorem subset_insertRow {ρ κ : Type} [DecidableEq κ] {key : ρ → κ} {r : ρ} {t : List ρ} :
    t ⊆ insertRow key r t :=
  fun _ h => mem_insertRow_of_mem h

theorem gains_apply (d : Db) (w : Write) : Gains d (d.apply w) := by
  have h := Gains.refl d
  cases w with
  | insertSource r => exact { h with sources := subset_insertRow }
  | insertEpisode r => exact { h with episodes := subset_insertRow }
  | insertDelivery r => exact { h with deliveries := subset_insertRow }
  | insertContext r => exact { h with contexts := subset_insertRow }
  | insertContextItem r => exact { h with contextItems := subset_insertRow }
  | insertContextEvidence r => exact { h with contextEvidence := subset_insertRow }
  | insertSeed r => exact { h with seeds := subset_insertRow }
  | insertSeedBasis r => exact { h with seedBasis := subset_insertRow }
  | insertRecollection r => exact { h with recollections := subset_insertRow }
  | insertReceipt r => exact { h with receipts := subset_insertRow }
  | _ => exact ⟨h.1, h.2, h.3, h.4, h.5, h.6, h.7, h.8, h.9, h.10⟩

theorem gains_applyAll (d : Db) (ws : List Write) : Gains d (applyAll d ws) := by
  induction ws generalizing d with
  | nil => exact Gains.refl d
  | cons w rest ih => exact (gains_apply d w).trans (ih _)

section

variable {d d' : Db} {owners : List OwnerScope} {ref : String}

theorem Known.mono {tenantRef : String} (h : Known tenantRef ref d) (hg : Gains d d') :
    Known tenantRef ref d' := by
  obtain ⟨e, he, hrest⟩ := h
  exact ⟨e, hg.episodes he, hrest⟩

theorem EpisodeOf.mono {text : String} (h : EpisodeOf owners ref text d) (hg : Gains d d') :
    EpisodeOf owners ref text d' := by
  obtain ⟨e, he, href, hown, shown, htext, hsources⟩ := h
  refine ⟨e, hg.episodes he, href, hown, shown, htext, fun s hs => ?_⟩
  obtain ⟨row, hrow, hrest⟩ := hsources s hs
  exact ⟨row, hg.sources hrow, hrest⟩

theorem MemoryOf.mono {kind : ItemKind} (h : MemoryOf owners kind ref d) (hg : Gains d d') :
    MemoryOf owners kind ref d' := by
  cases kind with
  | recollection =>
    obtain ⟨r, hr, hrest⟩ := h
    exact ⟨r, hg.recollections hr, hrest⟩
  | disposition =>
    obtain ⟨s, hs, hrest⟩ := h
    exact ⟨s, hg.seeds hs, hrest⟩

end

/-- Links that name the Episode of their group stay. -/
def KeepsLinks (store : Store) (d d' : Db) : Prop :=
  ∀ l ∈ d.links, l.episodeRef = store.episodeRef l.group → l ∈ d'.links

/-- A link is bound to the Episode of its group, if it is written again. -/
def Store.BindsLinks (store : Store) : Write → Prop
  | .updateLink r => r.episodeRef = store.episodeRef r.group
  | _ => True

section

variable {store : Store} {d d' d'' : Db}

theorem KeepsLinks.refl (d : Db) : KeepsLinks store d d := fun _ hl _ => hl

theorem KeepsLinks.trans (h : KeepsLinks store d d') (h' : KeepsLinks store d' d'') :
    KeepsLinks store d d'' :=
  fun l hl href => h' l (h l hl href) href

theorem KeepsLinks.of_eq (h : d'.links = d.links) : KeepsLinks store d d' :=
  fun _ hl _ => h ▸ hl

theorem keepsLinks_apply {w : Write} (hw : store.BindsLinks w) : KeepsLinks store d (d.apply w) := by
  intro l hl href
  cases w with
  | insertLink r => exact mem_insertRow_of_mem hl
  | updateLink r =>
    refine mem_updateRow.mpr ?_
    by_cases hkey : l.key = r.key
    · right
      obtain ⟨g, source, role, ref⟩ := l
      obtain ⟨g', source', role', ref'⟩ := r
      simp only [LinkRow.key, Prod.mk.injEq] at hkey
      obtain ⟨rfl, rfl, rfl⟩ := hkey
      have href' : ref' = store.episodeRef g := hw
      rw [href', ← href]
    · exact Or.inl ⟨hl, hkey⟩
  | _ => exact hl

theorem keepsLinks_applyAll {ws : List Write} (hws : ∀ w ∈ ws, store.BindsLinks w) :
    KeepsLinks store d (applyAll d ws) := by
  induction ws generalizing d with
  | nil => exact KeepsLinks.refl d
  | cons w rest ih =>
    exact (keepsLinks_apply (hws w List.mem_cons_self)).trans
      (ih fun w' hw' => hws w' (List.mem_cons_of_mem _ hw'))

end

/-- Both stores hold the same items and the same evidence of a context. -/
def SameItems (contextRef : String) (d d' : Db) : Prop :=
  d'.contextItems.filter (·.contextRef = contextRef) =
      d.contextItems.filter (·.contextRef = contextRef) ∧
    d'.contextEvidence.filter (·.contextRef = contextRef) =
      d.contextEvidence.filter (·.contextRef = contextRef)

/-- The write adds nothing to the context. -/
def Write.Spares (contextRef : String) : Write → Prop
  | .insertContextItem i => i.contextRef ≠ contextRef
  | .insertContextEvidence i => i.contextRef ≠ contextRef
  | _ => True

/-- A context that is stored gets no more items. -/
def KeepsContexts (d d' : Db) : Prop := ∀ c ∈ d.contexts, SameItems c.ref d d'

section

variable {d d' d'' : Db} {contextRef : String}

theorem KeepsContexts.of_eq (hi : d'.contextItems = d.contextItems)
    (he : d'.contextEvidence = d.contextEvidence) : KeepsContexts d d' :=
  fun _ _ => ⟨by rw [hi], by rw [he]⟩

theorem KeepsContexts.refl (d : Db) : KeepsContexts d d := .of_eq rfl rfl

theorem KeepsContexts.trans (h : KeepsContexts d d') (hg : Gains d d')
    (h' : KeepsContexts d' d'') : KeepsContexts d d'' := by
  intro c hc
  have h₁ := h c hc
  have h₂ := h' c (hg.contexts hc)
  exact ⟨h₂.1.trans h₁.1, h₂.2.trans h₁.2⟩

/-- A row that a filter drops leaves what it keeps. -/
theorem filter_insertRow {ρ κ : Type} [DecidableEq κ] {key : ρ → κ} {r : ρ} {t : List ρ}
    {p : ρ → Bool} (h : p r = false) : (insertRow key r t).filter p = t.filter p := by
  unfold insertRow
  split
  · rfl
  · simp [h]

theorem sameItems_apply {w : Write} (h : w.Spares contextRef) :
    SameItems contextRef d (d.apply w) := by
  cases w with
  | insertContextItem i => exact ⟨filter_insertRow (decide_eq_false h), rfl⟩
  | insertContextEvidence i => exact ⟨rfl, filter_insertRow (decide_eq_false h)⟩
  | _ => exact ⟨rfl, rfl⟩

theorem sameItems_applyAll {ws : List Write} (h : ∀ w ∈ ws, w.Spares contextRef) :
    SameItems contextRef d (applyAll d ws) := by
  induction ws generalizing d with
  | nil => exact ⟨rfl, rfl⟩
  | cons w rest ih =>
    have h₁ := sameItems_apply (d := d) (h w List.mem_cons_self)
    have h₂ := ih (d := d.apply w) fun w' hw' => h w' (List.mem_cons_of_mem _ hw')
    exact ⟨h₂.1.trans h₁.1, h₂.2.trans h₁.2⟩

end

/-! ## Keys -/

/-- Both stores hold the same rows under the keys of a written row. -/
def Keyed (w : Write) (d d' : Db) : Prop :=
  match w with
  | .insertSeed r => SameRows (fun s => s.ref = r.ref) d.seeds d'.seeds
  | .insertSeedVersion r | .updateSeedVersion r =>
    SameRows (fun v => v.ref = r.ref) d.seedVersions d'.seedVersions
  | .insertRecollection r => SameRows (fun s => s.ref = r.ref) d.recollections d'.recollections
  | .insertRecollectionVersion r | .updateRecollectionVersion r =>
    SameRows (fun v => v.ref = r.ref) d.recollectionVersions d'.recollectionVersions
  | .insertReceipt r => SameRows (fun x => x.key = r.key) d.receipts d'.receipts
  | .insertContext r => SameRows (fun c => c.ref = r.ref) d.contexts d'.contexts
  | _ => True

theorem Keyed.refl (w : Write) (d : Db) : Keyed w d d := by
  cases w <;> first | exact SameRows.refl _ | exact trivial

theorem Keyed.trans {w : Write} {d d' d'' : Db} (h : Keyed w d d') (h' : Keyed w d' d'') :
    Keyed w d d'' := by
  cases w <;> first | exact SameRows.trans h h' | exact trivial

/-- A row under other keys leaves these alone. -/
theorem keyed_apply {w w' : Write} (h : ∀ k ∈ w.rowKeys, k ∉ w'.rowKeys) (d : Db) :
    Keyed w' d (d.apply w) := by
  have hinsert : ∀ {ρ κ : Type} [DecidableEq κ] {key : ρ → κ} {k : κ} {r : ρ} {t : List ρ},
      key r ≠ k → SameRows (fun x => key x = k) t (insertRow key r t) := by
    intro ρ κ _ key k r t hne
    exact (sameRows_insertRow (p := fun x => key x = k) hne).symm
  have hupdate : ∀ {ρ κ : Type} [DecidableEq κ] {key : ρ → κ} {k : κ} {r : ρ} {t : List ρ},
      key r ≠ k → SameRows (fun x => key x = k) t (updateRow key r t) := by
    intro ρ κ _ key k r t hne
    refine (sameRows_updateRow (p := fun x => key x = k) (fun x y hxy => ?_) hne).symm
    simp only [hxy]
  cases w' with
  | insertSeed r' =>
    cases w with
    | insertSeed r =>
      refine hinsert (fun heq => h ⟨_, [r.ref]⟩ (List.mem_singleton.mpr rfl) ?_)
      simp [Write.rowKeys, heq]
    | _ => exact SameRows.refl _
  | insertSeedVersion r' | updateSeedVersion r' =>
    cases w with
    | insertSeedVersion r =>
      refine hinsert (fun heq => h ⟨_, [r.ref]⟩ (List.mem_singleton.mpr rfl) ?_)
      simp [Write.rowKeys, heq]
    | updateSeedVersion r =>
      refine hupdate (fun heq => h ⟨_, [r.ref]⟩ (List.mem_singleton.mpr rfl) ?_)
      simp [Write.rowKeys, heq]
    | _ => exact SameRows.refl _
  | insertRecollection r' =>
    cases w with
    | insertRecollection r =>
      refine hinsert (fun heq => h ⟨_, [r.ref]⟩ (List.mem_singleton.mpr rfl) ?_)
      simp [Write.rowKeys, heq]
    | _ => exact SameRows.refl _
  | insertRecollectionVersion r' | updateRecollectionVersion r' =>
    cases w with
    | insertRecollectionVersion r =>
      refine hinsert (fun heq => h ⟨_, [r.ref]⟩ (List.mem_singleton.mpr rfl) ?_)
      simp [Write.rowKeys, heq]
    | updateRecollectionVersion r =>
      refine hupdate (fun heq => h ⟨_, [r.ref]⟩ (List.mem_singleton.mpr rfl) ?_)
      simp [Write.rowKeys, heq]
    | _ => exact SameRows.refl _
  | insertReceipt r' =>
    cases w with
    | insertReceipt r =>
      refine hinsert (fun heq => h ⟨_, [r.owner.tenantRef, r.jobRef]⟩ (List.mem_singleton.mpr rfl) ?_)
      obtain ⟨ht, hj⟩ := Prod.mk.inj heq
      simp [Write.rowKeys, ht, hj]
    | _ => exact SameRows.refl _
  | insertContext r' =>
    cases w with
    | insertContext r =>
      refine hinsert (fun heq => h ⟨_, [r.ref]⟩ List.mem_cons_self ?_)
      simp [Write.rowKeys, heq]
    | _ => exact SameRows.refl _
  | _ => exact trivial

/-- A run, as contexts are known by it. -/
def ContextRow.run (c : ContextRow) : Scope × String := (c.scope, c.runRef)

/-- Both stores hold the same contexts of the run of a written one. -/
def RunKeyed (w : Write) (d d' : Db) : Prop :=
  match w with
  | .insertContext r => SameRows (fun c => c.run = r.run) d.contexts d'.contexts
  | _ => True

theorem RunKeyed.refl (w : Write) (d : Db) : RunKeyed w d d := by
  cases w <;> first | exact SameRows.refl _ | exact trivial

theorem RunKeyed.trans {w : Write} {d d' d'' : Db} (h : RunKeyed w d d') (h' : RunKeyed w d' d'') :
    RunKeyed w d d'' := by
  cases w <;> first | exact SameRows.trans h h' | exact trivial

theorem runKeyed_apply {w w' : Write} (h : ∀ k ∈ w.rowKeys, k ∉ w'.rowKeys) (d : Db) :
    RunKeyed w' d (d.apply w) := by
  cases w' with
  | insertContext r' =>
    cases w with
    | insertContext r =>
      refine (sameRows_insertRow (p := fun c : ContextRow => c.run = r'.run) fun heq => ?_).symm
      obtain ⟨hscope, hrun⟩ := Prod.mk.inj heq
      refine h ⟨"memory_contexts_run_key", r.scope.fields ++ [r.runRef]⟩ ?_ ?_
      · simp [Write.rowKeys]
      · simp [Write.rowKeys, hscope, hrun]
    | _ => exact SameRows.refl _
  | _ => exact trivial

/-- What every row under other keys leaves alone, a whole log under other keys does. -/
theorem applyAll_keyed {R : Db → Db → Prop} {keys : List RowKey} (hrefl : ∀ d, R d d)
    (htrans : ∀ {x y z}, R x y → R y z → R x z)
    (hstep : ∀ w : Write, (∀ k ∈ w.rowKeys, k ∉ keys) → ∀ d, R d (d.apply w)) {ws : List Write}
    (h : ∀ k ∈ logKeys Db ws, k ∉ keys) (d : Db) : R d (applyAll d ws) := by
  induction ws generalizing d with
  | nil => exact hrefl d
  | cons w rest ih =>
    unfold logKeys at h ih
    rw [List.flatMap_cons] at h
    refine htrans (hstep w (fun k hk => h k (List.mem_append_left _ hk)) d) (ih (fun k hk => ?_) _)
    exact h k (List.mem_append_right _ hk)

/-- A whole log under other keys. -/
theorem keyed_applyAll {w' : Write} {ws : List Write}
    (h : ∀ k ∈ logKeys Db ws, k ∉ w'.rowKeys) (d : Db) :
    Keyed w' d (applyAll d ws) ∧ RunKeyed w' d (applyAll d ws) :=
  ⟨applyAll_keyed (Keyed.refl w') Keyed.trans (fun _ hw => keyed_apply hw) h d,
    applyAll_keyed (RunKeyed.refl w') RunKeyed.trans (fun _ hw => runKeyed_apply hw) h d⟩

/-! ## The promise -/

/-- The owners whose Memory a transaction with these locks may read and change. -/
def Store.Locked (store : Store) (held : List String) (owner : OwnerScope) : Prop :=
  store.consolidationOwnerLockKey owner ∈ held

/-- How the others may have changed the store. -/
structure Permitted (store : Store) (l : Local Write String) (d d' : Db) : Prop where
  gains : Gains d d'
  grown : Grown d d'
  same : SameMemory (store.Locked l.held) d d'
  keyed : ∀ w ∈ l.log, Keyed w d d' ∧ RunKeyed w d d'
  links : KeepsLinks store d d'
  contexts : KeepsContexts d d'

def memoryPact (store : Store) : Pact Db Write String where
  inv := WorldLaw store
  rel := Permitted store
  refl := fun l d => ⟨Gains.refl d, Grown.refl d, SameMemory.refl _ d, fun w _ => ⟨Keyed.refl w d, RunKeyed.refl w d⟩,
    KeepsLinks.refl d, KeepsContexts.refl d⟩
  trans := fun l d d' d'' h h' => ⟨h.gains.trans h'.gains, h.grown.trans h'.grown,
    h.same.trans h'.same, fun w hw => ⟨(h.keyed w hw).1.trans (h'.keyed w hw).1,
      (h.keyed w hw).2.trans (h'.keyed w hw).2⟩, h.links.trans h'.links,
    h.contexts.trans h.gains h'.contexts⟩
  mono := by
    intro l l' d d' hl h
    obtain ⟨more, hmore⟩ := hl.log
    refine ⟨h.gains, h.grown, h.same.mono fun o ho => hl.held _ ho, fun w hw => h.keyed w ?_, h.links,
      h.contexts⟩
    rw [hmore]
    exact List.mem_append_left _ hw

/-- What its own locks and keys keep from the others. -/
theorem permitted_of_apart {store : Store} {l l' : Local Write String} {d : Db}
    (hapart : Apart (D := Db) l l') (hgrown : Grown d (applyAll d l.log))
    (hlinks : KeepsLinks store d (applyAll d l.log))
    (hcontexts : KeepsContexts d (applyAll d l.log))
    (hsame : ∀ o : OwnerScope → Prop, (∀ owner, o owner → ¬store.Locked l.held owner) →
      SameMemory o d (applyAll d l.log)) : Permitted store l' d (applyAll d l.log) := by
  refine ⟨gains_applyAll d l.log, hgrown, hsame _ fun owner ho hl => hapart.locks _ hl ho, ?_, hlinks,
    hcontexts⟩
  intro w hw
  refine keyed_applyAll (fun k hk hk' => hapart.keys k hk ?_) d
  exact List.mem_flatMap.mpr ⟨w, hw, hk'⟩

end ChoraMem
