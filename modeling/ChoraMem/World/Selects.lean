/-
A selection among other transactions.

A new context is frozen under a ref that no context has, and everything it names was
read as Memory of the owners the run may be shown.  A context that was frozen before
is answered from its rows, which the law of the store says were written so.
-/
import ChoraMem.World.Owners
import ChoraMem.World.Commit
import ChoraMem.World.Plain

namespace ChoraMem

open Txn

/-- Every entry is of one of these owners and has the text of what it names. -/
structure MemoryContext.Of (owners : List OwnerScope) (d : Db) (context : MemoryContext) :
    Prop where
  recollections : ∀ m ∈ context.recollections, MemoryOf owners .recollection m.memoryRef d ∧
    Worded .recollection m.memoryRef m.text d
  dispositions : ∀ m ∈ context.dispositions, MemoryOf owners .disposition m.memoryRef d ∧
    Worded .disposition m.memoryRef m.text d
  evidence : ∀ x ∈ context.episodeEvidence, EpisodeOf owners x.memoryRef x.text d

section

variable {store : Store} {d d' x : Db} {owners : List OwnerScope} {request : SelectRequest}
variable {context : MemoryContext}

theorem MemoryContext.Of.mono (h : context.Of owners d) (hg : Gains d d') (hgrown : Grown d d') :
    context.Of owners d' where
  recollections := fun m hm =>
    ⟨(h.recollections m hm).1.mono hg, (h.recollections m hm).2.mono hgrown⟩
  dispositions := fun m hm => ⟨(h.dispositions m hm).1.mono hg, (h.dispositions m hm).2.mono hgrown⟩
  evidence := fun y hy => (h.evidence y hy).mono hg

theorem Candidate.Of.mono {c : Candidate} (h : c.Of owners d) (hg : Gains d d')
    (hgrown : Grown d d') : c.Of owners d' :=
  ⟨h.memory.mono hg, h.text.mono hgrown, h.application.mono hg hgrown⟩

/-! ## Frozen contexts -/

theorem worded_itemMemory {item : ContextItemRow} {m : ContextMemory}
    (h : itemMemory d item = .ok m) : m.memoryRef = item.memoryRef ∧
      Worded item.kind m.memoryRef m.text d := by
  unfold itemMemory at h
  split at h
  · rename_i hkind
    split at h
    · cases h
    · rename_i v hv
      have hf := List.find?_some hv
      simp only [Bool.and_eq_true, decide_eq_true_eq] at hf
      obtain rfl := Except.ok.inj h
      rw [hkind]
      exact ⟨rfl, v, List.mem_of_find?_eq_some hv, hf.2, rfl⟩
  · rename_i hkind
    split at h
    · cases h
    · rename_i v hv
      have hf := List.find?_some hv
      simp only [Bool.and_eq_true, decide_eq_true_eq] at hf
      obtain rfl := Except.ok.inj h
      rw [hkind]
      exact ⟨rfl, v, List.mem_of_find?_eq_some hv, hf.2, rfl⟩

/-- The items of a context are of the owners its run may be shown. -/
theorem memoryOf_frozenItems (hd : WorldLaw store d) {c : ContextRow} (hc : c ∈ d.contexts)
    {i : ContextItemRow} (hi : i ∈ frozenItems c d) :
    MemoryOf (selectionOwners c.scope) i.kind i.memoryRef d := by
  unfold frozenItems at hi
  have hmem := List.mem_filter.mp ((List.mem_insertionSort _).mp hi)
  simp only [Bool.and_eq_true, decide_eq_true_eq] at hmem
  obtain ⟨c', hc', href, _, hof⟩ := hd.items i hmem.1
  obtain rfl := hd.contexts.eq hc' hc (href.trans hmem.2.2)
  exact hof

theorem of_frozenContext (hd : WorldLaw store d) {c : ContextRow} (hc : c ∈ d.contexts)
    (h : frozenContext c request d = .ok context) : context.Of (selectionOwners c.scope) d := by
  simp only [frozenContext, bind, Except.bind] at h
  split at h
  · cases h
  rename_i recollections hrecollections
  split at h
  · cases h
  rename_i dispositions hdispositions
  split at h
  · cases h
  obtain rfl := Except.ok.inj h
  have hitem : ∀ {kind : ItemKind} {items : List ContextItemRow} {ms : List ContextMemory}, (∀ i ∈ items, i ∈ frozenItems c d ∧ i.kind = kind) →
      items.mapM (itemMemory d) = .ok ms → ∀ m ∈ ms,
        MemoryOf (selectionOwners c.scope) kind m.memoryRef d ∧ Worded kind m.memoryRef m.text d := by
    intro kind items ms hitems hms m hm
    obtain ⟨i, hi, him⟩ := (mapM_ok hms).1 m hm
    obtain ⟨href, hw⟩ := worded_itemMemory him
    obtain ⟨hmem, rfl⟩ := hitems i hi
    have hof := memoryOf_frozenItems hd hc hmem
    rw [← href] at hof
    exact ⟨hof, hw⟩
  refine ⟨hitem (fun i hi => ?_) hrecollections, hitem (fun i hi => ?_) hdispositions, ?_⟩
  · simpa using List.mem_filter.mp hi
  · simpa using List.mem_filter.mp hi
  · intro y hy
    obtain ⟨i, hi, rfl⟩ := List.mem_map.mp hy
    unfold frozenEvidence at hi
    have hmem := List.mem_filter.mp ((List.mem_insertionSort _).mp hi)
    simp only [Bool.and_eq_true, decide_eq_true_eq] at hmem
    obtain ⟨c', hc', href, _, hof⟩ := hd.evidence i hmem.1
    obtain rfl := hd.contexts.eq hc' hc (href.trans hmem.2.2)
    exact hof

theorem of_loadMemoryContext (hd : WorldLaw store d) {hash : String}
    (h : loadMemoryContext request hash d = .ok (some context)) :
    context.Of (selectionOwners request.scope) d := by
  unfold loadMemoryContext at h
  split at h
  · cases h
  rename_i c hc
  have hf := List.find?_some hc
  simp only [Bool.and_eq_true, decide_eq_true_eq] at hf
  split at h
  · cases h
  cases hfrozen : frozenContext c request d with
  | error e =>
    rw [hfrozen] at h
    cases h
  | ok found =>
    rw [hfrozen] at h
    obtain rfl := Option.some.inj (Except.ok.inj h)
    rw [← hf.1]
    exact of_frozenContext hd (List.mem_of_find?_eq_some hc) hfrozen

/-! ## New contexts -/

/-- A row of a context, for Memory and evidence of these owners. -/
def FrozenRow (tenantRef contextRef : String) (owners : List OwnerScope) (d : Db) : Write → Prop
  | .insertContextItem i => i.tenantRef = tenantRef ∧ i.contextRef = contextRef ∧
      MemoryOf owners i.kind i.memoryRef d
  | .insertContextEvidence i => i.tenantRef = tenantRef ∧ i.contextRef = contextRef ∧
      EpisodeOf owners i.episodeRef i.text d
  | _ => False

/-- The rows of a context that is frozen with these activations and this evidence. -/
def Store.frozenRows (store : Store) (request : SelectRequest) (activations : List Activation)
    (evidence : List FrozenEpisodeEvidence) : List Write :=
  activations.zipIdx.map (fun a =>
      .insertContextItem (Activation.item request.scope.tenantRef (store.contextRow request).ref a)) ++
    evidence.zipIdx.map fun y =>
      .insertContextEvidence (FrozenEpisodeEvidence.row request.scope.tenantRef
        (store.contextRow request).ref y)

/-- What is frozen was read of the owners that the run may be shown. -/
structure Freezes (request : SelectRequest) (activations : List Activation)
    (candidates : List Candidate) (evidence : List FrozenEpisodeEvidence) (d : Db) : Prop where
  memories : ∀ a ∈ activations, MemoryOf (selectionOwners request.scope) a.kind a.versionRef d
  texts : ∀ a ∈ activations, Worded a.kind a.versionRef (candidateText candidates a) d
  applications : ∀ a ∈ activations, AppliedAs a.kind a.versionRef a.application d
  owned : ∀ y ∈ evidence, y.Of (selectionOwners request.scope) d
  /-- No ref means two kinds of memory. -/
  claims : ∃ kinds, validateSelectedMemoryRefs request.constitution activations evidence = .ok kinds

/-- What a selection that commits in `d` has done. -/
inductive Selected (store : Store) (request : SelectRequest) (d : Db) (context : MemoryContext)
    (log : List Write) : Prop
  | again {x : Db} (hvalid : validSelectRequest request = true) (hx : WorldLaw store x)
      (hgains : Gains x d) (hgrown : Grown x d) (hcontexts : KeepsContexts x d)
      (hfound : loadMemoryContext request (store.memoryRequestHash request) x = .ok (some context))
      (hlog : log = [])
  | froze {activations : List Activation} {candidates : List Candidate}
      {evidence : List FrozenEpisodeEvidence} (hvalid : validSelectRequest request = true)
      (hfree : ∀ c ∈ d.contexts, c.ref ≠ (store.contextRow request).ref ∧
        c.run ≠ (store.contextRow request).run)
      (hlog : log = .insertContext (store.contextRow request) ::
        store.frozenRows request activations evidence)
      (hcontext : context = buildMemoryContext (store.contextRow request).ref request activations
        candidates evidence)
      (hfreezes : Freezes request activations candidates evidence d)

theorem Freezes.rows {activations : List Activation} {candidates : List Candidate}
    {evidence : List FrozenEpisodeEvidence} (h : Freezes request activations candidates evidence d) :
    ∀ w ∈ store.frozenRows request activations evidence,
      FrozenRow request.scope.tenantRef (store.contextRow request).ref
        (selectionOwners request.scope) d w := by
  intro w hw
  rcases List.mem_append.mp hw with hw | hw
  · obtain ⟨a, ha, rfl⟩ := List.mem_map.mp hw
    exact ⟨rfl, rfl, h.memories a.1 (List.fst_mem_of_mem_zipIdx ha)⟩
  · obtain ⟨y, hy, rfl⟩ := List.mem_map.mp hw
    exact ⟨rfl, rfl, h.owned y.1 (List.fst_mem_of_mem_zipIdx hy)⟩

theorem Freezes.of {activations : List Activation} {candidates : List Candidate}
    {evidence : List FrozenEpisodeEvidence} (h : Freezes request activations candidates evidence d)
    (contextRef : String) : (buildMemoryContext contextRef request activations candidates evidence).Of
      (selectionOwners request.scope) d := by
  have hmemories : ∀ kind, ∀ m ∈ activatedMemories kind activations candidates,
      MemoryOf (selectionOwners request.scope) kind m.memoryRef d ∧ Worded kind m.memoryRef m.text d := by
    intro kind m hm
    obtain ⟨a, ha, rfl⟩ := List.mem_map.mp hm
    obtain ⟨hmem, hkind⟩ := List.mem_filter.mp ha
    obtain rfl : a.kind = kind := by simpa using hkind
    exact ⟨h.memories a hmem, h.texts a hmem⟩
  refine ⟨hmemories .recollection, hmemories .disposition, ?_⟩
  intro x hx
  obtain ⟨y, hy, rfl⟩ := List.mem_map.mp hx
  exact h.owned y hy

theorem worldLaw_frozenRow (hd : WorldLaw store d) {c : ContextRow} (hc : c ∈ d.contexts) {w : Write}
    (hw : FrozenRow c.scope.tenantRef c.ref (selectionOwners c.scope) d w) :
    WorldLaw store (d.apply w) ∧ SameShelves d (d.apply w) ∧ (d.apply w).contexts = d.contexts := by
  have hsame : SameShelves d (d.apply w) := by
    cases w <;> first | exact ⟨rfl, rfl, rfl, rfl, rfl, rfl, rfl, rfl⟩ | exact hw.elim
  have hcontexts : (d.apply w).contexts = d.contexts := by
    cases w <;> first | rfl | exact hw.elim
  have hepisodes : (d.apply w).episodes = d.episodes := by
    cases w <;> first | rfl | exact hw.elim
  have hdeliveries : (d.apply w).deliveries = d.deliveries := by
    cases w <;> first | rfl | exact hw.elim
  have hg := gains_apply d w
  refine ⟨⟨hsame.memoryLaw hd.memory, ?_, ?_, ?_, ?_, ?_, ?_, ?_, keysUnique_sources hd.sources w⟩,
    hsame, hcontexts⟩
  · rw [hepisodes]
    exact hd.episodes
  · rw [hsame.seeds]
    exact hd.seedRefs
  · rw [hdeliveries]
    exact hd.deliveries
  · intro b hb
    rw [hsame.seedBasis] at hb
    exact (hd.cited b hb).mono hg
  · rw [hcontexts]
    exact hd.contexts
  · intro i hi
    have hcases : i ∈ d.contextItems ∨ w = .insertContextItem i := by
      cases w with
      | insertContextItem r =>
        rcases mem_insertRow_id.mp (show i ∈ insertRow id r d.contextItems from hi) with hi | rfl
        · exact Or.inl hi
        · exact Or.inr rfl
      | insertContextEvidence r => exact Or.inl hi
      | _ => exact hw.elim
    rcases hcases with hi | rfl
    · obtain ⟨c', hc', href, ht, hmem⟩ := hd.items i hi
      exact ⟨c', hg.contexts hc', href, ht, hmem.mono hg⟩
    · exact ⟨c, hg.contexts hc, hw.2.1.symm, hw.1.symm, hw.2.2.mono hg⟩
  · intro i hi
    have hcases : i ∈ d.contextEvidence ∨ w = .insertContextEvidence i := by
      cases w with
      | insertContextEvidence r =>
        rcases mem_insertRow_id.mp (show i ∈ insertRow id r d.contextEvidence from hi) with hi | rfl
        · exact Or.inl hi
        · exact Or.inr rfl
      | insertContextItem r => exact Or.inl hi
      | _ => exact hw.elim
    rcases hcases with hi | rfl
    · obtain ⟨c', hc', href, ht, hmem⟩ := hd.evidence i hi
      exact ⟨c', hg.contexts hc', href, ht, hmem.mono hg⟩
    · exact ⟨c, hg.contexts hc, hw.2.1.symm, hw.1.symm, hw.2.2.mono hg⟩

theorem FrozenRow.mono {tenantRef contextRef : String} {w : Write}
    (h : FrozenRow tenantRef contextRef owners d w) (hg : Gains d d') :
    FrozenRow tenantRef contextRef owners d' w := by
  cases w with
  | insertContextItem i => exact ⟨h.1, h.2.1, h.2.2.mono hg⟩
  | insertContextEvidence i => exact ⟨h.1, h.2.1, h.2.2.mono hg⟩
  | _ => exact h.elim

theorem worldLaw_frozenRows (hd : WorldLaw store d) {c : ContextRow} (hc : c ∈ d.contexts)
    {ws : List Write}
    (hws : ∀ w ∈ ws, FrozenRow c.scope.tenantRef c.ref (selectionOwners c.scope) d w) :
    WorldLaw store (applyAll d ws) ∧ SameShelves d (applyAll d ws) := by
  induction ws generalizing d with
  | nil => exact ⟨hd, SameShelves.refl d⟩
  | cons w rest ih =>
    obtain ⟨hlaw, hsame, hcontexts⟩ := worldLaw_frozenRow hd hc (hws w List.mem_cons_self)
    have hc' : c ∈ (d.apply w).contexts := by
      rw [hcontexts]
      exact hc
    obtain ⟨hlaw', hsame'⟩ := ih hlaw hc' fun w' hw' =>
      (hws w' (List.mem_cons_of_mem _ hw')).mono (gains_apply d w)
    exact ⟨hlaw', hsame.trans hsame'⟩

/-- A context under a ref that no context has. -/
theorem worldLaw_insertContext (hd : WorldLaw store d) {r : ContextRow}
    (hfree : ∀ c ∈ d.contexts, c.ref ≠ r.ref) :
    WorldLaw store (d.apply (.insertContext r)) ∧ SameShelves d (d.apply (.insertContext r)) ∧
      r ∈ (d.apply (.insertContext r)).contexts := by
  have hg := gains_apply d (.insertContext r)
  have hnew : (d.apply (.insertContext r)).contexts = d.contexts ++ [r] := insertRow_fresh hfree
  refine ⟨⟨hd.memory.congr rfl rfl rfl rfl rfl rfl rfl, hd.episodes, hd.seedRefs, hd.deliveries,
    hd.cited, hd.contexts.insertRow r, ?_, ?_, hd.sources⟩, ⟨rfl, rfl, rfl, rfl, rfl, rfl, rfl, rfl⟩, ?_⟩
  · intro i hi
    obtain ⟨c', hc', href, ht, hmem⟩ := hd.items i hi
    exact ⟨c', hg.contexts hc', href, ht, hmem.mono hg⟩
  · intro i hi
    obtain ⟨c', hc', href, ht, hmem⟩ := hd.evidence i hi
    exact ⟨c', hg.contexts hc', href, ht, hmem.mono hg⟩
  · rw [hnew]
    exact List.mem_append_right _ (List.mem_singleton.mpr rfl)

theorem Selected.keeps {log : List Write} (h : Selected store request d context log)
    (hd : WorldLaw store d) : WorldLaw store (applyAll d log) ∧ SameShelves d (applyAll d log) := by
  cases h with
  | again _ _ _ _ _ _ hlog =>
    subst hlog
    exact ⟨hd, SameShelves.refl d⟩
  | froze _ hfree hlog _ hfreezes =>
    subst hlog
    obtain ⟨hlaw, hsame, hmem⟩ := worldLaw_insertContext hd fun c hc => (hfree c hc).1
    obtain ⟨hlaw', hsame'⟩ := worldLaw_frozenRows hlaw hmem fun w hw =>
      (hfreezes.rows w hw).mono (gains_apply d _)
    exact ⟨hlaw', hsame.trans hsame'⟩

theorem Selected.bindsLinks {log : List Write} (h : Selected store request d context log) :
    ∀ w ∈ log, store.BindsLinks w := by
  cases h with
  | again _ _ _ _ _ _ hlog =>
    subst hlog
    exact fun w hw => absurd hw List.not_mem_nil
  | froze _ _ hlog _ hfreezes =>
    subst hlog
    intro w hw
    rcases List.mem_cons.mp hw with rfl | hw
    · exact trivial
    · have hrow := @Freezes.rows store _ _ _ _ _ hfreezes w hw
      cases w <;> first | exact trivial | exact hrow.elim

/-- A new context adds nothing to the stored ones. -/
theorem Selected.keepsContexts {log : List Write} (h : Selected store request d context log) :
    KeepsContexts d (applyAll d log) := by
  cases h with
  | again _ _ _ _ _ _ hlog =>
    subst hlog
    exact KeepsContexts.refl d
  | froze _ hfree hlog _ hfreezes =>
    subst hlog
    intro c hc
    refine sameItems_applyAll fun w hw => ?_
    rcases List.mem_cons.mp hw with rfl | hw
    · exact trivial
    · have hrow := @Freezes.rows store _ _ _ _ _ hfreezes w hw
      have hne := (hfree c hc).1
      cases w with
      | insertContextItem i => exact fun heq => hne (heq.symm.trans hrow.2.1)
      | insertContextEvidence i => exact fun heq => hne (heq.symm.trans hrow.2.1)
      | _ => exact trivial

/-- A returned context shows Memory of the owners of its run only. -/
theorem Selected.of {log : List Write} (h : Selected store request d context log) :
    context.Of (selectionOwners request.scope) d := by
  cases h with
  | again _ hx hgains hgrown _ hfound _ => exact (of_loadMemoryContext hx hfound).mono hgains hgrown
  | froze _ _ _ hcontext hfreezes =>
    subst hcontext
    exact hfreezes.of _

/-! ## Its statements -/

variable {l : Local Write String} {e : Db}

/-- An insert that goes through found its key free, and has it from then on. -/
theorem ends_insertFresh {taken : Db → Bool} {w : Write} {operation : String}
    {Q : Unit → Local Write String → Db → Prop}
    (h : ∀ e', (memoryPact store).Between l e e' d → Keyed w e' d ∧ RunKeyed w e' d →
      taken (applyAll e' l.log) = false → Q () { l with log := l.log ++ [w] } e') :
    (memoryPact store).Ends d (insertFresh taken w operation) Q l e := by
  intro e' hb hrel
  dsimp only at hrel ⊢
  cases ht : taken (applyAll e' l.log) with
  | true => exact trivial
  | false =>
    simp only [ht, Bool.false_eq_true, if_false] at hrel ⊢
    exact h e' hb (hrel.keyed w (List.mem_append_right _ (List.mem_singleton.mpr rfl))) ht

/-- Inserts that all go through have written their rows in order. -/
theorem ends_forEach_insertFresh {α : Type} {taken : α → Db → Bool} {w : α → Write}
    {operation : String} {xs : List α} :
    (memoryPact store).Ends d (Prog.forEach (fun a => insertFresh (taken a) (w a) operation) xs)
      (fun _ l' _ => l'.log = l.log ++ xs.map w) l e := by
  induction xs generalizing l e with
  | nil => exact (List.append_nil _).symm
  | cons a rest ih =>
    refine Pact.Ends.bind (ends_insertFresh fun e' _ _ _ => Pact.Ends.conseq ih fun _ l' _ h => ?_)
    rw [h, List.map_cons, List.append_assoc]
    rfl

theorem ends_freezeContext {activations : List Activation}
    {evidence : List FrozenEpisodeEvidence} (hlog : l.log = []) :
    (memoryPact store).Ends d (store.freezeContext request activations evidence)
      (fun _ l' _ => (∀ c ∈ d.contexts, c.ref ≠ (store.contextRow request).ref ∧
          c.run ≠ (store.contextRow request).run) ∧
        l'.log = .insertContext (store.contextRow request) ::
          store.frozenRows request activations evidence) l e := by
  unfold Store.freezeContext
  refine Pact.Ends.bind (ends_insertFresh fun e₁ hb hkeyed hfree => ?_)
  have hnone : ∀ c ∈ d.contexts, c.ref ≠ (store.contextRow request).ref ∧
      c.run ≠ (store.contextRow request).run := by
    intro c hc
    rw [hlog, applyAll_nil] at hfree
    have hno := List.any_eq_false.mp hfree
    constructor
    · intro href
      have hc₁ := hno c ((hkeyed.1 c href).mpr hc)
      simp [href] at hc₁
    · intro hrun
      have hc₁ := hno c ((hkeyed.2 c hrun).mpr hc)
      obtain ⟨hscope, hrunRef⟩ := Prod.mk.inj hrun
      simp [hscope, hrunRef] at hc₁
  refine Pact.Ends.bind (Pact.Ends.conseq ends_forEach_insertFresh fun _ l₁ _ h₁ => ?_)
  refine Pact.Ends.conseq ends_forEach_insertFresh fun _ l₂ _ h₂ => ⟨hnone, ?_⟩
  rw [h₂, h₁, hlog]
  rfl

theorem ends_assembleContext {index : Option MemoryIndex} (hlog : l.log = [])
    (hvalid : validSelectRequest request = true) :
    (memoryPact store).Ends d (store.assembleContext index request)
      (fun context l' _ => Selected store request d context l'.log) l e := by
  unfold Store.assembleContext
  refine ends_selectOrFail fun e₀ hb₀ queries _ => ?_
  dsimp only
  refine Pact.Ends.select fun e₁ hb₁ => Pact.Ends.select fun e₂ hb₂ =>
    Pact.Ends.select fun e₃ hb₃ => Pact.Ends.select fun e₄ hb₄ => ?_
  rw [hlog, applyAll_nil, applyAll_nil, applyAll_nil, applyAll_nil]
  have hlaw : ∀ {x y}, (memoryPact store).Between l x y d → WorldLaw store y := fun hb => hb.inv
  have hevidence : ∀ y ∈ loadEpisodeEvidence request (searchSelectionIndex index request.scope queries
      defaultPolicy.canonicalCandidatesPerOwnerKind) e₁,
      y.Of (selectionOwners request.scope) d := by
    intro y hy
    exact (of_loadEpisodeEvidence (fun _ ha => scope_of_search ha) hy).mono hb₁.before.gains
  have hcandidates : ∀ c ∈ unionSelectionCandidates
      (loadRecollectionCandidates request.scope defaultPolicy.canonicalCandidatesPerOwnerKind none e₂ ++
        loadDispositionCandidates request.scope defaultPolicy.canonicalCandidatesPerOwnerKind none e₃)
      (loadIndexedSelectionCandidates request.scope (searchSelectionIndex index request.scope queries
        defaultPolicy.canonicalCandidatesPerOwnerKind) e₄),
      c.Of (selectionOwners request.scope) d := by
    refine of_unionSelectionCandidates fun c hc => ?_
    simp only [List.mem_append] at hc
    rcases hc with (hc | hc) | hc
    · exact (of_loadRecollectionCandidates (hlaw hb₂).memory
        (fun _ ho => catalogue_selectionOwners ho) hc).mono hb₂.before.gains hb₂.before.grown
    · exact (of_loadDispositionCandidates (hlaw hb₃).memory
        (fun _ ho => catalogue_selectionOwners ho) hc).mono hb₃.before.gains hb₃.before.grown
    · obtain ⟨owner, howner, hc⟩ := List.mem_flatMap.mp hc
      exact (of_laneCandidates (hlaw hb₄).memory howner hc).mono hb₄.before.gains hb₄.before.grown
  split
  · exact trivial
  rename_i activations hselect
  have hfrom := from_select hselect
  split
  · exact trivial
  rename_i kinds hclaims
  refine Pact.Ends.bind (Pact.Ends.conseq (ends_freezeContext hlog) fun _ l' e' h => ?_)
  refine .froze hvalid h.1 h.2 rfl ⟨?_, ?_, ?_, hevidence, kinds, hclaims⟩
  · intro a ha
    obtain ⟨c, hc, _, _, _, rfl⟩ := hfrom a ha
    exact (hcandidates c hc).memory
  · intro a ha
    obtain ⟨c, hc, hac⟩ := hfrom a ha
    exact worded_candidateText hcandidates ⟨c, hc, hac.shows⟩
  · intro a ha
    obtain ⟨c, hc, _, _, _, rfl⟩ := hfrom a ha
    exact (hcandidates c hc).application

theorem ends_selectMemory {index : Option MemoryIndex} (hlog : l.log = []) :
    (memoryPact store).Ends d (store.selectMemory index request)
      (fun context l' _ => Selected store request d context l'.log) l e := by
  unfold Store.selectMemory
  split
  · exact trivial
  rename_i hinvalid
  have hvalid : validSelectRequest request = true := by simpa using hinvalid
  refine Pact.Ends.acquire fun e₀ _ _ => ends_selectOrFail fun e₁ hb found hfound => ?_
  dsimp only at hfound
  rw [hlog, applyAll_nil] at hfound
  cases found with
  | some context =>
    exact .again hvalid hb.inv hb.before.gains hb.before.grown hb.before.contexts hfound hlog
  | none => exact ends_assembleContext hlog hvalid

end

end ChoraMem
