/-
Contexts among other transactions.

A run's context is frozen by one commit and answered from its rows ever after.  Its items
name versions, which keep their text, and stored contexts get no more items, so whatever
commits in between the same request is answered with the same context, and another valid
request of the run with a conflict.
-/
import ChoraMem.World.Isolation
import ChoraMem.World.Receipts

namespace ChoraMem

open Txn

section

variable {store : Store} {d d' x y : Db} {request : SelectRequest} {context : MemoryContext}

/-! ## Items -/

/-- The memory that an item of a context shows. -/
def ItemShows (item : ContextItemRow) (m : ContextMemory) (d : Db) : Prop :=
  m.memoryRef = item.memoryRef ∧
    match item.kind with
    | .recollection => ∃ v ∈ d.recollectionVersions, v.tenantRef = item.tenantRef ∧
        v.ref = item.memoryRef ∧ v.text = m.text ∧ v.application = m.application
    | .disposition => ∃ v ∈ d.seedVersions, v.tenantRef = item.tenantRef ∧
        v.ref = item.memoryRef ∧ v.tendency = m.text ∧ ∃ s ∈ d.seeds, s.ref = v.seedRef ∧
          m.application = if s.owner.kind = .agent then "self" else "relation"

/-- The root that a version belongs to is the only one of its ref. -/
theorem MemoryLaw.agent_iff (h : MemoryLaw d) {v : SeedVersionRow} (hv : v ∈ d.seedVersions)
    {s : SeedRow} (hs : s ∈ d.seeds) (href : s.ref = v.seedRef) :
    (d.seeds.any fun s => decide (s.owner.tenantRef = v.tenantRef) && decide (s.ref = v.seedRef) &&
      s.owner.kind == .agent) = true ↔ s.owner.kind = .agent := by
  simp only [List.any_eq_true, Bool.and_eq_true, decide_eq_true_eq, beq_iff_eq]
  constructor
  · rintro ⟨t, ht, ⟨_, htref⟩, hkind⟩
    rw [← h.keys.seeds.eq ht hs (htref.trans href.symm)]
    exact hkind
  · exact fun hkind => ⟨s, hs, ⟨(h.seedTenant hv hs href).symm, href⟩, hkind⟩

theorem itemMemory_iff (h : MemoryLaw d) {item : ContextItemRow} {m : ContextMemory} :
    itemMemory d item = .ok m ↔ ItemShows item m d := by
  unfold itemMemory ItemShows
  cases hkind : item.kind with
  | recollection =>
    dsimp only
    constructor
    · intro hok
      split at hok
      · cases hok
      · rename_i v hv
        have hf := List.find?_some hv
        simp only [Bool.and_eq_true, decide_eq_true_eq] at hf
        obtain rfl := Except.ok.inj hok
        exact ⟨rfl, v, List.mem_of_find?_eq_some hv, hf.1, hf.2, rfl, rfl⟩
    · rintro ⟨href, v, hv, htenant, hvref, htext, happlication⟩
      split
      · rename_i hnone
        exact absurd (List.find?_eq_none.mp hnone v hv) (by simp [htenant, hvref])
      · rename_i v' hv'
        have hf := List.find?_some hv'
        simp only [Bool.and_eq_true, decide_eq_true_eq] at hf
        obtain rfl := h.keys.recollectionVersions.eq (List.mem_of_find?_eq_some hv') hv
          (hf.2.trans hvref.symm)
        rw [htext, happlication, ← href]
  | disposition =>
    dsimp only
    constructor
    · intro hok
      split at hok
      · cases hok
      · rename_i v hv
        have hf := List.find?_some hv
        have hmem := List.mem_of_find?_eq_some hv
        simp only [Bool.and_eq_true, decide_eq_true_eq] at hf
        obtain rfl := Except.ok.inj hok
        obtain ⟨r, ⟨s, hs, rfl⟩, href⟩ := h.seeds.rooted v hmem
        refine ⟨rfl, v, hmem, hf.1, hf.2, rfl, s, hs, href, ?_⟩
        have hiff := h.agent_iff hmem hs href
        dsimp only
        by_cases hagent : s.owner.kind = .agent
        · rw [if_pos hagent, if_pos (hiff.mpr hagent)]
        · rw [if_neg hagent, if_neg fun hno => hagent (hiff.mp hno)]
    · rintro ⟨href, v, hv, htenant, hvref, htext, s, hs, hsref, happlication⟩
      split
      · rename_i hnone
        exact absurd (List.find?_eq_none.mp hnone v hv) (by simp [htenant, hvref])
      · rename_i v' hv'
        have hf := List.find?_some hv'
        simp only [Bool.and_eq_true, decide_eq_true_eq] at hf
        obtain rfl := h.keys.seedVersions.eq (List.mem_of_find?_eq_some hv') hv
          (hf.2.trans hvref.symm)
        have hiff := h.agent_iff hv hs hsref
        obtain ⟨mref, mtext, mapplication⟩ := m
        dsimp only at href htext happlication ⊢
        rw [href, ← htext, happlication]
        by_cases hagent : s.owner.kind = .agent
        · rw [if_pos hagent, if_pos (hiff.mpr hagent)]
        · rw [if_neg hagent, if_neg fun hno => hagent (hiff.mp hno)]

/-- A version keeps what an item shows of it. -/
theorem ItemShows.mono {item : ContextItemRow} {m : ContextMemory} (h : ItemShows item m d) (hg : Gains d d')
    (hgrown : Grown d d') : ItemShows item m d' := by
  obtain ⟨href, hshown⟩ := h
  refine ⟨href, ?_⟩
  cases hkind : item.kind with
  | recollection =>
    rw [hkind] at hshown
    obtain ⟨v, hv, hrest⟩ := hshown
    rcases hgrown.recollections.versions v hv with hv' | ⟨_, hv'⟩
    · exact ⟨v, hv', hrest⟩
    · exact ⟨_, hv', hrest⟩
  | disposition =>
    rw [hkind] at hshown
    obtain ⟨v, hv, htenant, hvref, htext, s, hs, hrest⟩ := hshown
    rcases hgrown.seeds.versions v hv with hv' | ⟨_, hv'⟩
    · exact ⟨v, hv', htenant, hvref, htext, s, hg.seeds hs, hrest⟩
    · exact ⟨_, hv', htenant, hvref, htext, s, hg.seeds hs, hrest⟩

theorem mapM_mono {α β ε : Type} {f g : α → Except ε β} {l : List α} {l' : List β}
    (hfg : ∀ a ∈ l, ∀ b, f a = .ok b → g a = .ok b) (h : l.mapM f = .ok l') : l.mapM g = .ok l' := by
  induction l generalizing l' with
  | nil => exact h
  | cons a rest ih =>
    rw [List.mapM_cons] at h ⊢
    cases hf : f a with
    | error e =>
      rw [hf] at h
      cases h
    | ok b =>
      rw [hf] at h
      rw [hfg a List.mem_cons_self b hf]
      cases hrest : rest.mapM f with
      | error e =>
        simp only [bind, Except.bind, hrest] at h
        cases h
      | ok bs =>
        simp only [bind, Except.bind, hrest] at h
        rw [show rest.mapM g = .ok bs from
          ih (fun a ha => hfg a (List.mem_cons_of_mem _ ha)) hrest]
        exact h

/-! ## Stored contexts -/

theorem frozenItems_same {c : ContextRow} (h : SameItems c.ref d d') :
    frozenItems c d' = frozenItems c d ∧ frozenEvidence c d' = frozenEvidence c d := by
  have hfilter : ∀ {ρ : Type} {p q : ρ → Bool} {t u : List ρ}, u.filter q = t.filter q →
      (u.filter fun i => p i && q i) = t.filter fun i => p i && q i := by
    intro ρ p q t u hsame
    rw [← List.filter_filter, ← List.filter_filter, hsame]
  unfold frozenItems frozenEvidence
  exact ⟨congrArg (List.insertionSort _) (hfilter h.1), congrArg (List.insertionSort _) (hfilter h.2)⟩

theorem frozenContext_later (hd : MemoryLaw d) (hd' : MemoryLaw d') (hg : Gains d d')
    (hgrown : Grown d d') (hcontexts : KeepsContexts d d') {c : ContextRow} (hc : c ∈ d.contexts)
    (h : frozenContext c request d = .ok context) : frozenContext c request d' = .ok context := by
  have hitem : ∀ item m, itemMemory d item = .ok m → itemMemory d' item = .ok m :=
    fun item m hm => (itemMemory_iff hd').mpr (((itemMemory_iff hd).mp hm).mono hg hgrown)
  obtain ⟨hitems, hevidence⟩ := frozenItems_same (hcontexts c hc)
  simp only [frozenContext, bind, Except.bind] at h ⊢
  rw [hitems, hevidence]
  split at h
  · cases h
  rename_i recollections hrecollections
  split at h
  · cases h
  rename_i dispositions hdispositions
  rw [mapM_mono (fun item _ => hitem item) hrecollections,
    mapM_mono (fun item _ => hitem item) hdispositions]
  exact h

/-- The context of a request is stored and is answered like this. -/
def Store.Frozen (store : Store) (request : SelectRequest) (context : MemoryContext) (d : Db) :
    Prop :=
  ∃ c ∈ d.contexts, c.run = (request.scope, request.runRef) ∧
    c.requestHash = store.memoryRequestHash request ∧ frozenContext c request d = .ok context

theorem Store.Frozen.later (h : store.Frozen request context d) (hd : MemoryLaw d) (hd' : MemoryLaw d')
    (hg : Gains d d') (hgrown : Grown d d') (hcontexts : KeepsContexts d d') :
    store.Frozen request context d' := by
  obtain ⟨c, hc, hrun, hhash, hfrozen⟩ := h
  exact ⟨c, hg.contexts hc, hrun, hhash, frozenContext_later hd hd' hg hgrown hcontexts hc hfrozen⟩

/-- No two contexts are of one run. -/
def Db.OneContext (d : Db) : Prop := KeysUnique ContextRow.run d.contexts

theorem load_of_run (h : d.OneContext) {c : ContextRow} (hc : c ∈ d.contexts) {request : SelectRequest}
    (hrun : c.run = (request.scope, request.runRef)) (hash : String) :
    loadMemoryContext request hash d =
      if c.requestHash != hash then .error ⟨.runConflict, request.runRef, ""⟩
      else (frozenContext c request d).map some := by
  obtain ⟨hscope, hrunRef⟩ := Prod.mk.inj hrun
  unfold loadMemoryContext
  split
  · rename_i hnone
    exact absurd (List.find?_eq_none.mp hnone c hc) (by simp [hscope, hrunRef])
  · rename_i c' hc'
    have hf := List.find?_some hc'
    simp only [Bool.and_eq_true, decide_eq_true_eq] at hf
    have hrun' : c'.run = c.run := by
      rw [hrun]
      exact Prod.ext hf.1 hf.2
    rw [KeysUnique.eq h (List.mem_of_find?_eq_some hc') hc hrun']

theorem frozen_of_load (h : loadMemoryContext request (store.memoryRequestHash request) d =
    .ok (some context)) : store.Frozen request context d := by
  unfold loadMemoryContext at h
  split at h
  · cases h
  rename_i c hc
  have hf := List.find?_some hc
  simp only [Bool.and_eq_true, decide_eq_true_eq] at hf
  split at h
  · cases h
  rename_i hhash
  refine ⟨c, List.mem_of_find?_eq_some hc, Prod.ext hf.1 hf.2, by simpa using hhash, ?_⟩
  cases hfrozen : frozenContext c request d with
  | error e =>
    rw [hfrozen] at h
    cases h
  | ok found =>
    rw [hfrozen] at h
    rw [Option.some.inj (Except.ok.inj h)]

theorem Store.Frozen.load (h : store.Frozen request context d) (hone : d.OneContext) :
    loadMemoryContext request (store.memoryRequestHash request) d = .ok (some context) := by
  obtain ⟨c, hc, hrun, hhash, hfrozen⟩ := h
  rw [load_of_run hone hc hrun, hhash, hfrozen]
  simp [Except.map]

/-! ## Freezing -/

theorem tenant_selectionOwners {scope : Scope} {owner : OwnerScope} (h : owner ∈ selectionOwners scope) :
    owner.tenantRef = scope.tenantRef := by
  unfold selectionOwners at h
  rcases List.mem_cons.mp h with rfl | h
  · rfl
  · split at h
    · rw [List.mem_singleton.mp h]
      rfl
    · cases h

/-- An activated memory as its item will show it. -/
theorem Freezes.shown {activations : List Activation} {candidates : List Candidate}
    {evidence : List FrozenEpisodeEvidence} (h : Freezes request activations candidates evidence d)
    (hd : MemoryLaw d) {a : Activation × Nat} (ha : a.1 ∈ activations) (contextRef : String) :
    ItemShows (Activation.item request.scope.tenantRef contextRef a)
      ⟨a.1.versionRef, candidateText candidates a.1, a.1.application⟩ d := by
  have hmemory := h.memories a.1 ha
  have htext := h.texts a.1 ha
  have happlication := h.applications a.1 ha
  refine ⟨rfl, ?_⟩
  show match a.1.kind with
    | .recollection => _
    | .disposition => _
  cases hkind : a.1.kind with
  | recollection =>
    rw [hkind] at hmemory htext happlication
    obtain ⟨r, hr, n, hname, howner⟩ := hmemory
    obtain ⟨v, hv, href, htext⟩ := htext
    obtain ⟨v', hv', href', happlication⟩ := happlication
    obtain rfl := hd.keys.recollectionVersions.eq hv' hv (href'.trans href.symm)
    have hroot := (versionRefOf_inj ((hname.symm.trans href.symm).trans (hd.recollectionName hv))).1
    refine ⟨v', hv, ?_, href, htext, happlication⟩
    rw [hd.recollectionTenant hv hr hroot]
    exact tenant_selectionOwners howner
  | disposition =>
    rw [hkind] at hmemory htext happlication
    obtain ⟨r, hr, n, hname, howner⟩ := hmemory
    obtain ⟨v, hv, href, htext⟩ := htext
    obtain ⟨v', hv', href', s, hs, hsref, happlication⟩ := happlication
    obtain rfl := hd.keys.seedVersions.eq hv' hv (href'.trans href.symm)
    have hroot := (versionRefOf_inj ((hname.symm.trans href.symm).trans (hd.seedName hv))).1
    refine ⟨v', hv, ?_, href, htext, s, hs, hsref, happlication⟩
    rw [hd.seedTenant hv hr hroot]
    exact tenant_selectionOwners howner

theorem pairwise_zipIdx {α : Type} (l : List α) : l.zipIdx.Pairwise fun a b => a.2 < b.2 := by
  have h : (l.zipIdx.map Prod.snd).Pairwise (· < ·) := by
    rw [List.zipIdx_map_snd]
    exact List.pairwise_lt_range'
  exact List.pairwise_map.mp h

theorem map_zipIdx_fst {α β : Type} (f : α → β) (l : List α) :
    (l.zipIdx.map fun a => f a.1) = l.map f := by
  have h : (l.zipIdx.map fun a => f a.1) = (l.zipIdx.map Prod.fst).map f := by
    rw [List.map_map]
    rfl
  rw [h, List.zipIdx_map_fst]

theorem inserted_items {xs : List ContextItemRow} (hnew : ∀ i ∈ xs, i ∉ d.contextItems)
    (hnodup : xs.Nodup) :
    (applyAll d (xs.map Write.insertContextItem)).contextItems = d.contextItems ++ xs ∧
    (applyAll d (xs.map Write.insertContextItem)).contextEvidence = d.contextEvidence ∧
    (applyAll d (xs.map Write.insertContextItem)).contexts = d.contexts := by
  induction xs generalizing d with
  | nil => exact ⟨(List.append_nil _).symm, rfl, rfl⟩
  | cons x rest ih =>
    obtain ⟨hx, hrest⟩ := List.nodup_cons.mp hnodup
    have hitems : (d.apply (.insertContextItem x)).contextItems = d.contextItems ++ [x] :=
      insertRow_fresh fun i hi heq => hnew x List.mem_cons_self ((show i = x from heq) ▸ hi)
    obtain ⟨h₁, h₂, h₃⟩ := ih (d := d.apply (.insertContextItem x)) (fun i hi hmem => by
      rw [hitems] at hmem
      rcases List.mem_append.mp hmem with hmem | hmem
      · exact hnew i (List.mem_cons_of_mem _ hi) hmem
      · exact hx (List.mem_singleton.mp hmem ▸ hi)) hrest
    rw [List.map_cons, applyAll_cons]
    refine ⟨h₁.trans ?_, h₂, h₃⟩
    rw [hitems, List.append_assoc]
    rfl

theorem inserted_evidence {xs : List ContextEvidenceRow} (hnew : ∀ i ∈ xs, i ∉ d.contextEvidence)
    (hnodup : xs.Nodup) :
    (applyAll d (xs.map Write.insertContextEvidence)).contextEvidence = d.contextEvidence ++ xs ∧
    (applyAll d (xs.map Write.insertContextEvidence)).contextItems = d.contextItems ∧
    (applyAll d (xs.map Write.insertContextEvidence)).contexts = d.contexts := by
  induction xs generalizing d with
  | nil => exact ⟨(List.append_nil _).symm, rfl, rfl⟩
  | cons x rest ih =>
    obtain ⟨hx, hrest⟩ := List.nodup_cons.mp hnodup
    have hevidence : (d.apply (.insertContextEvidence x)).contextEvidence = d.contextEvidence ++ [x] :=
      insertRow_fresh fun i hi heq => hnew x List.mem_cons_self ((show i = x from heq) ▸ hi)
    obtain ⟨h₁, h₂, h₃⟩ := ih (d := d.apply (.insertContextEvidence x)) (fun i hi hmem => by
      rw [hevidence] at hmem
      rcases List.mem_append.mp hmem with hmem | hmem
      · exact hnew i (List.mem_cons_of_mem _ hi) hmem
      · exact hx (List.mem_singleton.mp hmem ▸ hi)) hrest
    rw [List.map_cons, applyAll_cons]
    refine ⟨h₁.trans ?_, h₂, h₃⟩
    rw [hevidence, List.append_assoc]
    rfl

/-- The rows that a new context has after its commit. -/
theorem frozen_rows (hd : WorldLaw store d) (activations : List Activation)
    (evidence : List FrozenEpisodeEvidence)
    (hfree : ∀ c ∈ d.contexts, c.ref ≠ (store.contextRow request).ref) :
    let y := applyAll d (.insertContext (store.contextRow request) ::
      store.frozenRows request activations evidence)
    y.contexts = d.contexts ++ [store.contextRow request] ∧
    frozenItems (store.contextRow request) y = activations.zipIdx.map
      (Activation.item request.scope.tenantRef (store.contextRow request).ref) ∧
    frozenEvidence (store.contextRow request) y = evidence.zipIdx.map
      (FrozenEpisodeEvidence.row request.scope.tenantRef (store.contextRow request).ref) := by
  intro y
  have hcontexts : (d.apply (.insertContext (store.contextRow request))).contexts =
      d.contexts ++ [store.contextRow request] := insertRow_fresh hfree
  have hitems : ∀ i ∈ d.contextItems, i.contextRef ≠ (store.contextRow request).ref := by
    intro i hi heq
    obtain ⟨c, hc, href, _⟩ := hd.items i hi
    exact hfree c hc (href.trans heq)
  have hevidence : ∀ i ∈ d.contextEvidence, i.contextRef ≠ (store.contextRow request).ref := by
    intro i hi heq
    obtain ⟨c, hc, href, _⟩ := hd.evidence i hi
    exact hfree c hc (href.trans heq)
  have hsortedItems : (activations.zipIdx.map (Activation.item request.scope.tenantRef
      (store.contextRow request).ref)).Pairwise fun a b => a.order < b.order :=
    List.pairwise_map.mpr (pairwise_zipIdx activations)
  have hsortedEvidence : (evidence.zipIdx.map (FrozenEpisodeEvidence.row request.scope.tenantRef
      (store.contextRow request).ref)).Pairwise fun a b => a.order < b.order :=
    List.pairwise_map.mpr (pairwise_zipIdx evidence)
  have hnodupItems : (activations.zipIdx.map (Activation.item request.scope.tenantRef
      (store.contextRow request).ref)).Nodup :=
    hsortedItems.imp fun hlt heq => absurd (congrArg ContextItemRow.order heq) (Nat.ne_of_lt hlt)
  have hnodupEvidence : (evidence.zipIdx.map (FrozenEpisodeEvidence.row request.scope.tenantRef
      (store.contextRow request).ref)).Nodup :=
    hsortedEvidence.imp fun hlt heq => absurd (congrArg ContextEvidenceRow.order heq) (Nat.ne_of_lt hlt)
  obtain ⟨h₁, h₂, h₃⟩ := inserted_items (d := d.apply (.insertContext (store.contextRow request)))
    (fun i hi hmem => by
      obtain ⟨a, _, rfl⟩ := List.mem_map.mp hi
      exact hitems _ hmem rfl) hnodupItems
  obtain ⟨h₄, h₅, h₆⟩ := inserted_evidence
    (d := applyAll (d.apply (.insertContext (store.contextRow request)))
      ((activations.zipIdx.map (Activation.item request.scope.tenantRef
        (store.contextRow request).ref)).map Write.insertContextItem))
    (fun i hi hmem => by
      obtain ⟨a, _, rfl⟩ := List.mem_map.mp hi
      rw [h₂] at hmem
      exact hevidence _ hmem rfl) hnodupEvidence
  have hy : y = applyAll (applyAll (d.apply (.insertContext (store.contextRow request)))
      ((activations.zipIdx.map (Activation.item request.scope.tenantRef
        (store.contextRow request).ref)).map Write.insertContextItem))
      ((evidence.zipIdx.map (FrozenEpisodeEvidence.row request.scope.tenantRef
        (store.contextRow request).ref)).map Write.insertContextEvidence) := by
    rw [← applyAll_append, List.map_map, List.map_map]
    rfl
  rw [hy]
  refine ⟨h₆.trans (h₃.trans hcontexts), ?_, ?_⟩
  · unfold frozenItems
    rw [h₅, h₁, List.filter_append]
    have hnone : (d.apply (.insertContext (store.contextRow request))).contextItems.filter
        (fun i => decide (i.tenantRef = (store.contextRow request).scope.tenantRef) &&
          decide (i.contextRef = (store.contextRow request).ref)) = [] := by
      rw [List.filter_eq_nil_iff]
      intro i hi
      simp [hitems i hi]
    rw [hnone, List.nil_append, List.filter_eq_self.mpr, List.Pairwise.insertionSort_eq]
    · exact hsortedItems.imp Nat.le_of_lt
    · intro i hi
      obtain ⟨a, _, rfl⟩ := List.mem_map.mp hi
      simp [Activation.item, Store.contextRow]
  · unfold frozenEvidence
    rw [h₄, h₂, List.filter_append]
    have hnone : (d.apply (.insertContext (store.contextRow request))).contextEvidence.filter
        (fun i => decide (i.tenantRef = (store.contextRow request).scope.tenantRef) &&
          decide (i.contextRef = (store.contextRow request).ref)) = [] := by
      rw [List.filter_eq_nil_iff]
      intro i hi
      simp [hevidence i hi]
    rw [hnone, List.nil_append, List.filter_eq_self.mpr, List.Pairwise.insertionSort_eq]
    · exact hsortedEvidence.imp Nat.le_of_lt
    · intro i hi
      obtain ⟨a, _, rfl⟩ := List.mem_map.mp hi
      simp [FrozenEpisodeEvidence.row, Store.contextRow]

theorem mapM_ok_of {α β ε : Type} {f : α → Except ε β} {g : α → β} {l : List α}
    (h : ∀ a ∈ l, f a = .ok (g a)) : l.mapM f = .ok (l.map g) := by
  induction l with
  | nil => rfl
  | cons a rest ih =>
    rw [List.mapM_cons, h a List.mem_cons_self]
    simp only [bind, Except.bind]
    rw [ih fun a ha => h a (List.mem_cons_of_mem _ ha)]
    rfl

/-- The items of one kind show what was activated of it. -/
theorem Freezes.items {activations : List Activation} {candidates : List Candidate}
    {evidence : List FrozenEpisodeEvidence} (h : Freezes request activations candidates evidence d)
    (hd : MemoryLaw d) (hy : MemoryLaw y) (hg : Gains d y) (hgrown : Grown d y) (contextRef : String)
    (kind : ItemKind) :
    ((activations.zipIdx.map (Activation.item request.scope.tenantRef contextRef)).filter
      (·.kind == kind)).mapM (itemMemory y) = .ok (activatedMemories kind activations candidates) := by
  have hfilter : (activations.zipIdx.map (Activation.item request.scope.tenantRef contextRef)).filter
      (·.kind == kind) = (activations.zipIdx.filter fun a => a.1.kind == kind).map
        (Activation.item request.scope.tenantRef contextRef) := List.filter_map
  have hfst : (activations.zipIdx.filter fun a => a.1.kind == kind).map Prod.fst =
      activations.filter (·.kind == kind) := by
    have hmap := List.filter_map (f := Prod.fst) (p := fun a : Activation => a.kind == kind)
      (l := activations.zipIdx)
    rw [List.zipIdx_map_fst] at hmap
    exact hmap.symm
  have hshown : ∀ a ∈ activations.zipIdx.filter (fun a => a.1.kind == kind),
      itemMemory y (Activation.item request.scope.tenantRef contextRef a) =
        .ok ⟨a.1.versionRef, candidateText candidates a.1, a.1.application⟩ := by
    intro a ha
    have hmem := List.fst_mem_of_mem_zipIdx (List.mem_filter.mp ha).1
    exact (itemMemory_iff hy).mpr ((h.shown hd hmem contextRef).mono hg hgrown)
  rw [hfilter, List.mapM_map, mapM_ok_of (g := fun a => (⟨a.1.versionRef, candidateText candidates a.1,
    a.1.application⟩ : ContextMemory)) hshown]
  unfold activatedMemories
  rw [← hfst, List.map_map]
  rfl

/-- A selection that commits leaves its context stored. -/
theorem Selected.frozen {log : List Write} (h : Selected store request d context log)
    (hd : WorldLaw store d) (hy : WorldLaw store (applyAll d log)) (hg : Gains d (applyAll d log))
    (hgrown : Grown d (applyAll d log)) : store.Frozen request context (applyAll d log) := by
  cases h with
  | again _ hx hgains hgrown' hcontexts hfound hlog =>
    subst hlog
    exact (frozen_of_load hfound).later hx.memory hd.memory hgains hgrown' hcontexts
  | @froze activations candidates evidence _ hfree hlog hcontext hfreezes =>
    subst hlog hcontext
    obtain ⟨hcontexts, hitems, hevidence⟩ := frozen_rows hd activations evidence
      fun c hc => (hfree c hc).1
    refine ⟨store.contextRow request, ?_, rfl, rfl, ?_⟩
    · rw [hcontexts]
      exact List.mem_append_right _ (List.mem_singleton.mpr rfl)
    obtain ⟨kinds, hkinds⟩ := hfreezes.claims
    have hclaims : claimAll (constitutionClaims (store.contextRow request).constitution ++
        (activations.zipIdx.map (Activation.item request.scope.tenantRef
          (store.contextRow request).ref)).map (fun i => (i.memoryRef, i.kind.text)) ++
        (evidence.zipIdx.map (FrozenEpisodeEvidence.row request.scope.tenantRef
          (store.contextRow request).ref)).map fun e => (e.episodeRef, "episode_evidence")) =
        .ok kinds := by
      rw [← hkinds, List.map_map, List.map_map]
      unfold validateSelectedMemoryRefs
      rw [← map_zipIdx_fst (fun a : Activation => (a.versionRef, a.kind.text)),
        ← map_zipIdx_fst (fun e : FrozenEpisodeEvidence => (e.memoryRef, "episode_evidence"))]
      rfl
    simp only [frozenContext, bind, Except.bind]
    rw [hitems, hevidence, hfreezes.items hd.memory hy.memory hg hgrown,
      hfreezes.items hd.memory hy.memory hg hgrown]
    dsimp only
    rw [hclaims, List.map_map]
    unfold buildMemoryContext
    rw [← map_zipIdx_fst (fun e : FrozenEpisodeEvidence => (⟨e.memoryRef, e.text⟩ : ContextEvidence))]
    rfl

/-! ## One context for a run -/

theorem contexts_plain {log : List Write} (h : ∀ w ∈ log, store.Plain w) :
    (applyAll d log).contexts = d.contexts := by
  induction log generalizing d with
  | nil => rfl
  | cons w rest ih =>
    rw [applyAll_cons, ih fun w' hw' => h w' (List.mem_cons_of_mem _ hw')]
    have hw := h w List.mem_cons_self
    cases w <;> first | rfl | exact hw.elim

theorem Batch.beside {env : Ambient} {jobRef : String} {w : WindowState} {changes : List Change}
    {effects : List (Change × Applied)} (h : Batch store env jobRef w changes d effects y) :
    Beside d y := by
  induction h with
  | nil => exact Beside.refl _
  | cons hc _ ih => exact hc.did.beside.trans ih

theorem Concluded.contexts {env : Ambient} {p : Proposal} {text : String} {receipt : Receipt}
    (h : Concluded store env p text d receipt y) : y.contexts = d.contexts := by
  cases h with
  | frozen _ _ _ _ hsame => rw [hsame]
  | committed _ _ _ _ _ hbatch _ _ hsame =>
    rw [hsame]
    exact hbatch.beside.contexts

theorem Store.Done.oneContext {a : MemoryReply} {l : Local Write String} (hd : WorldLaw store d)
    (h : store.Done d a l) (hone : d.OneContext) : (applyAll d l.log).OneContext := by
  have hsame : (applyAll d l.log).contexts = d.contexts → (applyAll d l.log).OneContext := by
    intro heq
    unfold Db.OneContext
    rw [heq]
    exact hone
  cases a with
  | selected request context =>
    cases h with
    | again _ _ _ _ _ _ hlog =>
      rw [hlog]
      exact hone
    | @froze activations candidates evidence _ hfree hlog _ _ =>
      have hcontexts := (frozen_rows hd activations evidence fun c hc => (hfree c hc).1).1
      rw [← hlog] at hcontexts
      unfold Db.OneContext
      rw [hcontexts]
      refine keysUnique_append hone fun hex => ?_
      obtain ⟨c, hc, hrun⟩ := hex
      exact (hfree c hc).2 hrun
  | frozen window receipt =>
    rw [h.1]
    exact hone
  | consolidated env p text receipt => exact hsame h.2.1.contexts
  | intake reply => exact hsame (contexts_plain h)
  | leased job => exact hsame (contexts_plain h)
  | acknowledged => exact hsame (contexts_plain h)

theorem oneContext_reach (hhash : Collisionless store) {s : MemorySys} (h : MemoryReach store s) :
    s.db.OneContext :=
  Pact.reach_keeps (J := Db.OneContext) (starts_perform hhash)
    (fun _ _ _ hd hdone => commits_done hd hdone) (Pact.Sound.init (worldLaw_empty store))
    List.nodup_nil (fun _ _ _ _ _ _ _ hd hdone hone => Store.Done.oneContext hd hdone hone) h

/-! ## Requests -/

theorem toString_injective {m n : Nat} (h : toString m = toString n) : m = n := by
  have href : versionRefOf "" m = versionRefOf "" n := by
    unfold versionRefOf
    rw [h]
  exact (versionRefOf_inj href).2

/-- Valid requests of one run have different digests. -/
theorem memoryRequestHash_injective (hhash : Collisionless store) {request' : SelectRequest}
    (hvalid : validSelectRequest request = true) (hvalid' : validSelectRequest request' = true)
    (hscope : request'.scope = request.scope) (hrunRef : request'.runRef = request.runRef)
    (h : store.memoryRequestHash request' = store.memoryRequestHash request) : request' = request := by
  have hbounds : ∀ {r : SelectRequest}, validSelectRequest r = true → 0 ≤ r.episodeEvidenceMaxBytes := by
    intro r hr
    simp only [validSelectRequest, validEpisodeEvidenceMaxBytes, Bool.and_eq_true,
      decide_eq_true_eq] at hr
    exact hr.1.1.1.2.1
  have hbound := hbounds hvalid
  have hbound' := hbounds hvalid'
  obtain ⟨scope, runRef, refs, constitution, bytes⟩ := request
  obtain ⟨scope', runRef', refs', constitution', bytes'⟩ := request'
  obtain rfl : scope' = scope := hscope
  obtain rfl : runRef' = runRef := hrunRef
  unfold Store.memoryRequestHash at h
  dsimp only at h hbound hbound'
  split at h
  · split at h
    · rename_i hzero' hzero
      have hlist := hhash _ _ h
      simp only [List.cons_append, List.nil_append, List.cons.injEq, true_and] at hlist
      obtain ⟨href, htext, hrefs⟩ := hlist
      rw [hzero, hzero', hrefs, show constitution' = constitution from by
        obtain ⟨_, _⟩ := constitution
        obtain ⟨_, _⟩ := constitution'
        exact congr (congrArg Constitution.mk href) htext]
    · have hlist := hhash _ _ h
      simp only [List.cons_append, List.cons.injEq] at hlist
      exact absurd hlist.1 (by decide)
  · split at h
    · have hlist := hhash _ _ h
      simp only [List.cons_append, List.cons.injEq] at hlist
      exact absurd hlist.1 (by decide)
    · have hlist := hhash _ _ h
      simp only [List.cons_append, List.nil_append, List.cons.injEq, true_and] at hlist
      obtain ⟨hbytes, href, htext, hrefs⟩ := hlist
      have hsame : bytes' = bytes := by
        obtain ⟨m, rfl⟩ := Int.eq_ofNat_of_zero_le hbound
        obtain ⟨n, rfl⟩ := Int.eq_ofNat_of_zero_le hbound'
        exact congrArg Int.ofNat (toString_injective hbytes)
      rw [hsame, hrefs, show constitution' = constitution from by
        obtain ⟨_, _⟩ := constitution
        obtain ⟨_, _⟩ := constitution'
        exact congr (congrArg Constitution.mk href) htext]

/-! ## Frozen runs -/

/-- The run of a request has its context in `t`, and keeps it. -/
structure RunFrozen (store : Store) (request : SelectRequest) (context : MemoryContext)
    (t : MemorySys) : Prop where
  once : ∀ j request' context' t', Commits t j (.selected request' context') t' →
    request'.scope = request.scope → request'.runRef = request.runRef →
      request' = request ∧ context' = context ∧ t'.db = t.db
  again : ∀ index, t.Settles store.Calls (store.perform (.select index request))
    (.ret (.selected request context))
  conflict : ∀ index request', validSelectRequest request' = true →
    request'.scope = request.scope → request'.runRef = request.runRef → request' ≠ request →
    t.Settles store.Calls (store.perform (.select index request'))
      (.fail ⟨.runConflict, request'.runRef, ""⟩)
  invalid : ∀ index request', validSelectRequest request' = false →
    t.Settles store.Calls (store.perform (.select index request'))
      (.fail ⟨.invalidSelectRequest, "", ""⟩)

/-- A selection that every store to come answers or refuses alike settles its call. -/
theorem settles_select {J : Db → Prop} {index : Option MemoryIndex} {q : Tx MemoryReply}
    (hvalid : validSelectRequest request = true)
    (h : ∀ d, J d →
      (∃ context, loadMemoryContext request (store.memoryRequestHash request) d =
          .ok (some context) ∧ q = .ret (.selected request context)) ∨
      ∃ fault, loadMemoryContext request (store.memoryRequestHash request) d = .error fault ∧
        q = .fail fault) :
    (store.perform (.select index request)).Settles J q := by
  unfold Store.perform Store.selectMemory
  dsimp only
  rw [if_neg (by rw [hvalid]; decide)]
  refine .lock _ (.read fun d hd => ?_)
  dsimp only
  rcases h d hd with ⟨context, hload, rfl⟩ | ⟨fault, hload, rfl⟩
  · rw [hload]
    exact .ended
  · rw [hload]
    exact .ended

theorem Selected.valid {log : List Write} (h : Selected store request d context log) :
    validSelectRequest request = true := by
  cases h with
  | again hvalid => exact hvalid
  | froze hvalid => exact hvalid

/-- A selection of a run whose context is stored only reads it. -/
theorem Selected.same {log : List Write} (hhash : Collisionless store) (hd : WorldLaw store d)
    (hone : d.OneContext) (hvalid : validSelectRequest request = true)
    (hfrozen : store.Frozen request context d) {request' : SelectRequest} {context' : MemoryContext}
    (h : Selected store request' d context' log) (hscope : request'.scope = request.scope)
    (hrunRef : request'.runRef = request.runRef) :
    request' = request ∧ context' = context ∧ log = [] := by
  have hvalid' := h.valid
  have hload := hfrozen.load hone
  obtain ⟨c, hc, hrun, hhash', _⟩ := hfrozen
  cases h with
  | again _ hx hgains hgrown hcontexts hfound hlog =>
    have hfrozen' := (frozen_of_load hfound).later hx.memory hd.memory hgains hgrown hcontexts
    have hload' := hfrozen'.load hone
    obtain ⟨c', hc', hrun', hhash'', _⟩ := hfrozen'
    have hsame : c' = c := KeysUnique.eq hone hc' hc (by rw [hrun', hrun, hscope, hrunRef])
    rw [hsame, hhash'] at hhash''
    obtain rfl := memoryRequestHash_injective hhash hvalid hvalid' hscope hrunRef hhash''.symm
    rw [hload] at hload'
    exact ⟨rfl, (Option.some.inj (Except.ok.inj hload')).symm, hlog⟩
  | froze _ hfree _ _ _ =>
    refine absurd ?_ (hfree c hc).2
    rw [hrun, ← hscope, ← hrunRef]
    rfl

end

/-- A run's context is frozen by its first selection: whatever calls run after it and however they
interleave, the same request is answered with the same context and writes nothing, another valid
request of the run is refused with a conflict, and a request that is not valid as such. -/
theorem context_frozen (store : Store) (hhash : Collisionless store) {s s' t : MemorySys} {i : Nat}
    {request : SelectRequest} {context : MemoryContext} (h : MemoryReach store s)
    (hc : Commits s i (.selected request context) s')
    (ht : Reach .readCommitted store.Calls s' t) : RunFrozen store request context t := by
  obtain ⟨l, hdb, hselected⟩ := commits_done_of hhash h hc
  have hselected : Selected store request s.db context l.log := hselected
  have hs' : Reach .readCommitted store.Calls s s' :=
    .step .start (fun q hq => by cases hq) trivial hc.2
  have hreach : MemoryReach store s' := Reach.trans h hs'
  have hfrozen : store.Frozen request context s'.db := by
    have hearlier := earlier_reach hhash h hs'
    have hlaw := worldLaw_reach hhash hreach
    rw [hdb] at hearlier hlaw ⊢
    exact hselected.frozen (worldLaw_reach hhash h) hlaw hearlier.gains hearlier.grown
  -- What holds in every state from the commit on.
  have hlater : ∀ u, Reach .readCommitted store.Calls s' u → MemoryReach store u ∧
      store.Frozen request context u.db ∧ u.db.OneContext := by
    intro u hu
    have hearlier := earlier_reach hhash hreach hu
    have hreach' : MemoryReach store u := Reach.trans hreach hu
    exact ⟨hreach', hfrozen.later hearlier.law.memory (worldLaw_reach hhash hreach').memory
      hearlier.gains hearlier.grown hearlier.contexts, oneContext_reach hhash hreach'⟩
  have hvalid := hselected.valid
  constructor
  · intro j request' context' t' hc' hscope hrunRef
    obtain ⟨hreach', hfrozen', hone⟩ := hlater t ht
    obtain ⟨l', hdb', hselected'⟩ := commits_done_of hhash hreach' hc'
    obtain ⟨hrequest, hcontext, hlog⟩ := Selected.same hhash (worldLaw_reach hhash hreach') hone hvalid
      hfrozen' hselected' hscope hrunRef
    rw [hlog, applyAll_nil] at hdb'
    exact ⟨hrequest, hcontext, hdb'⟩
  · intro index
    refine settles_of_prog ⟨_, rfl⟩ (settles_select hvalid fun d hd => ?_) (Or.inl ⟨_, rfl⟩)
    obtain ⟨u, hu, rfl⟩ := hd
    obtain ⟨_, hfrozen', hone⟩ := hlater u (Reach.trans ht hu)
    exact Or.inl ⟨context, hfrozen'.load hone, rfl⟩
  · intro index request' hvalid' hscope hrunRef hne
    refine settles_of_prog ⟨_, rfl⟩ (settles_select hvalid' fun d hd => ?_) (Or.inr ⟨_, rfl⟩)
    obtain ⟨u, hu, rfl⟩ := hd
    obtain ⟨_, hfrozen', hone⟩ := hlater u (Reach.trans ht hu)
    obtain ⟨c, hmem, hrun, hdigest, _⟩ := hfrozen'
    refine Or.inr ⟨_, ?_, rfl⟩
    rw [load_of_run hone hmem (by rw [hrun, hscope, hrunRef]), if_pos]
    rw [bne_iff_ne, hdigest]
    exact fun heq => hne (memoryRequestHash_injective hhash hvalid hvalid' hscope hrunRef heq.symm)
  · intro index request' hinvalid
    refine settles_of_prog ⟨_, rfl⟩ ?_ (Or.inr ⟨_, rfl⟩)
    unfold Store.perform Store.selectMemory
    dsimp only
    rw [if_pos (by rw [hinvalid]; rfl)]
    exact .ended

/-- The run goes on where its context was selected. -/
theorem sampleFed_calls : sampleStore.calls (deliveredCalls 4 sampleScope "2" (adaptedRef 1))
    (sampleStore.calls [(selectCall sampleScope "2" (adaptedRef 1)).2] sampleOpened) = sampleFed := by
  unfold sampleFed sampleOpened
  rw [play_calls, ← calls_append]
  exact (calls_append sampleStore [_] _ _).symm

/-- The context of the relationship's run stays, though the version it shows is superseded. -/
theorem context_frozen_sample : ∃ s i context s', MemoryReach sampleStore s ∧
    Commits s i (.selected (selectCall sampleScope "2" (adaptedRef 1)).1 context) s' ∧
    context.dispositions.map (·.memoryRef) = [adaptedRef 1] ∧
    Reach .readCommitted sampleStore.Calls s' sampleRevised ∧
    (sampleRevised.db.seedVersions.map fun v => (v.ref, v.tendency, decide (v.status = .active))) =
      [(adaptedRef 1, "T", false), (adaptedRef 2, "U", true)] ∧
    RunFrozen sampleStore (selectCall sampleScope "2" (adaptedRef 1)).1 context sampleRevised := by
  obtain ⟨s, context, hreach, hcommit, hshown⟩ := sampleOpened_selects
  have hselected := reach_calls sampleOpened_reach.2 sampleOpened_reach.1
    [(selectCall sampleScope "2" (adaptedRef 1)).2]
  have hfed := @reach_calls sampleStore _ _ hselected.2 .start
    (deliveredCalls 4 sampleScope "2" (adaptedRef 1))
  rw [sampleFed_calls] at hfed
  have hrevised : Reach .readCommitted sampleStore.Calls _ sampleRevised :=
    (reach_calls hfed.2 hfed.1 [reviseTask.command]).1
  refine ⟨s, _, context, _, hreach, hcommit, hshown, hrevised, ?_,
    context_frozen sampleStore sampleStore_collisionless hreach hcommit hrevised⟩
  obtain ⟨_, _, _, _, _, _, _, _, hversions⟩ := sample_runs
  rw [sampleRevised_db]
  exact hversions

/-- A request of the run without a Situation is another request, and gets no conflict. -/
def emptyRequest : SelectRequest :=
  { (selectCall sampleScope "2" (adaptedRef 1)).1 with situationSourceRefs := [] }

theorem context_frozen_invalid : ∃ s i context s', MemoryReach sampleStore s ∧
    Commits s i (.selected (selectCall sampleScope "2" (adaptedRef 1)).1 context) s' ∧
    emptyRequest.scope = sampleScope ∧ emptyRequest.runRef = "2" ∧
    emptyRequest ≠ (selectCall sampleScope "2" (adaptedRef 1)).1 ∧
    ∀ index, Prog.run (sampleStore.perform (.select index emptyRequest)) s'.db =
      .error ⟨.invalidSelectRequest, "", ""⟩ := by
  obtain ⟨s, context, hreach, hcommit, _⟩ := sampleOpened_selects
  refine ⟨s, _, context, _, hreach, hcommit, rfl, rfl, ?_, fun index => ?_⟩
  · intro h
    exact absurd (congrArg SelectRequest.situationSourceRefs h) (by decide)
  · unfold Store.perform Store.selectMemory
    dsimp only
    rw [if_pos (by decide)]
    rfl

end ChoraMem
