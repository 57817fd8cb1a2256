/-
The jobs of the queue can be loaded.

Transactions of intake, of the queue and of Memory run one after the other.  A source is
admitted before anything is linked to it, and an agent act is one of the scope's own agent.
So the Episodes of a job load, as Episodes of the job's owner, and its Outcomes with them.
-/
import ChoraMem.Core.Admission
import ChoraMem.Queue.World
import ChoraMem.World.Sizes

namespace ChoraMem

open Txn

/-- What transactions lead to, one after the other.  A commit takes any proposal and any text,
so whatever ran since the window was put to its worker. -/
inductive ServiceRun (store : Store) : QueueState → Prop
  | start : ServiceRun store {}
  | queue {q : QueueState} (h : ServiceRun store q) (c : QueueCommand) (hdrawn : Drawn q c) :
      ServiceRun store (q.next store c)
  | select {q : QueueState} (h : ServiceRun store q) (index : Option MemoryIndex)
      (request : SelectRequest) :
      ServiceRun store { q with db := (store.selectMemory index request).after q.db }
  | commit {q : QueueState} (h : ServiceRun store q) (env : Ambient) (p : Proposal) (text : String) :
      ServiceRun store { q with db := (store.commitWindow env p text).after q.db }

/-- Transactions in turn lead to this store. -/
def InTurn (store : Store) (d : Db) : Prop := ∃ q, ServiceRun store q ∧ q.db = d

/-! ## Sources -/

/-- The link's source is stored; of an agent act it is the agent's. -/
def LinkRow.Backed (d : Db) (l : LinkRow) : Prop :=
  ∃ s ∈ d.sources, s.key = (l.group.scope, l.sourceEventRef) ∧
    (l.role = .agentAct → s.event.actorKind = .agent ∧ s.event.actorRef = l.group.scope.agentRef)

/-- Links and Outcomes have their sources. -/
structure Backed (d : Db) : Prop where
  links : ∀ l ∈ d.links, l.Backed d
  outcomes : ∀ o ∈ d.outcomes, ∃ s ∈ d.sources, s.key = (o.group.scope, o.sourceEventRef)

/-- The source is stored, with the actor of this event. -/
def SourceKept (event : SourceEvent) (d : Db) : Prop :=
  ∃ s ∈ d.sources, s.key = (event.scope, event.ref) ∧ s.event.actorKind = event.actorKind ∧
    s.event.actorRef = event.actorRef

section

variable {store : Store} {d d' : Db} {event : SourceEvent} {binding : EpisodeBinding}

theorem backed_empty : Backed {} :=
  ⟨fun _ h => absurd h List.not_mem_nil, fun _ h => absurd h List.not_mem_nil⟩

theorem LinkRow.Backed.mono {l : LinkRow} (h : l.Backed d) (hs : d.sources ⊆ d'.sources) :
    l.Backed d' := by
  obtain ⟨s, hmem, hrest⟩ := h
  exact ⟨s, hs hmem, hrest⟩

/-- A store with no further link or Outcome. -/
theorem Backed.mono (h : Backed d) (hl : d'.links ⊆ d.links) (ho : d'.outcomes ⊆ d.outcomes)
    (hs : d.sources ⊆ d'.sources) : Backed d' := by
  refine ⟨fun l hmem => (h.links l (hl hmem)).mono hs, fun o hmem => ?_⟩
  obtain ⟨s, hsource, hkey⟩ := h.outcomes o (ho hmem)
  exact ⟨s, hs hsource, hkey⟩

theorem SourceKept.mono (h : SourceKept event d) (hs : d.sources ⊆ d'.sources) : SourceKept event d' := by
  obtain ⟨s, hmem, hrest⟩ := h
  exact ⟨s, hs hmem, hrest⟩

/-- What a write of no group leaves of the groups. -/
theorem groupless_apply {w : Write} (h : w.group = none) (d : Db) :
    (d.apply w).episodes = d.episodes ∧ (d.apply w).links = d.links ∧
      (d.apply w).outcomes = d.outcomes ∧ d.sources ⊆ (d.apply w).sources := by
  cases w with
  | insertSource r => exact ⟨rfl, rfl, rfl, fun _ => mem_insertRow_of_mem⟩
  | insertEpisode r | insertLink r | updateLink r | insertOutcome r | updateOutcome r => cases h
  | _ => exact ⟨rfl, rfl, rfl, fun _ hmem => hmem⟩

theorem Backed.apply (h : Backed d) {w : Write} (hw : w.group = none) : Backed (d.apply w) := by
  obtain ⟨_, hl, ho, hs⟩ := groupless_apply hw d
  exact h.mono (hl ▸ List.Subset.refl _) (ho ▸ List.Subset.refl _) hs

theorem Backed.emits (h : Backed d) {α : Type} {p : Tx α} (hp : p.Emits fun w => w.group = none) :
    Keeps Backed p d :=
  Prog.wp_of_emits hp (fun _ _ hd hw => hd.apply hw) h

/-! ## Intake -/

/-- The law while a transaction binds the source of this event. -/
structure Admitting (event : SourceEvent) (d : Db) : Prop where
  backed : Backed d
  kept : SourceKept event d

theorem Admitting.emits (h : Admitting event d) {α : Type} {p : Tx α}
    (hp : p.Emits fun w => w.group = none) : Keeps (Admitting event) p d :=
  Prog.wp_of_emits hp
    (fun d _ hd hw => ⟨hd.backed.apply hw, hd.kept.mono (groupless_apply hw d).2.2.2⟩) h

theorem admitting_admitSource {env : Ambient} (h : Backed d) :
    Keeps (Admitting event) (Store.admitSource env event) d := by
  unfold Store.admitSource
  refine Prog.wp_statement.mpr ?_
  by_cases hany : d.sources.any
      fun r => decide (r.key = (⟨event, env.admissionOrder⟩ : SourceRow).key)
  · rw [if_pos hany, hany, applyAll_nil]
    simp only [Bool.not_true, Bool.false_eq_true, if_false]
    refine Prog.wp_select.mpr ?_
    split
    · exact trivial
    rename_i r hfound
    split
    · exact trivial
    rename_i hsame
    simp only [Bool.or_eq_true, bne_iff_ne, not_or, not_not] at hsame
    have hkey := List.find?_some hfound
    exact ⟨h, r, List.mem_of_find?_eq_some hfound, of_decide_eq_true hkey, hsame.1.1.1, hsame.1.1.2⟩
  · rw [if_neg hany, Bool.eq_false_iff.mpr hany]
    have hfresh : ∀ r ∈ d.sources, r.key ≠ (⟨event, env.admissionOrder⟩ : SourceRow).key := by
      intro r hr hkey
      exact hany (List.any_eq_true.mpr ⟨r, hr, decide_eq_true hkey⟩)
    refine ⟨h.apply (w := .insertSource ⟨event, env.admissionOrder⟩) rfl,
      ⟨event, env.admissionOrder⟩, mem_insertRow.mpr (Or.inr ⟨rfl, hfresh⟩), rfl, rfl, rfl⟩

/-- A new link to the source of the event. -/
theorem Admitting.link (h : Admitting event d) {row : LinkRow} (hscope : row.group.scope = event.scope)
    (href : row.sourceEventRef = event.ref)
    (hact : row.role = .agentAct → event.actorKind = .agent ∧ event.actorRef = event.scope.agentRef) :
    Admitting event (d.apply (.insertLink row)) := by
  refine ⟨⟨fun l hl => ?_, h.backed.outcomes⟩, h.kept⟩
  rcases mem_insertRow.mp hl with hl | ⟨rfl, _⟩
  · exact h.backed.links l hl
  · obtain ⟨s, hs, hkey, hkind, hactor⟩ := h.kept
    refine ⟨s, hs, by rw [hscope, href]; exact hkey, fun hrole => ?_⟩
    rw [hkind, hactor, hscope]
    exact hact hrole

theorem Admitting.outcome (h : Admitting event d) {row : OutcomeRow} (hscope : row.group.scope = event.scope)
    (href : row.sourceEventRef = event.ref) : Admitting event (d.apply (.insertOutcome row)) := by
  refine ⟨⟨h.backed.links, fun o ho => ?_⟩, h.kept⟩
  rcases mem_updateRow.mp ho with ⟨ho, _⟩ | rfl
  · exact h.backed.outcomes o ho
  · obtain ⟨s, hs, hkey, _⟩ := h.kept
    exact ⟨s, hs, by rw [hscope, href]; exact hkey⟩

theorem Admitting.bindEpisode (h : Admitting event d) (g : StableGroupRef) :
    Keeps (Admitting event) (store.bindEpisode g) d := by
  refine Prog.wp_statement.mpr ?_
  rw [apply_updateLinks]
  refine Prog.wp_statement.mpr ?_
  rw [apply_updateOutcomes]
  refine ⟨⟨fun l hl => ?_, fun o ho => ?_⟩, h.kept⟩
  · rcases of_mem_updateRows hl with hl | ⟨hl, _⟩
    · obtain ⟨l₀, hl₀, rfl⟩ := List.mem_map.mp hl
      exact h.backed.links l₀ (List.mem_filter.mp hl₀).1
    · exact h.backed.links l hl
  · rcases of_mem_updateRows ho with ho | ⟨ho, _⟩
    · obtain ⟨o₀, ho₀, rfl⟩ := List.mem_map.mp ho
      exact h.backed.outcomes o₀ (List.mem_filter.mp ho₀).1
    · exact h.backed.outcomes o ho

theorem Admitting.insertEpisode (h : Admitting event d) (g : StableGroupRef) :
    Keeps (Admitting event) (store.insertEpisode g) d := by
  have hkept : Admitting event (applyAll d (if hasEpisode g d || episodeRefTaken (store.episodeRef g) d
      then [] else [Write.insertEpisode ⟨g, store.episodeRef g⟩])) := by
    split
    · exact h
    · exact ⟨⟨h.backed.links, h.backed.outcomes⟩, h.kept⟩
  unfold Store.insertEpisode
  simp only [Keeps, Prog.wp]
  split
  · exact trivial
  · exact hkept

theorem Admitting.appendLinkAndMaterialize (h : Admitting event d)
    (hact : binding.role = .agentAct →
      event.actorKind = .agent ∧ event.actorRef = event.scope.agentRef) :
    Keeps (Admitting event) (store.appendLinkAndMaterialize event binding) d := by
  have halready : ∀ g ref role episodeRef,
      (alreadyLinked g ref role episodeRef).Emits fun w => w.group = none := by
    intro g ref role episodeRef
    unfold alreadyLinked
    split
    · exact fun _ => trivial
    · exact trivial
  change Prog.wp (alreadyLinked _ _ _ _ >>= _) _ _ d
  refine Prog.wp_bind.mpr ((h.emits (halready _ _ _ _)).conseq fun linked x hx => ?_)
  split
  · exact hx
  split
  · exact trivial
  refine Prog.wp_statement.mpr ?_
  set y := applyAll x (newLink _ x) with hy
  have hlink : Admitting event y := by
    rw [hy]
    unfold newLink
    split
    · exact hx
    · exact hx.link rfl rfl hact
  clear_value y
  split
  · exact hlink
  unfold Store.materialize
  refine Prog.wp_select.mpr ?_
  split
  · exact hlink
  refine Prog.wp_bind.mpr ((hlink.insertEpisode _).conseq fun _ z hz => ?_)
  exact Prog.wp_bind.mpr ((hz.bindEpisode _).conseq fun _ _ h => h)

/-- An agent act that was admitted is one of the scope's agent. -/
theorem agent_of_validate (h : validate event binding = .ok ()) (hcomplete : completeBinding binding = true)
    (hrole : binding.role = .agentAct) :
    event.actorKind = .agent ∧ event.actorRef = event.scope.agentRef := by
  obtain ⟨_, g, hg⟩ := admitted_of_validate h
  simp only [completeBinding, Bool.and_eq_true, bne_iff_ne] at hcomplete
  simp only [groupOf, bind, Except.bind, throw, throwThe, MonadExceptOf.throw] at hg
  split at hg
  · rename_i hempty
    simp only [Bool.or_eq_true, beq_iff_eq] at hempty
    exact absurd hempty (not_or.mpr hcomplete)
  split at hg
  · cases hg
  split at hg
  · cases hg
  split at hg
  · cases hg
  rename_i hact
  simpa [hrole] using hact

theorem Backed.observe (h : Backed d) (env : Ambient) (key : String) :
    Keeps Backed (store.observe env key event binding) d := by
  unfold Store.observe
  split
  · exact trivial
  split
  · exact trivial
  rename_i hvalid
  refine Prog.wp_bind.mpr ((h.emits (emits_claimRequest store key event binding
    fun _ => rfl)).conseq fun claimed d₁ h₁ => ?_)
  obtain ⟨receipt, claimed⟩ := claimed
  cases claimed with
  | false => exact h₁
  | true =>
    refine Prog.wp_bind.mpr ((h₁.emits (emits_lockActedRun store event.scope binding)).conseq
      fun _ d₂ h₂ => ?_)
    refine Prog.wp_bind.mpr ((admitting_admitSource h₂).conseq fun _ d₃ h₃ => ?_)
    have hbound : Keeps (Admitting event) (store.bindObserved env event binding) d₃ := by
      unfold Store.bindObserved
      split
      · rename_i hcomplete
        refine Prog.wp_bind.mpr ((h₃.appendLinkAndMaterialize
          (agent_of_validate hvalid hcomplete)).conseq ?_)
        rintro ⟨ref, changed⟩ d₄ h₄
        dsimp only
        split
        · refine Prog.wp_bind.mpr ((h₄.emits (emits_enqueueEpisodeState store env event.scope ref
            (fun _ => rfl) fun _ => rfl)).conseq fun _ d₅ h₅ => ?_)
          exact Prog.wp_bind.mpr ((h₅.emits (emits_enqueueMemoryIndexOperation store _ _ _ _ _ _
            fun _ => rfl)).conseq fun _ d₆ h₆ => h₆)
        · exact h₄
      · exact h₃
    refine Prog.wp_bind.mpr (hbound.conseq fun _ d₄ h₄ => ?_)
    exact Prog.wp_bind.mpr ((h₄.backed.emits (emits_freezeObserveReceipt _ _ _
      fun _ => rfl)).conseq fun _ _ h₅ => h₅)

theorem Backed.reportOutcome (h : Backed d) (env : Ambient) (report : OutcomeReport) :
    Keeps Backed (store.reportOutcome env report) d := by
  unfold Store.reportOutcome
  split
  · exact trivial
  change Prog.wp (Store.loadOutcomeReceipt report _ >>= _) _ _ d
  refine Prog.wp_bind.mpr ((h.emits (emits_loadOutcomeReceipt report _)).conseq fun found d₁ h₁ => ?_)
  cases found with
  | some receipt => exact h₁
  | none =>
    refine Prog.wp_bind.mpr ((h₁.emits (emits_validateOutcomeBindings report _ _)).conseq
      fun _ d₂ h₂ => ?_)
    refine Prog.wp_bind.mpr ((admitting_admitSource h₂).conseq fun _ d₃ h₃ => ?_)
    refine Prog.wp_bind.mpr ((h₃.appendLinkAndMaterialize fun hrole => by cases hrole).conseq ?_)
    rintro ⟨ref, changed⟩ d₄ h₄
    have hinsert : Keeps (Admitting report.event)
        (insertFresh (Store.outcomeConflict (store.outcomeRow report ref))
          (.insertOutcome (store.outcomeRow report ref)) "freeze Outcome event") d₄ := by
      simp only [Keeps, insertFresh, Prog.wp]
      split
      · exact trivial
      · exact h₄.outcome rfl rfl
    refine Prog.wp_bind.mpr (hinsert.conseq fun _ d₅ h₅ => ?_)
    refine Prog.wp_bind.mpr ((h₅.emits (emits_enqueueEpisodeState store env report.event.scope ref
      (fun _ => rfl) fun _ => rfl)).conseq fun _ d₆ h₆ => ?_)
    split
    · exact Prog.wp_bind.mpr ((h₆.emits (emits_enqueueMemoryIndexOperation store _ _ _ _ _ _
        fun _ => rfl)).conseq fun _ _ h₇ => h₇.backed)
    · exact h₆.backed

theorem Backed.intake (h : Backed d) (c : IntakeCommand) : Keeps Backed (store.intake c) d := by
  cases c with
  | observe env key event binding =>
    exact Prog.wp_bind.mpr ((h.observe env key).conseq fun _ _ h₁ => h₁)
  | reportOutcome env report =>
    exact Prog.wp_bind.mpr ((h.reportOutcome env report).conseq fun _ _ h₁ => h₁)
  | recordMemoryDelivery env delivery =>
    exact Prog.wp_bind.mpr ((h.emits (emits_recordDelivery env delivery (fun _ => rfl)
      (fun _ => rfl) fun _ => rfl)).conseq fun _ _ h₁ => h₁)

/-! ## Every step -/

/-- Intake and the queue have the same rows; further sources may have come. -/
structure SameQueue (d d' : Db) : Prop where
  episodes : d'.episodes = d.episodes
  links : d'.links = d.links
  outcomes : d'.outcomes = d.outcomes
  jobs : d'.jobs = d.jobs
  sources : d.sources ⊆ d'.sources

theorem sameQueue_apply {w : Write} (h : w.group = none ∧ w.job = none) (d : Db) :
    SameQueue d (d.apply w) := by
  obtain ⟨he, hl, ho, hs⟩ := groupless_apply h.1 d
  refine ⟨he, hl, ho, ?_, hs⟩
  obtain ⟨_, hj⟩ := h
  cases w with
  | insertJob r | updateJob r => cases hj
  | _ => rfl

theorem sameQueue_after {α : Type} {p : Tx α} (hp : p.Emits fun w => w.group = none ∧ w.job = none)
    (d : Db) : SameQueue d (p.after d) := by
  refine (Prog.wp_of_emits (J := SameQueue d) hp (fun x w hx hw => ?_) ?_).after ?_
  · obtain ⟨he, hl, ho, hj, hs⟩ := sameQueue_apply hw x
    exact ⟨he.trans hx.episodes, hl.trans hx.links, ho.trans hx.outcomes, hj.trans hx.jobs,
      fun _ hmem => hs (hx.sources hmem)⟩
  · exact ⟨rfl, rfl, rfl, rfl, List.Subset.refl _⟩
  · exact ⟨rfl, rfl, rfl, rfl, List.Subset.refl _⟩

theorem SameQueue.consistent (h : SameQueue d d') (hd : Consistent store d) :
    Consistent store d' where
  keys := ⟨h.episodes ▸ hd.keys.episodes, h.outcomes ▸ hd.keys.outcomes, h.jobs ▸ hd.keys.jobs⟩
  groups := fun g => (hd.groups g).congr
    ⟨h.episodes ▸ SameRows.refl _, h.links ▸ SameRows.refl _, h.outcomes ▸ SameRows.refl _⟩
  jobs := hd.jobs.extend h.jobs (fun _ he => h.episodes ▸ he) (fun _ ho _ => h.outcomes ▸ ho)
    (fun _ he => Or.inl (h.episodes ▸ he)) fun _ ho => Or.inl (h.outcomes ▸ ho)

/-- The queue does not notice what leaves its rows alone. -/
theorem QueueOk.beside {q : QueueState} (h : QueueOk store q) (hs : SameQueue q.db d') :
    QueueOk store { q with db := d' } where
  consistent := hs.consistent h.consistent
  outcomeRefs := by
    unfold OutcomeRefsUnique
    rw [hs.outcomes]
    exact h.outcomeRefs
  orders := hs.jobs ▸ h.orders
  lowest := hs.jobs ▸ h.lowest
  leased := hs.jobs ▸ h.leased
  issued := h.issued
  hashed := hs.jobs ▸ h.hashed
  limited := hs.jobs ▸ h.limited
  fits := hs.jobs ▸ h.fits

/-- What holds of the store between transactions. -/
structure ServiceOk (store : Store) (q : QueueState) : Prop where
  queue : QueueOk store q
  backed : Backed q.db

theorem ServiceOk.beside {q : QueueState} (h : ServiceOk store q) (hs : SameQueue q.db d') :
    ServiceOk store { q with db := d' } :=
  ⟨h.queue.beside hs,
    h.backed.mono (hs.links ▸ List.Subset.refl _) (hs.outcomes ▸ List.Subset.refl _) hs.sources⟩

theorem next_lease_db (q : QueueState) (env : Ambient) (request : LeaseRequest) :
    (q.next store (.lease env request)).db = (store.leaseConsolidationJob env request).after q.db := by
  unfold Prog.after
  simp only [QueueState.next]
  cases hrun : Prog.run (store.leaseConsolidationJob env request) q.db with
  | error e => rfl
  | ok r => obtain ⟨_ | job, d⟩ := r <;> rfl

theorem Backed.next {q : QueueState} (h : Backed q.db) (c : QueueCommand) :
    Backed (q.next store c).db := by
  cases c with
  | intake c => exact (h.intake c).after h
  | lease env request =>
    rw [next_lease_db]
    exact (h.emits (emits_leaseConsolidationJob env request (fun _ => rfl) fun _ => rfl)).after h
  | complete env jobRef token => exact (h.emits (emits_endLease jobRef token _ fun _ => rfl)).after h
  | retry env jobRef token notBefore =>
    exact (h.emits (emits_endLease jobRef token _ fun _ => rfl)).after h

theorem emits_commit_beside (env : Ambient) (p : Proposal) (text : String) :
    (store.commitWindow env p text).Emits fun w => w.group = none ∧ w.job = none := by
  refine emits_commitWindow ⟨fun w hw _ => ?_, fun _ _ _ _ _ => ⟨rfl, rfl⟩,
    fun _ _ _ _ _ => ⟨rfl, rfl⟩, fun _ => ⟨rfl, rfl⟩, fun _ => ⟨rfl, rfl⟩⟩ env p text
  cases w <;> first | exact ⟨rfl, rfl⟩ | exact hw.elim

theorem ServiceRun.ok (hdistinct : RefsDistinct store) {q : QueueState} (h : ServiceRun store q) :
    ServiceOk store q := by
  induction h with
  | start => exact ⟨queueOk_empty store, backed_empty⟩
  | queue _ c hdrawn ih => exact ⟨(ih.queue.next hdistinct c hdrawn).ok, ih.backed.next c⟩
  | select _ index request ih =>
    exact ih.beside (sameQueue_after (emits_selectMemory (fun _ => ⟨rfl, rfl⟩) (fun _ => ⟨rfl, rfl⟩)
      (fun _ => ⟨rfl, rfl⟩) index request) _)
  | commit _ env p text ih => exact ih.beside (sameQueue_after (emits_commit_beside env p text) _)

/-! ## Calls in turn -/

theorem after_ret {α β : Type} (p : Tx α) (f : α → β) (d : Db) :
    (p >>= fun a => .ret (f a)).after d = p.after d := by
  show (Prog.bind p _).after d = _
  unfold Prog.after Prog.run
  rw [Prog.exec_bind]
  cases Prog.exec d p [] <;> rfl

theorem turn_after (s : MemorySys) (p : Tx MemoryReply) : (s.turn p).db = p.after s.db := by
  unfold Sys.turn Prog.after
  cases Prog.run p s.db <;> rfl

/-- A consolidation that nothing interrupts changes the store by its commit only. -/
theorem after_consolidateWindow (index : Option MemoryIndex) (env : Ambient) (window : Window)
    (worker : Worker) (d : Db) :
    (store.consolidateWindow index env window worker).after d = d ∨
      ∃ p text, (store.consolidateWindow index env window worker).after d =
        (store.commitWindow env p text).after d := by
  have hexec : Prog.exec d (store.consolidateWindow index env window worker) [] = _ :=
    exec_selectOrFail
  rw [applyAll_nil] at hexec
  cases hsnapshot : store.snapshotWindow index window d with
  | error e =>
    left
    unfold Prog.after Prog.run
    rw [hexec, hsnapshot]
  | ok snapshot =>
    rw [hsnapshot] at hexec
    cases snapshot with
    | frozen receipt =>
      left
      unfold Prog.after Prog.run
      rw [hexec]
      rfl
    | proposed p =>
      dsimp only at hexec
      cases htext : p.answer worker with
      | none =>
        left
        unfold Prog.after Prog.run
        rw [hexec, htext]
        rfl
      | some text =>
        right
        refine ⟨p, text, ?_⟩
        rw [htext] at hexec
        rw [← after_ret (store.commitWindow env p text) (MemoryReply.consolidated env p text)]
        unfold Prog.after Prog.run
        rw [hexec]

theorem ServiceRun.consolidate {q : QueueState} (h : ServiceRun store q)
    (index : Option MemoryIndex) (env : Ambient) (window : Window) (worker : Worker) :
    ServiceRun store { q with db := (store.consolidateWindow index env window worker).after q.db } := by
  rcases @after_consolidateWindow store index env window worker q.db with heq | ⟨p, text, heq⟩
  · rw [heq]
    exact h
  · rw [heq]
    exact h.commit env p text

/-! ## Loading -/

/-- The window that a frozen job is put to its worker as. -/
def JobRow.window (j : JobRow) : Window := ⟨j.jobRef, j.episodeRefs, j.outcomeEventRefs⟩

/-- The refs of the job are such as are printed. -/
def JobRow.Stable (j : JobRow) : Prop :=
  stableFeedbackRef j.jobRef = true ∧ ∀ ref ∈ j.episodeRefs ++ j.outcomeEventRefs,
    stableFeedbackRef ref = true

instance (j : JobRow) : Decidable j.Stable := inferInstanceAs (Decidable (_ ∧ _))

/-- A backed link is read with its source. -/
theorem LinkRow.Backed.linked {l : LinkRow} (h : l.Backed d)
    (hsources : KeysUnique SourceRow.key d.sources) :
    ∃ s, linkedSource d l = some s ∧ s.ref = l.sourceEventRef ∧ s.role = l.role ∧
      (l.role = .agentAct → s.actorKind = .agent ∧ s.actorRef = l.group.scope.agentRef) := by
  obtain ⟨s, hs, hkey, hact⟩ := h
  unfold linkedSource
  rw [hsources.find hs hkey]
  exact ⟨_, rfl, rfl, rfl, hact⟩

/-- Every Episode is complete. -/
theorem loadEpisode_of_consistent (hd : Consistent store d) (hbacked : Backed d)
    (hhash : Collisionless store) (hsources : KeysUnique SourceRow.key d.sources) {e : EpisodeRow}
    (he : e ∈ d.episodes) :
    ∃ r, loadEpisode e.ref d = some r ∧ r.owner = e.group.scope.owner := by
  have hok := hd.groups e.group
  have href := hok.ref e he rfl
  have hfind : d.episodes.find? (fun e' => decide (e'.ref = e.ref)) = some e := by
    refine find_only he (decide_eq_true rfl) fun e' hmem hsame => ?_
    have href' := (hd.groups e'.group).ref e' hmem rfl
    have hgroup : e'.group = e.group :=
      episodeRef_injective hhash (href'.symm.trans ((of_decide_eq_true hsame).trans href))
    exact hd.keys.episodes.eq hmem he hgroup
  have hmade : Materialized e.group d := ⟨e, he, rfl⟩
  obtain ⟨situation, hs, act, ha, hsg, hag, hsrole, harole, hne⟩ := hok.gate.mp hmade
  have hlinks := (hok.bound hmade).1
  have hshown : ∀ l ∈ d.links, l.group = e.group → ∀ s, linkedSource d l = some s →
      s ∈ (episodeEvidence e d).sources := by
    intro l hl hg s hlinked
    refine List.mem_filterMap.mpr ⟨l, (List.mem_insertionSort _).mpr (List.mem_filter.mpr ⟨hl, ?_⟩),
      hlinked⟩
    simp [hg, hlinks l hl hg, href]
  obtain ⟨s, hslinked, hsref, hsrole', _⟩ := (hbacked.links situation hs).linked hsources
  obtain ⟨a, halinked, haref, harole', hown⟩ := (hbacked.links act ha).linked hsources
  obtain ⟨hkind, hactor⟩ := hown harole
  have hroles : episodeHasFormationRoles (episodeEvidence e d) = true := by
    refine List.any_eq_true.mpr ⟨s, hshown situation hs hsg s hslinked, ?_⟩
    have hact : ownAct (episodeEvidence e d) a = true := by
      have howner : (episodeEvidence e d).owner.agentRef = e.group.scope.agentRef := rfl
      simp [ownAct, harole', harole, hkind, hactor, howner, hag]
    rw [hsrole', hsrole, beq_self_eq_true, Bool.true_and]
    refine List.any_eq_true.mpr ⟨a, hshown act ha hag a halinked, ?_⟩
    rw [hact, hsref, haref, Bool.true_and, bne_iff_ne]
    exact hne
  refine ⟨episodeEvidence e d, ?_, rfl⟩
  unfold loadEpisode
  rw [hfind]
  have hname : (e.ref == "") = false := by
    rw [href, beq_eq_false_iff_ne]
    exact store.episodeRef_ne e.group
  simp [hname, hroles]

/-- The Outcomes of a job load with its Episodes. -/
theorem loadFeedbackOutcome_of_job (hd : ∀ o ∈ d.outcomes,
      ∃ s ∈ d.sources, s.key = (o.group.scope, o.sourceEventRef))
    (hunique : OutcomeRefsUnique d) (hsources : KeysUnique SourceRow.key d.sources) {j : JobRow}
    (hj : JobRowOk d j) {episodes : List EpisodeEvidence}
    (hrefs : episodes.map (·.ref) = j.episodeRefs) (howner : windowOwner episodes = j.owner)
    {ref : String} (href : ref ∈ j.outcomeEventRefs) :
    ∃ o, loadFeedbackOutcome episodes d ref = .ok o := by
  obtain ⟨row, hrow, rfl, hrowner, hepisode⟩ := hj.outcomes ref href
  have hfind : d.outcomes.find? (fun o => decide (o.ref = row.ref)) = some row :=
    hunique.find hrow rfl
  obtain ⟨s, hs, hkey⟩ := hd row hrow
  have hshown : (episodes.any (·.ref == row.episodeRef)) = true := by
    rw [← hrefs] at hepisode
    obtain ⟨e, he, heref⟩ := List.mem_map.mp hepisode
    exact List.any_eq_true.mpr ⟨e, he, by simp [heref]⟩
  unfold loadFeedbackOutcome outcomeSource
  rw [hfind]
  dsimp only
  rw [hsources.find hs hkey]
  simp [hrowner, howner, hshown]

theorem JobRowOk.window_valid {j : JobRow} (hj : JobRowOk d j) (hstable : j.Stable) :
    j.window.valid = true := by
  have hunique : ∀ {refs : List String}, refs.Nodup → (∀ ref ∈ refs, stableFeedbackRef ref = true) →
      uniqueStableRefs refs = true := fun hnodup hall => uniqueStableRefs_iff.mpr ⟨hnodup, hall⟩
  have hepisodes := hunique hj.nodup fun ref h => hstable.2 ref (List.mem_append_left _ h)
  have houtcomes := hunique hj.outcomesNodup fun ref h => hstable.2 ref (List.mem_append_right _ h)
  unfold Window.valid JobRow.window
  rw [hstable.1, hepisodes, houtcomes]
  simp [hj.nonempty]

end

end ChoraMem
