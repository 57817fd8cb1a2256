/-
A consolidation and its operations among other transactions.

Each change of a batch puts what it announces into the outbox, after its rows and in the same
transaction.  The rows of the batch are those of its deeds, so the commit leaves an operation
for the causes of every version that it made, and for nothing else.
-/
import ChoraMem.World.Announce

namespace ChoraMem

open Txn

/-- What a part of a transaction put into the outbox. -/
structure Trailed (store : Store) (cs : List Cause) (x y : Db) : Prop where
  kept : x.indexOperations ⊆ y.indexOperations
  posts : ∀ c ∈ cs, y.Posts (store.operationRef c)
  founded : ∀ o ∈ y.indexOperations, o ∈ x.indexOperations ∨
    ∃ c ∈ cs, ∃ n, o = store.operationOf c n
  numbered : Numbered x.indexOperations → Numbered y.indexOperations

section

variable {store : Store} {d e x y z : Db} {l l' : Local Write String} {c : Cause}
variable {cs cs' : List Cause} {env : Ambient} {jobRef : String} {w : WindowState} {change : Change}

theorem Trailed.none (h : y.indexOperations = x.indexOperations) : Trailed store [] x y := by
  refine ⟨?_, fun _ hc => absurd hc List.not_mem_nil, fun o ho => Or.inl (h ▸ ho), fun hn => ?_⟩
  · rw [h]
    exact fun _ ho => ho
  · rw [h]
    exact hn

theorem Trailed.enqueued (h : Enqueued store c x y) : Trailed store [c] x y where
  kept := by
    obtain ⟨operations, rfl, hsub⟩ := h.outbox
    exact hsub
  posts := by
    intro c' hc
    rw [List.mem_singleton.mp hc]
    exact h.posts
  founded := fun o ho => (h.of_mem ho).imp_right fun hn => ⟨c, List.mem_singleton_self c, hn⟩
  numbered := h.numbered

theorem Trailed.append (h : Trailed store cs x y) (h' : Trailed store cs' y z) :
    Trailed store (cs ++ cs') x z where
  kept := fun _ ho => h'.kept (h.kept ho)
  posts := by
    intro c hc
    rcases List.mem_append.mp hc with hc | hc
    · exact (h.posts c hc).mono h'.kept
    · exact h'.posts c hc
  founded := by
    intro o ho
    rcases h'.founded o ho with ho | ⟨c, hc, hn⟩
    · rcases h.founded o ho with ho | ⟨c, hc, hn⟩
      · exact Or.inl ho
      · exact Or.inr ⟨c, List.mem_append_left _ hc, hn⟩
    · exact Or.inr ⟨c, List.mem_append_right _ hc, hn⟩
  numbered := fun hn => h'.numbered (h.numbered hn)

/-- The transaction has put just these causes into the outbox since, under its locks. -/
def Store.Trails (store : Store) (d : Db) (l : Local Write String) (cs : List Cause)
    (l' : Local Write String) : Prop :=
  Trailed store cs (applyAll d l.log) (applyAll d l'.log) ∧ store.Guarded l'

/-! ## Rows of Memory -/

theorem memoryRow_group {w : Write} (h : MemoryRow w) : w.group = none := by
  cases w <;> first | rfl | exact h.elim

theorem operations_memoryRows {ws : List Write} (h : ∀ w ∈ ws, MemoryRow w) (x : Db) :
    (applyAll x ws).indexOperations = x.indexOperations := by
  induction ws generalizing x with
  | nil => rfl
  | cons w rest ih =>
    have hrest := ih (fun w' hw' => h w' (List.mem_cons_of_mem _ hw')) (x.apply w)
    rw [applyAll_cons]
    refine hrest.trans (operations_apply (fun o ho => ?_) x)
    have hw := h w List.mem_cons_self
    rw [ho] at hw
    exact hw

/-- Rows of Memory put nothing into the outbox. -/
theorem ends_memory {α : Type} {p : Tx α} (hp : p.Emits MemoryRow) (hguard : store.Guarded l) :
    (servicePact store).Ends d p (fun _ l' _ => store.Trails d l [] l') l e := by
  refine Pact.Ends.conseq (Pact.Ends.gathers hp l e) fun _ l' _ h => ?_
  obtain ⟨more, hlog, hmore⟩ := h.log
  refine ⟨.none ?_, fun w hw g hg => ?_, fun o ho => ?_⟩
  · rw [hlog, applyAll_append]
    exact operations_memoryRows hmore _
  · rw [hlog] at hw
    rcases List.mem_append.mp hw with hw | hw
    · exact h.held _ (hguard.groups w hw g hg)
    · rw [memoryRow_group (hmore w hw)] at hg
      cases hg
  · rw [hlog] at ho
    rcases List.mem_append.mp ho with ho | ho
    · exact h.held _ (hguard.streams o ho)
    · exact (hmore _ ho).elim

/-! ## Projections -/

theorem ends_cause (c : Cause) (hguard : store.Guarded l) :
    (servicePact store).Ends d (store.enqueueCause c) (fun _ l' _ => store.Trails d l [c] l') l e :=
  Pact.Ends.conseq (ends_enqueueCause hguard) fun _ _ _ h => ⟨.enqueued h.1, h.2⟩

theorem Store.Trails.then {l₁ l₂ : Local Write String} (h : store.Trails d l cs l₁)
    (h' : store.Trails d l₁ cs' l₂) : store.Trails d l (cs ++ cs') l₂ :=
  ⟨h.1.append h'.1, h'.2⟩

theorem ends_announceFormation {kind : DocumentKind} {owner : OwnerScope} (a : Applied)
    (hguard : store.Guarded l) :
    (servicePact store).Ends d (store.projectFormation kind owner a)
      (fun b l' _ => b = a ∧ store.Trails d l (formationCauses kind owner a) l') l e := by
  unfold Store.projectFormation formationCauses
  split
  · exact Pact.Ends.bind (Pact.Ends.conseq (ends_cause
      ⟨.upsert, kind, a.versionRef, owner, Store.versionRootRef a.versionRef, [a.versionRef]⟩ hguard)
      fun _ _ _ h => ⟨rfl, h⟩)
  · exact ⟨rfl, .none rfl, hguard⟩

theorem ends_announceRevision {kind : DocumentKind} {rootRef oldRef : String} {owner : OwnerScope}
    (a : Applied) (hguard : store.Guarded l) :
    (servicePact store).Ends d (store.projectRevision kind rootRef oldRef owner a)
      (fun b l' _ => b = a ∧ store.Trails d l (revisionCauses kind rootRef oldRef owner a) l') l e := by
  unfold Store.projectRevision revisionCauses
  split
  · refine Pact.Ends.bind (Pact.Ends.bind (Pact.Ends.conseq (ends_cause
      ⟨.delete, kind, oldRef, owner, rootRef, [a.versionRef]⟩ hguard) fun _ l₁ e₁ h₁ => ?_))
    exact Pact.Ends.conseq (ends_cause ⟨.upsert, kind, a.versionRef, owner, rootRef, [a.versionRef]⟩
      h₁.2) fun _ _ _ h₂ => ⟨rfl, h₁.then h₂⟩
  · exact ⟨rfl, .none rfl, hguard⟩

/-- Rows of Memory, and then what they are announced with. -/
theorem ends_announced {p : Tx Applied} {f : Applied → Tx Applied} {announced : Applied → List Cause}
    (hguard : store.Guarded l) (hp : p.Emits MemoryRow)
    (hf : ∀ a l e, store.Guarded l → (servicePact store).Ends d (f a)
      (fun b l' _ => b = a ∧ store.Trails d l (announced a) l') l e) :
    (servicePact store).Ends d (p >>= f) (fun a l' _ => store.Trails d l (announced a) l') l e := by
  refine Pact.Ends.bind (Pact.Ends.conseq (ends_memory hp hguard) fun a l₁ e₁ h₁ => ?_)
  refine Pact.Ends.conseq (hf a l₁ e₁ h₁.2) fun b l₂ e₂ h₂ => ?_
  obtain ⟨rfl, h₂⟩ := h₂
  exact h₁.then h₂

/-! ## Changes -/

theorem memoryRow_all : OfMemory MemoryRow := fun _ h _ => h

theorem ends_announceChange (hguard : store.Guarded l) :
    (servicePact store).Ends d (store.applyChange env jobRef w change)
      (fun a l' _ => store.Trails d l (w.announces change a) l') l e := by
  rw [Store.applyChange_addressee]
  unfold WindowState.announces
  cases w.addressee change.target with
  | newRecollection =>
    exact ends_announced hguard
      (emits_applyRecollectionFormation memoryRow_all (fun _ _ _ _ _ => trivial) _ _ _ _)
      fun a _ _ => ends_announceFormation a
  | newDisposition =>
    exact ends_announced hguard
      (emits_applyDispositionFormation memoryRow_all (fun _ _ _ _ _ => trivial) _ _ _)
      fun a _ _ => ends_announceFormation a
  | recollection r =>
    dsimp only
    unfold Store.applyRecollectionChange
    cases change.operation with
    | keep => exact ends_memory (emits_applyRecollectionKeep memoryRow_all _ _) hguard
    | text =>
      exact ends_announced hguard (emits_applyRecollectionRevision memoryRow_all _ _ _ _)
        fun a _ _ => ends_announceRevision a
    | _ => exact ⟨.none rfl, hguard⟩
  | disposition t =>
    dsimp only
    unfold Store.applyDispositionChange
    cases change.operation with
    | reenact => exact ends_memory (emits_applyReenactment memoryRow_all _ _) hguard
    | inhibit => exact ends_memory (emits_applyInhibition memoryRow_all _ _) hguard
    | text | adapt =>
      exact ends_announced hguard (emits_applyRevision memoryRow_all _ _ _)
        fun a _ _ => ends_announceRevision a
    | keep => exact ⟨.none rfl, hguard⟩
  | nobody => exact ⟨.none rfl, hguard⟩

theorem ends_announceChanges {changes : List Change} (hguard : store.Guarded l) :
    (servicePact store).Ends d (store.applyChanges env jobRef w changes)
      (fun effects l' _ => store.Trails d l (effects.flatMap fun s => w.announces s.1 s.2) l') l e := by
  induction changes generalizing l e with
  | nil => exact ⟨.none rfl, hguard⟩
  | cons change rest ih =>
    refine Pact.Ends.bind (Pact.Ends.conseq (ends_announceChange hguard) fun a l₁ e₁ h₁ => ?_)
    exact Pact.Ends.bind (Pact.Ends.conseq (ih h₁.2) fun effects l₂ e₂ h₂ => h₁.then h₂)

/-! ## The commit -/

section

variable {p : Proposal} {text : String} {effects : List (Change × Applied)}

/-- After an accepted batch the causes of Memory are those there were, and the announced ones. -/
theorem Sight.causes (s : Sight store p e d) (hd : WorldLaw store d) (hge : Gains e d)
    (hp : Proposed store p x) (hlocked : ∀ t ∈ s.targets, p.locks t.owner)
    (hbatch : Batch store env p.window.jobRef s.window (s.window.accepted text) d effects y) :
    (∀ c, c ∈ memoryCauses y ↔ c ∈ memoryCauses d ∨
      c ∈ effects.flatMap fun t => s.window.announces t.1 t.2) ∧ Beside d y := by
  have hheld := s.held hge hp.valid hp.owner_locked hlocked
  have hkept := s.keeps hd hge hp hlocked hbatch
    (P := fun z done => ∀ c, c ∈ memoryCauses z ↔ c ∈ memoryCauses d ∨
      c ∈ done.flatMap fun t => s.window.announces t.1 t.2) (fun c => by simp) ?_
  · exact ⟨hkept.1, hkept.2.2.2⟩
  intro x' done change a deed z _ hstep hP c
  obtain ⟨hlicensed, hfits, hdid⟩ := hstep.carried
  rw [deed_causes hstep.law hfits hstep.regular hdid, hP c,
    ← hlicensed.announces hheld hstep.law hfits, List.flatMap_append, List.mem_append, or_assoc]
  simp

theorem Sight.posting (s : Sight store p e d) (hd : WorldLaw store d) (ho : OutboxLaw store d)
    (hge : Gains e d) (hp : Proposed store p x) (hlocked : ∀ t ∈ s.targets, p.locks t.owner)
    (hbatch : Batch store env p.window.jobRef s.window (s.window.accepted text) d effects y)
    (htrail : Trailed store (effects.flatMap fun t => s.window.announces t.1 t.2) d y) :
    Posting store d y := by
  obtain ⟨hcauses, hbeside⟩ := s.causes hd hge hp hlocked hbatch
  constructor
  · intro o hmem
    rcases htrail.founded o hmem with hold | ⟨c, hc, hn⟩
    · exact Or.inl hold
    · exact Or.inr ⟨c, List.mem_append_right _ ((hcauses c).mpr (Or.inr hc)), hn⟩
  · intro c hc
    exact ((hcauses c).mp hc).imp_right (htrail.posts c)
  · intro k hk _
    exact Or.inl (hbeside.links ▸ hk)
  · intro r hr
    exact Or.inl (hbeside.episodes ▸ hr)
  · intro k hk
    rw [hbeside.links] at hk
    refine Sourced.mono (ho.sourced k hk) ?_
    rw [hbeside.sources]
    exact fun _ h => h
  · exact htrail.numbered ho.numbered

theorem ends_commissionWindow (hd : WorldLaw store d) (ho : OutboxLaw store d)
    (hhash : Collisionless store) (hx : WorldLaw store x) (hp : Proposed store p x)
    (hlog : l.log = []) :
    (servicePact store).Ends d (store.commitWindow env p text)
      (fun _ l' _ => store.Commissions d l') l e := by
  refine ends_commitWindow_with (Pact.implies_left _ _) hd hhash hx hp hlog ?_ ?_
  · intro receipt x' l' e' _ _ _ _ hlog'
    refine .quiet ho fun w hw => ?_
    rw [hlog'] at hw
    cases hw
  · intro e' sight l' hge _ hlocked _ hheld hready hlog'
    have hguard : store.Guarded l' := guarded_quiet fun w hw => by
      rw [hlog'] at hw
      cases hw
    refine Pact.Ends.conseq (ends_commitChanges_with (Pact.implies_left _ _) hready hd hhash hheld hlog'
      (ends_announceChanges hguard)) fun receipt l₆ _ h => ?_
    obtain ⟨effects, l₁, htrails, hbatch, _, _, rfl, _⟩ := h
    have htrail := htrails.1
    rw [hlog', applyAll_nil] at htrail
    have hcommits : store.Commissions d l₁ :=
      ⟨sight.posting hd ho hge hp hlocked hbatch htrail, htrails.2⟩
    refine hcommits.more ⟨fun _ hk => hk, _, rfl, fun w hw => ?_⟩
    rw [List.mem_singleton.mp hw]
    exact trivial

theorem ends_commissionConsolidation {index : Option MemoryIndex} {window : Window}
    {worker : Worker} (hd : WorldLaw store d) (ho : OutboxLaw store d)
    (hhash : Collisionless store) :
    (servicePact store).Ends d (store.consolidateWindow index env window worker)
      (fun _ l' _ => store.Commissions d l') ⟨[], []⟩ e := by
  unfold Store.consolidateWindow
  refine ends_selectOrFail fun x hb snapshot hsnapshot => ?_
  dsimp only at hsnapshot
  rw [applyAll_nil] at hsnapshot
  cases snapshot with
  | frozen receipt => exact .quiet ho fun w hw => absurd hw List.not_mem_nil
  | proposed p =>
    have hp : Proposed store p x := (snapshot_proposed hsnapshot).2
    dsimp only
    split
    · exact trivial
    · exact Pact.Ends.bind (Pact.Ends.conseq
        (ends_commissionWindow hd ho hhash hb.inv.1 hp rfl) fun _ _ _ h => h)

end

end

end ChoraMem
