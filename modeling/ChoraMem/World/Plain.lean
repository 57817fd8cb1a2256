/-
Calls that leave Memory alone.

Intake and the job queue write sources, Episodes, links, requests, Outcomes,
deliveries, jobs and the outbox, and no row of Memory, of a context or of a receipt.
What the law of the store says of an Episode or of a delivery is checked before its
row is written, so these calls may commit whatever the others did meanwhile.
-/
import ChoraMem.Intake.Emits
import ChoraMem.World.Loads

namespace ChoraMem

open Txn Versions

/-! ## Rows -/

/-- A ref as it is made for a kind of row. -/
def NamedAs (kind ref : String) : Prop := ∃ hash, ref = kind ++ hash

theorem NamedAs.starts {kind ref : String} (h : NamedAs kind ref) : kind.toList <+: ref.toList := by
  obtain ⟨hash, rfl⟩ := h
  rw [String.toList_append]
  exact List.prefix_append _ _

theorem NamedAs.ne {kind ref word : String} (h : NamedAs kind ref)
    (hword : ¬kind.toList <+: word.toList) : ref ≠ word := by
  rintro rfl
  exact hword h.starts

/-- No ref is of two kinds. -/
theorem NamedAs.apart {kind kind' ref : String} (h : NamedAs kind ref) (h' : NamedAs kind' ref)
    (hkind : ¬(kind.toList <+: kind'.toList ∨ kind'.toList <+: kind.toList)) : False :=
  hkind (List.prefix_or_prefix_of_prefix h.starts h'.starts)

/-- A row of no Memory, context or receipt, as the calls write it. -/
def Store.Plain (store : Store) : Write → Prop
  | .insertEpisode r => r.ref = store.episodeRef r.group ∧ r.group.scope.Whole
  | .insertDelivery r => NamedAs "delivery_" r.ref
  | .updateLink r => r.episodeRef = store.episodeRef r.group
  | .insertContext _ | .insertContextItem _ | .insertContextEvidence _ => False
  | .insertSeed _ | .insertSeedVersion _ | .updateSeedVersion _ => False
  | .insertSeedBasis _ | .insertSeedOutcomeBasis _ | .insertReceipt _ => False
  | .insertRecollection _ | .insertRecollectionVersion _ | .updateRecollectionVersion _ => False
  | .insertRecollectionBasis _ => False
  | _ => True

/-- Two stores hold the same Memory and the same receipts. -/
structure SameShelves (d d' : Db) : Prop where
  seeds : d'.seeds = d.seeds
  seedVersions : d'.seedVersions = d.seedVersions
  seedBasis : d'.seedBasis = d.seedBasis
  seedOutcomeBasis : d'.seedOutcomeBasis = d.seedOutcomeBasis
  recollections : d'.recollections = d.recollections
  recollectionVersions : d'.recollectionVersions = d.recollectionVersions
  recollectionBasis : d'.recollectionBasis = d.recollectionBasis
  receipts : d'.receipts = d.receipts

section

variable {store : Store} {d d' d'' : Db}

theorem SameShelves.refl (d : Db) : SameShelves d d := ⟨rfl, rfl, rfl, rfl, rfl, rfl, rfl, rfl⟩

theorem SameShelves.trans (h : SameShelves d d') (h' : SameShelves d' d'') : SameShelves d d'' :=
  ⟨h'.1.trans h.1, h'.2.trans h.2, h'.3.trans h.3, h'.4.trans h.4, h'.5.trans h.5, h'.6.trans h.6,
    h'.7.trans h.7, h'.8.trans h.8⟩

theorem SameShelves.seedShelf (h : SameShelves d d') : d'.seedShelf = d.seedShelf :=
  Db.seedShelf_congr (by simp [h.1]) (by simp [h.2]) (by simp [h.3]) (by simp [h.4])

theorem SameShelves.recollectionShelf (h : SameShelves d d') :
    d'.recollectionShelf = d.recollectionShelf :=
  Db.recollectionShelf_congr (by simp [h.5]) (by simp [h.6]) (by simp [h.7])

theorem SameShelves.grown (h : SameShelves d d') : Grown d d' := by
  constructor
  · rw [h.seedShelf]
    exact Shelf.Evolves.refl _
  · rw [h.recollectionShelf]
    exact Shelf.Evolves.refl _

theorem SameShelves.sameMemory (h : SameShelves d d') (o : OwnerScope → Prop) : SameMemory o d d' := by
  constructor
  · rw [h.seedShelf]
    exact Shelf.Same.refl _ _
  · rw [h.recollectionShelf]
    exact Shelf.Same.refl _ _

theorem SameShelves.memoryLaw (h : SameShelves d d') (hd : MemoryLaw d) : MemoryLaw d' :=
  hd.congr h.1 h.2 h.3 h.4 h.5 h.6 h.7

/-- The log leaves Memory alone and the law holds after it. -/
theorem commits_of_sameShelves {l : Local Write String} (h : SameShelves d (applyAll d l.log))
    (hlaw : WorldLaw store (applyAll d l.log)) (hlinks : KeepsLinks store d (applyAll d l.log))
    (hcontexts : KeepsContexts d (applyAll d l.log)) : (memoryPact store).Commits l d :=
  ⟨hlaw, fun _ hapart => permitted_of_apart hapart h.grown hlinks hcontexts fun o _ => h.sameMemory o⟩

/-! ## Plain rows keep the law -/

theorem worldLaw_plain (hd : WorldLaw store d) {w : Write} (hw : store.Plain w) :
    WorldLaw store (d.apply w) ∧ SameShelves d (d.apply w) := by
  have hsame : SameShelves d (d.apply w) := by
    cases w <;> first | exact ⟨rfl, rfl, rfl, rfl, rfl, rfl, rfl, rfl⟩ | exact hw.elim
  have hg := gains_apply d w
  have hcontexts : (d.apply w).contexts = d.contexts := by
    cases w <;> first | rfl | exact hw.elim
  have hitems : (d.apply w).contextItems = d.contextItems := by
    cases w <;> first | rfl | exact hw.elim
  have hevidence : (d.apply w).contextEvidence = d.contextEvidence := by
    cases w <;> first | rfl | exact hw.elim
  refine ⟨⟨hsame.memoryLaw hd.memory, ?_, ?_, ?_, ?_, ?_, ?_, ?_, keysUnique_sources hd.sources w⟩, hsame⟩
  · intro e he
    cases w with
    | insertEpisode r =>
      rcases mem_insertRow.mp (show e ∈ insertRow EpisodeRow.group r d.episodes from he) with
        he | ⟨rfl, _⟩
      · exact hd.episodes e he
      · exact hw
    | _ => exact hd.episodes e he
  · rw [hsame.seeds]
    exact hd.seedRefs
  · intro r hr
    cases w with
    | insertDelivery r' =>
      rcases mem_insertRow.mp (show r ∈ insertRow DeliveryRow.ref r' d.deliveries from hr) with
        hr | ⟨rfl, _⟩
      · exact hd.deliveries r hr
      · exact hw.ne (by decide)
    | _ => exact hd.deliveries r hr
  · intro b hb
    rw [hsame.seedBasis] at hb
    exact (hd.cited b hb).mono hg
  · rw [hcontexts]
    exact hd.contexts
  · intro i hi
    rw [hitems] at hi
    obtain ⟨c, hc, href, ht, hmem⟩ := hd.items i hi
    exact ⟨c, hg.contexts hc, href, ht, hmem.mono hg⟩
  · intro i hi
    rw [hevidence] at hi
    obtain ⟨c, hc, href, ht, hmem⟩ := hd.evidence i hi
    exact ⟨c, hg.contexts hc, href, ht, hmem.mono hg⟩

theorem worldLaw_plains (hd : WorldLaw store d) {ws : List Write} (hws : ∀ w ∈ ws, store.Plain w) :
    WorldLaw store (applyAll d ws) ∧ SameShelves d (applyAll d ws) := by
  induction ws generalizing d with
  | nil => exact ⟨hd, SameShelves.refl d⟩
  | cons w rest ih =>
    obtain ⟨hlaw, hsame⟩ := worldLaw_plain hd (hws w List.mem_cons_self)
    obtain ⟨hlaw', hsame'⟩ := ih hlaw fun w' hw' => hws w' (List.mem_cons_of_mem _ hw')
    exact ⟨hlaw', hsame.trans hsame'⟩

theorem bindsLinks_plain {w : Write} (hw : store.Plain w) : store.BindsLinks w := by
  cases w <;> first | exact hw | exact trivial

theorem spares_plain {w : Write} {contextRef : String} (hw : store.Plain w) : w.Spares contextRef := by
  cases w <;> first | exact trivial | exact hw.elim

theorem commits_plain (hd : WorldLaw store d) {l : Local Write String}
    (hl : ∀ w ∈ l.log, store.Plain w) : (memoryPact store).Commits l d :=
  commits_of_sameShelves (worldLaw_plains hd hl).2 (worldLaw_plains hd hl).1
    (keepsLinks_applyAll fun w hw => bindsLinks_plain (hl w hw))
    fun _ _ => sameItems_applyAll fun w hw => spares_plain (hl w hw)

end

/-! ## Intake -/

section

variable {store : Store}

/-- A source as validation lets it pass. -/
def SourceEvent.Signed (event : SourceEvent) : Prop :=
  event.ref ≠ "" ∧ event.actorRef ≠ "" ∧ validActorKind event.actorKind

/-- A plain row whose source was validated. -/
def Store.Tidy (store : Store) : Write → Prop
  | .insertSource r => r.event.Signed
  | w => store.Plain w

theorem plain_of_tidy {w : Write} (h : store.Tidy w) : store.Plain w := by
  cases w <;> first | exact h | exact trivial

/-- What validation says of a scope's owner. -/
theorem whole_of_validateSourceEvent {event : SourceEvent} (h : validateSourceEvent event = .ok ()) :
    event.scope.Whole := by
  simp only [validateSourceEvent, bind, Except.bind, throw, throwThe, MonadExceptOf.throw] at h
  split at h
  · cases h
  split at h
  · cases h
  rename_i hrefs
  split at h
  · cases h
  rename_i hscope
  simp only [validStableRef, Bool.or_eq_true, Bool.not_eq_true', Bool.and_eq_false_iff,
    bne_eq_false_iff_eq, not_or] at hscope
  refine ⟨hscope.1.1.1.1, hscope.1.1.2.1, ?_⟩
  split at h
  · rename_i hkind
    split at h
    · cases h
    · rename_i hempty
      exact Or.inl ⟨hkind, by simpa using hempty⟩
  · rename_i hkind
    split at h
    · cases h
    · rename_i hempty
      exact Or.inr ⟨hkind, by simpa using hempty⟩
  · cases h

/-- What validation says of a source. -/
theorem signed_of_validateSourceEvent {event : SourceEvent}
    (h : validateSourceEvent event = .ok ()) : event.Signed := by
  simp only [validateSourceEvent, bind, Except.bind, throw, throwThe, MonadExceptOf.throw] at h
  split at h
  · cases h
  split at h
  · cases h
  rename_i href
  split at h
  · cases h
  have href : event.ref ≠ "" := by
    intro hempty
    exact href (by simp [hempty, validStableRef])
  have hactor : validActorKind event.actorKind = true ∧ validStableRef event.actorRef = true := by
    by_contra hno
    have hcheck : (!validActorKind event.actorKind || !validStableRef event.actorRef) = true := by
      cases hk : validActorKind event.actorKind <;> cases hr : validStableRef event.actorRef <;>
        simp_all
    simp only [hcheck, if_true] at h
    split at h <;> (try split at h) <;> cases h
  refine ⟨href, ?_, hactor.1⟩
  intro hempty
  rw [hempty] at hactor
  exact absurd hactor.2 (by decide)

/-- A request is valid when its source is. -/
theorem source_of_validate {event : SourceEvent} {binding : EpisodeBinding}
    (h : validate event binding = .ok ()) : validateSourceEvent event = .ok () := by
  unfold validate at h
  cases hv : validateSourceEvent event with
  | error e =>
    rw [hv] at h
    cases h
  | ok u => rfl

theorem emits_insertEpisode {g : StableGroupRef} (hg : g.scope.Whole) :
    (store.insertEpisode g).Emits store.Tidy := by
  unfold Store.insertEpisode
  refine ⟨fun d w hw => ?_, fun d => ?_⟩
  · dsimp only at hw
    split at hw
    · cases hw
    · rw [List.mem_singleton.mp hw]
      exact ⟨rfl, hg⟩
  · dsimp only
    split <;> exact trivial

theorem emits_bindEpisode (g : StableGroupRef) : (store.bindEpisode g).Emits store.Tidy := by
  refine Prog.Emits.statement (fun d w hw => ?_) fun _ => ⟨fun d w hw => ?_, fun _ => trivial⟩
  · obtain ⟨l, hl, rfl⟩ := List.mem_map.mp hw
    obtain ⟨l₀, hl₀, rfl⟩ := List.mem_map.mp hl
    have hgroup : l₀.group = g := by simpa using (List.mem_filter.mp hl₀).2
    rw [← hgroup]
    rfl
  · obtain ⟨o, _, rfl⟩ := List.mem_map.mp hw
    exact trivial

theorem emits_appendLinkAndMaterialize {event : SourceEvent} (binding : EpisodeBinding)
    (hscope : event.scope.Whole) :
    (store.appendLinkAndMaterialize event binding).Emits store.Tidy := by
  have hlinked : ∀ ref, (alreadyLinked (binding.group event.scope) event.ref binding.role ref).Emits
      store.Tidy := by
    intro ref
    unfold alreadyLinked
    split
    · exact fun _ => trivial
    · exact trivial
  refine Prog.Emits.acquire (Prog.Emits.select fun ref => (hlinked ref).bind fun linked => ?_)
  split
  · exact trivial
  split
  · exact trivial
  refine Prog.Emits.statement (fun d w hw => ?_) fun changed => ?_
  · unfold newLink at hw
    split at hw
    · cases hw
    · rw [List.mem_singleton.mp hw]
      exact trivial
  split
  · exact trivial
  refine Prog.Emits.select fun opened => ?_
  split
  · exact trivial
  · exact (emits_insertEpisode hscope).bind fun _ => (emits_bindEpisode _).bind fun _ => trivial

theorem emits_bindObserved (env : Ambient) {event : SourceEvent} (binding : EpisodeBinding)
    (hscope : event.scope.Whole) : (store.bindObserved env event binding).Emits store.Tidy := by
  unfold Store.bindObserved
  split
  · refine (emits_appendLinkAndMaterialize binding hscope).bind fun r => ?_
    obtain ⟨ref, changed⟩ := r
    dsimp only
    split
    · exact (emits_enqueueEpisodeState store env event.scope ref (fun _ => trivial)
        fun _ => trivial).bind fun _ =>
          (emits_enqueueMemoryIndexOperation store _ _ _ _ _ _ fun _ => trivial).bind fun _ => trivial
    · exact trivial
  · exact trivial

theorem emits_observe (env : Ambient) (key : String) (event : SourceEvent)
    (binding : EpisodeBinding) : (store.observe env key event binding).Emits store.Tidy := by
  unfold Store.observe
  split
  · exact trivial
  split
  · exact trivial
  rename_i u hvalid
  have hevent := source_of_validate hvalid
  refine (emits_claimRequest store key event binding fun _ => trivial).bind fun claim => ?_
  obtain ⟨receipt, claimed⟩ := claim
  dsimp only
  split
  · exact trivial
  refine (emits_lockActedRun store event.scope binding).bind fun _ => ?_
  refine (emits_admitSource env event fun _ => signed_of_validateSourceEvent hevent).bind fun _ => ?_
  refine (emits_bindObserved env binding (whole_of_validateSourceEvent hevent)).bind fun ref => ?_
  exact (emits_freezeObserveReceipt _ _ _ fun _ => trivial).bind fun _ => trivial

theorem source_of_validateOutcomeReport {report : OutcomeReport}
    (h : validateOutcomeReport report = .ok ()) : validateSourceEvent report.event = .ok () := by
  simp only [validateOutcomeReport, bind, Except.bind, throw, throwThe, MonadExceptOf.throw] at h
  split at h
  · cases h
  split at h
  · rename_i u hvalid
    exact source_of_validate hvalid
  · cases h

theorem emits_reportOutcome (env : Ambient) (report : OutcomeReport) :
    (store.reportOutcome env report).Emits store.Tidy := by
  unfold Store.reportOutcome
  split
  · exact trivial
  rename_i u hvalid
  have hevent := source_of_validateOutcomeReport hvalid
  refine Prog.Emits.acquire ((emits_loadOutcomeReceipt report _).bind fun found => ?_)
  split
  · exact trivial
  refine (emits_validateOutcomeBindings report _ _).bind fun _ => ?_
  refine (emits_admitSource env report.event
    fun _ => signed_of_validateSourceEvent hevent).bind fun _ => ?_
  refine (emits_appendLinkAndMaterialize report.binding
    (whole_of_validateSourceEvent hevent)).bind fun r => ?_
  refine (emits_insertFresh trivial).bind fun _ => ?_
  refine (emits_enqueueEpisodeState store env report.event.scope r.1 (fun _ => trivial)
    fun _ => trivial).bind fun _ => ?_
  split
  · exact (emits_enqueueMemoryIndexOperation store _ _ _ _ _ _ fun _ => trivial).bind
      fun _ => trivial
  · exact trivial

theorem emits_recordMemoryDelivery (env : Ambient) (delivery : MemoryDelivery) :
    (store.recordMemoryDelivery env delivery).Emits store.Tidy := by
  have href : NamedAs "delivery_" (store.deliveryRow delivery).ref := ⟨_, rfl⟩
  unfold Store.recordMemoryDelivery
  split
  · exact trivial
  refine Prog.Emits.acquire ((emits_loadMemoryDeliveryReceipt _ _ _).bind fun found => ?_)
  split
  · exact trivial
  refine Prog.Emits.acquire ?_
  refine (emits_rejectRetroactiveMemoryDelivery delivery).bind fun _ => ?_
  refine (emits_loadDeliverableMemoryRefs delivery).bind fun allowed => ?_
  split
  · exact trivial
  refine (emits_insertFresh href).bind fun _ => ?_
  exact (emits_enqueueRunEpisodes store env _ _ (fun _ => trivial) fun _ => trivial).bind
    fun _ => trivial

theorem emits_intake (c : IntakeCommand) : (store.intake c).Emits store.Tidy := by
  cases c with
  | observe env key event binding => exact (emits_observe env key event binding).bind fun _ => trivial
  | reportOutcome env report => exact (emits_reportOutcome env report).bind fun _ => trivial
  | recordMemoryDelivery env delivery =>
    exact (emits_recordMemoryDelivery env delivery).bind fun _ => trivial

/-! ## The job queue -/

theorem emits_freezeWindow (request : LeaseRequest) (job : JobRow) {P : Write → Prop} :
    (store.freezeWindow request job).Emits P := by
  have hoverlap : ∀ owner current limit, (prependPreviousOverlap owner current limit).Emits P := by
    intro owner current limit
    unfold prependPreviousOverlap
    split
    · exact trivial
    refine Prog.Emits.select fun previous => ?_
    split
    · exact trivial
    · exact emits_selectOrFail.bind fun _ => trivial
  exact (hoverlap _ _ _).bind fun _ => emits_selectOrFail.bind fun _ => trivial

theorem emits_updateJobs {α : Type} {p : JobRow → Bool} {f : JobRow → JobRow} {q : Db → α}
    {P : Write → Prop} (hjob : ∀ r, P (.updateJob r)) :
    (Prog.statement (updateJobs p f) q : Tx α).Emits P := by
  refine ⟨fun d w hw => ?_, fun _ => trivial⟩
  obtain ⟨j, _, rfl⟩ := List.mem_map.mp hw
  exact hjob _

theorem emits_leaseConsolidationJob (env : Ambient) (request : LeaseRequest) {P : Write → Prop}
    (hnew : ∀ r, P (.insertJob r)) (hjob : ∀ r, P (.updateJob r)) :
    (store.leaseConsolidationJob env request).Emits P := by
  unfold Store.leaseConsolidationJob
  split
  · exact trivial
  refine emits_selectJobForUpdate hjob fun ready => ?_
  split
  · exact trivial
  rename_i job
  have hwindow : (store.leasedWindow request job).Emits P := by
    unfold Store.leasedWindow
    split
    · exact trivial
    · exact emits_freezeWindow request job
  refine hwindow.bind fun window => (emits_updateJobs hjob).bind fun _ => ?_
  have hcarry : (carryRemainder env job.owner window).Emits P := by
    unfold carryRemainder
    split
    · exact trivial
    · exact emits_insertFresh (hnew _)
  exact hcarry.bind fun _ => trivial

theorem emits_endLease (jobRef leaseToken : String) (f : JobRow → JobRow) {P : Write → Prop}
    (hjob : ∀ r, P (.updateJob r)) : (endLease jobRef leaseToken f).Emits P := by
  unfold endLease
  refine (emits_updateJobs hjob).bind fun affected => ?_
  split <;> exact trivial

end

end ChoraMem
