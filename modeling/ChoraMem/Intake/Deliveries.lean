/-
Deliveries come before the agent act.

`RecordMemoryDelivery` looks for an agent act of its run under the run's lock, and
an agent act is linked under the same lock.  So what the look shows still holds at
the delivery's commit, provided it was not a look at an older state: under
repeatable read the transaction's view is fixed by the lookup of the delivery's
receipt, before the lock.
-/
import ChoraMem.Intake.Commands

namespace ChoraMem

open Txn

/-! ## Links and deliveries of a log -/

/-- The link a write puts. -/
def Write.link : Write → Option LinkRow
  | .insertLink r | .updateLink r => some r
  | _ => none

def Write.delivery : Write → Option DeliveryRow
  | .insertDelivery r => some r
  | _ => none

/-- The run has a committed agent act. -/
def Acted (scope : Scope) (runRef : String) (d : Db) : Prop :=
  ∃ l ∈ d.links, l.group.scope = scope ∧ l.group.runRef = runRef ∧ l.role = .agentAct

theorem agentActExists_iff {scope : Scope} {runRef : String} {d : Db} :
    agentActExists scope runRef d = true ↔ Acted scope runRef d := by
  simp only [agentActExists, Acted, List.any_eq_true, Bool.and_eq_true, decide_eq_true_eq, beq_iff_eq,
    and_assoc]

theorem links_of_apply {d : Db} {w : Write} {l : LinkRow} (h : l ∈ (d.apply w).links) :
    l ∈ d.links ∨ w.link = some l := by
  cases w with
  | insertLink r => exact (mem_insertRow.mp h).imp id fun hx => congrArg some hx.1.symm
  | updateLink r => exact (mem_updateRow.mp h).imp And.left fun hx => congrArg some hx.symm
  | _ => exact Or.inl h

theorem acted_apply {scope : Scope} {runRef : String} {d : Db} (w : Write)
    (h : Acted scope runRef d) : Acted scope runRef (d.apply w) := by
  obtain ⟨l, hl, hscope, hrun, hrole⟩ := h
  cases w with
  | insertLink r => exact ⟨l, mem_insertRow_of_mem hl, hscope, hrun, hrole⟩
  | updateLink r =>
    by_cases hk : l.key = r.key
    · have hg : l.group = r.group := congrArg Prod.fst hk
      have hr : l.role = r.role := congrArg (fun k => k.2.2) hk
      exact ⟨r, self_mem_updateRow, hg ▸ hscope, hg ▸ hrun, hr ▸ hrole⟩
    · exact ⟨l, mem_updateRow.mpr (Or.inl ⟨hl, hk⟩), hscope, hrun, hrole⟩
  | _ => exact ⟨l, hl, hscope, hrun, hrole⟩

theorem acted_applyAll {scope : Scope} {runRef : String} {d : Db} (log : List Write)
    (h : Acted scope runRef d) : Acted scope runRef (applyAll d log) := by
  induction log generalizing d with
  | nil => exact h
  | cons w rest ih => exact ih (acted_apply w h)

/-- An agent act of the result was in the store, or the log puts it. -/
theorem acted_of_applyAll {scope : Scope} {runRef : String} {d : Db} {log : List Write}
    (h : Acted scope runRef (applyAll d log)) :
    Acted scope runRef d ∨ ∃ w ∈ log, ∃ l, w.link = some l ∧ l.group.scope = scope ∧
      l.group.runRef = runRef ∧ l.role = .agentAct := by
  induction log generalizing d with
  | nil => exact Or.inl h
  | cons w rest ih =>
    rcases ih (d := d.apply w) h with ⟨l, hl, hrest⟩ | ⟨w', hw', hrest⟩
    · rcases links_of_apply hl with hl | hl
      · exact Or.inl ⟨l, hl, hrest⟩
      · exact Or.inr ⟨w, List.mem_cons_self, l, hl, hrest⟩
    · exact Or.inr ⟨w', List.mem_cons_of_mem _ hw', hrest⟩

theorem delivery_of_applyAll {d : Db} {log : List Write} {r : DeliveryRow}
    (h : r ∈ (applyAll d log).deliveries) : r ∈ d.deliveries ∨ ∃ w ∈ log, w.delivery = some r := by
  induction log generalizing d with
  | nil => exact Or.inl h
  | cons w rest ih =>
    rcases ih (d := d.apply w) h with hr | ⟨w', hw', hr⟩
    · have hstep : r ∈ d.deliveries ∨ w.delivery = some r := by
        cases w with
        | insertDelivery q => exact (mem_insertRow.mp hr).imp id fun hx => congrArg some hx.1.symm
        | _ => exact Or.inl hr
      exact hstep.imp id fun hw => ⟨w, List.mem_cons_self, hw⟩
    · exact Or.inr ⟨w', List.mem_cons_of_mem _ hw', hr⟩

/-! ## The rely -/

structure RunRel (store : Store) (l : Local Write String) (d d' : Db) : Prop where
  locked : ∀ scope runRef, store.feedbackRunLockKey scope runRef ∈ l.held →
    Acted scope runRef d' → Acted scope runRef d
  acted : ∀ scope runRef, Acted scope runRef d → Acted scope runRef d'

/-- A view shows every agent act of the runs whose lock is held. -/
def RunSees (store : Store) (held : List String) (v d : Db) : Prop :=
  ∀ scope runRef, store.feedbackRunLockKey scope runRef ∈ held →
    Acted scope runRef d → Acted scope runRef v

/-- A view shows every committed agent act of the runs that a lock protects. -/
def RunFresh (store : Store) (key : String) (v d : Db) : Prop :=
  ∀ scope runRef, store.feedbackRunLockKey scope runRef = key →
    Acted scope runRef d → Acted scope runRef v

def runRely (store : Store) : Rely Db Write String where
  inv := fun _ => True
  rel := RunRel store
  sees := RunSees store
  fresh := RunFresh store
  refl := fun _ _ => ⟨fun _ _ _ h => h, fun _ _ h => h⟩
  trans := fun _ _ _ _ h h' =>
    ⟨fun s q hk ha => h.locked s q hk (h'.locked s q hk ha), fun s q ha => h'.acted s q (h.acted s q ha)⟩
  sees_refl := fun _ _ _ _ _ h => h
  sees_rel := fun _ _ _ _ hs h s q hk ha => hs s q hk (h.locked s q hk ha)
  sees_lock := fun _ _ _ _ hs hf s q hk ha =>
    (List.mem_cons.mp hk).elim (fun h => hf s q h ha) fun h => hs s q h ha

/-- What a transaction's log says of agent acts and deliveries: an agent act it
puts was there or is of a run whose lock it holds, and the run of a delivery it
inserts is locked and has none. -/
structure Ordered (store : Store) (l : Local Write String) (d : Db) : Prop where
  acts : ∀ w ∈ l.log, ∀ r, w.link = some r → r.role = .agentAct →
    Acted r.group.scope r.group.runRef d ∨
      store.feedbackRunLockKey r.group.scope r.group.runRef ∈ l.held
  deliveries : ∀ w ∈ l.log, ∀ r, w.delivery = some r →
    store.feedbackRunLockKey r.scope r.runRef ∈ l.held ∧ ¬Acted r.scope r.runRef d

section

variable {store : Store} {l : Local Write String} {d d' : Db}

theorem ordered_start (store : Store) (d : Db) : Ordered store ⟨[], []⟩ d :=
  ⟨fun _ hw => absurd hw List.not_mem_nil, fun _ hw => absurd hw List.not_mem_nil⟩

theorem Ordered.later (h : Ordered store l d) (hl : (runRely store).Later l d d') :
    Ordered store l d' :=
  ⟨fun w hw r hr hrole => (h.acts w hw r hr hrole).imp (hl.1.acted _ _) id,
    fun w hw r hr => ⟨(h.deliveries w hw r hr).1, fun ha =>
      (h.deliveries w hw r hr).2 (hl.1.locked _ _ (h.deliveries w hw r hr).1 ha)⟩⟩

theorem Ordered.hold (h : Ordered store l d) (key : String) :
    Ordered store { l with held := key :: l.held } d :=
  ⟨fun w hw r hr hrole => (h.acts w hw r hr hrole).imp id (List.mem_cons_of_mem _),
    fun w hw r hr => ⟨List.mem_cons_of_mem _ (h.deliveries w hw r hr).1, (h.deliveries w hw r hr).2⟩⟩

theorem Ordered.append (h : Ordered store l d) {ws : List Write}
    (hacts : ∀ w ∈ ws, ∀ r, w.link = some r → r.role = .agentAct →
      Acted r.group.scope r.group.runRef d ∨
        store.feedbackRunLockKey r.group.scope r.group.runRef ∈ l.held)
    (hdeliveries : ∀ w ∈ ws, ∀ r, w.delivery = some r →
      store.feedbackRunLockKey r.scope r.runRef ∈ l.held ∧ ¬Acted r.scope r.runRef d) :
    Ordered store { l with log := l.log ++ ws } d :=
  ⟨fun w hw => (List.mem_append.mp hw).elim (h.acts w) (hacts w),
    fun w hw => (List.mem_append.mp hw).elim (h.deliveries w) (hdeliveries w)⟩

/-- The write puts neither a link nor a delivery. -/
def Write.Plain (w : Write) : Prop := w.link = none ∧ w.delivery = none

theorem plain_safe {α : Type} {p : Tx α} (hp : p.Emits Write.Plain) (h : Ordered store l d) :
    (runRely store).Safe p (fun _ l' d' => Ordered store l' d') l d :=
  Rely.Safe.of_emits hp (fun _ _ _ hm hl => hm.later hl)
    (fun _ _ _ hm hws => hm.append (fun w hw r hr => by rw [(hws w hw).1] at hr; cases hr)
      fun w hw r hr => by rw [(hws w hw).2] at hr; cases hr)
    (fun _ _ key hm => hm.hold key) h

theorem Ordered.commits (h : Ordered store l d) : (runRely store).Commits l d := by
  refine ⟨trivial, fun l' hap => ⟨fun scope runRef hk ha => ?_, fun _ _ ha => acted_applyAll _ ha⟩⟩
  rcases acted_of_applyAll ha with ha | ⟨w, hw, r, hr, hscope, hrun, hrole⟩
  · exact ha
  · rcases h.acts w hw r hr hrole with ha | hmine
    · rw [hscope, hrun] at ha
      exact ha
    · rw [hscope, hrun] at hmine
      exact absurd hk (hap.locks _ hmine)

/-! ## Observe and ReportOutcome -/

/-- Back-filled agent acts were there before. -/
theorem Ordered.bindLinks (h : Ordered store l d) (g : StableGroupRef) :
    Ordered store
      { l with log := l.log ++
        (boundLinks (store.episodeRef g) g (applyAll d l.log)).map Write.updateLink } d := by
  refine h.append (fun w hw r hr hrole => ?_) fun w hw r hr => ?_
  · obtain ⟨b, hb, rfl⟩ := List.mem_map.mp hw
    obtain ⟨x, hx, rfl⟩ := List.mem_map.mp hb
    obtain rfl := Option.some.inj hr
    have hacted : Acted x.group.scope x.group.runRef (applyAll d l.log) :=
      ⟨x, List.mem_of_mem_filter hx, rfl, rfl, hrole⟩
    rcases acted_of_applyAll hacted with ha | ⟨w', hw', r', hr', hscope, hrun, hrole'⟩
    · exact Or.inl ha
    · have hx' := h.acts w' hw' r' hr' hrole'
      rw [hscope, hrun] at hx'
      exact hx'
  · obtain ⟨b, hb, rfl⟩ := List.mem_map.mp hw
    cases hr

theorem materialize_ordered (h : Ordered store l d) (g : StableGroupRef) (changed : Bool) :
    (runRely store).Safe (store.materialize g changed) (fun _ l' d' => Ordered store l' d') l d := by
  refine Rely.Safe.select fun d₁ v h₁ _ => ?_
  split
  · exact fun d₂ h₂ => (h.later h₁).later h₂
  have hinsert : (store.insertEpisode g).Emits Write.Plain := by
    refine ⟨fun x w hw => ?_, fun x => ?_⟩
    · dsimp only at hw
      split at hw
      · cases hw
      · rw [List.mem_singleton.mp hw]
        exact ⟨rfl, rfl⟩
    · dsimp only
      split <;> exact trivial
  refine Rely.Safe.bind trivial ((plain_safe hinsert (h.later h₁)).conseq fun _ l₂ d₂ h₂ _ => ?_)
  refine Rely.Safe.bind trivial (Rely.Safe.statement fun d₃ h₃ => ?_)
  have hbound := (h₂.later h₃).bindLinks g
  refine (plain_safe (p := Prog.statement _ _) ⟨fun x w hw => ?_, fun _ => trivial⟩ hbound).conseq
    fun _ l₄ d₄ h₄ _ d₅ h₅ => h₄.later h₅
  obtain ⟨b, _, rfl⟩ := List.mem_map.mp hw
  exact ⟨rfl, rfl⟩

theorem appendLinkAndMaterialize_ordered {event : SourceEvent} {binding : EpisodeBinding}
    (h : Ordered store l d)
    (hk : binding.role = .agentAct →
      store.feedbackRunLockKey event.scope binding.runRef ∈ l.held) :
    (runRely store).Safe (store.appendLinkAndMaterialize event binding)
      (fun _ l' d' => Ordered store l' d') l d := by
  refine Rely.Safe.acquire fun d₁ h₁ => ?_
  refine Rely.Safe.select fun d₂ v h₂ _ => ?_
  have hord := ((h.later h₁).hold (store.groupLockKey (binding.group event.scope))).later h₂
  have halready : (alreadyLinked (binding.group event.scope) event.ref binding.role
      (findEpisode (binding.group event.scope) (applyAll v l.log))).Emits Write.Plain := by
    unfold alreadyLinked
    split
    · exact fun _ => trivial
    · exact trivial
  refine Rely.Safe.bind trivial (((plain_safe halready hord).and (Rely.Safe.holds _ _ _)).conseq ?_)
  rintro linked l₃ d₃ ⟨h₃, hheld⟩ _
  split
  · exact fun d₄ h₄ => h₃.later h₄
  split
  · exact trivial
  refine Rely.Safe.statement fun d₄ h₄ => ?_
  have hlinked : Ordered store ⟨l₃.held, l₃.log ++ newLink
      ⟨binding.group event.scope, event.ref, binding.role,
        findEpisode (binding.group event.scope) (applyAll v l.log)⟩ (applyAll d₄ l₃.log)⟩ d₄ := by
    refine (h₃.later h₄).append (fun w hw r hr hrole => ?_) fun w hw r hr => ?_
    · rcases newLink_writes _ (applyAll d₄ l₃.log) with ⟨_, hws⟩ | ⟨_, hws⟩
      · rw [hws] at hw
        cases hw
      · rw [hws, List.mem_singleton] at hw
        subst hw
        obtain rfl := Option.some.inj hr
        exact Or.inr (hheld _ (List.mem_cons_of_mem _ (hk hrole)))
    · rcases newLink_writes _ (applyAll d₄ l₃.log) with ⟨_, hws⟩ | ⟨_, hws⟩
      · rw [hws] at hw
        cases hw
      · rw [hws, List.mem_singleton] at hw
        subst hw
        cases hr
  split
  · exact fun d₅ h₅ => hlinked.later h₅
  · exact materialize_ordered hlinked _ _

theorem bindObserved_ordered {env : Ambient} {event : SourceEvent} {binding : EpisodeBinding}
    (h : Ordered store l d)
    (hk : binding.role = .agentAct →
      store.feedbackRunLockKey event.scope binding.runRef ∈ l.held) :
    (runRely store).Safe (store.bindObserved env event binding)
      (fun _ l' d' => Ordered store l' d') l d := by
  unfold Store.bindObserved
  split
  · refine Rely.Safe.bind trivial ((appendLinkAndMaterialize_ordered h hk).conseq ?_)
    rintro ⟨ref, changed⟩ l₁ d₁ h₁ _
    have hrest : (if (changed && ref != "") = true then do
          store.enqueueEpisodeState env event.scope ref
          store.enqueueEpisodeProjection event.scope ref binding.role event.ref
          Prog.ret ref
        else Prog.ret ref : Tx String).Emits Write.Plain := by
      split
      · exact (emits_enqueueEpisodeState store env _ _ (fun _ => ⟨rfl, rfl⟩)
          fun _ => ⟨rfl, rfl⟩).bind fun _ => (emits_enqueueMemoryIndexOperation store _ _ _ _ _ _
            fun _ => ⟨rfl, rfl⟩).bind fun _ => trivial
      · exact trivial
    exact plain_safe hrest h₁
  · exact fun d₁ h₁ => h.later h₁

theorem observe_ordered (h : Ordered store l d) (env : Ambient) (key : String)
    (event : SourceEvent) (binding : EpisodeBinding) :
    (runRely store).Safe (store.observe env key event binding)
      (fun _ l' d' => Ordered store l' d') l d := by
  unfold Store.observe
  split
  · exact trivial
  split
  · exact trivial
  refine Rely.Safe.bind trivial ((plain_safe (emits_claimRequest store key event binding
    fun _ => ⟨rfl, rfl⟩) h).conseq ?_)
  rintro ⟨receipt, claimed⟩ l₁ d₁ h₁ _
  cases claimed with
  | false => exact fun d₂ h₂ => h₁.later h₂
  | true =>
    simp only [Bool.not_true, Bool.false_eq_true, if_false]
    have hlock : (runRely store).Safe (store.lockActedRun event.scope binding)
        (fun _ l' d' => Ordered store l' d' ∧ (binding.role = .agentAct →
          store.feedbackRunLockKey event.scope binding.runRef ∈ l'.held)) l₁ d₁ := by
      unfold Store.lockActedRun
      split
      · exact fun d₂ h₂ d₃ h₃ => ⟨((h₁.later h₂).hold _).later h₃, fun _ => List.mem_cons_self⟩
      · rename_i hrole
        exact fun d₂ h₂ => ⟨h₁.later h₂, fun hr => absurd (beq_iff_eq.mpr hr) hrole⟩
    refine Rely.Safe.bind trivial (hlock.conseq ?_)
    rintro _ l₂ d₂ ⟨h₂, hk₂⟩ _
    refine Rely.Safe.bind trivial (((plain_safe (emits_admitSource env event fun _ => ⟨rfl, rfl⟩)
      h₂).and (Rely.Safe.holds _ _ _)).conseq ?_)
    rintro _ l₃ d₃ ⟨h₃, hheld⟩ _
    refine Rely.Safe.bind trivial ((bindObserved_ordered h₃ fun hr => hheld _ (hk₂ hr)).conseq
      fun ref l₄ d₄ h₄ _ => ?_)
    exact plain_safe ((emits_freezeObserveReceipt _ _ _ fun _ => ⟨rfl, rfl⟩).bind fun _ => trivial) h₄

theorem reportOutcome_ordered (h : Ordered store l d) (env : Ambient) (report : OutcomeReport) :
    (runRely store).Safe (store.reportOutcome env report)
      (fun _ l' d' => Ordered store l' d') l d := by
  unfold Store.reportOutcome
  split
  · exact trivial
  refine Rely.Safe.acquire fun d₁ h₁ => ?_
  refine Rely.Safe.bind trivial ((plain_safe (emits_loadOutcomeReceipt report _)
    ((h.later h₁).hold _)).conseq fun found l₂ d₂ h₂ _ => ?_)
  cases found with
  | some receipt => exact fun d₃ h₃ => h₂.later h₃
  | none =>
    refine Rely.Safe.bind trivial ((plain_safe (emits_validateOutcomeBindings report _ _) h₂).conseq
      fun _ l₃ d₃ h₃ _ => ?_)
    refine Rely.Safe.bind trivial ((plain_safe (emits_admitSource env report.event
      fun _ => ⟨rfl, rfl⟩) h₃).conseq fun _ l₄ d₄ h₄ _ => ?_)
    refine Rely.Safe.bind trivial ((appendLinkAndMaterialize_ordered h₄
      fun hr => by cases hr).conseq ?_)
    rintro ⟨ref, changed⟩ l₅ d₅ h₅ _
    refine plain_safe ((emits_insertFresh ⟨rfl, rfl⟩).bind fun _ => (emits_enqueueEpisodeState store
      env _ _ (fun _ => ⟨rfl, rfl⟩) fun _ => ⟨rfl, rfl⟩).bind fun _ => ?_) h₅
    split
    · exact (emits_enqueueMemoryIndexOperation store _ _ _ _ _ _ fun _ => ⟨rfl, rfl⟩).bind
        fun _ => trivial
    · exact trivial

/-! ## RecordMemoryDelivery -/

/-- A run without an agent act stays so while its lock is held. -/
theorem unacted_safe {α : Type} (p : Tx α) {scope : Scope} {runRef : String}
    (hk : store.feedbackRunLockKey scope runRef ∈ l.held) (hfree : ¬Acted scope runRef d) :
    (runRely store).Safe p (fun _ _ d' => ¬Acted scope runRef d') l d := by
  refine (Rely.Safe.of_emits (J := fun l' d' => store.feedbackRunLockKey scope runRef ∈ l'.held ∧
    ¬Acted scope runRef d') (Prog.emits_true p) ?_ (fun _ _ _ h _ => h) ?_ ⟨hk, hfree⟩).conseq
    fun _ _ _ h => h.2
  · exact fun _ _ _ h hl => ⟨h.1, fun ha => h.2 (hl.1.locked _ _ h.1 ha)⟩
  · exact fun _ _ _ h => ⟨List.mem_cons_of_mem _ h.1, h.2⟩

theorem recordMemoryDelivery_ordered (h : Ordered store l d) (env : Ambient)
    (delivery : MemoryDelivery) :
    (runRely store).Safe (store.recordMemoryDelivery env delivery)
      (fun _ l' d' => Ordered store l' d') l d := by
  unfold Store.recordMemoryDelivery
  split
  · exact trivial
  refine Rely.Safe.acquire fun d₁ h₁ => ?_
  refine Rely.Safe.bind trivial ((plain_safe (emits_loadMemoryDeliveryReceipt _ _ _)
    ((h.later h₁).hold _)).conseq fun found l₂ d₂ h₂ _ => ?_)
  cases found with
  | some ref => exact fun d₃ h₃ => h₂.later h₃
  | none =>
    refine Rely.Safe.acquire fun d₃ h₃ => ?_
    refine Rely.Safe.bind trivial (Rely.Safe.select fun d₄ v h₄ hs₄ => ?_)
    have h₄' := ((h₂.later h₃).hold (store.feedbackRunLockKey delivery.scope delivery.runRef)).later h₄
    have hmem : store.feedbackRunLockKey delivery.scope delivery.runRef ∈
        store.feedbackRunLockKey delivery.scope delivery.runRef :: l₂.held := List.mem_cons_self
    split
    · exact trivial
    rename_i hacted
    have hfree : ¬Acted delivery.scope delivery.runRef d₄ := fun ha => hacted
      (agentActExists_iff.mpr (acted_applyAll _ (hs₄ _ _ hmem ha)))
    intro d₅ h₅ _
    have hfree₅ : ¬Acted delivery.scope delivery.runRef d₅ := fun ha =>
      hfree (h₅.1.locked _ _ hmem ha)
    refine Rely.Safe.bind trivial (((plain_safe (emits_loadDeliverableMemoryRefs delivery)
      (h₄'.later h₅)).and ((Rely.Safe.holds _ _ _).and (unacted_safe _ hmem hfree₅))).conseq ?_)
    rintro allowed l₆ d₆ ⟨h₆, hheld, hfree₆⟩ _
    split
    · exact trivial
    refine Rely.Safe.bind trivial (insertFresh_safe fun d₇ h₇ _ d₈ h₈ _ => ?_)
    have hrun := hheld _ hmem
    have hinserted : Ordered store { l₆ with log := l₆.log ++
        [.insertDelivery (store.deliveryRow delivery)] } d₇ := by
      refine (h₆.later h₇).append (fun w hw r hr => ?_) fun w hw r hr => ?_
      · rw [List.mem_singleton.mp hw] at hr
        cases hr
      · rw [List.mem_singleton.mp hw] at hr
        obtain rfl := Option.some.inj hr
        exact ⟨hrun, fun ha => hfree₆ (h₇.1.locked _ _ hrun ha)⟩
    exact plain_safe ((emits_enqueueRunEpisodes store env _ _ (fun _ => ⟨rfl, rfl⟩)
      fun _ => ⟨rfl, rfl⟩).bind fun _ => trivial) (hinserted.later h₈)

theorem intake_ordered (store : Store) (d : Db) (c : IntakeCommand) :
    (runRely store).Safe (store.intake c) (fun _ l' d' => Ordered store l' d') ⟨[], []⟩ d := by
  have h := ordered_start store d
  cases c with
  | observe env key event binding =>
    exact Rely.Safe.bind trivial ((observe_ordered h env key event binding).conseq
      fun _ l₁ d₁ h₁ _ d₂ h₂ => h₁.later h₂)
  | reportOutcome env report =>
    exact Rely.Safe.bind trivial ((reportOutcome_ordered h env report).conseq
      fun _ l₁ d₁ h₁ _ d₂ h₂ => h₁.later h₂)
  | recordMemoryDelivery env delivery =>
    exact Rely.Safe.bind trivial ((recordMemoryDelivery_ordered h env delivery).conseq
      fun _ l₁ d₁ h₁ _ d₂ h₂ => h₁.later h₂)

end

/-! ## Deliveries and agent acts in a run -/

/-- On MySQL, a run lock is taken only under a view that shows the agent acts
committed so far. -/
def RunsFresh (store : Store) (s : Sys Db Write String Fault IntakeReply)
    (act : Act Db Write String Fault IntakeReply) : Prop :=
  store.dialect = .mysql → locksFresh (RunFresh store) s act

/-- PostgreSQL fixes no view, so there every run has fresh locks. -/
theorem reachIf_runFresh {store : Store} {d₀ : Db} {s : Sys Db Write String Fault IntakeReply}
    (h : ReachIf store.dialect.isolation store.Intake (RunsFresh store) ⟨d₀, []⟩ s) :
    ReachIf store.dialect.isolation store.Intake (locksFresh (RunFresh store)) ⟨d₀, []⟩ s := by
  cases hd : store.dialect with
  | postgres =>
    rw [hd] at h
    exact Rely.reachIf_readCommitted (fun i p l v hi => by cases hi) (h.mono fun _ _ _ => trivial)
  | mysql =>
    rw [hd] at h
    exact h.mono fun _ _ hc => hc hd

/-- A commit that adds a delivery receipt finds no agent act of its run committed. -/
theorem delivery_precedes_agentAct (store : Store) {d₀ : Db}
    {s s' : Sys Db Write String Fault IntakeReply} {i : Nat}
    (h : ReachIf store.dialect.isolation store.Intake (RunsFresh store) ⟨d₀, []⟩ s)
    (hstep : s.step? store.dialect.isolation (.commit i) = some s') {r : DeliveryRow}
    (hr : r ∈ s'.db.deliveries) (hnew : r ∉ s.db.deliveries) :
    agentActExists r.scope r.runRef s.db = false := by
  have hsound := Rely.soundness (r := runRely store) (Q := fun _ l d => Ordered store l d)
    (fun p hp d _ => by
      obtain ⟨c, rfl⟩ := hp
      exact intake_ordered store d c)
    (fun _ _ _ _ hord => hord.commits) (Rely.Sound.init trivial) (reachIf_runFresh h)
  simp only [Sys.step?] at hstep
  split at hstep
  · rename_i a l view hi
    obtain rfl := Option.some.inj hstep
    have hord : Ordered store l s.db :=
      hsound.safe i _ l view hi s.db ⟨(runRely store).refl l s.db, trivial⟩
    rcases delivery_of_applyAll hr with hr | ⟨w, hw, hwr⟩
    · exact absurd hr hnew
    · exact Bool.eq_false_iff.mpr fun ha =>
        (hord.deliveries w hw r hwr).2 (agentActExists_iff.mp ha)
  · cases hstep

/-! A run with one context that offers its constitution: a delivery and an agent act. -/

def sampleContext : Db :=
  { contexts := [{ scope := sampleScope, ref := "ctx", runRef := "run", requestHash := "h",
                   policyRef := "p", constitution := ⟨"c1", "be kind"⟩ }] }

def sampleDelivery (store : Store) : Tx IntakeReply :=
  store.intake (.recordMemoryDelivery (plainAmbient 2)
    { idempotencyKey := "k2", scope := sampleScope, runRef := "run", memoryContextRef := "ctx",
      deliveredMemoryRefs := ["c1"] })

def sampleAgentAct (store : Store) : Tx IntakeReply :=
  store.intake (.observe (plainAmbient 1) "k1" sampleAct ⟨"run", "g", .agentAct⟩)

/-- The delivery looks for its receipt, the agent act claims its key, and the delivery goes on
up to its commit. -/
def deliveryBeside (store : Store) : List (Act Db Write String Fault IntakeReply) :=
  [.start (sampleDelivery store), .step 0, .step 0, .start (sampleAgentAct store), .step 1] ++
    List.replicate 7 (.step 0)

/-- The agent act goes on and commits. -/
def actAfterwards : List (Act Db Write String Fault IntakeReply) :=
  List.replicate 7 (.step 1) ++ [.commit 1]

/-- The delivery looks for its receipt, the agent act commits, and the delivery
goes on. -/
def deliveryAround (store : Store) : List (Act Db Write String Fault IntakeReply) :=
  [.start (sampleDelivery store), .step 0, .step 0, .start (sampleAgentAct store)] ++
    List.replicate 8 (.step 1) ++ [.commit 1] ++ List.replicate 7 (.step 0)

/-- The receipt the sample delivery inserts. -/
def sampleReceipt (store : Store) : DeliveryRow :=
  store.deliveryRow
    { idempotencyKey := "k2", scope := sampleScope, runRef := "run", memoryContextRef := "ctx",
      deliveredMemoryRefs := ["c1"] }

def sampleStart : Sys Db Write String Fault IntakeReply := ⟨sampleContext, []⟩

/-- The states of the delivery beside the agent act, before and after its commit. -/
def besideBefore : Sys Db Write String Fault IntakeReply :=
  (sampleStart.runs? .repeatableRead (deliveryBeside (plainStore .mysql))).getD sampleStart

def besideAfter : Sys Db Write String Fault IntakeReply :=
  (besideBefore.step? .repeatableRead (.commit 0)).getD sampleStart

/-- The delivery commits while the agent act runs, and the agent act after it. -/
theorem delivery_precedes_agentAct_beside :
    sampleReceipt (plainStore .mysql) ∈ besideAfter.db.deliveries ∧
      agentActExists sampleScope "run" besideBefore.db = false ∧
      (besideAfter.runs? .repeatableRead actAfterwards).any
        (fun s => agentActExists sampleScope "run" s.db) = true := by
  have hrun := eq_some_getD (o := sampleStart.runs? .repeatableRead
    (deliveryBeside (plainStore .mysql))) (by decide) sampleStart
  have hcommit := eq_some_getD (o := besideBefore.step? .repeatableRead (.commit 0))
    (by decide) sampleStart
  have hreach : ReachIf .repeatableRead (plainStore .mysql).Intake
      (locksFresh (RunFresh (plainStore .mysql))) sampleStart besideBefore :=
    reachIf_of_runs (fun _ _ _ _ _ h => h) .start
      (List.forall_mem_cons.mpr ⟨⟨_, rfl⟩, List.forall_mem_singleton.mpr ⟨_, rfl⟩⟩) hrun
  have hr : sampleReceipt (plainStore .mysql) ∈ besideAfter.db.deliveries := by decide
  exact ⟨hr, delivery_precedes_agentAct (plainStore .mysql) (hreach.mono fun _ _ h _ => h) hcommit hr
    (by decide), by decide⟩

/-- The states of the delivery that the agent act overtakes. -/
def aroundBefore : Sys Db Write String Fault IntakeReply :=
  (sampleStart.steps? .repeatableRead (deliveryAround (plainStore .mysql))).getD sampleStart

/-- Under repeatable read the delivery misses the agent act that commits between
its receipt lookup and its run lock. -/
theorem delivery_follows_agentAct_mysql :
    ¬∀ (store : Store) (d₀ : Db) (s s' : Sys Db Write String Fault IntakeReply) (i : Nat),
      Reach store.dialect.isolation store.Intake ⟨d₀, []⟩ s →
      s.step? store.dialect.isolation (.commit i) = some s' →
      ∀ r ∈ s'.db.deliveries, r ∉ s.db.deliveries → agentActExists r.scope r.runRef s.db = false := by
  intro hall
  have hrun := eq_some_getD (o := sampleStart.steps? .repeatableRead
    (deliveryAround (plainStore .mysql))) (by decide) sampleStart
  have hcommit := eq_some_getD (o := aroundBefore.step? .repeatableRead (.commit 0))
    (by decide) sampleStart
  have hreach : Reach .repeatableRead (plainStore .mysql).Intake sampleStart aroundBefore :=
    reach_of_steps .start
      (List.forall_mem_cons.mpr ⟨⟨_, rfl⟩, List.forall_mem_singleton.mpr ⟨_, rfl⟩⟩) hrun
  have hfree := hall (plainStore .mysql) sampleContext _ _ 0 hreach hcommit
    (sampleReceipt (plainStore .mysql)) (by decide) (by decide)
  have hacted : agentActExists sampleScope "run" aroundBefore.db = true := by decide
  exact Bool.false_ne_true (hfree.symm.trans hacted)

end ChoraMem
