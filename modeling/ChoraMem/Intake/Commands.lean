/-
The intake commands are safe.

Each of `Observe`, `ReportOutcome` and `RecordMemoryDelivery` starts settled and
ends settled, against everything the others may do meanwhile.  So any number of
them, interleaved statement by statement, keep the store consistent.
-/
import ChoraMem.Intake.Enqueue

namespace ChoraMem

open Txn

section

variable {store : Store} {pending : Option StableGroupRef} {l : Local Write String} {d d' : Db}
variable {g : StableGroupRef}

/-! ## Enqueueing an Episode -/

/-- A held job has the Episode with every Outcome of it that the transaction wrote. -/
def Caught (owner : OwnerScope) (ref : String) (l : Local Write String) (d : Db) : Prop :=
  ∃ outcomes, Joined owner ref outcomes l d ∧ ∀ o, Written o l.log → o.group.scope.owner = owner →
    o.episodeRef = ref → o.ref ∈ outcomes

theorem mem_queuedOutcomes {owner : OwnerScope} {ref out : String} :
    out ∈ queuedOutcomes owner ref d ↔
      ∃ o ∈ d.outcomes, o.group.scope.owner = owner ∧ o.episodeRef = ref ∧ o.ref = out := by
  simp only [queuedOutcomes, mem_sortRefs, List.mem_map, List.mem_filter, Bool.and_eq_true,
    decide_eq_true_eq, and_assoc]

/-- Every other Outcome of the group was committed, and is covered by the queue. -/
theorem Mid.caught (h : Mid store none (some g) l d) (hinv : Consistent store d)
    (hc : Caught g.scope.owner (store.episodeRef g) l d) : Settled store l d := by
  obtain ⟨outcomes, ⟨j, hj, _, how, href, hout⟩, hwritten⟩ := hc
  have hok := h.groups g (by simp)
  refine ⟨h.locked, h.openLocked, h.groups, ?_, h.grows, h.attached⟩
  refine ⟨h.jobs.rows, h.jobs.collecting, fun e he _ => ?_, fun o ho hne _ => ?_, h.jobs.named⟩
  · by_cases hg : g = e.group
    · rw [hok.ref e he hg.symm, ← hg]
      exact ⟨j, hj, how, href⟩
    · exact h.jobs.covered e he fun hz => hg (Option.some.inj hz)
  · by_cases hg : g = o.group
    · have hm : Materialized g (applyAll d l.log) := by
        by_contra hno
        exact hne ((hok.unbound hno).2 o ho hg.symm)
      have hep : o.episodeRef = store.episodeRef g := (hok.bound hm).2 o ho hg.symm
      rcases written_or_committed ho with hw | hd
      · rw [hep]
        exact ⟨j, hj, by rw [how, hg], href, hout _ (hwritten o hw (by rw [hg]) hep)⟩
      · exact h.grows.coveredOutcome (hinv.jobs.coveredOutcome o hd hne fun hz => by cases hz)
    · exact h.jobs.coveredOutcome o ho hne fun hz => hg (Option.some.inj hz)

/-- A ref that is returned empty belongs to a group that still has no Episode. -/
theorem Appended.settled (h : Appended store pending g "" l d) (hp : pending = none ∨ pending = some g) :
    Settled store l d := by
  rcases hp with rfl | rfl
  · exact h.mid
  have hno : ¬Materialized g (applyAll d l.log) := fun hm =>
    store.episodeRef_ne g (h.made hm).symm
  have hok := h.mid.groups g (by simp)
  refine ⟨h.mid.locked, h.mid.openLocked, h.mid.groups, ?_, h.mid.grows, h.mid.attached⟩
  refine ⟨h.mid.jobs.rows, h.mid.jobs.collecting, fun e he _ => ?_, fun o ho hne _ => ?_,
    h.mid.jobs.named⟩
  · exact h.mid.jobs.covered e he fun hz => hno ⟨e, he, (Option.some.inj hz).symm⟩
  · exact h.mid.jobs.coveredOutcome o ho hne fun hz =>
      hne ((hok.unbound hno).2 o ho (Option.some.inj hz).symm)

theorem enqueueEpisodeState_safe {scope : Scope} {ref : String} (h : Mid store none pending l d)
    (hne : ref ≠ "")
    (he : ∃ e ∈ (applyAll d l.log).episodes, e.ref = ref ∧ e.group.scope.owner = scope.owner)
    (env : Ambient) :
    (intakeRely store).Safe (store.enqueueEpisodeState env scope ref)
      (fun _ l' d' => Mid store none pending l' d' ∧ Caught scope.owner ref l' d') l d := by
  unfold Store.enqueueEpisodeState
  rw [if_neg (by simpa using hne)]
  refine Rely.Safe.select fun d₁ v h₁ hs₁ => ?_
  have hmid := h.later h₁
  have hsub : AttachedSub (applyAll v l.log) (applyAll d₁ l.log) := hs₁.attached.applyAll l.log
  have hev : Evidence scope.owner ref (queuedOutcomes scope.owner ref (applyAll v l.log))
      (applyAll d₁ l.log) := by
    refine ⟨hne, ?_, fun out hout => ?_⟩
    · obtain ⟨e, hm, hrest⟩ := he
      exact ⟨e, h.episodes_later h₁ hm, hrest⟩
    · obtain ⟨o, ho, how, hep, hr⟩ := mem_queuedOutcomes.mp hout
      exact ⟨o, hsub o ho (hep ▸ hne), hr, how, hep⟩
  refine ((enqueueConsolidationEvidence_safe hmid hev env).and (Rely.Safe.logs
    (P := fun w => w.group = none) (emits_enqueueConsolidationEvidence store env scope _ _
      (fun _ => rfl) fun _ => rfl) l d₁)).conseq ?_
  rintro _ l₂ d₂ ⟨⟨hmid₂, hjoined⟩, more, hlog, hmore⟩
  refine ⟨hmid₂, _, hjoined, fun o hw how hep => ?_⟩
  rw [hlog] at hw
  exact mem_queuedOutcomes.mpr ⟨o, hw.of_append hmore v, how, hep, rfl⟩

/-- The group's Episode is enqueued, or there is none yet. -/
theorem Appended.enqueue_safe {ref : String} (h : Appended store (some g) g ref l d) (env : Ambient) :
    (intakeRely store).Safe (store.enqueueEpisodeState env g.scope ref)
      (fun _ l' d' => Settled store l' d') l d := by
  by_cases hne : ref = ""
  · subst hne
    have hsettled := h.settled (Or.inr rfl)
    exact fun d₁ h₁ => hsettled.later h₁
  · have hm : Materialized g (applyAll d l.log) := by
      by_contra hno
      exact hne (h.fresh hno)
    obtain ⟨e, he, hg⟩ := hm
    have hepisode : ∃ e ∈ (applyAll d l.log).episodes,
        e.ref = ref ∧ e.group.scope.owner = g.scope.owner :=
      ⟨e, he, ((h.mid.groups g (by simp)).ref e he hg).trans (h.made ⟨e, he, hg⟩).symm, by rw [hg]⟩
    have hsafe := enqueueEpisodeState_safe h.mid hne hepisode env
    rw [h.made ⟨e, he, hg⟩] at hsafe ⊢
    exact (hsafe.and_inv).conseq fun _ l₂ d₂ ⟨⟨hmid, hc⟩, hinv⟩ => hmid.caught hinv hc

/-! ## Statements that touch no group and no job -/

/-- Programs of such statements keep the middle of a transaction. -/
theorem inert_safe {α : Type} {p : Tx α} (hp : p.Emits Write.Inert)
    {opened : Option StableGroupRef} (h : Mid store opened pending l d) :
    (intakeRely store).Safe p (fun _ l' d' => Mid store opened pending l' d') l d :=
  Rely.Safe.of_emits hp (fun _ _ _ hm hl => hm.later hl) (fun _ _ _ hm hws => hm.inert hws)
    (fun _ _ key hm => hm.hold key) h

end

/-! ## Observe -/

section

variable {store : Store} {l : Local Write String} {d : Db} {g : StableGroupRef}

theorem bindObserved_safe (hdistinct : RefsDistinct store) (h : Settled store l d)
    (hinv : Consistent store d) (env : Ambient) (event : SourceEvent) (binding : EpisodeBinding) :
    (intakeRely store).Safe (store.bindObserved env event binding)
      (fun _ l' d' => Settled store l' d') l d := by
  unfold Store.bindObserved
  split
  · refine Rely.Safe.bind hinv ((appendLinkAndMaterialize_safe hdistinct rfl h).conseq ?_)
    rintro ⟨ref, changed⟩ l₁ d₁ happ hinv₁
    by_cases hc : (changed && ref != "") = true
    · simp only [hc, if_true]
      simp only [Bool.and_eq_true] at hc
      rw [hc.1] at happ
      refine Rely.Safe.bind hinv₁ ((happ.enqueue_safe env).conseq fun _ l₂ d₂ h₂ hinv₂ => ?_)
      exact Rely.Safe.bind hinv₂ ((inert_safe (emits_enqueueMemoryIndexOperation _ _ _ _ _ _ _
        fun _ => ⟨rfl, rfl⟩)
        h₂).conseq fun _ l₃ d₃ h₃ _ d₄ h₄ => h₃.later h₄)
    · simp only [hc, Bool.false_eq_true, if_false]
      have hsettled : Settled store l₁ d₁ := by
        cases changed with
        | false => exact happ.mid
        | true =>
          have href : ref = "" := by simpa using hc
          subst href
          exact happ.settled (Or.inr rfl)
      exact fun d₂ h₂ => hsettled.later h₂
  · exact fun d₁ h₁ => h.later h₁

theorem observe_safe (hdistinct : RefsDistinct store) (h : Settled store l d)
    (hinv : Consistent store d) (env : Ambient) (key : String) (event : SourceEvent)
    (binding : EpisodeBinding) :
    (intakeRely store).Safe (store.observe env key event binding)
      (fun _ l' d' => Settled store l' d') l d := by
  unfold Store.observe
  split
  · exact trivial
  split
  · exact trivial
  refine Rely.Safe.bind hinv ((inert_safe (emits_claimRequest store key event binding
    fun _ => ⟨rfl, rfl⟩) h).conseq ?_)
  rintro ⟨receipt, claimed⟩ l₁ d₁ h₁ hinv₁
  cases claimed with
  | false => exact fun d₂ h₂ => h₁.later h₂
  | true =>
    simp only [Bool.not_true, Bool.false_eq_true, if_false]
    refine Rely.Safe.bind hinv₁ ((inert_safe (emits_lockActedRun store event.scope binding)
      h₁).conseq fun _ l₂ d₂ h₂ hinv₂ => ?_)
    refine Rely.Safe.bind hinv₂
      ((inert_safe (emits_admitSource env event fun _ => ⟨rfl, rfl⟩) h₂).conseq fun _ l₃ d₃ h₃ hinv₃ => ?_)
    refine Rely.Safe.bind hinv₃
      ((bindObserved_safe hdistinct h₃ hinv₃ env event binding).conseq fun ref l₄ d₄ h₄ hinv₄ => ?_)
    exact Rely.Safe.bind hinv₄ ((inert_safe (emits_freezeObserveReceipt _ _ _ fun _ => ⟨rfl, rfl⟩) h₄).conseq
      fun _ l₅ d₅ h₅ _ d₆ h₆ => h₅.later h₆)

/-! ## ReportOutcome -/

/-- The Outcome of a changed group, with the group's Episode ref. -/
theorem Appended.insertOutcome {ref : String} (h : Appended store (some g) g ref l d)
    (row : OutcomeRow) (hg : row.group = g) (hep : row.episodeRef = ref) (hname : row.ref ≠ "")
    (hfree : Store.outcomeConflict row (applyAll d l.log) = false) :
    Appended store (some g) g ref { l with log := l.log ++ [.insertOutcome row] } d := by
  have hD : applyAll d (l.log ++ [Write.insertOutcome row]) =
      (applyAll d l.log).apply (.insertOutcome row) := applyAll_append d l.log _
  have hnew : ∀ o ∈ (applyAll d l.log).outcomes, o.key ≠ row.key := by
    intro o ho hk
    have hno := List.any_eq_false.mp hfree o ho
    simp only [Bool.or_eq_true, decide_eq_true_eq, not_or] at hno
    exact hno.1 (congrArg Prod.snd hk)
  have hok := h.mid.groups g (by simp)
  have hattached : AttachedSub (applyAll d l.log)
      ((applyAll d l.log).apply (.insertOutcome row)) := fun o ho _ =>
    mem_updateRow.mpr (Or.inl ⟨ho, hnew o ho⟩)
  have hmid := (h.mid.openGroup h.lock).writeGroup [Write.insertOutcome row]
    (fun w hw => by rw [List.mem_singleton.mp hw]; exact congrArg some hg)
    (h.mid.jobs.extend rfl (fun _ he => he) hattached (fun _ he => Or.inl he) fun o ho =>
      (mem_updateRow.mp ho).imp And.left fun ho => by
        subst ho
        exact ⟨Or.inr (congrArg some hg.symm), hname⟩)
    hattached
  have hmade : Materialized g (applyAll d (l.log ++ [Write.insertOutcome row])) ↔
      Materialized g (applyAll d l.log) := by
    rw [hD]
    exact Iff.rfl
  refine ⟨hmid.close ?_, h.lock, fun hm => h.made (hmade.mp hm), fun hm => h.fresh fun hm' =>
    hm (hmade.mpr hm')⟩
  rw [hD]
  refine ⟨hok.gate, hok.ref, fun hm => ⟨(hok.bound hm).1, fun o ho hog => ?_⟩,
    fun hm => ⟨(hok.unbound hm).1, fun o ho hog => ?_⟩⟩
  · rcases mem_updateRow.mp ho with ⟨ho, _⟩ | rfl
    · exact (hok.bound hm).2 o ho hog
    · exact hep.trans (h.made hm)
  · rcases mem_updateRow.mp ho with ⟨ho, _⟩ | rfl
    · exact (hok.unbound hm).2 o ho hog
    · exact hep.trans (h.fresh hm)

theorem Store.outcomeEventRef_ne (store : Store) (report : OutcomeReport) :
    store.outcomeEventRef report ≠ "" := by
  intro h
  have hlen := congrArg String.length h
  rw [Store.outcomeEventRef, String.length_append] at hlen
  have : "outcome_".length = 8 := by decide
  rw [this] at hlen
  simp at hlen

theorem reportOutcome_safe (hdistinct : RefsDistinct store) (h : Settled store l d) (env : Ambient) (report : OutcomeReport) :
    (intakeRely store).Safe (store.reportOutcome env report)
      (fun _ l' d' => Settled store l' d') l d := by
  unfold Store.reportOutcome
  split
  · exact trivial
  refine Rely.Safe.acquire fun d₁ h₁ => ?_
  have hmid₁ := (h.later h₁).hold
    (store.feedbackRequestLockKey "outcome" report.event.scope.tenantRef report.idempotencyKey)
  refine Rely.Safe.bind h₁.2
    ((inert_safe (emits_loadOutcomeReceipt report _) hmid₁).conseq fun found l₂ d₂ h₂ hinv₂ => ?_)
  cases found with
  | some receipt => exact fun d₃ h₃ => h₂.later h₃
  | none =>
    refine Rely.Safe.bind hinv₂ ((inert_safe (emits_validateOutcomeBindings report _ _) h₂).conseq
      fun _ l₃ d₃ h₃ hinv₃ => ?_)
    refine Rely.Safe.bind hinv₃ ((inert_safe (emits_admitSource env report.event
      fun _ => ⟨rfl, rfl⟩) h₃).conseq
      fun _ l₄ d₄ h₄ hinv₄ => ?_)
    refine Rely.Safe.bind hinv₄ ((appendLinkAndMaterialize_safe hdistinct rfl h₄).conseq ?_)
    rintro ⟨ref, changed⟩ l₅ d₅ happ hinv₅
    have hpend : Appended store (some (report.binding.group report.event.scope))
        (report.binding.group report.event.scope) ref l₅ d₅ := by
      cases changed with
      | true => exact happ
      | false => exact ⟨Mid.pend happ.mid _, happ.lock, happ.made, happ.fresh⟩
    refine Rely.Safe.bind hinv₅ (insertFresh_safe fun d₆ h₆ hfree d₇ h₇ hinv₇ => ?_)
    have hrow := ((hpend.later h₆).insertOutcome (store.outcomeRow report ref) rfl rfl
      (store.outcomeEventRef_ne report) hfree).later h₇
    refine Rely.Safe.bind hinv₇ ((hrow.enqueue_safe env).conseq fun _ l₈ d₈ h₈ hinv₈ => ?_)
    split
    · exact Rely.Safe.bind hinv₈ ((inert_safe (emits_enqueueMemoryIndexOperation _ _ _ _ _ _ _
        fun _ => ⟨rfl, rfl⟩)
        h₈).conseq fun _ l₉ d₉ h₉ _ d₁₀ h₁₀ => h₉.later h₁₀)
    · exact fun d₉ h₉ => h₈.later h₉

/-! ## RecordMemoryDelivery -/

/-- The Episodes of a run are rows of the store. -/
def KnownEpisodes (owner : OwnerScope) (refs : List String) (d : Db) : Prop :=
  ∀ ref ∈ refs, ∃ e ∈ d.episodes, e.ref = ref ∧ e.group.scope.owner = owner

theorem KnownEpisodes.later {owner : OwnerScope} {refs : List String} {l : Local Write String}
    {d d' : Db} (h : KnownEpisodes owner refs d) (hl : (intakeRely store).Later l d d') :
    KnownEpisodes owner refs d' := by
  intro ref href
  obtain ⟨e, he, hrest⟩ := h ref href
  exact ⟨e, hl.1.episodes e he, hrest⟩

theorem mem_runEpisodes {scope : Scope} {runRef ref : String} :
    ref ∈ runEpisodes scope runRef d ↔
      ∃ e ∈ d.episodes, e.group.scope = scope ∧ e.group.runRef = runRef ∧ e.ref = ref := by
  simp only [runEpisodes, List.mem_map, List.mem_insertionSort, List.mem_filter, Bool.and_eq_true,
    decide_eq_true_eq, and_assoc]

theorem enqueueRunEpisodes_safe (h : Settled store l d) (hlog : ∀ w ∈ l.log, w.group = none)
    (env : Ambient) (scope : Scope) (runRef : String) :
    (intakeRely store).Safe (store.enqueueRunEpisodes env scope runRef)
      (fun _ l' d' => Settled store l' d') l d := by
  refine Rely.Safe.select fun d₁ v h₁ hs₁ => ?_
  have hknown : KnownEpisodes scope.owner (runEpisodes scope runRef (applyAll v l.log)) d₁ := by
    intro ref href
    obtain ⟨e, he, hscope, _, hr⟩ := mem_runEpisodes.mp href
    rw [(groupless_tables hlog v).1] at he
    exact ⟨e, hs₁.episodes e he, hr, by rw [hscope]⟩
  refine (Rely.Safe.forEach (J := fun l' d' => Settled store l' d' ∧
    KnownEpisodes scope.owner (runEpisodes scope runRef (applyAll v l.log)) d')
    (fun _ _ _ hJ hl => ⟨hJ.1.later hl, hJ.2.later hl⟩) ?_ h₁.2 ⟨h.later h₁, hknown⟩).conseq
    fun _ _ _ hJ => hJ.1
  rintro ref href l₂ d₂ _ ⟨hmid, hknown₂⟩
  refine Rely.Safe.and ?_ (Rely.Safe.stable (fun _ _ _ hk hl => hk.later hl) _ hknown₂)
  by_cases hne : ref = ""
  · rw [hne]
    exact fun d₃ h₃ => hmid.later h₃
  · obtain ⟨e, he, hrest⟩ := hknown₂ ref href
    exact (enqueueEpisodeState_safe hmid hne ⟨e, episodes_applyAll l₂.log he, hrest⟩ env).conseq
      fun _ _ _ hpost => hpost.1

/-- The middle of a transaction that has written no group. -/
def Ungrouped (store : Store) (l : Local Write String) (d : Db) : Prop :=
  Settled store l d ∧ ∀ w ∈ l.log, w.group = none

theorem Ungrouped.later (h : Ungrouped store l d) {d' : Db} (hl : (intakeRely store).Later l d d') :
    Ungrouped store l d' :=
  ⟨h.1.later hl, h.2⟩

theorem ungrouped_safe {α : Type} {p : Tx α} (hp : p.Emits Write.Inert) (h : Ungrouped store l d) :
    (intakeRely store).Safe p (fun _ l' d' => Ungrouped store l' d') l d :=
  Rely.Safe.of_emits hp (fun _ _ _ hm hl => hm.later hl)
    (fun _ _ _ hm hws => ⟨hm.1.inert hws, fun w hw =>
      (List.mem_append.mp hw).elim (hm.2 w) fun hw => (hws w hw).1⟩)
    (fun _ _ key hm => ⟨hm.1.hold key, hm.2⟩) h

theorem recordMemoryDelivery_safe (h : Ungrouped store l d) (env : Ambient)
    (delivery : MemoryDelivery) :
    (intakeRely store).Safe (store.recordMemoryDelivery env delivery)
      (fun _ l' d' => Settled store l' d') l d := by
  unfold Store.recordMemoryDelivery
  split
  · exact trivial
  refine Rely.Safe.acquire fun d₁ h₁ => ?_
  have hmid₁ : Ungrouped store ⟨store.feedbackRequestLockKey "delivery" delivery.scope.tenantRef
      delivery.idempotencyKey :: l.held, l.log⟩ d₁ := ⟨(h.1.later h₁).hold _, h.2⟩
  refine Rely.Safe.bind h₁.2 ((ungrouped_safe (emits_loadMemoryDeliveryReceipt _ _ _)
    hmid₁).conseq fun found l₂ d₂ h₂ hinv₂ => ?_)
  cases found with
  | some ref => exact fun d₃ h₃ => h₂.1.later h₃
  | none =>
    refine Rely.Safe.acquire fun d₃ h₃ => ?_
    have hmid₃ : Ungrouped store ⟨store.feedbackRunLockKey delivery.scope delivery.runRef :: l₂.held,
        l₂.log⟩ d₃ := ⟨(h₂.1.later h₃).hold _, h₂.2⟩
    refine Rely.Safe.bind h₃.2 ((ungrouped_safe (emits_rejectRetroactiveMemoryDelivery delivery)
      hmid₃).conseq fun _ l₄ d₄ h₄ hinv₄ => ?_)
    refine Rely.Safe.bind hinv₄ ((ungrouped_safe (emits_loadDeliverableMemoryRefs delivery)
      h₄).conseq fun allowed l₅ d₅ h₅ hinv₅ => ?_)
    split
    · exact trivial
    refine Rely.Safe.bind hinv₅ ((ungrouped_safe (emits_insertFresh ⟨rfl, rfl⟩) h₅).conseq
      fun _ l₆ d₆ h₆ hinv₆ => ?_)
    exact Rely.Safe.bind hinv₆ ((enqueueRunEpisodes_safe h₆.1 h₆.2 env _ _).conseq
      fun _ l₇ d₇ h₇ _ d₈ h₈ => h₇.later h₈)

/-! ## Any command -/

theorem intake_safe (hdistinct : RefsDistinct store) (hinv : Consistent store d)
    (c : IntakeCommand) :
    (intakeRely store).Safe (store.intake c) (fun _ l' d' => Settled store l' d') ⟨[], []⟩ d := by
  have h := settled_start hinv
  cases c with
  | observe env key event binding =>
    exact Rely.Safe.bind hinv ((observe_safe hdistinct h hinv env key event binding).conseq
      fun _ l₁ d₁ h₁ _ d₂ h₂ => h₁.later h₂)
  | reportOutcome env report =>
    exact Rely.Safe.bind hinv ((reportOutcome_safe hdistinct h env report).conseq
      fun _ l₁ d₁ h₁ _ d₂ h₂ => h₁.later h₂)
  | recordMemoryDelivery env delivery =>
    have hstart : Ungrouped store ⟨[], []⟩ d := ⟨h, fun w hw => absurd hw List.not_mem_nil⟩
    exact Rely.Safe.bind hinv ((recordMemoryDelivery_safe hstart env delivery).conseq
      fun _ l₁ d₁ h₁ _ d₂ h₂ => h₁.later h₂)

/-- Every state of interleaved intake transactions is consistent, when no lock is
taken under a view that is stale on what it protects. -/
theorem intake_consistent (hdistinct : RefsDistinct store) {d₀ : Db} (h₀ : Consistent store d₀)
    {iso : Isolation} {s : Sys Db Write String Fault IntakeReply}
    (h : ReachIf iso store.Intake (locksFresh (GateFresh store)) ⟨d₀, []⟩ s) :
    Consistent store s.db := by
  refine (Rely.soundness (r := intakeRely store) (Q := fun _ l d => Settled store l d) ?_ ?_
    (Rely.Sound.init h₀) h).inv
  · rintro p ⟨c, rfl⟩ d hd
    exact intake_safe hdistinct hd c
  · exact fun _ _ _ hinv hs => hs.commits hinv

end

end ChoraMem
