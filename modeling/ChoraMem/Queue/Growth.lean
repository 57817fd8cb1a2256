/-
What one intake call does to the queue.

Run alone, a call leaves every job as it is, or adds evidence to the collecting
job of its owner, or inserts one new collecting job of its owner; and it keeps the
refs of Outcomes unique.  Both are laws of the store that the statements of the
call keep one by one.
-/
import ChoraMem.Txn.Alone
import ChoraMem.Intake.Commands

namespace ChoraMem

open Txn

def IntakeCommand.env : IntakeCommand → Ambient
  | .observe env _ _ _ => env
  | .reportOutcome env _ => env
  | .recordMemoryDelivery env _ => env

/-- The owner whose queue the call may change. -/
def IntakeCommand.owner : IntakeCommand → OwnerScope
  | .observe _ _ event _ => event.scope.owner
  | .reportOutcome _ report => report.event.scope.owner
  | .recordMemoryDelivery _ delivery => delivery.scope.owner

/-! ## Laws that the statements keep -/

/-- The Outcome a write puts. -/
def Write.outcome : Write → Option OutcomeRow
  | .insertOutcome r | .updateOutcome r => some r
  | _ => none

/-- The write puts neither a job nor an Outcome. -/
def Write.Aside (w : Write) : Prop := w.outcome = none ∧ w.job = none

theorem Write.Aside.tables {w : Write} (h : w.Aside) (d : Db) :
    (d.apply w).outcomes = d.outcomes ∧ (d.apply w).jobs = d.jobs := by
  obtain ⟨ho, hj⟩ := h
  cases w with
  | insertOutcome r => cases ho
  | updateOutcome r => cases ho
  | insertJob r => cases hj
  | updateJob r => cases hj
  | _ => exact ⟨rfl, rfl⟩

/-- A law of Outcomes and jobs that the statements of a call keep. -/
structure IntakeKept (store : Store) (env : Ambient) (owner : OwnerScope) (J : Db → Prop) : Prop where
  aside : ∀ d w, J d → w.Aside → J (d.apply w)
  bind : ∀ g d, J d → J (applyAll d ((boundOutcomes (store.episodeRef g) g d).map Write.updateOutcome))
  report : ∀ row d, J d → Store.outcomeConflict row d = false → J (d.apply (.insertOutcome row))
  enqueue : ∀ scope refs outs d, scope.owner = owner → J d →
    (store.enqueueConsolidationEvidence env scope refs outs).wp (fun _ => J) (fun _ => True) d

section

variable {store : Store} {env : Ambient} {owner : OwnerScope} {J : Db → Prop} {d : Db}

/-- A law holds after `p`, wherever `p` does not fail. -/
abbrev Keeps {α : Type} (J : Db → Prop) (p : Tx α) (d : Db) : Prop :=
  p.wp (fun _ => J) (fun _ => True) d

theorem IntakeKept.emits (h : IntakeKept store env owner J) {α : Type} {p : Tx α}
    (hp : p.Emits Write.Aside) (hd : J d) : Keeps J p d :=
  Prog.wp_of_emits hp h.aside hd

theorem IntakeKept.insertEpisode (h : IntakeKept store env owner J) (g : StableGroupRef) (hd : J d) :
    Keeps J (store.insertEpisode g) d := by
  refine h.emits ⟨fun x w hw => ?_, fun x => ?_⟩ hd
  · dsimp only at hw
    split at hw
    · cases hw
    · rw [List.mem_singleton.mp hw]
      exact ⟨rfl, rfl⟩
  · dsimp only
    split <;> exact trivial

theorem IntakeKept.bindEpisode (h : IntakeKept store env owner J) (g : StableGroupRef) (hd : J d) :
    Keeps J (store.bindEpisode g) d := by
  refine Prog.wp_bind.mpr (Prog.wp.conseq (h.emits ⟨fun x w hw => ?_, fun _ => trivial⟩ hd)
    fun _ x hx => h.bind g x hx)
  obtain ⟨r, _, rfl⟩ := List.mem_map.mp hw
  exact ⟨rfl, rfl⟩

theorem IntakeKept.materialize (h : IntakeKept store env owner J) (g : StableGroupRef)
    (changed : Bool) (hd : J d) : Keeps J (store.materialize g changed) d := by
  change Prog.wp (if _ then _ else _) _ _ d
  split
  · exact hd
  refine Prog.wp_bind.mpr ((h.insertEpisode g hd).conseq fun _ x hx => ?_)
  exact Prog.wp_bind.mpr ((h.bindEpisode g hx).conseq fun _ y hy => hy)

theorem IntakeKept.appendLinkAndMaterialize (h : IntakeKept store env owner J)
    (event : SourceEvent) (binding : EpisodeBinding) (hd : J d) :
    Keeps J (store.appendLinkAndMaterialize event binding) d := by
  have halready : ∀ g ref role episodeRef, (alreadyLinked g ref role episodeRef).Emits Write.Aside := by
    intro g ref role episodeRef
    unfold alreadyLinked
    split
    · exact fun _ => trivial
    · exact trivial
  change Prog.wp (alreadyLinked _ _ _ _ >>= _) _ _ d
  refine Prog.wp_bind.mpr ((h.emits (halready _ _ _ _) hd).conseq fun linked x hx => ?_)
  split
  · exact hx
  split
  · exact trivial
  refine Prog.wp_bind.mpr (Prog.wp.conseq (h.emits ⟨fun y w hw => ?_, fun _ => trivial⟩ hx)
    fun changed y hy => ?_)
  · unfold newLink at hw
    split at hw
    · cases hw
    · rw [List.mem_singleton.mp hw]
      exact ⟨rfl, rfl⟩
  · split
    · exact hy
    · exact h.materialize _ _ hy

theorem IntakeKept.enqueueEpisodeState (h : IntakeKept store env owner J) {scope : Scope}
    (ho : scope.owner = owner) (ref : String) (hd : J d) :
    Keeps J (store.enqueueEpisodeState env scope ref) d := by
  unfold Store.enqueueEpisodeState
  split
  · exact hd
  · exact h.enqueue scope _ _ d ho hd

theorem IntakeKept.projection (h : IntakeKept store env owner J) (scope : Scope)
    (ref : String) (role : SourceRole) (sourceRef : String) (hd : J d) :
    Keeps J (store.enqueueEpisodeProjection scope ref role sourceRef) d :=
  h.emits (emits_enqueueMemoryIndexOperation store _ _ _ _ _ _ fun _ => ⟨rfl, rfl⟩) hd

theorem IntakeKept.observe (h : IntakeKept store env owner J) (key : String) {event : SourceEvent}
    (ho : event.scope.owner = owner) (binding : EpisodeBinding) (hd : J d) :
    Keeps J (store.observe env key event binding) d := by
  unfold Store.observe
  split
  · exact trivial
  split
  · exact trivial
  refine Prog.wp_bind.mpr ((h.emits (emits_claimRequest store key event binding
    fun _ => ⟨rfl, rfl⟩) hd).conseq fun claimed d₁ h₁ => ?_)
  obtain ⟨receipt, claimed⟩ := claimed
  cases claimed with
  | false => exact h₁
  | true =>
    refine Prog.wp_bind.mpr ((h.emits (emits_lockActedRun store event.scope binding) h₁).conseq
      fun _ d₂ h₂ => ?_)
    refine Prog.wp_bind.mpr ((h.emits (emits_admitSource env event fun _ => ⟨rfl, rfl⟩) h₂).conseq
      fun _ d₃ h₃ => ?_)
    have hbound : Keeps J (store.bindObserved env event binding) d₃ := by
      unfold Store.bindObserved
      split
      · refine Prog.wp_bind.mpr ((h.appendLinkAndMaterialize event binding h₃).conseq ?_)
        rintro ⟨ref, changed⟩ d₄ h₄
        dsimp only
        split
        · refine Prog.wp_bind.mpr ((h.enqueueEpisodeState ho ref h₄).conseq fun _ d₅ h₅ => ?_)
          exact Prog.wp_bind.mpr ((h.projection _ _ _ _ h₅).conseq fun _ d₆ h₆ => h₆)
        · exact h₄
      · exact h₃
    refine Prog.wp_bind.mpr (hbound.conseq fun _ d₄ h₄ => ?_)
    exact Prog.wp_bind.mpr ((h.emits (emits_freezeObserveReceipt _ _ _ fun _ => ⟨rfl, rfl⟩)
      h₄).conseq fun _ d₅ h₅ => h₅)

theorem IntakeKept.reportOutcome (h : IntakeKept store env owner J) {report : OutcomeReport}
    (ho : report.event.scope.owner = owner) (hd : J d) :
    Keeps J (store.reportOutcome env report) d := by
  unfold Store.reportOutcome
  split
  · exact trivial
  change Prog.wp (Store.loadOutcomeReceipt report _ >>= _) _ _ d
  refine Prog.wp_bind.mpr ((h.emits (emits_loadOutcomeReceipt report _) hd).conseq
    fun found d₁ h₁ => ?_)
  cases found with
  | some receipt => exact h₁
  | none =>
    refine Prog.wp_bind.mpr ((h.emits (emits_validateOutcomeBindings report _ _) h₁).conseq
      fun _ d₂ h₂ => ?_)
    refine Prog.wp_bind.mpr ((h.emits (emits_admitSource env report.event fun _ => ⟨rfl, rfl⟩)
      h₂).conseq fun _ d₃ h₃ => ?_)
    refine Prog.wp_bind.mpr ((h.appendLinkAndMaterialize report.event report.binding h₃).conseq ?_)
    rintro ⟨ref, changed⟩ d₄ h₄
    have hinsert : Keeps J (insertFresh (Store.outcomeConflict (store.outcomeRow report ref))
        (.insertOutcome (store.outcomeRow report ref)) "freeze Outcome event") d₄ := by
      cases hfree : Store.outcomeConflict (store.outcomeRow report ref) d₄ with
      | true =>
        simp only [Keeps, insertFresh, Prog.wp, hfree, if_true]
      | false =>
        simp only [Keeps, insertFresh, Prog.wp, hfree, Bool.false_eq_true, if_false]
        exact h.report _ d₄ h₄ hfree
    refine Prog.wp_bind.mpr (hinsert.conseq fun _ d₅ h₅ => ?_)
    refine Prog.wp_bind.mpr ((h.enqueueEpisodeState ho ref h₅).conseq fun _ d₆ h₆ => ?_)
    split
    · exact Prog.wp_bind.mpr ((h.projection _ _ _ _ h₆).conseq fun _ d₇ h₇ => h₇)
    · exact h₆

theorem IntakeKept.recordMemoryDelivery (h : IntakeKept store env owner J)
    {delivery : MemoryDelivery} (ho : delivery.scope.owner = owner) (hd : J d) :
    Keeps J (store.recordMemoryDelivery env delivery) d := by
  unfold Store.recordMemoryDelivery
  split
  · exact trivial
  change Prog.wp (Store.loadMemoryDeliveryReceipt _ _ _ >>= _) _ _ d
  refine Prog.wp_bind.mpr ((h.emits (emits_loadMemoryDeliveryReceipt _ _ _) hd).conseq
    fun found d₁ h₁ => ?_)
  cases found with
  | some ref => exact h₁
  | none =>
    change Prog.wp (rejectRetroactiveMemoryDelivery delivery >>= _) _ _ d₁
    refine Prog.wp_bind.mpr ((h.emits (emits_rejectRetroactiveMemoryDelivery delivery) h₁).conseq
      fun _ d₂ h₂ => ?_)
    refine Prog.wp_bind.mpr ((h.emits (emits_loadDeliverableMemoryRefs delivery) h₂).conseq
      fun allowed d₃ h₃ => ?_)
    split
    · exact trivial
    refine Prog.wp_bind.mpr ((h.emits (emits_insertFresh ⟨rfl, rfl⟩) h₃).conseq fun _ d₄ h₄ => ?_)
    have hruns : Keeps J (store.enqueueRunEpisodes env delivery.scope delivery.runRef) d₄ :=
      Prog.wp_forEach (fun ref _ x hx => h.enqueueEpisodeState ho ref hx) h₄
    exact Prog.wp_bind.mpr (hruns.conseq fun _ d₅ h₅ => h₅)

end

/-- Such a law holds after a call when it held before. -/
theorem intake_keeps {store : Store} {c : IntakeCommand} {J : Db → Prop}
    (h : IntakeKept store c.env c.owner J) {d : Db} (hd : J d) : Keeps J (store.intake c) d := by
  cases c with
  | observe env key event binding =>
    exact Prog.wp_bind.mpr ((h.observe key rfl binding hd).conseq fun _ _ h₁ => h₁)
  | reportOutcome env report =>
    exact Prog.wp_bind.mpr ((h.reportOutcome rfl hd).conseq fun _ _ h₁ => h₁)
  | recordMemoryDelivery env delivery =>
    exact Prog.wp_bind.mpr ((h.recordMemoryDelivery rfl hd).conseq fun _ _ h₁ => h₁)

/-! ## Outcome refs -/

/-- No two Outcomes share their ref. -/
def OutcomeRefsUnique (d : Db) : Prop := KeysUnique OutcomeRow.ref d.outcomes

theorem outcomeRefs_kept (store : Store) (env : Ambient) (owner : OwnerScope) :
    IntakeKept store env owner OutcomeRefsUnique where
  aside := fun d w hd hw => by
    unfold OutcomeRefsUnique
    rw [(hw.tables d).1]
    exact hd
  bind := fun g d hd => by
    rw [apply_updateOutcomes]
    have hkeys : (updateRows OutcomeRow.key (boundOutcomes (store.episodeRef g) g d) d.outcomes).map
        OutcomeRow.key = d.outcomes.map OutcomeRow.key := by
      refine map_key_updateRows fun r hr => ?_
      obtain ⟨o, ho, rfl⟩ := List.mem_map.mp hr
      exact ⟨o, List.mem_of_mem_filter ho, rfl⟩
    have hrefs := congrArg (List.map Prod.snd) hkeys
    rw [List.map_map, List.map_map] at hrefs
    change ((updateRows OutcomeRow.key _ d.outcomes).map (Prod.snd ∘ OutcomeRow.key)).Nodup
    rw [hrefs]
    exact hd
  report := fun row d hd hfree => by
    have hno : ∀ r ∈ d.outcomes, r.ref ≠ row.ref := fun r hr href => by
      have hr' := List.any_eq_false.mp hfree r hr
      simp [href] at hr'
    have hnew : ¬∃ x ∈ d.outcomes, x.key = row.key := by
      rintro ⟨x, hx, hk⟩
      exact hno x hx (congrArg Prod.snd hk)
    change KeysUnique OutcomeRow.ref (updateRow OutcomeRow.key row d.outcomes)
    rw [updateRow, if_neg hnew]
    refine keysUnique_append hd ?_
    rintro ⟨x, hx, href⟩
    exact hno x hx href
  enqueue := fun scope refs outs d _ hd =>
    Prog.wp_of_emits (P := fun w => w.outcome = none)
      (emits_enqueueConsolidationEvidence store env scope refs outs (fun _ => rfl) fun _ => rfl)
      (fun x w hx hw => by
        cases w with
        | insertOutcome r => cases hw
        | updateOutcome r => cases hw
        | _ => exact hx) hd

/-! ## Jobs -/

/-- A job as a call leaves it: as it was, or a collecting one with more evidence. -/
def Extended (env : Ambient) (j j' : JobRow) : Prop :=
  j' = j ∨ (j.collecting ∧ ∃ episodes outcomes, j' = j.extend env episodes outcomes)

/-- A job that a call inserts. -/
def Fresh (env : Ambient) (owner : OwnerScope) (j : JobRow) : Prop :=
  ∃ ref episodes outcomes, j = newJob env env.jobOrder ref owner episodes outcomes

/-- What a call of an owner makes of the queue of `d₀`. -/
structure Growth (env : Ambient) (owner : OwnerScope) (d₀ d : Db) : Prop where
  refs : KeysUnique JobRow.jobRef d.jobs
  orders : KeysUnique JobRow.jobOrder d.jobs
  kept : ∀ j ∈ d₀.jobs, ∃ j' ∈ d.jobs, Extended env j j'
  origin : ∀ j' ∈ d.jobs, (∃ j ∈ d₀.jobs, Extended env j j') ∨ Fresh env owner j'

theorem Extended.extend {env : Ambient} {j j' : JobRow} (h : Extended env j j')
    (hc : j'.collecting) (episodes outcomes : List String) :
    Extended env j (j'.extend env episodes outcomes) := by
  rcases h with rfl | ⟨hj, e, o, rfl⟩
  · exact Or.inr ⟨hc, episodes, outcomes, rfl⟩
  · exact Or.inr ⟨hj, episodes, outcomes, rfl⟩

theorem Fresh.extend {env : Ambient} {owner : OwnerScope} {j : JobRow} (h : Fresh env owner j)
    (episodes outcomes : List String) : Fresh env owner (j.extend env episodes outcomes) := by
  obtain ⟨ref, e, o, rfl⟩ := h
  exact ⟨ref, episodes, outcomes, rfl⟩

section

variable {store : Store} {env : Ambient} {owner : OwnerScope} {d₀ d : Db}

theorem Growth.start (hr : KeysUnique JobRow.jobRef d₀.jobs)
    (ho : KeysUnique JobRow.jobOrder d₀.jobs) : Growth env owner d₀ d₀ :=
  ⟨hr, ho, fun j hj => ⟨j, hj, Or.inl rfl⟩, fun j hj => Or.inl ⟨j, hj, Or.inl rfl⟩⟩

theorem Growth.of_jobs_eq (h : Growth env owner d₀ d) {d' : Db} (hj : d'.jobs = d.jobs) :
    Growth env owner d₀ d' := by
  obtain ⟨hr, ho, hk, hf⟩ := h
  constructor <;> rw [hj]
  · exact hr
  · exact ho
  · exact hk
  · exact hf

/-- Reading a job for update leaves the store as it is. -/
theorem Growth.touch (h : Growth env owner d₀ d) {q : Db → Option JobRow}
    (hq : ∀ j, q d = some j → j ∈ d.jobs) : applyAll d (touchJob (q d)) = d := by
  cases hj : q d with
  | none => rfl
  | some j =>
    change { d with jobs := updateRow JobRow.jobRef j d.jobs } = d
    rw [updateRow_self h.refs (hq j hj)]

/-- A job of the store is put again with more evidence. -/
theorem Growth.extendCollecting (h : Growth env owner d₀ d) {j : JobRow} (hj : j ∈ d.jobs)
    (hc : j.collecting) (episodes outcomes : List String) :
    Keeps (Growth env owner d₀) (extendCollectingJob env j.jobRef episodes outcomes) d := by
  have hrows : updateJobs (fun x => decide (x.jobRef = j.jobRef))
      (JobRow.extend env episodes outcomes) d =
      [Write.updateJob (j.extend env episodes outcomes)] := by
    unfold updateJobs
    rw [filter_key h.refs hj]
    rfl
  change Growth env owner d₀ (applyAll d (updateJobs _ _ d))
  rw [hrows]
  have hjobs : (d.apply (.updateJob (j.extend env episodes outcomes))).jobs =
      updateRow JobRow.jobRef (j.extend env episodes outcomes) d.jobs := rfl
  have hext := fun {i : JobRow} (hi : Extended env i j) => hi.extend hc episodes outcomes
  refine ⟨h.refs.updateRow _, ?_, fun i hi => ?_, fun i hi => ?_⟩
  · change KeysUnique JobRow.jobOrder (d.apply (.updateJob _)).jobs
    rw [hjobs]
    exact h.orders.replace h.refs hj rfl rfl
  · obtain ⟨i', hi', hie⟩ := h.kept i hi
    by_cases hk : i'.jobRef = j.jobRef
    · obtain rfl := h.refs.eq hi' hj hk
      exact ⟨_, self_mem_updateRow, hext hie⟩
    · exact ⟨i', mem_updateRow.mpr (Or.inl ⟨hi', hk⟩), hie⟩
  · rcases mem_updateRow.mp hi with ⟨hi, _⟩ | rfl
    · exact h.origin i hi
    · rcases h.origin j hj with ⟨i, hi, hie⟩ | hf
      · exact Or.inl ⟨i, hi, hext hie⟩
      · exact Or.inr (hf.extend episodes outcomes)

theorem Growth.join (h : Growth env owner d₀ d) {j : JobRow} (hj : j ∈ d.jobs)
    (hc : j.collecting) (refs outs : List String) :
    Keeps (Growth env owner d₀) (joinCollectingJob env j refs outs) d := by
  unfold joinCollectingJob
  dsimp only
  split
  · exact h
  · exact h.extendCollecting hj hc _ _

/-- A new collecting job, when none of its keys is taken. -/
theorem Growth.insert (h : Growth env owner d₀ d) (hfresh : ∀ j ∈ d₀.jobs, j.jobOrder ≠ env.jobOrder)
    (ref : String) (episodes outcomes : List String) :
    Growth env owner d₀
      (applyAll d (newCollectingJob (newJob env env.jobOrder ref owner episodes outcomes) d)) := by
  unfold newCollectingJob
  split
  · exact h
  rename_i hconflict
  have hno : ∀ j ∈ d.jobs, j.jobRef ≠ ref ∧ ¬(j.owner = owner ∧ j.collecting) := fun j hj => by
    have hj' := List.any_eq_false.mp (Bool.not_eq_true _ ▸ hconflict) j hj
    simp only [newJob, Bool.or_eq_true, Bool.and_eq_true, not_or] at hj'
    exact ⟨fun h => hj'.1 (decide_eq_true h), fun h => hj'.2 ⟨decide_eq_true h.1, h.2⟩⟩
  have hnew : ¬∃ x ∈ d.jobs, x.jobRef = (newJob env env.jobOrder ref owner episodes outcomes).jobRef :=
    fun ⟨x, hx, hr⟩ => (hno x hx).1 hr
  have horder : ¬∃ x ∈ d.jobs,
      x.jobOrder = (newJob env env.jobOrder ref owner episodes outcomes).jobOrder := by
    rintro ⟨x, hx, hxo⟩
    rcases h.origin x hx with ⟨j, hj, rfl | ⟨_, e, o, rfl⟩⟩ | ⟨r, e, o, rfl⟩
    · exact hfresh x hj hxo
    · exact hfresh j hj hxo
    · exact (hno _ hx).2 ⟨rfl, rfl⟩
  have hjobs : (applyAll d [Write.insertJob (newJob env env.jobOrder ref owner episodes outcomes)]).jobs
      = d.jobs ++ [newJob env env.jobOrder ref owner episodes outcomes] := by
    change updateRow JobRow.jobRef _ d.jobs = _
    rw [updateRow, if_neg hnew]
  constructor <;> rw [hjobs]
  · exact keysUnique_append h.refs hnew
  · exact keysUnique_append h.orders horder
  · intro j hj
    obtain ⟨j', hj', he⟩ := h.kept j hj
    exact ⟨j', List.mem_append_left _ hj', he⟩
  · intro j hj
    rcases List.mem_append.mp hj with hj | hj
    · exact h.origin j hj
    · rw [List.mem_singleton.mp hj]
      exact Or.inr ⟨ref, episodes, outcomes, rfl⟩

theorem Growth.enqueue (h : Growth env owner d₀ d)
    (hfresh : ∀ j ∈ d₀.jobs, j.jobOrder ≠ env.jobOrder) {scope : Scope} (ho : scope.owner = owner)
    (refs outs : List String) :
    Keeps (Growth env owner d₀) (store.enqueueConsolidationEvidence env scope refs outs) d := by
  subst ho
  have hsome : ∀ (x : Db) j, collectingJob scope.owner x = some j → j ∈ x.jobs :=
    fun x j hj => (collectingJob_some hj).1
  unfold Store.enqueueConsolidationEvidence
  split
  · exact h
  refine Prog.wp_acquire.mpr (Prog.wp_statement.mpr ?_)
  rw [h.touch (hsome d)]
  dsimp only
  split
  · exact h
  split
  · refine Prog.wp_statement.mpr ?_
    set d₁ := applyAll d (newCollectingJob _ d) with hd₁
    have h₁ : Growth env scope.owner d₀ d₁ := h.insert hfresh _ _ _
    split
    · exact h₁
    refine Prog.wp_statement.mpr ?_
    rw [h₁.touch (hsome d₁)]
    cases hjoin : collectingJob scope.owner d₁ with
    | none => exact trivial
    | some j =>
      obtain ⟨hj, _, hc⟩ := collectingJob_some hjoin
      exact h₁.join hj hc refs outs
  · cases hstored : collectingJob scope.owner d with
    | none =>
      rename_i hempty
      rw [hstored] at hempty
      exact absurd rfl hempty
    | some j =>
      obtain ⟨hj, _, hc⟩ := collectingJob_some hstored
      exact h.extendCollecting hj hc _ _

theorem growth_kept (store : Store) (hfresh : ∀ j ∈ d₀.jobs, j.jobOrder ≠ env.jobOrder) :
    IntakeKept store env owner (Growth env owner d₀) where
  aside := fun d w hd hw => hd.of_jobs_eq (hw.tables d).2
  bind := fun g d hd => by
    rw [apply_updateOutcomes]
    exact hd.of_jobs_eq rfl
  report := fun row d hd _ => hd.of_jobs_eq rfl
  enqueue := fun scope refs outs d ho hd => hd.enqueue hfresh ho refs outs

end

end ChoraMem
