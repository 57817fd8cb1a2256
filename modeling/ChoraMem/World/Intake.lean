/-
What intake calls put into the outbox.

An observed source or a reported Outcome binds at most one group, and enqueues the operation
of the link it appended in the same transaction.  The other calls beside consolidation touch
nothing that a document is made of.
-/
import ChoraMem.World.Posting
import ChoraMem.World.Sizes

namespace ChoraMem

open Txn

/-- A commit of this log posts what it changed, under its locks. -/
structure Store.Commissions (store : Store) (d : Db) (l : Local Write String) : Prop where
  posting : Posting store d (applyAll d l.log)
  guarded : store.Guarded l

section

variable {store : Store} {d e x y : Db} {l l' : Local Write String} {g : StableGroupRef}
variable {sourceRef : String} {role : SourceRole} {a : String × Bool}

theorem calm_more {more : List Write} (hlog : l'.log = l.log ++ more) (h : ∀ w ∈ more, w.Quiet) :
    Calm (applyAll d l.log) (applyAll d l'.log) := by
  rw [hlog, applyAll_append]
  exact calm_applyAll h _

theorem calm_insertOutcome (r : OutcomeRow) (x : Db) : Calm x (x.apply (.insertOutcome r)) :=
  ⟨rfl, rfl, rfl, rfl, fun _ h => h⟩

theorem Calm.causes (h : Calm x y) : ChoraMem.causes y = ChoraMem.causes x := by
  unfold ChoraMem.causes linkCauses
  rw [h.memory, h.links]

/-- Nothing that follows calmly undoes it. -/
theorem Posting.calm (h : Posting store d x) (hc : Calm x y) : Posting store d y := by
  have hposts : ∀ {id : String}, x.Posts id → y.Posts id :=
    fun hp => hp.mono (by rw [hc.operations]; exact fun _ h => h)
  have hlinked : ∀ {g t}, Posts store d x g t → Posts store d y g t := by
    intro g t ht
    exact ⟨by rw [hc.links]; exact ht.mem, ht.group, ht.bound, ht.new, hposts ht.posted⟩
  constructor
  · intro o ho
    rw [hc.operations] at ho
    rw [hc.causes]
    exact h.founded o ho
  · intro c hcause
    rw [hc.memory] at hcause
    exact (h.posted c hcause).imp_right hposts
  · intro k hk hne
    rw [hc.links] at hk
    rcases h.links k hk hne with hold | ⟨href, hmade, t, ht⟩
    · exact Or.inl hold
    · refine Or.inr ⟨href, ?_, t, hlinked ht⟩
      unfold Materialized
      rw [hc.episodes]
      exact hmade
  · intro r hr
    rw [hc.episodes] at hr
    rcases h.episodes r hr with hold | ⟨t, ht⟩
    · exact Or.inl hold
    · exact Or.inr ⟨t, hlinked ht⟩
  · intro k hk
    rw [hc.links] at hk
    exact (h.sourced k hk).mono hc.sources
  · rw [hc.operations]
    exact h.numbered

/-! ## Quiet calls -/

theorem guarded_quiet (h : ∀ w ∈ l.log, w.Quiet) : store.Guarded l where
  groups := by
    intro w hw g hg
    rw [(h w hw).group] at hg
    cases hg
  streams := fun o ho => (h _ ho).elim

theorem Store.Guarded.more (h : store.Guarded l) {more : List Write} (hheld : ∀ k ∈ l.held, k ∈ l'.held)
    (hlog : l'.log = l.log ++ more) (hmore : ∀ w ∈ more, w.Quiet) : store.Guarded l' := by
  constructor
  · intro w hw g hg
    rw [hlog] at hw
    rcases List.mem_append.mp hw with hw | hw
    · exact hheld _ (h.groups w hw g hg)
    · rw [(hmore w hw).group] at hg
      cases hg
  · intro o ho
    rw [hlog] at ho
    rcases List.mem_append.mp ho with ho | ho
    · exact hheld _ (h.streams o ho)
    · exact (hmore _ ho).elim

theorem Store.Commissions.quiet (hd : OutboxLaw store d) (h : ∀ w ∈ l.log, w.Quiet) :
    store.Commissions d l :=
  ⟨(calm_applyAll h d).posting hd, guarded_quiet h⟩

theorem Store.Commissions.more (h : store.Commissions d l) (hl : l.Gathers Write.Quiet l') :
    store.Commissions d l' := by
  obtain ⟨more, hlog, hmore⟩ := hl.log
  exact ⟨h.posting.calm (calm_more hlog hmore), h.guarded.more hl.held hlog hmore⟩

theorem ends_quiet {α : Type} {p : Tx α} (hd : OutboxLaw store d) (hp : p.Emits Write.Quiet) :
    (servicePact store).Ends d p (fun _ l _ => store.Commissions d l) ⟨[], []⟩ e :=
  Pact.Ends.conseq (Pact.Ends.logged hp fun _ hw => absurd hw List.not_mem_nil)
    fun _ _ _ h => .quiet hd h

/-! ## The operation of a link -/

section

variable {l₀ : Local Write String}

/-- The operation of a link that bound its group. -/
theorem ends_enqueueEpisodeProjection (hd : OutboxLaw store d) (hlog : ∀ w ∈ l₀.log, w.Quiet)
    (hsource : Sourced (g.scope, sourceRef) (applyAll d l₀.log))
    (hattaches : Attaches store g sourceRef role a (applyAll d l₀.log) x)
    (hcalm : Calm x (applyAll d l.log)) (hguard : store.Guarded l) (ha : (a.2 && a.1 != "") = true) :
    (servicePact store).Ends d (store.enqueueEpisodeProjection g.scope a.1 role sourceRef)
      (fun _ l' _ => store.Commissions d l') l e := by
  refine Pact.Ends.conseq (ends_enqueueCause (c := typedLink ⟨g, sourceRef, role, a.1⟩) hguard)
    fun _ l' _ h => ⟨?_, h.2⟩
  exact hattaches.posted (calm_applyAll hlog d) hcalm h.1 (Calm.refl _) hd hsource ha

theorem commissions_unbound (hd : OutboxLaw store d) (hlog : ∀ w ∈ l₀.log, w.Quiet)
    (hsource : Sourced (g.scope, sourceRef) (applyAll d l₀.log))
    (hattaches : Attaches store g sourceRef role a (applyAll d l₀.log) x)
    (hcalm : Calm x (applyAll d l.log)) (hguard : store.Guarded l) (ha : (a.2 && a.1 != "") = false) :
    store.Commissions d l :=
  ⟨hattaches.calmly (calm_applyAll hlog d) hcalm hd hsource ha, hguard⟩

end

theorem ends_bindObserved {env : Ambient} {event : SourceEvent} {binding : EpisodeBinding}
    (hd : OutboxLaw store d) (hhash : Collisionless store) (hlog : ∀ w ∈ l.log, w.Quiet)
    (hsource : Sourced (event.scope, event.ref) (applyAll d l.log)) :
    (servicePact store).Ends d (store.bindObserved env event binding)
      (fun _ l' _ => store.Commissions d l') l e := by
  have hnone : ∀ w ∈ l.log, w.group = none := fun w hw => (hlog w hw).group
  unfold Store.bindObserved
  split
  · refine Pact.Ends.bind (Pact.Ends.conseq (ends_appendLinkAndMaterialize rfl hd hhash hnone
      (guarded_quiet hlog)) fun a l₁ e₁ h => ?_)
    obtain ⟨ref, changed⟩ := a
    dsimp only
    split
    · rename_i ha
      refine Pact.Ends.bind (Pact.Ends.conseq (Pact.Ends.gathers (emits_enqueueEpisodeState
        (P := Write.Quiet) store env event.scope ref (fun _ => trivial) fun _ => trivial) l₁ e₁)
        fun _ l₂ e₂ hmore => ?_)
      obtain ⟨more, hmorelog, hquiet⟩ := hmore.log
      have henqueue := ends_enqueueEpisodeProjection (e := e₂) hd hlog hsource h.attaches
        (calm_more hmorelog hquiet) (h.guarded.more hmore.held hmorelog hquiet) ha
      exact Pact.Ends.bind (Pact.Ends.conseq henqueue fun _ _ _ h => h)
    · rename_i ha
      have hno : (changed && ref != "") = false := Bool.eq_false_iff.mpr ha
      show store.Commissions d l₁
      exact commissions_unbound (a := (ref, changed)) hd hlog hsource h.attaches (Calm.refl _)
        h.guarded hno
  · exact .quiet hd hlog

theorem ends_observe {env : Ambient} {key : String} {event : SourceEvent} {binding : EpisodeBinding}
    (hd : OutboxLaw store d) (hhash : Collisionless store) :
    (servicePact store).Ends d (store.observe env key event binding)
      (fun _ l _ => store.Commissions d l) ⟨[], []⟩ e := by
  unfold Store.observe
  split
  · exact trivial
  split
  · exact trivial
  refine Pact.Ends.bind (Pact.Ends.conseq (Pact.Ends.logged (emits_claimRequest (P := Write.Quiet)
    store key event binding fun _ => trivial) fun w hw => absurd hw List.not_mem_nil)
    fun claim l₁ e₁ h₁ => ?_)
  obtain ⟨receipt, claimed⟩ := claim
  dsimp only
  split
  · exact .quiet hd h₁
  refine Pact.Ends.bind (Pact.Ends.conseq (Pact.Ends.logged (emits_lockActedRun store event.scope
    binding) h₁) fun _ l₂ e₂ h₂ => ?_)
  refine Pact.Ends.bind (Pact.Ends.conseq (Pact.Ends.and (Pact.Ends.logged (emits_admitSource env event
    fun _ => trivial) h₂) ends_admitSource) fun _ l₃ e₃ h₃ => ?_)
  refine Pact.Ends.bind (Pact.Ends.conseq (ends_bindObserved hd hhash h₃.1 h₃.2)
    fun ref l₄ e₄ h₄ => ?_)
  exact Pact.Ends.bind (Pact.Ends.conseq (Pact.Ends.gathers (emits_freezeObserveReceipt
    (P := Write.Quiet) event.scope.tenantRef key ref fun _ => trivial) l₄ e₄)
    fun _ l₅ e₅ h₅ => h₄.more h₅)

/-- The Outcome itself is frozen between its link and the link's operation. -/
theorem ends_freezeOutcome {row : OutcomeRow} (hguard : store.Guarded l)
    (hlock : store.groupLockKey row.group ∈ l.held) :
    (servicePact store).Ends d
      (insertFresh (Store.outcomeConflict row) (.insertOutcome row) "freeze Outcome event")
      (fun _ l' _ => Calm (applyAll d l.log) (applyAll d l'.log) ∧ store.Guarded l') l e := by
  intro e₁ _ _
  dsimp only
  split
  · exact trivial
  · refine ⟨?_, hguard.group hlock fun w hw => ?_⟩
    · rw [applyAll_append]
      exact calm_insertOutcome row _
    · rw [List.mem_singleton.mp hw]
      rfl

theorem ends_reportOutcome {env : Ambient} {report : OutcomeReport} (hd : OutboxLaw store d)
    (hhash : Collisionless store) :
    (servicePact store).Ends d (store.reportOutcome env report)
      (fun _ l _ => store.Commissions d l) ⟨[], []⟩ e := by
  unfold Store.reportOutcome
  split
  · exact trivial
  refine Pact.Ends.acquire fun e₀ _ _ => ?_
  refine Pact.Ends.bind (Pact.Ends.conseq (Pact.Ends.logged (emits_loadOutcomeReceipt
    (P := Write.Quiet) report _) fun w hw => absurd hw List.not_mem_nil) fun found l₁ e₁ h₁ => ?_)
  split
  · exact .quiet hd h₁
  refine Pact.Ends.bind (Pact.Ends.conseq (Pact.Ends.logged (emits_validateOutcomeBindings report _ _)
    h₁) fun _ l₂ e₂ h₂ => ?_)
  refine Pact.Ends.bind (Pact.Ends.conseq (Pact.Ends.and (Pact.Ends.logged (emits_admitSource env
    report.event fun _ => trivial) h₂) ends_admitSource) fun _ l₃ e₃ h₃ => ?_)
  refine Pact.Ends.bind (Pact.Ends.conseq (ends_appendLinkAndMaterialize rfl hd hhash
    (fun w hw => (h₃.1 w hw).group) (guarded_quiet h₃.1)) fun a l₄ e₄ h₄ => ?_)
  refine Pact.Ends.bind (Pact.Ends.conseq (ends_freezeOutcome h₄.guarded h₄.locked)
    fun _ l₅ e₅ h₅ => ?_)
  refine Pact.Ends.bind (Pact.Ends.conseq (Pact.Ends.gathers (emits_enqueueEpisodeState
    (P := Write.Quiet) store env report.event.scope a.1 (fun _ => trivial) fun _ => trivial) l₅ e₅)
    fun _ l₆ e₆ hmore => ?_)
  obtain ⟨more, hmorelog, hquiet⟩ := hmore.log
  have hcalm := h₅.1.trans (calm_more hmorelog hquiet)
  have hguard := h₅.2.more hmore.held hmorelog hquiet
  split
  · rename_i ha
    have henqueue := ends_enqueueEpisodeProjection (e := e₆) hd h₃.1 h₃.2 h₄.attaches hcalm hguard ha
    exact Pact.Ends.bind (Pact.Ends.conseq henqueue fun _ _ _ h => h)
  · rename_i ha
    have hno : (a.2 && a.1 != "") = false := Bool.eq_false_iff.mpr ha
    show store.Commissions d l₆
    exact commissions_unbound hd h₃.1 h₃.2 h₄.attaches hcalm hguard hno

/-! ## Calls beside consolidation -/

theorem ends_intake (c : IntakeCommand) (hd : OutboxLaw store d) (hhash : Collisionless store) :
    (servicePact store).Ends d (store.intake c) (fun _ l _ => store.Commissions d l) ⟨[], []⟩ e := by
  cases c with
  | observe env key event binding =>
    exact Pact.Ends.bind (Pact.Ends.conseq (ends_observe hd hhash) fun _ _ _ h => h)
  | reportOutcome env report =>
    exact Pact.Ends.bind (Pact.Ends.conseq (ends_reportOutcome hd hhash) fun _ _ _ h => h)
  | recordMemoryDelivery env delivery =>
    exact Pact.Ends.bind (Pact.Ends.conseq (ends_quiet hd (emits_recordDelivery env delivery
      (fun _ => trivial) (fun _ => trivial) fun _ => trivial)) fun _ _ _ h => h)

end

end ChoraMem
