/-
The index converges to the store.

The system of the store, the queue and the projector refines the outbox, so in every state
that is reached, whatever was interleaved, lost or broken off, the index differs from the
store only where an unfinished operation says so.  When nothing is left to do, the documents
of the index are those that the store shows.
-/
import ChoraMem.Projection.Mirror
import ChoraMem.Projection.Valid

namespace ChoraMem

open Dialog Outbox Txn

section

variable {store : Store} {config : ProjectorConfig} {s s' : ProjectionSys} {o : IndexOutbox}
variable {opened : Option (DocumentRef × EpisodeRow)}

/-! ## Commits -/

/-- A commit is one of the outbox. -/
theorem Reflects.commit (h : Reflects s o opened) (hhash : Collisionless store)
    (hlaw : QueueLaw s.memory.db.indexOperations s.queue) {memory : MemorySys}
    (hcommit : Commit store s.memory.db memory.db) (hkeyed : memory.db.Keyed)
    (hclash : store.Unclashing memory.db) (now : IndexOperationRow → Nat) :
    ∃ o', Run indexFeed o o' ∧ o'.phase = o.phase ∧
      Reflects { s with
        memory := memory, queue := receive now memory.db.indexOperations s.queue } o' opened := by
  have hreceived : QueueLaw memory.db.indexOperations
      (receive now memory.db.indexOperations s.queue) :=
    hlaw.receive hcommit.advances.operations hkeyed.operations hcommit.outboxBefore.numbered
      hcommit.outbox.numbered
  have hstep : Outbox.Step indexFeed o { o with
      content := fun r => documentText r memory.db
      pending := pendingOperations (receive now memory.db.indexOperations s.queue) } := by
    refine .commit _ _ (fun op hop => ?_) (fun r hne => ?_) fun op hop hdelete => ?_
    · rw [h.pending] at hop
      exact (pending_receive now op).mpr (Or.inl hop)
    · rw [h.content] at hne
      obtain ⟨op, hop, hnew, hdocument, hadds⟩ := hcommit.published hhash hclash hne
      have hnone : ∀ row ∈ s.queue, row.operation ≠ op := fun row hrow heq =>
        hnew ((hlaw.rows op).mpr ⟨row, hrow, heq⟩)
      refine ⟨op, (pending_receive now op).mpr (Or.inr ⟨hop, hnone⟩), fun hold => ?_, hdocument, hadds⟩
      rw [h.pending] at hold
      obtain ⟨row, hrow, heq, _⟩ := hold
      exact hnone row hrow heq
    · obtain ⟨row, hrow, rfl, _⟩ := hop
      have hmem := (hreceived.rows row.operation).mpr ⟨row, hrow, rfl⟩
      refine deleted_document hcommit.advances.law hcommit.outbox hmem ?_
      cases haction : row.operation.action with
      | delete => rfl
      | upsert =>
        have hdelete : (row.operation.action == .upsert) = false := hdelete
        rw [haction] at hdelete
        cases hdelete
  refine ⟨_, Run.start.step hstep, rfl, ?_⟩
  exact {
    content := rfl
    pending := rfl
    copy := h.copy
    opened := fun r e heq => by
      obtain ⟨hkind, he, hrest⟩ := h.opened r e heq
      exact ⟨hkind, hcommit.advances.gains.episodes he, hrest⟩
    broken := h.broken
    undamaged := h.undamaged }

/-! ## Work -/

theorem Reflects.work (h : Reflects s o opened) (work : Option (Projection Report)) :
    Reflects { s with work := work } o opened :=
  ⟨h.content, h.pending, h.copy, h.opened, h.broken, h.undamaged⟩

/-- Work that ends, or stops anywhere. -/
theorem Reflects.stop (h : Reflects s o opened) :
    ∃ o', Run indexFeed o o' ∧ o'.phase = .idle ∧ Reflects { s with work := none } o' none := by
  by_cases hcopying : ∃ toCome page, o.phase = .copying toCome page
  · obtain ⟨toCome, page, hphase⟩ := hcopying
    refine ⟨_, Run.start.step (.abandon toCome page hphase), rfl, ?_⟩
    exact {
      content := h.content
      pending := h.pending
      copy := h.copy
      opened := fun _ _ hno => by cases hno
      broken := fun _ _ hno => by cases hno
      undamaged := fun hwhole => by
        have hbroken := (h.broken toCome page hphase).1
        rw [hbroken] at hwhole
        cases hwhole }
  · obtain ⟨hrun, hnext⟩ := h.quit fun toCome page hphase => hcopying ⟨toCome, page, hphase⟩
    exact ⟨_, hrun, rfl, hnext.work none⟩

/-- A rebuild that comes to its end. -/
theorem Reflects.rebuilt (h : Reflects s o opened) (hphase : o.phase = .copying ∅ []) :
    ∃ o', Run indexFeed o o' ∧ o'.phase = .idle ∧
      Reflects { s with work := none, whole := true } o' none := by
  refine ⟨_, Run.start.step (.finish hphase), rfl, ?_⟩
  exact {
    content := h.content
    pending := h.pending
    copy := h.copy
    opened := fun _ _ hno => by cases hno
    broken := fun _ _ hno => by cases hno
    undamaged := fun _ => (h.broken ∅ [] hphase).2 }

/-! ## The refinement -/

/-- The outbox before anything was committed. -/
def emptyOutbox : IndexOutbox := ⟨fun _ => none, ∅, fun _ => none, .idle, False⟩

/-- The state is one of the outbox, and the projector's work follows its watch there. -/
structure Refined (s : ProjectionSys) (o : IndexOutbox) (opened : Option (DocumentRef × EpisodeRow)) :
    Prop where
  run : Run indexFeed emptyOutbox o
  reflects : Reflects s o opened
  idle : s.work = none → o.phase = .idle
  follows : ∀ p, s.work = some p → Follows projectorWatch Ended (o.phase, opened) p

theorem Refined.sound (h : Refined s o opened) : Sound indexFeed o :=
  Sound.run (sound_empty _ fun _ => rfl) h.run

theorem refined_init : Refined ProjectionSys.init emptyOutbox none where
  run := .start
  reflects := {
    content := by
      funext r
      obtain ⟨kind, ref, scope⟩ := r
      cases kind <;> rfl
    pending := by
      ext op
      exact ⟨fun h => h.elim, fun h => by
        obtain ⟨_, hrow, _⟩ := h
        exact absurd hrow List.not_mem_nil⟩
    copy := rfl
    opened := fun _ _ hno => by cases hno
    broken := fun _ _ hno => by cases hno
    undamaged := fun _ hno => hno }
  idle := fun _ => rfl
  follows := fun _ hno => by cases hno

/-- Where the projector goes on after an answer. -/
theorem Refined.answered (h : Refined s o opened) {q : ProjectorAsk}
    {k : q.Answer → Projection Report} {x : q.Answer} {s' : ProjectionSys}
    (hwork : s.work = some (.ask q k))
    (hnext : ∃ o' opened', Run indexFeed o o' ∧ Reflects s' o' opened' ∧
      projectorMoves (o.phase, opened) q x (o'.phase, opened')) :
    ∃ o' opened', Refined { s' with work := some (k x) } o' opened' := by
  obtain ⟨o', opened', hrun, hreflects, hmoves⟩ := hnext
  refine ⟨o', opened', h.run.trans hrun, hreflects.work _, fun hno => (by cases hno), fun p hp => ?_⟩
  obtain rfl := Option.some.inj hp
  exact (h.follows _ hwork).2 x _ hmoves

theorem Refined.allowed (h : Refined s o opened) {q : ProjectorAsk} {k : q.Answer → Projection Report}
    (hwork : s.work = some (.ask q k)) : projectorAllows (o.phase, opened) q :=
  (h.follows _ hwork).1

theorem Refined.stop (h : Refined s o opened) : ∃ o' opened', Refined { s with work := none } o' opened' := by
  obtain ⟨o', hrun, hidle, hreflects⟩ := h.reflects.stop
  exact ⟨o', none, h.run.trans hrun, hreflects, fun _ => hidle, fun _ hno => by cases hno⟩

/-- Every step is one of the outbox, or none. -/
theorem Refined.step (h : Refined s o opened) (hs : Projectable store s) {act : ProjectionAct}
    (hstep : s.step? config act = some s') (hclash : store.Unclashing s'.memory.db) :
    ∃ o' opened', Refined s' o' opened' := by
  cases ProjectionSys.step_moves hstep with
  | memory act now memory hmemory =>
    have hlaw := hs.law
    rcases commit_cases hs.collisionless hlaw.memory hlaw.keyed hmemory with hsame | ⟨hcommit, hkeyed⟩
    · have hqueue : receive now memory.db.indexOperations s.queue = s.queue := by
        refine receive_same fun op hop => ?_
        rw [hsame] at hop
        exact (hlaw.queue.rows op).mp hop
      have hr := h.reflects
      refine ⟨o, opened, h.run, ⟨?_, ?_, hr.copy, ?_, hr.broken, hr.undamaged⟩, h.idle, h.follows⟩
      · show o.content = fun r => documentText r memory.db
        rw [hsame]
        exact hr.content
      · show o.pending = pendingOperations (receive now memory.db.indexOperations s.queue)
        rw [hqueue]
        exact hr.pending
      · show ∀ r e, _ → _ ∧ e ∈ memory.db.episodes ∧ _
        rw [hsame]
        exact hr.opened
    · obtain ⟨o', hrun, hphase, hreflects⟩ :=
        h.reflects.commit hs.collisionless hlaw.queue hcommit hkeyed hclash now
      refine ⟨o', opened, h.run.trans hrun, hreflects, fun hw => hphase.trans (h.idle hw), fun p hp => ?_⟩
      rw [hphase]
      exact h.follows p hp
  | begin act p hidle hp =>
    refine ⟨{ o with phase := .idle }, none, ?_, ?_, fun hno => (by cases hno), fun p' hp' => ?_⟩
    · rw [← h.idle hidle]
      exact h.run
    · have hmoved : Reflects s { o with phase := .idle } none :=
        h.reflects.moved fun _ _ hno => by cases hno
      exact hmoved.work _
    · obtain rfl := Option.some.inj hp'
      rcases hp with rfl | rfl
      · exact follows_processOne config
      · exact follows_startRebuild
  | answer m q k hwork =>
    exact h.answered hwork (h.reflects.perform hs h.sound.held (h.allowed hwork) m)
  | lose m fault q k x hwork hx =>
    exact h.answered hwork (h.reflects.lose hs h.sound.held (h.allowed hwork) m hx)
  | refuse fault q k x hwork hx =>
    exact h.answered hwork (h.reflects.refuse (h.allowed hwork) hx)
  | turn cursor hwork =>
    refine ⟨o, opened, h.run, h.reflects.work _, fun hno => (by cases hno), fun p hp => ?_⟩
    obtain rfl := Option.some.inj hp
    exact follows_rebuildPage config (h.follows _ hwork)
  | rebuilt hwork =>
    obtain ⟨o', hrun, hidle, hreflects⟩ := h.reflects.rebuilt (h.follows _ hwork)
    exact ⟨o', none, h.run.trans hrun, hreflects, fun _ => hidle, fun _ hno => by cases hno⟩
  | stop act p hwork => exact h.stop

/-- What the asks need holds in reached states. -/
theorem projectable_reach (hhash : Collisionless store) (hdigest : PlainDigest store)
    (h : ProjectionReach store config s) : Projectable store s := by
  have hlaw := projectionLaw_reach hhash h
  have hworld := worldLaw_reach hhash hlaw.memory
  exact ⟨hhash, hlaw, hworld,
    documented_of_printed hhash hdigest (printed_reach hdigest hlaw.memory) hworld.memory.keys⟩

/-- Causes stay, so identities that do not clash in the end never did. -/
theorem unclashing_before (hs : Projectable store s) {act : ProjectionAct}
    (hstep : s.step? config act = some s') (h : store.Unclashing s'.memory.db) :
    store.Unclashing s.memory.db := by
  cases ProjectionSys.step_moves hstep with
  | memory act now memory hmemory =>
    rcases commit_cases hs.collisionless hs.law.memory hs.law.keyed hmemory with hsame | ⟨hcommit, _⟩
    · have h : store.Unclashing memory.db := h
      rw [hsame] at h
      exact h
    · exact h.earlier hcommit.causes
  | answer m q k => cases q <;> exact h
  | lose m fault q k x => cases q <;> exact h
  | _ => exact h

/-- Every reached state is one of the outbox. -/
theorem refined_reach (hhash : Collisionless store) (hdigest : PlainDigest store)
    (h : ProjectionReach store config s) (hclash : store.Unclashing s.memory.db) :
    ∃ o opened, Refined s o opened := by
  induction h with
  | start => exact ⟨_, _, refined_init⟩
  | step h hstart hstep ih =>
    have hs := projectable_reach hhash hdigest h
    obtain ⟨o, opened, hrefined⟩ := ih (unclashing_before hs hstep hclash)
    exact hrefined.step hs hstep hclash

end

/-! ## Convergence -/

section

variable {store : Store} {config : ProjectorConfig} {s : ProjectionSys}

/-- Where the index differs from the store an operation is unfinished. -/
theorem index_announced (hhash : Collisionless store) (hdigest : PlainDigest store)
    (h : ProjectionReach store config s) (hclash : store.Unclashing s.memory.db)
    (hwhole : s.whole = true) {r : DocumentRef}
    (hne : indexText s.index r ≠ documentText r s.memory.db) :
    ∃ row ∈ s.queue, row.unfinished = true ∧ row.operation.document = r ∧
      (row.operation.action = .upsert ↔ (documentText r s.memory.db).isSome) := by
  obtain ⟨o, opened, hrefined⟩ := refined_reach hhash hdigest h hclash
  have hr := hrefined.reflects
  rcases hrefined.sound.exact (hr.undamaged hwhole) r with heq | ⟨op, hop, _, habout, hadds⟩ | hcome
  · rw [hr.copy, hr.content] at heq
    exact absurd heq hne
  · rw [hr.pending] at hop
    rw [hr.content] at hadds
    obtain ⟨row, hrow, rfl, hopen⟩ := hop
    have hadds : (row.operation.action == .upsert) = (documentText r s.memory.db).isSome := hadds
    refine ⟨row, hrow, hopen, habout, ?_⟩
    rw [← hadds, beq_iff_eq]
  · -- A rebuild is between its reset and its end.
    obtain ⟨toCome, page, hcopying, _⟩ := hcome
    have hbroken := (hr.broken toCome page hcopying).1
    rw [hwhole] at hbroken
    cases hbroken

/-- When no operation is unfinished the index is exact. -/
theorem index_exact (hhash : Collisionless store) (hdigest : PlainDigest store)
    (h : ProjectionReach store config s) (hclash : store.Unclashing s.memory.db)
    (hwhole : s.whole = true)
    (hdone : ∀ row ∈ s.queue, row.acknowledgedAt.isSome) (document : Document) :
    document ∈ s.index ↔ memoryIndexDocument document.about s.memory.db = some document := by
  have htext : indexText s.index document.about = documentText document.about s.memory.db := by
    by_contra hne
    obtain ⟨row, hrow, hopen, _⟩ := index_announced hhash hdigest h hclash hwhole hne
    have hfinished := QueueRow.finished_iff.mp (hdone row hrow)
    rw [hopen] at hfinished
    cases hfinished
  rw [mem_index (projectionLaw_reach hhash h).index, htext]
  unfold memoryIndexDocument
  constructor
  · intro htext
    rw [htext]
    rfl
  · intro hdocument
    obtain ⟨text, htext, heq⟩ := Option.map_eq_some_iff.mp hdocument
    rw [htext, ← heq]

end

end ChoraMem
