/-
The projector when nothing gets in its way.

Alone and without a failure, one call of `ProcessOne` leases the first operation that is due,
applies it as a whole and acknowledges it.  So from every reached state the queue is worked
off, one operation a call, and the index is then that of the store, when the projector can
apply the operations at all.
-/
import ChoraMem.Projection.Convergence
import ChoraMem.World.Serial

namespace ChoraMem

open Dialog Txn

section

variable {store : Store} {config : ProjectorConfig} {s : ProjectionSys} {m : Moment}

/-! ## Alone -/

/-- The run of a piece of work that nobody interferes with and that nothing fails in. -/
def ProjectionSys.alone (m : Moment) {α : Type} (s : ProjectionSys) (p : Projection α) :
    α × ProjectionSys :=
  p.run (fun s q => s.perform m q) s

theorem alone_bind {α β : Type} (p : Projection α) (f : α → Projection β) :
    s.alone m (p.bind f) = (s.alone m p).2.alone m (f (s.alone m p).1) :=
  Program.run_bind _ _ _ _

/-- `ProcessOne`, a number of times. -/
def ProjectionSys.drain (config : ProjectorConfig) (m : Moment) :
    Nat → ProjectionSys → List Report × ProjectionSys
  | 0, s => ([], s)
  | n + 1, s =>
    let (report, s') := s.alone m (processOne config)
    let (reports, s'') := s'.drain config m n
    (report :: reports, s'')

theorem alone_ask {α : Type} (q : ProjectorAsk) (k : q.Answer → Projection α) :
    s.alone m (.ask q k) = (s.perform m q).2.alone m (k (s.perform m q).1) := rfl

theorem documentText_found {d : Db} {r : DocumentRef} {e : EpisodeRow} (hkind : r.kind = .episode)
    (h : documentEpisode r d = some e) :
    documentText r d = episodeText e (documentSources r.ref r.scope.tenantRef d) := by
  unfold documentText
  rw [hkind]
  unfold documentEpisode at h
  dsimp only
  rw [h]
  rfl

theorem alone_rehydrateEpisode {r : DocumentRef} (hkind : r.kind = .episode) :
    s.alone m (rehydrateEpisode r) = (.ok (memoryIndexDocument r s.memory.db), s) := by
  unfold rehydrateEpisode memoryIndexDocument
  have hperform : s.perform m (.episode r) = (.ok (documentEpisode r s.memory.db), s) := rfl
  rw [alone_ask, hperform]
  cases hfound : documentEpisode r s.memory.db with
  | none =>
    rw [documentText_notFound hkind hfound]
    rfl
  | some e =>
    rw [documentText_found hkind hfound]
    rfl

theorem alone_rehydrate (r : DocumentRef) :
    s.alone m (rehydrate r) = (.ok (memoryIndexDocument r s.memory.db), s) := by
  unfold rehydrate
  cases hkind : r.kind with
  | episode => exact alone_rehydrateEpisode hkind
  | recollection => rfl
  | disposition => rfl

theorem deleteDocuments_one (r : DocumentRef) (index : List Document) :
    deleteDocuments r.scope [⟨some r.kind, r.ref⟩] index =
      index.filter fun other => !(other.kind == r.kind && other.ref == r.ref && other.scope == r.scope) := by
  unfold deleteDocuments
  refine List.filter_congr fun other _ => ?_
  rw [Bool.eq_iff_iff]
  simp only [List.any_cons, List.any_nil, Bool.or_false, Option.some.injEq, Bool.not_eq_true',
    Bool.and_eq_false_iff, decide_eq_false_iff_not, beq_eq_false_iff_ne, ne_eq, eq_comm (a := r.kind),
    eq_comm (a := r.ref)]
  tauto

/-- A document that is applied statement by statement is applied as a whole. -/
theorem alone_apply (o : IndexOperationRow) (token : String) :
    s.alone m (apply (o.leased token)) =
      match applyOperation o s.memory.db s.index with
      | .ok index => (.ok (), { s with index := index })
      | .error fault => (.error fault, s) := by
  unfold apply applyOperation
  have haction : (o.leased token).action = o.action := rfl
  rw [haction]
  cases o.action with
  | upsert =>
    dsimp only
    rw [Program.bind_def, alone_bind]
    have hdocument : (o.leased token).document = o.document := rfl
    rw [hdocument, alone_rehydrate]
    cases hfound : memoryIndexDocument o.document s.memory.db with
    | none => rfl
    | some document =>
      dsimp only
      have hsame : (document.kind != (o.leased token).kind || document.ref != (o.leased token).ref ||
          document.scope != (o.leased token).scope || !validDocument document) =
            (document.kind != o.document.kind || document.ref != o.document.ref ||
              document.scope != o.document.scope || !validDocument document) := rfl
      rw [hsame]
      generalize (document.kind != o.document.kind || document.ref != o.document.ref ||
        document.scope != o.document.scope || !validDocument document) = bad
      cases bad with
      | true => rfl
      | false => rfl
  | delete =>
    dsimp only
    have hdocument : (o.leased token).document = o.document := rfl
    rw [hdocument, ← deleteDocuments_one]
    generalize (!validOperationIdentity o.document) = bad
    cases bad with
    | true => rfl
    | false => rfl

/-! ## One operation -/

/-- The queue after an operation was leased and acknowledged. -/
def workedOff (m : Moment) (row : QueueRow) (lease : IndexLease) (queue : List QueueRow) :
    List QueueRow :=
  updateQueue (fun r => decide (r.operation.operationId = row.operation.operationId))
    (fun r => (r.take m.now lease).acknowledge m.now) queue

section

variable {operations : List IndexOperationRow} {queue : List QueueRow} {row : QueueRow}

/-- The row that was leased is the only one that the lease holds. -/
theorem heldBy_leased (h : QueueLaw operations queue) (hrow : row ∈ queue)
    (hopen : row.unfinished = true) (lease : IndexLease) {r : QueueRow} (hr : r ∈ queue) :
    (if decide (r.operation.operationId = row.operation.operationId) then r.take m.now lease else r).heldBy
        (row.operation.leased lease.leaseToken) =
      decide (r.operation.operationId = row.operation.operationId) := by
  by_cases hid : r.operation.operationId = row.operation.operationId
  · have hsame : r = row := h.unique.eq hr hrow hid
    rw [if_pos (decide_eq_true hid), decide_eq_true hid, heldBy_iff, hsame]
    exact ⟨rfl, ⟨lease, rfl, rfl⟩, hopen⟩
  · rw [if_neg (by simpa using hid), decide_eq_false hid, Bool.eq_false_iff]
    intro hheld
    exact hid (heldBy_iff.mp hheld).1

/-- An acknowledgement right after the lease goes through. -/
theorem acknowledge_leased (h : QueueLaw operations queue) (hrow : row ∈ queue)
    (hopen : row.unfinished = true) (lease : IndexLease) :
    acknowledgeMemoryIndexOperation m.now (row.operation.leased lease.leaseToken)
        (updateQueue (fun r => decide (r.operation.operationId = row.operation.operationId))
          (QueueRow.take m.now lease) queue) =
      (.ok (), workedOff m row lease queue) := by
  have hfilter : (updateQueue (fun r => decide (r.operation.operationId = row.operation.operationId))
      (QueueRow.take m.now lease) queue).filter
        (QueueRow.heldBy (row.operation.leased lease.leaseToken)) = [row.take m.now lease] := by
    unfold updateQueue
    rw [List.filter_map]
    have hcongr : queue.filter (QueueRow.heldBy (row.operation.leased lease.leaseToken) ∘ fun r =>
        if decide (r.operation.operationId = row.operation.operationId) then r.take m.now lease else r) =
          queue.filter fun r => decide (r.operation.operationId = row.operation.operationId) :=
      List.filter_congr fun r hr => heldBy_leased h hrow hopen lease hr
    rw [hcongr, filter_key h.unique hrow, List.map_singleton, if_pos (decide_eq_true rfl)]
  have hmap : updateQueue (QueueRow.heldBy (row.operation.leased lease.leaseToken))
      (QueueRow.acknowledge m.now) (updateQueue (fun r =>
        decide (r.operation.operationId = row.operation.operationId)) (QueueRow.take m.now lease) queue) =
          workedOff m row lease queue := by
    unfold workedOff updateQueue
    rw [List.map_map]
    refine List.map_congr_left fun r hr => ?_
    rw [Function.comp_apply, heldBy_leased h hrow hopen lease hr]
    by_cases hid : r.operation.operationId = row.operation.operationId
    · rw [if_pos (decide_eq_true hid), if_pos (decide_eq_true hid), if_pos (decide_eq_true hid)]
    · rw [if_neg (by simpa using hid), if_neg (by simpa using hid), if_neg (by simpa using hid)]
  unfold acknowledgeMemoryIndexOperation endIndexLease
  rw [hfilter, hmap]
  rfl

theorem mem_workedOff {lease : IndexLease} {r : QueueRow} (h : r ∈ workedOff m row lease queue)
    (hopen : r.unfinished = true) : r ∈ queue := by
  obtain ⟨x, hx, rfl⟩ := mem_updateQueue.mp h
  by_cases hid : decide (x.operation.operationId = row.operation.operationId) = true
  · rw [if_pos hid] at hopen
    cases hopen
  · rw [if_neg hid]
    exact hx

/-- One operation less is unfinished. -/
theorem count_workedOff (h : QueueLaw operations queue) (hrow : row ∈ queue)
    (hopen : row.unfinished = true) (lease : IndexLease) :
    (workedOff m row lease queue).countP QueueRow.unfinished + 1 =
      queue.countP QueueRow.unfinished := by
  obtain ⟨before, after, rfl⟩ := List.append_of_mem hrow
  have hunique := h.unique
  unfold KeysUnique at hunique
  rw [List.map_append, List.map_cons, List.nodup_append, List.nodup_cons] at hunique
  have hother : ∀ rows : List QueueRow, (∀ r ∈ rows, r.operation.operationId ≠ row.operation.operationId) →
      workedOff m row lease rows = rows := by
    intro rows hrows
    unfold workedOff updateQueue
    refine (List.map_congr_left fun r hr => ?_).trans (List.map_id _)
    rw [if_neg (by simpa using hrows r hr), id]
  have hbefore : workedOff m row lease before = before := by
    refine hother before fun r hr heq => ?_
    exact hunique.2.2 _ (List.mem_map_of_mem hr) _ List.mem_cons_self heq
  have hafter : workedOff m row lease after = after := by
    refine hother after fun r hr heq => hunique.2.1.1 ?_
    exact heq ▸ List.mem_map_of_mem (f := fun r : QueueRow => r.operation.operationId) hr
  have hsplit : workedOff m row lease (before ++ row :: after) =
      before ++ ((row.take m.now lease).acknowledge m.now) :: after := by
    have happend : workedOff m row lease (before ++ row :: after) =
        workedOff m row lease before ++ workedOff m row lease [row] ++ workedOff m row lease after := by
      unfold workedOff updateQueue
      simp
    rw [happend, hbefore, hafter]
    unfold workedOff updateQueue
    simp
  rw [hsplit, List.countP_append, List.countP_append, List.countP_cons_of_pos hopen,
    List.countP_cons_of_neg (by exact Bool.false_ne_true)]
  rfl

/-- While an operation is unfinished, the first one of some stream is. -/
theorem exists_first (hopen : ∃ row ∈ queue, row.unfinished = true) :
    ∃ row ∈ queue, row.unfinished = true ∧ ∀ earlier ∈ queue,
      earlier.operation.streamRef = row.operation.streamRef →
        earlier.operation.streamSequence < row.operation.streamSequence →
          earlier.unfinished = false := by
  classical
  have hex : ∃ n, ∃ row ∈ queue, row.unfinished = true ∧ row.operation.streamSequence = n := by
    obtain ⟨row, hrow, hopen⟩ := hopen
    exact ⟨_, row, hrow, hopen, rfl⟩
  obtain ⟨row, hrow, hopen, hseq⟩ := Nat.find_spec hex
  refine ⟨row, hrow, hopen, fun earlier hearlier _ hlt => ?_⟩
  by_contra hno
  have hle := Nat.find_min' hex ⟨earlier, hearlier, by simpa using hno, rfl⟩
  omega

end

/-! ## One call -/

/-- Every unfinished row may be tried now. -/
def Due (m : Moment) (queue : List QueueRow) : Prop :=
  ∀ row ∈ queue, row.unfinished = true →
    row.notBefore ≤ m.now ∧ ∀ lease ∈ row.lease, lease.leaseUntil ≤ m.now

/-- The projector can apply what is unfinished. -/
def Plain (queue : List QueueRow) : Prop :=
  ∀ row ∈ queue, row.unfinished = true → row.operation.document.scope.Plain

theorem exists_next {queue : List QueueRow} (hdue : Due m queue) (hfree : ∀ row, m.locked row = false)
    (hopen : ∃ row ∈ queue, row.unfinished = true) :
    ∃ row, nextOperation m.now m.locked queue = some row := by
  obtain ⟨row, hrow, hopen, hfirst⟩ := exists_first hopen
  obtain ⟨hbefore, hlease⟩ := hdue row hrow hopen
  have hready : row.ready m.now queue = true := ready_iff.mpr ⟨hopen, hbefore, hlease, hfirst⟩
  have hmem : row ∈ ((queue.filter (QueueRow.ready m.now queue)).insertionSort queueOrder).filter
      fun row => !m.locked row := by
    rw [List.mem_filter, List.mem_insertionSort, List.mem_filter, hfree row]
    exact ⟨⟨hrow, hready⟩, rfl⟩
  unfold nextOperation
  cases hhead : (((queue.filter (QueueRow.ready m.now queue)).insertionSort queueOrder).filter
      fun row => !m.locked row).head? with
  | none =>
    rw [List.head?_eq_none_iff.mp hhead] at hmem
    exact absurd hmem List.not_mem_nil
  | some first => exact ⟨first, rfl⟩

/-- One call works off one operation. -/
theorem alone_processOne (hd : store.Printed s.memory.db)
    (h : QueueLaw s.memory.db.indexOperations s.queue) (hclock : 0 < m.clock)
    (hfree : ∀ row, m.locked row = false) (hdue : Due m s.queue) (hplain : Plain s.queue)
    (hopen : ∃ row ∈ s.queue, row.unfinished = true) :
    ∃ row ∈ s.queue, row.unfinished = true ∧ ∃ lease index,
      s.alone m (processOne config) =
        (.processed true none, { s with queue := workedOff m row lease s.queue, index := index }) := by
  obtain ⟨row, hnext⟩ := exists_next hdue hfree hopen
  obtain ⟨hrow, hready, _⟩ := nextOperation_some hnext
  have hrowOpen := (ready_iff.mp hready).1
  have happlied := (applied_iff hd ((h.rows _).mpr ⟨row, hrow, rfl⟩)).mpr (hplain row hrow hrowOpen)
  obtain ⟨index, hindex⟩ := happlied.2 s.index
  refine ⟨row, hrow, hrowOpen, ⟨m.token, m.clock + config.leaseDuration.toNat⟩, index, ?_⟩
  have hlease : leaseMemoryIndexOperation m.now m.token m.locked
      (m.clock + config.leaseDuration.toNat) s.queue =
        (.ok (some (row.operation.leased m.token)),
          updateQueue (fun r => decide (r.operation.operationId = row.operation.operationId))
            (QueueRow.take m.now ⟨m.token, m.clock + config.leaseDuration.toNat⟩) s.queue) := by
    unfold leaseMemoryIndexOperation
    rw [if_neg (by omega), hnext]
  have hacknowledge := acknowledge_leased (m := m) h hrow hrowOpen
    ⟨m.token, m.clock + config.leaseDuration.toNat⟩
  have hwork : s.alone m (processOne config) =
      ({ s with queue := (leaseMemoryIndexOperation m.now m.token m.locked
          (m.clock + config.leaseDuration.toNat) s.queue).2 } : ProjectionSys).alone m
        (workOn config (leaseMemoryIndexOperation m.now m.token m.locked
          (m.clock + config.leaseDuration.toNat) s.queue).1) := rfl
  rw [hwork, hlease]
  show ProjectionSys.alone m _ (Program.bind (apply _) (settle config _)) = _
  rw [alone_bind, alone_apply]
  dsimp only
  rw [hindex]
  dsimp only
  unfold settle
  rw [alone_ask]
  have hperform : ∀ t : ProjectionSys, t.perform m (.acknowledge (row.operation.leased m.token)) =
      ((acknowledgeMemoryIndexOperation m.now (row.operation.leased m.token) t.queue).1, { t with
        queue := (acknowledgeMemoryIndexOperation m.now (row.operation.leased m.token) t.queue).2 }) :=
    fun _ => rfl
  rw [hperform, hacknowledge]
  rfl

/-! ## A run of the system -/

/-- What is asked does not depend on the work that asks it. -/
theorem perform_work (q : ProjectorAsk) (work : Option (Projection Report)) :
    ({ s with work := work } : ProjectionSys).perform m q =
      ((s.perform m q).1, { (s.perform m q).2 with work := work }) := by
  cases q <;> rfl

theorem perform_keeps_work (q : ProjectorAsk) : (s.perform m q).2.work = s.work := by
  cases q <;> rfl

theorem alone_work (p : Projection Report) : (s.alone m p).2.work = s.work := by
  induction p generalizing s with
  | ret report => rfl
  | ask q k ih =>
    rw [alone_ask, ih]
    exact perform_keeps_work q

/-- Answer by answer a piece of work comes to where it comes alone. -/
theorem reach_answers {p : Projection Report}
    (h : ProjectionReach store config { s with work := some p }) :
    ProjectionReach store config { (s.alone m p).2 with work := some (.ret (s.alone m p).1) } := by
  induction p generalizing s with
  | ret report => exact h
  | ask q k ih =>
    rw [alone_ask]
    have hstep : ProjectionSys.step? config { s with work := some (.ask q k) } (.answer m) =
        some { (s.perform m q).2 with work := some (k (s.perform m q).1) } := by
      have hperform := perform_work (s := s) (m := m) q (some (.ask q k))
      unfold ProjectionSys.step?
      dsimp only
      rw [hperform]
    exact ih _ (h.step (fun _ _ hno => by cases hno) hstep)

theorem reach_processOne (h : ProjectionReach store config s) (hidle : s.work = none) {worked : Bool}
    {fault : Option Fault} {s' : ProjectionSys}
    (halone : s.alone m (processOne config) = (.processed worked fault, s')) :
    ProjectionReach store config s' := by
  have hbegun : ProjectionReach store config { s with work := some (processOne config) } := by
    have hstep : s.step? config .process = some { s with work := some (processOne config) } := by
      unfold ProjectionSys.step?
      dsimp only
      rw [hidle]
    exact h.step (fun _ _ hno => by cases hno) hstep
  have hanswered := reach_answers (m := m) hbegun
  have hwork := alone_work (s := s) (m := m) (processOne config)
  rw [halone, hidle] at hwork
  have hwork : s'.work = none := hwork
  rw [halone] at hanswered
  have hfinished : ProjectionReach store config { s' with work := none } := by
    have hstep : ProjectionSys.step? config { s' with work := some (.ret (.processed worked fault)) }
        .finish = some { s' with work := none } := rfl
    exact hanswered.step (fun _ _ hno => by cases hno) hstep
  rw [← hwork] at hfinished
  exact hfinished

/-- The queue is worked off, one operation a call. -/
theorem drain_done (hhash : Collisionless store) (hdigest : PlainDigest store)
    (hclock : 0 < m.clock) (hfree : ∀ row, m.locked row = false) {n : Nat}
    (h : ProjectionReach store config s) (hidle : s.work = none) (hdue : Due m s.queue)
    (hplain : Plain s.queue) (hcount : s.queue.countP QueueRow.unfinished = n) :
    (s.drain config m n).1 = List.replicate n (.processed true none) ∧
    ProjectionReach store config (s.drain config m n).2 ∧
    (s.drain config m n).2.work = none ∧ (s.drain config m n).2.memory = s.memory ∧
    (s.drain config m n).2.whole = s.whole ∧
    ∀ row ∈ (s.drain config m n).2.queue, row.acknowledgedAt.isSome := by
  induction n generalizing s with
  | zero =>
    refine ⟨rfl, h, hidle, rfl, rfl, fun row hrow => QueueRow.finished_iff.mpr ?_⟩
    have hnone := List.countP_eq_zero.mp hcount row hrow
    simpa using hnone
  | succ n ih =>
    have hlaw := projectionLaw_reach hhash h
    have hopen : ∃ row ∈ s.queue, row.unfinished = true := by
      have hpos : 0 < s.queue.countP QueueRow.unfinished := by omega
      exact List.countP_pos_iff.mp hpos
    obtain ⟨row, hrow, hrowOpen, lease, index, halone⟩ :=
      @alone_processOne store config s m (printed_reach hdigest hlaw.memory) hlaw.queue hclock hfree
        hdue hplain hopen
    have hkept : ∀ r ∈ workedOff m row lease s.queue, r.unfinished = true → r ∈ s.queue :=
      fun r hr hopen => mem_workedOff hr hopen
    obtain ⟨hreports, hreach, hwork, hmemory, hwhole, hdone⟩ :=
      ih (reach_processOne h hidle halone) hidle (fun r hr hopen => hdue r (hkept r hr hopen) hopen)
        (fun r hr hopen => hplain r (hkept r hr hopen) hopen) (by
          have hless := count_workedOff (m := m) hlaw.queue hrow hrowOpen lease
          show (workedOff m row lease s.queue).countP QueueRow.unfinished = n
          omega)
    have hdrain : s.drain config m (n + 1) =
        (.processed true none :: (({ s with
            queue := workedOff m row lease s.queue, index := index } : ProjectionSys).drain config m n).1,
          (({ s with
            queue := workedOff m row lease s.queue, index := index } : ProjectionSys).drain config m n).2) := by
      rw [ProjectionSys.drain, halone]
    rw [hdrain, List.replicate_succ]
    exact ⟨congrArg (List.cons _) hreports, hreach, hwork, hmemory, hwhole, hdone⟩

end

/-- From every state that is reached with the projector at rest and no rebuild left unfinished,
once the operations are due, as many calls of `ProcessOne` as there are unfinished operations
leave none and an index that has exactly the documents that the store shows. -/
theorem projector_drains (store : Store) (hhash : Collisionless store) (hdigest : PlainDigest store)
    (config : ProjectorConfig) {s : ProjectionSys} (h : ProjectionReach store config s)
    (hclash : store.Unclashing s.memory.db) (hidle : s.work = none) (hwhole : s.whole = true)
    (m : Moment) (hclock : 0 < m.clock) (hfree : ∀ row, m.locked row = false) (hdue : Due m s.queue)
    (hplain : Plain s.queue) :
    ∃ s', s.drain config m (s.queue.countP QueueRow.unfinished) =
        (List.replicate (s.queue.countP QueueRow.unfinished) (.processed true none), s') ∧
      s'.memory = s.memory ∧ (∀ row ∈ s'.queue, row.acknowledgedAt.isSome) ∧
      ∀ document, document ∈ s'.index ↔
        memoryIndexDocument document.about s.memory.db = some document := by
  obtain ⟨hreports, hreach, _, hmemory, hwhole', hdone⟩ :=
    drain_done hhash hdigest hclock hfree h hidle hdue hplain rfl
  refine ⟨_, Prod.ext hreports rfl, hmemory, hdone, fun document => ?_⟩
  rw [← hmemory]
  refine index_exact hhash hdigest hreach ?_ (hwhole'.trans hwhole) hdone document
  rw [hmemory]
  exact hclash

/-! ## An Episode that is projected -/

theorem sampleMet_run :
    sampleStore.Unclashing sampleMet.db ∧
    (∀ o ∈ sampleMet.db.indexOperations,
      (!containsSpace o.tenantRef && !containsSpace o.agentRef && !containsSpace o.relationshipRef) =
        true) ∧
    (documentRefs sampleMet.db).any (fun r => (memoryIndexDocument r sampleMet.db).isSome) = true := by
  unfold Store.Unclashing
  decide +kernel

theorem sampleMet_unclashing : sampleStore.Unclashing sampleMet.db := sampleMet_run.1

def sampleMoment : Moment := { now := 0, clock := 1, token := "t", locked := fun _ => false }

/-- The queue of the Episode, as it came in. -/
theorem sampleMet_queued :
    ∃ queue, ProjectionReach sampleStore defaultProjectorConfig ⟨sampleMet, queue, [], none, true⟩ ∧
      Due sampleMoment queue ∧ Plain queue := by
  obtain ⟨queue, hreach, hqueue⟩ := reach_calls_alone defaultProjectorConfig sampleMet_reach.1
  refine ⟨queue, hreach, fun row hrow _ => ?_, fun row hrow _ => ?_⟩
  · rw [hqueue row hrow]
    exact ⟨Nat.le_refl 0, fun _ hno => by cases hno⟩
  · have hmem := ((projectionLaw_reach sampleStore_collisionless hreach).queue.rows _).mpr ⟨row, hrow, rfl⟩
    have hplain := sampleMet_run.2.1 _ hmem
    simp only [Bool.and_eq_true, Bool.not_eq_true'] at hplain
    exact ⟨hplain.1.1, hplain.1.2, hplain.2⟩

theorem sampleMet_shown :
    ∃ r document, memoryIndexDocument r sampleMet.db = some document ∧ document.about = r := by
  obtain ⟨r, _, hsome⟩ := List.any_eq_true.mp sampleMet_run.2.2
  obtain ⟨document, hdocument⟩ := Option.isSome_iff_exists.mp hsome
  obtain ⟨text, _, rfl⟩ := Option.map_eq_some_iff.mp hdocument
  exact ⟨r, _, hdocument, rfl⟩

theorem projector_drains_met :
    ∃ s s' : ProjectionSys, ∃ n, s.drain defaultProjectorConfig sampleMoment n =
        (List.replicate n (.processed true none), s') ∧ s.index = [] ∧ s'.index ≠ [] ∧
      ∀ document, document ∈ s'.index ↔
        memoryIndexDocument document.about sampleMet.db = some document := by
  obtain ⟨queue, hreach, hdue, hplain⟩ := sampleMet_queued
  obtain ⟨s', hdrain, _, _, hindex⟩ :=
    projector_drains sampleStore sampleStore_collisionless sampleStore_plain defaultProjectorConfig
      hreach sampleMet_unclashing rfl rfl sampleMoment (by decide) (fun _ => rfl) hdue hplain
  refine ⟨_, s', _, hdrain, rfl, fun hnil => ?_, hindex⟩
  obtain ⟨r, document, hdocument, habout⟩ := sampleMet_shown
  have hmem := (hindex document).mpr (by rw [habout, hdocument])
  rw [hnil] at hmem
  exact absurd hmem List.not_mem_nil

/-- Whatever was interleaved, lost or broken off: once every operation is acknowledged and no
rebuild is under way or was left unfinished, the documents of the index are those that the store
shows, each once.  The acknowledged operations of a stream are always those up to a number, and at
most the next one is leased. -/
theorem index_converges (store : Store) (hhash : Collisionless store) (hdigest : PlainDigest store)
    (config : ProjectorConfig) {s : ProjectionSys} (h : ProjectionReach store config s)
    (hclash : store.Unclashing s.memory.db) :
    (s.whole = true → (∀ row ∈ s.queue, row.acknowledgedAt.isSome) →
      (s.index.map Document.about).Nodup ∧ ∀ document, document ∈ s.index ↔
        memoryIndexDocument document.about s.memory.db = some document) ∧
    ∀ stream, ∃ n, ∀ row ∈ s.queue, row.operation.streamRef = stream →
      (row.acknowledgedAt.isSome ↔ row.operation.streamSequence ≤ n) ∧
      (row.lease.isSome → row.operation.streamSequence = n + 1) :=
  ⟨fun hwhole hdone => ⟨(projectionLaw_reach hhash h).index,
    index_exact hhash hdigest h hclash hwhole hdone⟩, acknowledged_in_order hhash h⟩

theorem index_converges_met :
    ∃ s : ProjectionSys, ProjectionReach sampleStore defaultProjectorConfig s ∧
      s.memory = sampleMet ∧ (s.index.map Document.about).Nodup ∧
      (∀ document, document ∈ s.index ↔
        memoryIndexDocument document.about s.memory.db = some document) ∧
      ∀ stream, ∃ n, ∀ row ∈ s.queue, row.operation.streamRef = stream →
        (row.acknowledgedAt.isSome ↔ row.operation.streamSequence ≤ n) ∧
        (row.lease.isSome → row.operation.streamSequence = n + 1) := by
  obtain ⟨queue, hreach, hdue, hplain⟩ := sampleMet_queued
  obtain ⟨_, hdrained, _, hmemory, hwhole, hdone⟩ :=
    drain_done (m := sampleMoment) sampleStore_collisionless sampleStore_plain (by decide)
      (fun _ => rfl) hreach rfl hdue hplain rfl
  have hclash : sampleStore.Unclashing (ProjectionSys.drain defaultProjectorConfig sampleMoment
      (queue.countP QueueRow.unfinished) ⟨sampleMet, queue, [], none, true⟩).2.memory.db := by
    rw [hmemory]
    exact sampleMet_unclashing
  obtain ⟨hindex, horder⟩ := index_converges sampleStore sampleStore_collisionless
    sampleStore_plain defaultProjectorConfig hdrained hclash
  obtain ⟨hunique, hexact⟩ := hindex hwhole hdone
  exact ⟨_, hdrained, hmemory, hunique, hexact, horder⟩

end ChoraMem
