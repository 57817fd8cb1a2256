/-
The queue in reached states.

The rows of the queue are the operations of the outbox, each once.  An operation is leased
when those before it in its stream are acknowledged, and an acknowledgement is never taken
back, so what is acknowledged of a stream is always a first part of it.
-/
import ChoraMem.Projection.System
import ChoraMem.World.Published

namespace ChoraMem

open Txn

/-! ## Commits -/

/-- No two links and no two operations of the store have one key. -/
structure Db.Keyed (d : Db) : Prop where
  links : KeysUnique LinkRow.key d.links
  operations : KeysUnique IndexOperationRow.operationId d.indexOperations

section

variable {store : Store} {d : Db}

theorem keyed_empty : ({} : Db).Keyed := ⟨List.nodup_nil, List.nodup_nil⟩

theorem Db.Keyed.apply (h : d.Keyed) (w : Write) : (d.apply w).Keyed := by
  cases w with
  | insertLink r => exact ⟨h.links.insertRow r, h.operations⟩
  | updateLink r => exact ⟨h.links.updateRow r, h.operations⟩
  | insertIndexOperation r => exact ⟨h.links, h.operations.insertRow r⟩
  | _ => exact ⟨h.links, h.operations⟩

theorem Db.Keyed.applyAll (h : d.Keyed) (ws : List Write) : (applyAll d ws).Keyed := by
  induction ws generalizing d with
  | nil => exact h
  | cons w rest ih => exact ih (h.apply w)

/-- A step of the calls changes nothing that is committed, or it is a commit. -/
theorem commit_cases (hhash : Collisionless store) {s s' : MemorySys} (h : MemoryReach store s)
    (hkeyed : s.db.Keyed) {act : MemoryAct} (hstep : s.step? .readCommitted act = some s') :
    s'.db = s.db ∨ Commit store s.db s'.db ∧ s'.db.Keyed := by
  cases act with
  | start p =>
    obtain rfl := Option.some.inj hstep
    exact Or.inl rfl
  | step i =>
    simp only [Sys.step?] at hstep
    split at hstep
    · split at hstep
      · obtain rfl := Option.some.inj hstep
        exact Or.inl rfl
      · cases hstep
    · cases hstep
  | commit i =>
    simp only [Sys.step?] at hstep
    split at hstep
    · rename_i a l view hi
      obtain rfl := Option.some.inj hstep
      have hsound := service_sound hhash h
      have hserves := hsound.ready hi
      have hadvances := hserves.done.advances hsound.inv.1
      exact Or.inr ⟨{
        posting := hserves.commissions.posting
        advances := hadvances
        before := hsound.inv.1
        outboxBefore := hsound.inv.2
        outbox := hserves.commissions.posting.law hsound.inv.2 hadvances.gains hadvances.grown
          hadvances.links hadvances.operations
        linksBefore := hkeyed.links
        linksAfter := (hkeyed.applyAll l.log).links }, hkeyed.applyAll l.log⟩
    · cases hstep
  | abort i =>
    simp only [Sys.step?] at hstep
    split at hstep
    · obtain rfl := Option.some.inj hstep
      exact Or.inl rfl
    · cases hstep

end

/-! ## Rows -/

/-- The rows are the operations, and operations of a stream are finished in their order. -/
structure QueueLaw (operations : List IndexOperationRow) (queue : List QueueRow) : Prop where
  rows : ∀ o, o ∈ operations ↔ ∃ row ∈ queue, row.operation = o
  unique : KeysUnique (fun row => row.operation.operationId) queue
  ordered : ∀ row ∈ queue, row.unfinished = false ∨ row.lease.isSome →
    ∀ earlier ∈ queue, earlier.operation.streamRef = row.operation.streamRef →
      earlier.operation.streamSequence < row.operation.streamSequence → earlier.unfinished = false
  released : ∀ row ∈ queue, row.unfinished = false → row.lease = none

section

variable {operations operations' : List IndexOperationRow} {queue : List QueueRow}
variable {now : IndexOperationRow → Nat}

theorem mem_receive {row : QueueRow} :
    row ∈ receive now operations queue ↔ row ∈ queue ∨
      ∃ o ∈ operations, (∀ r ∈ queue, r.operation ≠ o) ∧ row = o.queued (now o) := by
  simp only [receive, List.mem_append, List.mem_map, List.mem_filter, List.all_eq_true, bne_iff_ne]
  constructor
  · rintro (h | ⟨o, ⟨ho, hnew⟩, rfl⟩)
    · exact Or.inl h
    · exact Or.inr ⟨o, ho, hnew, rfl⟩
  · rintro (h | ⟨o, ho, hnew, rfl⟩)
    · exact Or.inl h
    · exact Or.inr ⟨o, ⟨ho, hnew⟩, rfl⟩

/-- New operations of a stream have numbers behind those that were there. -/
theorem Numbered.new_behind (h : Numbered operations) (h' : Numbered operations')
    (hsub : operations ⊆ operations') {o o' : IndexOperationRow} (ho : o ∈ operations)
    (ho' : o' ∈ operations') (hnew : o' ∉ operations) (hstream : o'.streamRef = o.streamRef) :
    o.streamSequence < o'.streamSequence := by
  by_contra hle
  obtain ⟨x, hx, hxs, hxn⟩ := h.gapless o ho o'.streamSequence (h'.counted o' ho') (by omega)
  have heq : x = o' := h'.unique x (hsub hx) o' ho' (hxs.trans hstream.symm) hxn
  rw [heq] at hx
  exact hnew hx

theorem QueueLaw.receive (h : QueueLaw operations queue) (hsub : operations ⊆ operations')
    (hkeys : KeysUnique IndexOperationRow.operationId operations') (hn : Numbered operations)
    (hn' : Numbered operations') :
    QueueLaw operations' (receive now operations' queue) where
  rows := by
    intro o
    constructor
    · intro ho
      by_cases hold : ∃ row ∈ queue, row.operation = o
      · obtain ⟨row, hrow, heq⟩ := hold
        exact ⟨row, mem_receive.mpr (Or.inl hrow), heq⟩
      · exact ⟨_, mem_receive.mpr (Or.inr ⟨o, ho, fun r hr heq => hold ⟨r, hr, heq⟩, rfl⟩), rfl⟩
    · intro hex
      obtain ⟨row, hrow, rfl⟩ := hex
      rcases mem_receive.mp hrow with hrow | ⟨o, ho, _, rfl⟩
      · exact hsub ((h.rows _).mpr ⟨row, hrow, rfl⟩)
      · exact ho
  unique := by
    unfold KeysUnique ChoraMem.receive
    rw [List.map_append, List.map_map, List.nodup_append]
    refine ⟨h.unique, ?_, fun a ha b hb hab => ?_⟩
    · exact (List.filter_sublist.map IndexOperationRow.operationId).nodup hkeys
    · obtain ⟨row, hrow, rfl⟩ := List.mem_map.mp ha
      obtain ⟨o, ho, rfl⟩ := List.mem_map.mp hb
      obtain ⟨ho, hnew⟩ := List.mem_filter.mp ho
      have heq : row.operation = o :=
        hkeys.eq (hsub ((h.rows _).mpr ⟨row, hrow, rfl⟩)) ho hab
      have hne := List.all_eq_true.mp hnew row hrow
      rw [heq] at hne
      simp at hne
  ordered := by
    intro row hrow hdone earlier hearlier hstream hlt
    rcases mem_receive.mp hrow with hrow | ⟨o, _, _, rfl⟩
    · rcases mem_receive.mp hearlier with hearlier | ⟨o, ho, hnew, rfl⟩
      · exact h.ordered row hrow hdone earlier hearlier hstream hlt
      · have hmem := (h.rows row.operation).mpr ⟨row, hrow, rfl⟩
        have hbehind := hn.new_behind hn' hsub hmem ho (fun hold => by
          obtain ⟨r, hr, heq⟩ := (h.rows o).mp hold
          exact hnew r hr heq) hstream
        have hlt : o.streamSequence < row.operation.streamSequence := hlt
        omega
    · rcases hdone with hdone | hdone <;> cases hdone
  released := by
    intro row hrow hdone
    rcases mem_receive.mp hrow with hrow | ⟨o, _, _, rfl⟩
    · exact h.released row hrow hdone
    · cases hdone

/-- Nothing was committed, so nothing comes in. -/
theorem receive_same (h : ∀ o ∈ operations, ∃ row ∈ queue, row.operation = o) :
    receive now operations queue = queue := by
  unfold receive
  rw [List.filter_eq_nil_iff.mpr, List.map_nil, List.append_nil]
  intro o ho hall
  obtain ⟨row, hrow, heq⟩ := h o ho
  have hne := List.all_eq_true.mp hall row hrow
  rw [heq] at hne
  simp at hne

/-! ## Leases -/

variable {p : QueueRow → Bool} {f : QueueRow → QueueRow}

theorem mem_updateQueue {row : QueueRow} :
    row ∈ updateQueue p f queue ↔ ∃ r ∈ queue, row = if p r then f r else r := by
  simp only [updateQueue, List.mem_map, eq_comm]

/-- The operation of a row is never changed. -/
def KeepsOperation (f : QueueRow → QueueRow) : Prop := ∀ r, (f r).operation = r.operation

theorem KeepsOperation.update (h : KeepsOperation f) (r : QueueRow) :
    (if p r then f r else r).operation = r.operation := by
  by_cases hp : p r = true
  · rw [if_pos hp, h r]
  · rw [if_neg hp]

theorem keeps_take (now : Nat) (lease : IndexLease) : KeepsOperation (QueueRow.take now lease) :=
  fun _ => rfl

theorem keeps_acknowledge (now : Nat) : KeepsOperation (QueueRow.acknowledge now) := fun _ => rfl

theorem keeps_retry (now notBefore : Nat) (reason : String) :
    KeepsOperation (QueueRow.retry now notBefore reason) := fun _ => rfl

/-- An update leaves the law when it finishes nothing out of order. -/
theorem QueueLaw.update (h : QueueLaw operations queue) (hf : KeepsOperation f)
    (hkeep : ∀ r ∈ queue, p r = true → r.unfinished = false → (f r).unfinished = false)
    (hnext : ∀ r ∈ queue, p r = true → ∀ earlier ∈ queue,
      earlier.operation.streamRef = r.operation.streamRef →
        earlier.operation.streamSequence < r.operation.streamSequence → earlier.unfinished = false)
    (hrelease : ∀ r ∈ queue, p r = true → (f r).unfinished = false → (f r).lease = none) :
    QueueLaw operations (updateQueue p f queue) where
  rows := by
    intro o
    rw [h.rows o]
    constructor
    · intro hex
      obtain ⟨row, hrow, rfl⟩ := hex
      exact ⟨_, mem_updateQueue.mpr ⟨row, hrow, rfl⟩, hf.update row⟩
    · intro hex
      obtain ⟨row, hrow, rfl⟩ := hex
      obtain ⟨r, hr, rfl⟩ := mem_updateQueue.mp hrow
      exact ⟨r, hr, (hf.update r).symm⟩
  unique := by
    have hmap : (updateQueue p f queue).map (fun row => row.operation.operationId) =
        queue.map fun row => row.operation.operationId := by
      unfold updateQueue
      rw [List.map_map]
      exact List.map_congr_left fun r _ => congrArg IndexOperationRow.operationId (hf.update r)
    unfold KeysUnique
    rw [hmap]
    exact h.unique
  ordered := by
    intro row hrow hdone earlier hearlier hstream hlt
    obtain ⟨r, hr, rfl⟩ := mem_updateQueue.mp hrow
    obtain ⟨e, he, rfl⟩ := mem_updateQueue.mp hearlier
    rw [hf.update r, hf.update e] at hstream hlt
    have hfinished : e.unfinished = false := by
      by_cases hp : p r = true
      · exact hnext r hr hp e he hstream hlt
      · rw [if_neg hp] at hdone
        exact h.ordered r hr hdone e he hstream hlt
    by_cases hp : p e = true
    · rw [if_pos hp]
      exact hkeep e he hp hfinished
    · rw [if_neg hp]
      exact hfinished
  released := by
    intro row hrow hdone
    obtain ⟨r, hr, rfl⟩ := mem_updateQueue.mp hrow
    by_cases hp : p r = true
    · rw [if_pos hp] at hdone ⊢
      exact hrelease r hr hp hdone
    · rw [if_neg hp] at hdone ⊢
      exact h.released r hr hdone

/-- What a lease finds. -/
theorem nextOperation_some {now : Nat} {locked : QueueRow → Bool} {row : QueueRow}
    (h : nextOperation now locked queue = some row) :
    row ∈ queue ∧ row.ready now queue = true ∧ locked row = false := by
  have hmem := List.mem_of_head? h
  rw [List.mem_filter, List.mem_insertionSort, List.mem_filter] at hmem
  exact ⟨hmem.1.1, hmem.1.2, by simpa using hmem.2⟩

theorem ready_iff {now : Nat} {row : QueueRow} :
    row.ready now queue = true ↔ row.unfinished = true ∧ row.notBefore ≤ now ∧
      (∀ lease ∈ row.lease, lease.leaseUntil ≤ now) ∧
      ∀ earlier ∈ queue, earlier.operation.streamRef = row.operation.streamRef →
        earlier.operation.streamSequence < row.operation.streamSequence →
          earlier.unfinished = false := by
  simp only [QueueRow.ready, Bool.and_eq_true, decide_eq_true_eq, Option.all_eq_true,
    Bool.not_eq_true', List.any_eq_false, not_and, Bool.not_eq_true, and_assoc]
  constructor
  · intro h
    exact ⟨h.1, h.2.1, h.2.2.1, fun e he hs hlt => h.2.2.2 e he hs hlt⟩
  · intro h
    exact ⟨h.1, h.2.1, h.2.2.1, fun e he hs hlt => h.2.2.2 e he hs hlt⟩

theorem lease_cases (now : Nat) (token : String) (locked : QueueRow → Bool) (leaseUntil : Nat)
    (queue : List QueueRow) :
    (∃ row ∈ queue, row.ready now queue = true ∧
      leaseMemoryIndexOperation now token locked leaseUntil queue =
        (.ok (some (row.operation.leased token)),
          updateQueue (fun r => decide (r.operation.operationId = row.operation.operationId))
            (QueueRow.take now ⟨token, leaseUntil⟩) queue)) ∨
    ((leaseMemoryIndexOperation now token locked leaseUntil queue).2 = queue ∧
      ∀ operation, (leaseMemoryIndexOperation now token locked leaseUntil queue).1 ≠
        .ok (some operation)) := by
  unfold leaseMemoryIndexOperation
  by_cases hzero : leaseUntil = 0
  · right
    rw [if_pos hzero]
    exact ⟨rfl, fun operation hno => by cases hno⟩
  · rw [if_neg hzero]
    cases hnext : nextOperation now locked queue with
    | none => exact Or.inr ⟨rfl, fun operation hno => by cases hno⟩
    | some row =>
      obtain ⟨hmem, hready, _⟩ := nextOperation_some hnext
      exact Or.inl ⟨row, hmem, hready, rfl⟩

theorem QueueLaw.lease (h : QueueLaw operations queue) (now : Nat) (token : String)
    (locked : QueueRow → Bool) (leaseUntil : Nat) :
    QueueLaw operations (leaseMemoryIndexOperation now token locked leaseUntil queue).2 := by
  rcases lease_cases now token locked leaseUntil queue with ⟨row, hrow, hready, heq⟩ | ⟨heq, _⟩
  · rw [heq]
    obtain ⟨hopen, _, _, hfirst⟩ := ready_iff.mp hready
    have hsame : ∀ r ∈ queue, decide (r.operation.operationId = row.operation.operationId) = true →
        r = row := fun r hr hp => h.unique.eq hr hrow (of_decide_eq_true hp)
    refine h.update (keeps_take now _) (fun r _ _ hdone => hdone) (fun r hr hp => ?_) fun r hr hp hdone => ?_
    · rw [hsame r hr hp]
      exact hfirst
    · rw [hsame r hr hp] at hdone
      have hdone : row.unfinished = false := hdone
      rw [hopen] at hdone
      cases hdone
  · rw [heq]
    exact h

theorem heldBy_iff {operation : IndexOperation} {row : QueueRow} :
    row.heldBy operation = true ↔ row.operation.operationId = operation.id ∧
      (∃ lease ∈ row.lease, lease.leaseToken = operation.leaseToken) ∧ row.unfinished = true := by
  simp only [QueueRow.heldBy, Bool.and_eq_true, decide_eq_true_eq, Option.any_eq_true, and_assoc]
  exact Iff.rfl

/-- The end of a lease, whether it finishes the row or gives it back. -/
theorem QueueLaw.endLease (h : QueueLaw operations queue) (operation : IndexOperation)
    (hf : KeepsOperation f) (hrelease : ∀ r, (f r).lease = none) :
    QueueLaw operations (endIndexLease operation f queue).2 := by
  refine h.update hf (fun r _ hp hdone => ?_) (fun r hr hp => ?_) fun r _ _ _ => hrelease r
  · rw [(heldBy_iff.mp hp).2.2] at hdone
    cases hdone
  · obtain ⟨_, ⟨lease, hlease, _⟩, _⟩ := heldBy_iff.mp hp
    exact h.ordered r hr (Or.inr (by rw [Option.mem_def.mp hlease]; rfl))

end

/-! ## Reached states -/

/-- The document that an entry of the index is. -/
def Document.about (document : Document) : DocumentRef :=
  ⟨document.kind, document.ref, document.scope⟩

theorem same_document {a b : Document} :
    (a.kind == b.kind && a.ref == b.ref && a.scope == b.scope) = decide (a.about = b.about) := by
  simp only [Document.about, DocumentRef.mk.injEq, Bool.decide_and, Bool.and_assoc]
  rfl

theorem keysUnique_upsert {index : List Document} (h : KeysUnique Document.about index)
    (document : Document) : KeysUnique Document.about (upsertDocument index document) := by
  refine keysUnique_append ((List.filter_sublist.map Document.about).nodup h) fun hex => ?_
  obtain ⟨other, hother, hsame⟩ := hex
  have hdiff := (List.mem_filter.mp hother).2
  rw [same_document, hsame] at hdiff
  simp at hdiff

theorem keysUnique_upserts {index : List Document} (h : KeysUnique Document.about index)
    (documents : List Document) :
    KeysUnique Document.about (documents.foldl upsertDocument index) := by
  induction documents generalizing index with
  | nil => exact h
  | cons document rest ih => exact ih (keysUnique_upsert h document)

/-- What holds of the store, the queue and the index together. -/
structure ProjectionLaw (store : Store) (s : ProjectionSys) : Prop where
  memory : MemoryReach store s.memory
  keyed : s.memory.db.Keyed
  queue : QueueLaw s.memory.db.indexOperations s.queue
  index : KeysUnique Document.about s.index

section

variable {store : Store} {config : ProjectorConfig} {s s' : ProjectionSys}

theorem ProjectionLaw.perform (h : ProjectionLaw store s) (m : Moment) (q : ProjectorAsk) :
    ProjectionLaw store (s.perform m q).2 := by
  cases q with
  | lease leaseUntil =>
    exact ⟨h.memory, h.keyed, h.queue.lease m.now m.token m.locked leaseUntil, h.index⟩
  | acknowledge operation =>
    exact ⟨h.memory, h.keyed, h.queue.endLease operation (keeps_acknowledge m.now) fun _ => rfl, h.index⟩
  | retry operation notBefore reason =>
    refine ⟨h.memory, h.keyed, ?_, h.index⟩
    show QueueLaw _ (retryMemoryIndexOperation m.now operation notBefore reason s.queue).2
    unfold retryMemoryIndexOperation
    by_cases hzero : notBefore = 0
    · rw [if_pos hzero]
      exact h.queue
    · rw [if_neg hzero]
      exact h.queue.endLease operation (keeps_retry m.now notBefore reason) fun _ => rfl
  | upsert documents => exact ⟨h.memory, h.keyed, h.queue, keysUnique_upserts h.index documents⟩
  | delete scope candidates =>
    exact ⟨h.memory, h.keyed, h.queue, (List.filter_sublist.map Document.about).nodup h.index⟩
  | reset => exact ⟨h.memory, h.keyed, h.queue, List.nodup_nil⟩
  | _ => exact ⟨h.memory, h.keyed, h.queue, h.index⟩

theorem ProjectionLaw.step (hhash : Collisionless store) (h : ProjectionLaw store s)
    {act : ProjectionAct} (hstart : ∀ p now, act = .memory (.start p) now → store.Calls p)
    (hstep : s.step? config act = some s') : ProjectionLaw store s' := by
  cases ProjectionSys.step_moves hstep with
  | memory act now memory hmemory =>
    have hstarts : ∀ p, act = .start p → store.Calls p := fun p hp => hstart p now (by rw [hp])
    have hreach : MemoryReach store memory := ReachIf.step h.memory hstarts trivial hmemory
    rcases commit_cases hhash h.memory h.keyed hmemory with hsame | ⟨hcommit, hkeyed⟩
    · have hqueue : receive now memory.db.indexOperations s.queue = s.queue := by
        refine receive_same fun o ho => ?_
        rw [hsame] at ho
        exact (h.queue.rows o).mp ho
      refine ⟨hreach, hsame ▸ h.keyed, ?_, h.index⟩
      show QueueLaw memory.db.indexOperations (receive now memory.db.indexOperations s.queue)
      rw [hqueue, hsame]
      exact h.queue
    · exact ⟨hreach, hkeyed, h.queue.receive hcommit.advances.operations hkeyed.operations
        hcommit.outboxBefore.numbered hcommit.outbox.numbered, h.index⟩
  | answer m q k =>
    have hnext := h.perform m q
    exact ⟨hnext.memory, hnext.keyed, hnext.queue, hnext.index⟩
  | lose m fault q k x =>
    have hnext := h.perform m q
    exact ⟨hnext.memory, hnext.keyed, hnext.queue, hnext.index⟩
  | _ => exact ⟨h.memory, h.keyed, h.queue, h.index⟩

theorem projectionLaw_reach (hhash : Collisionless store) (h : ProjectionReach store config s) :
    ProjectionLaw store s := by
  induction h with
  | start =>
    refine ⟨.start, keyed_empty, ⟨fun o => ?_, List.nodup_nil, ?_, ?_⟩, List.nodup_nil⟩
    · exact ⟨fun ho => absurd ho List.not_mem_nil, fun hex => by
        obtain ⟨_, hrow, _⟩ := hex
        exact absurd hrow List.not_mem_nil⟩
    · exact fun _ hrow => absurd hrow List.not_mem_nil
    · exact fun _ hrow => absurd hrow List.not_mem_nil
  | step _ hstart hstep ih => exact ih.step hhash hstart hstep

theorem QueueRow.finished_iff {row : QueueRow} : row.acknowledgedAt.isSome ↔ row.unfinished = false := by
  rw [QueueRow.unfinished]
  cases row.acknowledgedAt <;> simp

/-- The finished rows of a stream, when none or a first one is not. -/
theorem QueueLaw.prefix {operations : List IndexOperationRow} {queue : List QueueRow}
    (h : QueueLaw operations queue) (hn : Numbered operations) {first : QueueRow}
    (hmem : first ∈ queue) (hopen : first.unfinished = true)
    (hfirst : ∀ row ∈ queue, row.operation.streamRef = first.operation.streamRef →
      row.unfinished = true → first.operation.streamSequence ≤ row.operation.streamSequence)
    {row : QueueRow} (hrow : row ∈ queue)
    (hstream : row.operation.streamRef = first.operation.streamRef) :
    (row.unfinished = false ↔ row.operation.streamSequence < first.operation.streamSequence) ∧
      (row.lease.isSome → row.operation.streamSequence = first.operation.streamSequence) := by
  have hfinished : row.unfinished = false →
      row.operation.streamSequence < first.operation.streamSequence := by
    intro hdone
    by_contra hle
    rcases Nat.lt_or_eq_of_le (Nat.le_of_not_lt hle) with hlt | heq
    · have hno := h.ordered row hrow (Or.inl hdone) first hmem hstream.symm hlt
      rw [hopen] at hno
      cases hno
    · have hsame : first.operation = row.operation :=
        hn.unique _ ((h.rows _).mpr ⟨first, hmem, rfl⟩) _ ((h.rows _).mpr ⟨row, hrow, rfl⟩)
          hstream.symm heq
      have hrows : first = row :=
        h.unique.eq hmem hrow (congrArg IndexOperationRow.operationId hsame)
      rw [← hrows, hopen] at hdone
      cases hdone
  refine ⟨⟨hfinished, fun hlt => ?_⟩, fun hlease => ?_⟩
  · by_contra hno
    have hle := hfirst row hrow hstream (by simpa using hno)
    omega
  · have hopenRow : row.unfinished = true := by
      by_contra hno
      rw [h.released row hrow (by simpa using hno)] at hlease
      cases hlease
    refine Nat.le_antisymm ?_ (hfirst row hrow hstream hopenRow)
    by_contra hlt
    have hno := h.ordered row hrow (Or.inr hlease) first hmem hstream.symm (by omega)
    rw [hopen] at hno
    cases hno

/-- The calls alone, at one time: no operation was taken from the queue. -/
theorem reach_calls_alone (config : ProjectorConfig) {memory : MemorySys} (h : MemoryReach store memory) :
    ∃ queue, ProjectionReach store config ⟨memory, queue, [], none, true⟩ ∧
      ∀ row ∈ queue, row = row.operation.queued 0 := by
  induction h with
  | start => exact ⟨[], .start, fun _ hrow => absurd hrow List.not_mem_nil⟩
  | @step memory memory' act _ hstart _ hstep ih =>
    obtain ⟨queue, hreach, hqueue⟩ := ih
    refine ⟨receive (fun _ => 0) memory'.db.indexOperations queue, ?_, fun row hrow => ?_⟩
    · have hstarts : ∀ p now, ProjectionAct.memory act (fun _ => 0) = .memory (.start p) now →
          store.Calls p :=
        fun p now hp => hstart p (ProjectionAct.memory.inj hp).1
      refine hreach.step hstarts ?_
      show (memory.step? .readCommitted act).map _ = _
      rw [hstep]
      rfl
    · rcases mem_receive.mp hrow with hrow | ⟨o, _, _, rfl⟩
      · exact hqueue row hrow
      · rfl

/-- In every reached state the acknowledged operations of a stream are those up to a number, and
at most the next one is leased. -/
theorem acknowledged_in_order (hhash : Collisionless store) (h : ProjectionReach store config s)
    (stream : String) :
    ∃ n, ∀ row ∈ s.queue, row.operation.streamRef = stream →
      (row.acknowledgedAt.isSome ↔ row.operation.streamSequence ≤ n) ∧
      (row.lease.isSome → row.operation.streamSequence = n + 1) := by
  have hlaw := projectionLaw_reach hhash h
  have hnumbered := (outboxLaw_reach hhash hlaw.memory).numbered
  by_cases hopen : ∃ m, ∃ row ∈ s.queue, row.operation.streamRef = stream ∧ row.unfinished = true ∧
      row.operation.streamSequence = m
  · classical
    obtain ⟨first, hmem, hfirst, hunfinished, hseq⟩ := Nat.find_spec hopen
    have hcounted := hnumbered.counted _ ((hlaw.queue.rows _).mpr ⟨first, hmem, rfl⟩)
    refine ⟨first.operation.streamSequence - 1, fun row hrow hstream => ?_⟩
    obtain ⟨hdone, hlease⟩ := hlaw.queue.prefix hnumbered hmem hunfinished
      (fun r hr hs hu => by
        rw [hseq]
        exact Nat.find_min' hopen ⟨r, hr, hs.trans hfirst, hu, rfl⟩)
      hrow (hstream.trans hfirst.symm)
    rw [QueueRow.finished_iff, hdone]
    exact ⟨by omega, fun h => by have := hlease h; omega⟩
  · refine ⟨Store.nextSequence stream s.memory.db - 1, fun row hrow hstream => ?_⟩
    have hdone : row.unfinished = false := by
      by_contra hno
      exact hopen ⟨_, row, hrow, hstream, by simpa using hno, rfl⟩
    have hlt := lt_nextSequence ((hlaw.queue.rows _).mpr ⟨row, hrow, rfl⟩)
    rw [hstream] at hlt
    rw [QueueRow.finished_iff, hlaw.queue.released row hrow hdone]
    exact ⟨⟨fun _ => by omega, fun _ => hdone⟩, fun hno => by cases hno⟩

end

end ChoraMem
