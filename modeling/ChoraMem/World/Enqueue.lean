/-
Operations enqueued among other transactions.

A transaction holds the lock of every stream it has put an operation into, and the locks of
the groups whose rows it has written, until it ends.  So what it found of them is still there
when it commits: an operation goes in with the next number of its stream, as if nothing else
were running.
-/
import ChoraMem.World.Outbox

namespace ChoraMem

open Txn

/-! ## What the others leave alone -/

/-- How the others may have changed groups and streams. -/
structure Undisturbed (store : Store) (l : Local Write String) (d d' : Db) : Prop where
  operations : d.indexOperations ⊆ d'.indexOperations
  groups : ∀ g, store.groupLockKey g ∈ l.held → SameGroup g d d'
  streams : ∀ stream, store.projectionStreamLockKey stream ∈ l.held →
    SameRows (fun o => o.streamRef = stream) d.indexOperations d'.indexOperations
  keys : ∀ o, .insertIndexOperation o ∈ l.log →
    SameRows (fun x => x.operationId = o.operationId) d.indexOperations d'.indexOperations

def outboxPact (store : Store) : Pact Db Write String where
  inv := OutboxLaw store
  rel := Undisturbed store
  refl := fun _ d => ⟨fun _ h => h, fun g _ => SameGroup.refl g d, fun _ _ => SameRows.refl _,
    fun _ _ => SameRows.refl _⟩
  trans := fun _ d d' d'' h h' => ⟨fun _ ho => h'.operations (h.operations ho),
    fun g hg => (h.groups g hg).trans (h'.groups g hg),
    fun s hs => (h.streams s hs).trans (h'.streams s hs),
    fun o ho => (h.keys o ho).trans (h'.keys o ho)⟩
  mono := by
    intro l l' d d' hl h
    obtain ⟨more, hmore⟩ := hl.log
    refine ⟨h.operations, fun g hg => h.groups g (hl.held _ hg), fun s hs => h.streams s (hl.held _ hs),
      fun o ho => h.keys o ?_⟩
    rw [hmore]
    exact List.mem_append_left _ ho

/-- The pact of the service: Memory and its outbox. -/
abbrev servicePact (store : Store) : Pact Db Write String := (memoryPact store).both (outboxPact store)

/-- Rows of groups and streams are written under their locks. -/
structure Store.Guarded (store : Store) (l : Local Write String) : Prop where
  groups : ∀ w ∈ l.log, ∀ g, w.group = some g → store.groupLockKey g ∈ l.held
  streams : ∀ o, .insertIndexOperation o ∈ l.log → store.projectionStreamLockKey o.streamRef ∈ l.held

section

variable {store : Store} {d d' : Db} {l : Local Write String}

theorem Store.Guarded.hold (h : store.Guarded l) (key : String) :
    store.Guarded { l with held := key :: l.held } :=
  ⟨fun w hw g hg => List.mem_cons_of_mem _ (h.groups w hw g hg),
    fun o ho => List.mem_cons_of_mem _ (h.streams o ho)⟩

theorem Store.Guarded.write (h : store.Guarded l) {ws : List Write}
    (hgroups : ∀ w ∈ ws, ∀ g, w.group = some g → store.groupLockKey g ∈ l.held)
    (hstreams : ∀ o, .insertIndexOperation o ∈ ws →
      store.projectionStreamLockKey o.streamRef ∈ l.held) :
    store.Guarded { l with log := l.log ++ ws } :=
  ⟨fun w hw => (List.mem_append.mp hw).elim (h.groups w) (hgroups w),
    fun o ho => (List.mem_append.mp ho).elim (h.streams o) (hstreams o)⟩

/-! ## Operations of a log -/

theorem operations_apply {w : Write} (h : ∀ o, w ≠ .insertIndexOperation o) (d : Db) :
    (d.apply w).indexOperations = d.indexOperations := by
  cases w with
  | insertIndexOperation o => exact absurd rfl (h o)
  | _ => rfl

theorem operations_applyAll (d : Db) (ws : List Write) :
    d.indexOperations ⊆ (applyAll d ws).indexOperations := by
  induction ws generalizing d with
  | nil => exact fun _ h => h
  | cons w rest ih =>
    intro o ho
    refine ih (d.apply w) ?_
    cases w with
    | insertIndexOperation r => exact mem_insertRow_of_mem ho
    | _ => exact ho

/-- A log leaves the operations alone that it has none of. -/
theorem sameOperations_applyAll {p : IndexOperationRow → Prop} {ws : List Write}
    (h : ∀ o, .insertIndexOperation o ∈ ws → ¬p o) (d : Db) :
    SameRows p d.indexOperations (applyAll d ws).indexOperations := by
  induction ws generalizing d with
  | nil => exact SameRows.refl _
  | cons w rest ih =>
    have hrest := ih (fun o ho => h o (List.mem_cons_of_mem _ ho)) (d.apply w)
    cases w with
    | insertIndexOperation o =>
      exact SameRows.trans (sameRows_insertRow (h o List.mem_cons_self)).symm hrest
    | _ => exact hrest

/-- The same operations into two streams that agree. -/
theorem SameRows.operations {p : IndexOperationRow → Prop} {ws : List Write}
    (hkeys : ∀ o, .insertIndexOperation o ∈ ws →
      SameRows (fun x => x.operationId = o.operationId) d.indexOperations d'.indexOperations)
    (h : SameRows p d.indexOperations d'.indexOperations) :
    SameRows p (applyAll d ws).indexOperations (applyAll d' ws).indexOperations := by
  induction ws generalizing d d' with
  | nil => exact h
  | cons w rest ih =>
    cases w with
    | insertIndexOperation o =>
      have hfree : (∀ y ∈ d.indexOperations, y.operationId ≠ o.operationId) ↔
          ∀ y ∈ d'.indexOperations, y.operationId ≠ o.operationId := by
        have hk := hkeys o List.mem_cons_self
        exact ⟨fun hno y hy hid => hno y ((hk y hid).mpr hy) hid,
          fun hno y hy hid => hno y ((hk y hid).mp hy) hid⟩
      have hinsert : ∀ {q : IndexOperationRow → Prop},
          SameRows q d.indexOperations d'.indexOperations →
          SameRows q (d.apply (.insertIndexOperation o)).indexOperations
            (d'.apply (.insertIndexOperation o)).indexOperations := by
        intro q hq x hx
        show x ∈ insertRow _ _ _ ↔ x ∈ insertRow _ _ _
        rw [mem_insertRow, mem_insertRow, hq x hx, hfree]
      exact ih (fun o' ho' => hinsert (hkeys o' (List.mem_cons_of_mem _ ho'))) (hinsert h)
    | _ => exact ih (fun o' ho' => hkeys o' (List.mem_cons_of_mem _ ho')) h

/-- The keys of a table after an insert. -/
theorem key_insertRow {ρ κ : Type} [DecidableEq κ] {key : ρ → κ} {r : ρ} {t : List ρ} {k : κ} :
    (∃ x ∈ insertRow key r t, key x = k) ↔ (∃ x ∈ t, key x = k) ∨ key r = k := by
  constructor
  · intro h
    obtain ⟨x, hx, hk⟩ := h
    rcases mem_insertRow.mp hx with hx | ⟨rfl, _⟩
    · exact Or.inl ⟨x, hx, hk⟩
    · exact Or.inr hk
  · intro h
    by_cases hold : ∃ x ∈ t, key x = k
    · obtain ⟨x, hx, hk⟩ := hold
      exact ⟨x, mem_insertRow_of_mem hx, hk⟩
    · have hr := h.resolve_left hold
      exact ⟨r, mem_insertRow.mpr (Or.inr ⟨rfl, fun y hy hyr => hold ⟨y, hy, hyr.trans hr⟩⟩), hr⟩

theorem posts_applyAll {operationId : String} {ws : List Write} :
    (applyAll d ws).Posts operationId ↔
      d.Posts operationId ∨ ∃ o, .insertIndexOperation o ∈ ws ∧ o.operationId = operationId := by
  induction ws generalizing d with
  | nil => simp
  | cons w rest ih =>
    rw [applyAll_cons, ih]
    by_cases hw : ∃ r, w = .insertIndexOperation r
    · obtain ⟨r, rfl⟩ := hw
      have hone : (Journal.apply d (Write.insertIndexOperation r)).Posts operationId ↔
          d.Posts operationId ∨ r.operationId = operationId := key_insertRow
      rw [hone, or_assoc]
      simp only [List.mem_cons, Write.insertIndexOperation.injEq, or_and_right, exists_or,
        exists_eq_left]
    · have hone : (Journal.apply d w).Posts operationId ↔ d.Posts operationId := by
        unfold Db.Posts
        rw [show (Journal.apply d w).indexOperations = d.indexOperations from
          operations_apply (fun r hr => hw ⟨r, hr⟩) d]
      have hhead : ∀ o, Write.insertIndexOperation o ≠ w := fun o ho => hw ⟨o, ho.symm⟩
      rw [hone]
      simp only [List.mem_cons, hhead, false_or]

/-- What its own locks and keys keep from the others. -/
theorem undisturbed_of_apart {l' : Local Write String} (hapart : Apart (D := Db) l l')
    (h : store.Guarded l) : Undisturbed store l' d (applyAll d l.log) := by
  refine ⟨operations_applyAll d l.log, fun g hg => ?_, fun stream hs => ?_, fun o ho => ?_⟩
  · refine (sameGroup_applyAll d fun w hw hwg => ?_).symm
    exact hapart.locks _ (h.groups w hw g hwg) hg
  · refine sameOperations_applyAll (fun o ho heq => ?_) d
    have hlock := h.streams o ho
    rw [show o.streamRef = stream from heq] at hlock
    exact hapart.locks _ hlock hs
  · refine sameOperations_applyAll (fun o' ho' heq => ?_) d
    have hkey : ∀ {x : IndexOperationRow} {m : Local Write String}, .insertIndexOperation x ∈ m.log →
        (⟨"memory_index_operations_pkey", [x.operationId]⟩ : RowKey) ∈ logKeys Db m.log :=
      fun hx => List.mem_flatMap.mpr ⟨_, hx, List.mem_singleton.mpr rfl⟩
    have hmine := hkey ho'
    rw [show o'.operationId = o.operationId from heq] at hmine
    exact hapart.keys _ hmine (hkey ho)

/-! ## Enqueueing -/

/-- What an enqueue does to the outbox. -/
inductive Enqueued (store : Store) (c : Cause) (x : Db) : Db → Prop
  | known (h : x.Posts (store.operationRef c)) : Enqueued store c x x
  | new : Enqueued store c x (x.apply (.insertIndexOperation
      (store.operationOf c (Store.nextSequence (store.causeStream c) x))))

theorem Enqueued.posts {c : Cause} {x y : Db} (h : Enqueued store c x y) :
    y.Posts (store.operationRef c) := by
  cases h with
  | known h => exact h
  | new => exact key_insertRow.mpr (Or.inr rfl)

theorem Enqueued.of_mem {c : Cause} {x y : Db} (h : Enqueued store c x y) {o : IndexOperationRow}
    (ho : o ∈ y.indexOperations) : o ∈ x.indexOperations ∨ ∃ n, o = store.operationOf c n := by
  cases h with
  | known => exact Or.inl ho
  | new => exact (mem_insertRow.mp ho).imp_right fun h => ⟨_, h.1⟩

theorem Enqueued.numbered {c : Cause} {x y : Db} (h : Enqueued store c x y)
    (hx : Numbered x.indexOperations) : Numbered y.indexOperations := by
  cases h with
  | known => exact hx
  | new => exact hx.insert rfl

/-- Nothing but the outbox is touched. -/
theorem Enqueued.outbox {c : Cause} {x y : Db} (h : Enqueued store c x y) :
    ∃ operations, y = { x with indexOperations := operations } ∧
      x.indexOperations ⊆ operations := by
  cases h with
  | known => exact ⟨x.indexOperations, rfl, fun _ h => h⟩
  | new => exact ⟨_, rfl, fun o ho => mem_insertRow_of_mem ho⟩

/-- An enqueue does what it would do alone on the store its transaction commits in. -/
theorem ends_enqueueCause {c : Cause} {e : Db} (hg : store.Guarded l) :
    (servicePact store).Ends d (store.enqueueCause c)
      (fun _ l' _ => Enqueued store c (applyAll d l.log) (applyAll d l'.log) ∧ store.Guarded l')
      l e := by
  unfold Store.enqueueCause Store.enqueueMemoryIndexOperation
  split
  · exact trivial
  split
  · exact trivial
  refine Pact.Ends.acquire fun e₁ _ _ => ?_
  refine Pact.Ends.select fun e₂ hb₂ => ?_
  dsimp only
  have hheld := hg.hold (store.projectionStreamLockKey (store.causeStream c))
  split
  · rename_i hexist
    obtain ⟨o, ho, hid⟩ := List.any_eq_true.mp hexist
    have hposts : (applyAll e₂ l.log).Posts (store.operationRef c) := ⟨o, ho, of_decide_eq_true hid⟩
    refine ⟨.known (posts_applyAll.mpr ?_), hheld⟩
    exact (posts_applyAll.mp hposts).imp_left fun h => h.mono hb₂.before.2.operations
  · refine Pact.Ends.select fun e₃ hb₃ => ?_
    -- The lock of the stream keeps its next number.
    have hnext : Store.nextSequence (store.causeStream c) (applyAll e₃ l.log) =
        Store.nextSequence (store.causeStream c) (applyAll d l.log) := by
      refine nextSequence_congr (SameRows.operations (fun o ho => ?_) ?_)
      · exact hb₃.before.2.keys o ho
      · exact hb₃.before.2.streams _ List.mem_cons_self
    intro e₄ _ _
    dsimp only
    split
    · exact trivial
    · refine ⟨?_, hheld.write (fun w hw g hgroup => ?_) fun o ho => ?_⟩
      · rw [applyAll_append]
        have hnew : Enqueued store c (applyAll d l.log) _ := .new
        rw [← hnext] at hnew
        exact hnew
      · rw [List.mem_singleton.mp hw] at hgroup
        cases hgroup
      · have ho := Write.insertIndexOperation.inj (List.mem_singleton.mp ho)
        rw [ho]
        exact List.mem_cons_self

end

end ChoraMem
