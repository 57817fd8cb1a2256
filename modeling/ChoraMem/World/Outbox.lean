/-
The outbox of the index, as transactions leave it.

A document changes for a cause: a link is bound to an Episode, or a version is made.  The
identity of an operation is a digest of its cause, so the outbox can be read back: every
operation has its cause in the store, and every cause of a version has its operation.
The operations of one stream are numbered in the order their transactions commit in, since
each takes its number under the lock of the stream.
-/
import ChoraMem.Intake.Groups
import ChoraMem.Txn.Both
import ChoraMem.World.Law
import ChoraMem.World.Refine

namespace ChoraMem

open Txn

/-! ## Causes -/

/-- What an operation is enqueued for. -/
structure Cause where
  action : IndexAction
  kind : DocumentKind
  documentRef : String
  owner : OwnerScope
  streamIdentity : String
  fields : List String
  deriving DecidableEq, Repr

/-- A link that is bound to its Episode. -/
def typedLink (l : LinkRow) : Cause :=
  { action := .upsert, kind := .episode, documentRef := l.episodeRef, owner := l.group.scope.owner,
    streamIdentity := l.episodeRef, fields := ["typed-link", l.role.text, l.sourceEventRef] }

/-- The `n`-th version of a root, which takes the place of the one before it. -/
def versionCauses (kind : DocumentKind) (owner : OwnerScope) (root : String) (n : Nat) :
    List Cause :=
  { action := .upsert, kind := kind, documentRef := versionRefOf root n, owner := owner,
    streamIdentity := root, fields := [versionRefOf root n] } ::
  if n ≤ 1 then []
  else [{ action := .delete, kind := kind, documentRef := versionRefOf root (n - 1), owner := owner,
          streamIdentity := root, fields := [versionRefOf root n] }]

def linkCauses (d : Db) : List Cause := (d.links.filter (·.episodeRef != "")).map typedLink

def memoryCauses (d : Db) : List Cause :=
  (d.recollections.flatMap fun root =>
    (d.recollectionVersions.filter (·.recollectionRef = root.ref)).flatMap fun v =>
      versionCauses .recollection root.owner root.ref v.number) ++
  (d.seeds.flatMap fun root => (d.seedVersions.filter (·.seedRef = root.ref)).flatMap fun v =>
    versionCauses .disposition root.owner root.ref v.number)

/-- All causes that the rows of a store tell of. -/
def causes (d : Db) : List Cause := linkCauses d ++ memoryCauses d

namespace Store

variable (store : Store)

def causeStream (c : Cause) : String := store.streamRef c.kind c.owner c.streamIdentity

/-- The identity of a cause's operation. -/
def operationRef (c : Cause) : String :=
  "memory_index_operation_" ++ store.shortHash
    (["memory-index-operation.v1", store.causeStream c, c.action.text, c.kind.text, c.documentRef] ++
      c.fields)

def operationOf (c : Cause) (sequence : Nat) : IndexOperationRow :=
  { operationId := store.operationRef c, streamRef := store.causeStream c,
    streamSequence := sequence, action := c.action, documentKind := c.kind,
    documentRef := c.documentRef, tenantRef := c.owner.tenantRef, agentRef := c.owner.agentRef,
    relationshipRef := c.owner.relationshipRef }

def enqueueCause (c : Cause) : Tx Unit :=
  store.enqueueMemoryIndexOperation c.action c.kind c.documentRef c.owner c.streamIdentity c.fields

end Store

theorem mem_linkCauses {c : Cause} {d : Db} :
    c ∈ linkCauses d ↔ ∃ l ∈ d.links, l.episodeRef ≠ "" ∧ typedLink l = c := by
  simp only [linkCauses, List.mem_map, List.mem_filter, bne_iff_ne, and_assoc]

theorem mem_memoryCauses {c : Cause} {d : Db} :
    c ∈ memoryCauses d ↔
      (∃ root ∈ d.recollections, ∃ v ∈ d.recollectionVersions, v.recollectionRef = root.ref ∧
        c ∈ versionCauses .recollection root.owner root.ref v.number) ∨
      ∃ root ∈ d.seeds, ∃ v ∈ d.seedVersions, v.seedRef = root.ref ∧
        c ∈ versionCauses .disposition root.owner root.ref v.number := by
  simp only [memoryCauses, List.mem_append, List.mem_flatMap, List.mem_filter, decide_eq_true_eq,
    and_assoc]

/-- Versions are never forgotten, so neither are their causes. -/
theorem memoryCauses_later {d d' : Db} (h : Grown d d') {c : Cause} (hc : c ∈ memoryCauses d) :
    c ∈ memoryCauses d' := by
  rw [mem_memoryCauses] at hc ⊢
  rcases hc with ⟨root, hroot, v, hv, href, hc⟩ | ⟨root, hroot, v, hv, href, hc⟩
  · left
    have hroot' := Db.mem_recollectionShelf_roots.mp (h.recollections.roots ⟨root, hroot, rfl⟩)
    rcases h.recollections.versions v hv with hv' | ⟨_, hv'⟩
    · exact ⟨root, hroot', v, hv', href, hc⟩
    · exact ⟨root, hroot', _, hv', href, hc⟩
  · right
    have hroot' := Db.mem_seedShelf_roots.mp (h.seeds.roots ⟨root, hroot, rfl⟩)
    rcases h.seeds.versions v hv with hv' | ⟨_, hv'⟩
    · exact ⟨root, hroot', v, hv', href, hc⟩
    · exact ⟨root, hroot', _, hv', href, hc⟩

/-! ## The law -/

/-- An operation with this identity was enqueued. -/
def Db.Posts (d : Db) (operationId : String) : Prop :=
  ∃ o ∈ d.indexOperations, o.operationId = operationId

/-- The operations of each stream are numbered from one, without gap or repetition. -/
structure Numbered (operations : List IndexOperationRow) : Prop where
  counted : ∀ o ∈ operations, 1 ≤ o.streamSequence
  gapless : ∀ o ∈ operations, ∀ n, 1 ≤ n → n ≤ o.streamSequence →
    ∃ o' ∈ operations, o'.streamRef = o.streamRef ∧ o'.streamSequence = n
  unique : ∀ o ∈ operations, ∀ o' ∈ operations, o.streamRef = o'.streamRef →
    o.streamSequence = o'.streamSequence → o = o'

structure OutboxLaw (store : Store) (d : Db) : Prop where
  founded : ∀ o ∈ d.indexOperations, ∃ c ∈ causes d, ∃ n, o = store.operationOf c n
  posted : ∀ c ∈ memoryCauses d, d.Posts (store.operationRef c)
  /-- An Episode was announced with the link that made it. -/
  episodes : ∀ e ∈ d.episodes, ∃ l ∈ d.links, l.group = e.group ∧
    l.episodeRef = store.episodeRef e.group ∧ d.Posts (store.operationRef (typedLink l))
  bound : ∀ l ∈ d.links, l.episodeRef ≠ "" →
    l.episodeRef = store.episodeRef l.group ∧ Materialized l.group d
  sourced : ∀ l ∈ d.links, ∃ s ∈ d.sources, s.key = (l.group.scope, l.sourceEventRef)
  numbered : Numbered d.indexOperations

theorem numbered_nil : Numbered [] where
  counted := fun _ h => absurd h List.not_mem_nil
  gapless := fun _ h => absurd h List.not_mem_nil
  unique := fun _ h => absurd h List.not_mem_nil

theorem outboxLaw_empty (store : Store) : OutboxLaw store {} where
  founded := fun _ h => absurd h List.not_mem_nil
  posted := fun _ h => absurd h List.not_mem_nil
  episodes := fun _ h => absurd h List.not_mem_nil
  bound := fun _ h => absurd h List.not_mem_nil
  sourced := fun _ h => absurd h List.not_mem_nil
  numbered := numbered_nil

section

variable {store : Store} {d d' : Db}

theorem linkCauses_later (h : OutboxLaw store d) (hlinks : KeepsLinks store d d') {c : Cause}
    (hc : c ∈ linkCauses d) : c ∈ linkCauses d' := by
  obtain ⟨l, hl, hne, rfl⟩ := mem_linkCauses.mp hc
  exact mem_linkCauses.mpr ⟨l, hlinks l hl (h.bound l hl hne).1, hne, rfl⟩

theorem causes_later (h : OutboxLaw store d) (hlinks : KeepsLinks store d d') (hgrown : Grown d d')
    {c : Cause} (hc : c ∈ causes d) : c ∈ causes d' := by
  rcases List.mem_append.mp hc with hc | hc
  · exact List.mem_append_left _ (linkCauses_later h hlinks hc)
  · exact List.mem_append_right _ (memoryCauses_later hgrown hc)

theorem Db.Posts.mono {operationId : String} (h : d.Posts operationId)
    (hsub : d.indexOperations ⊆ d'.indexOperations) : d'.Posts operationId := by
  obtain ⟨o, ho, hid⟩ := h
  exact ⟨o, hsub ho, hid⟩

/-! ## Numbers -/

theorem foldl_max_le {ns : List Nat} {b m : Nat} (hb : b ≤ m) (hns : ∀ n ∈ ns, n ≤ m) :
    ns.foldl max b ≤ m := by
  induction ns generalizing b with
  | nil => exact hb
  | cons n rest ih =>
    exact ih (max_le hb (hns n List.mem_cons_self)) fun k hk => hns k (List.mem_cons_of_mem _ hk)

theorem foldl_max_cases (ns : List Nat) (b : Nat) : ns.foldl max b = b ∨ ns.foldl max b ∈ ns := by
  induction ns generalizing b with
  | nil => exact Or.inl rfl
  | cons n rest ih =>
    rw [List.foldl_cons]
    rcases ih (max b n) with heq | hmem
    · rw [heq]
      rcases le_total b n with hle | hle
      · rw [max_eq_right hle]
        exact Or.inr List.mem_cons_self
      · rw [max_eq_left hle]
        exact Or.inl rfl
    · exact Or.inr (List.mem_cons_of_mem _ hmem)

/-- The next number of a stream is read off its operations alone. -/
theorem nextSequence_congr {stream : String}
    (h : SameRows (fun o => o.streamRef = stream) d.indexOperations d'.indexOperations) :
    Store.nextSequence stream d = Store.nextSequence stream d' := by
  have hle : ∀ {x y : Db},
      (∀ o, o.streamRef = stream → o ∈ x.indexOperations → o ∈ y.indexOperations) →
      Store.nextSequence stream x ≤ Store.nextSequence stream y := by
    intro x y hsub
    unfold Store.nextSequence
    refine Nat.succ_le_succ (foldl_max_le (Nat.zero_le _) fun n hn => ?_)
    obtain ⟨o, ho, rfl⟩ := List.mem_map.mp hn
    obtain ⟨hmem, hstream⟩ := List.mem_filter.mp ho
    have hstream : o.streamRef = stream := of_decide_eq_true hstream
    refine le_foldl_max 0 (Or.inr (List.mem_map_of_mem (List.mem_filter.mpr ⟨?_, ?_⟩)))
    · exact hsub o hstream hmem
    · exact decide_eq_true hstream
  exact Nat.le_antisymm (hle fun o hs ho => (h o hs).mp ho) (hle fun o hs ho => (h o hs).mpr ho)

theorem nextSequence_pos (stream : String) (d : Db) : 1 ≤ Store.nextSequence stream d := by
  unfold Store.nextSequence
  omega

/-- Every number below the next one is given. -/
theorem Numbered.below_next {stream : String} (h : Numbered d.indexOperations) {n : Nat}
    (hpos : 1 ≤ n) (hlt : n < Store.nextSequence stream d) :
    ∃ o ∈ d.indexOperations, o.streamRef = stream ∧ o.streamSequence = n := by
  unfold Store.nextSequence at hlt
  rcases foldl_max_cases ((d.indexOperations.filter (·.streamRef = stream)).map (·.streamSequence)) 0 with
    heq | hmem
  · rw [heq] at hlt
    omega
  · obtain ⟨o, ho, hseq⟩ := List.mem_map.mp hmem
    obtain ⟨homem, hstream⟩ := List.mem_filter.mp ho
    have hstream : o.streamRef = stream := of_decide_eq_true hstream
    obtain ⟨o', ho', hs', hn'⟩ := h.gapless o homem n hpos (by omega)
    exact ⟨o', ho', hs'.trans hstream, hn'⟩

/-- An operation with the next number goes in behind the others of its stream. -/
theorem Numbered.insert (h : Numbered d.indexOperations) {o : IndexOperationRow}
    (hseq : o.streamSequence = Store.nextSequence o.streamRef d) :
    Numbered (d.apply (.insertIndexOperation o)).indexOperations := by
  have hcases : ∀ x ∈ (d.apply (.insertIndexOperation o)).indexOperations,
      x ∈ d.indexOperations ∨ x = o := fun x hx => (mem_insertRow.mp hx).imp_right And.left
  have hkept : ∀ x ∈ d.indexOperations, x ∈ (d.apply (.insertIndexOperation o)).indexOperations :=
    fun x hx => mem_insertRow_of_mem hx
  constructor
  · intro x hx
    rcases hcases x hx with hx | rfl
    · exact h.counted x hx
    · rw [hseq]
      exact nextSequence_pos _ _
  · intro x hx n hpos hle
    rcases hcases x hx with hold | rfl
    · obtain ⟨y, hy, hrest⟩ := h.gapless x hold n hpos hle
      exact ⟨y, hkept y hy, hrest⟩
    · by_cases hlast : n = x.streamSequence
      · exact ⟨x, hx, rfl, hlast.symm⟩
      · obtain ⟨y, hy, hrest⟩ : ∃ y ∈ d.indexOperations, y.streamRef = x.streamRef ∧
            y.streamSequence = n := h.below_next hpos (by omega)
        exact ⟨y, hkept y hy, hrest⟩
  · intro x hx y hy hstream hnumber
    rcases hcases x hx with hxd | rfl
    · rcases hcases y hy with hyd | rfl
      · exact h.unique x hxd y hyd hstream hnumber
      · have hlt := lt_nextSequence hxd
        rw [hstream] at hlt
        omega
    · rcases hcases y hy with hyd | rfl
      · have hlt := lt_nextSequence hyd
        rw [← hstream] at hlt
        omega
      · rfl

end

end ChoraMem
