/-
The identities of operations.

An operation goes by a digest of its stream, its document and its cause.  Where the digests
of a store do not clash, an operation has one cause: the fields name the version or the link,
and these have one owner.  So a cause that a commit brings about gets an operation that was
not there before.
-/
import ChoraMem.World.Commissions

namespace ChoraMem

open Txn Versions

namespace Store

variable (store : Store)

/-- The fields of an operation's identity. -/
def operationIdentity (c : Cause) : List String :=
  ["memory-index-operation.v1", store.causeStream c, c.action.text, c.kind.text, c.documentRef] ++
    c.fields

/-- No two identities that the outbox is made from have one digest. -/
def Unclashing (d : Db) : Prop :=
  ∀ a ∈ causes d, ∀ b ∈ causes d,
    store.shortHash (store.operationIdentity a) = store.shortHash (store.operationIdentity b) →
      store.operationIdentity a = store.operationIdentity b

end Store

theorem IndexAction.text_injective {a b : IndexAction} (h : a.text = b.text) : a = b := by
  cases a <;> cases b <;> first | rfl | exact absurd h (by decide)

theorem DocumentKind.text_injective {a b : DocumentKind} (h : a.text = b.text) : a = b := by
  cases a <;> cases b <;> first | rfl | exact absurd h (by decide)

section

variable {store : Store} {d y : Db} {a b c : Cause}

theorem mem_versionCauses {kind : DocumentKind} {owner : OwnerScope} {root : String} {n : Nat} :
    c ∈ versionCauses kind owner root n ↔
      c = ⟨.upsert, kind, versionRefOf root n, owner, root, [versionRefOf root n]⟩ ∨
      1 < n ∧ c = ⟨.delete, kind, versionRefOf root (n - 1), owner, root, [versionRefOf root n]⟩ := by
  unfold versionCauses
  by_cases hn : n ≤ 1
  · have hlt : ¬1 < n := by omega
    simp [hn, hlt]
  · have hlt : 1 < n := by omega
    simp [hn, hlt]

/-- What is common to the causes of a version. -/
theorem of_versionCauses {kind : DocumentKind} {owner : OwnerScope} {root : String} {n : Nat}
    (h : c ∈ versionCauses kind owner root n) :
    c.kind = kind ∧ c.owner = owner ∧ c.streamIdentity = root ∧ c.fields = [versionRefOf root n] := by
  rcases mem_versionCauses.mp h with rfl | ⟨_, rfl⟩
  · exact ⟨rfl, rfl, rfl, rfl⟩
  · exact ⟨rfl, rfl, rfl, rfl⟩

/-- A version's cause is there no sooner than the version. -/
theorem recollection_of_cause {owner : OwnerScope} {root : String} {n : Nat}
    (h : c ∈ versionCauses .recollection owner root n) (hc : c ∈ causes d) :
    d.recollectionShelf.Has recollectionFormat owner root n := by
  obtain ⟨hkind, howner, _, hfields⟩ := of_versionCauses h
  rcases List.mem_append.mp hc with hc | hc
  · obtain ⟨l, _, _, rfl⟩ := mem_linkCauses.mp hc
    cases hkind
  · rcases mem_memoryCauses_shelves.mp hc with ⟨owner', root', n', hhas, hc⟩ | ⟨_, _, _, _, hc⟩
    · obtain ⟨_, howner', _, hfields'⟩ := of_versionCauses hc
      obtain ⟨rfl, rfl⟩ := versionRefOf_inj (List.singleton_inj.mp (hfields'.symm.trans hfields))
      rw [← howner, howner']
      exact hhas
    · cases hkind.symm.trans (of_versionCauses hc).1

theorem seed_of_cause {owner : OwnerScope} {root : String} {n : Nat}
    (h : c ∈ versionCauses .disposition owner root n) (hc : c ∈ causes d) :
    d.seedShelf.Has seedFormat owner root n := by
  obtain ⟨hkind, howner, _, hfields⟩ := of_versionCauses h
  rcases List.mem_append.mp hc with hc | hc
  · obtain ⟨l, _, _, rfl⟩ := mem_linkCauses.mp hc
    cases hkind
  · rcases mem_memoryCauses_shelves.mp hc with ⟨_, _, _, _, hc⟩ | ⟨owner', root', n', hhas, hc⟩
    · cases hkind.symm.trans (of_versionCauses hc).1
    · obtain ⟨_, howner', _, hfields'⟩ := of_versionCauses hc
      obtain ⟨rfl, rfl⟩ := versionRefOf_inj (List.singleton_inj.mp (hfields'.symm.trans hfields))
      rw [← howner, howner']
      exact hhas

/-- A cause of Memory, with the version it is for. -/
theorem memoryCause_cases (h : c ∈ memoryCauses d) :
    (∃ owner root n, d.recollectionShelf.Has recollectionFormat owner root n ∧
      c ∈ versionCauses .recollection owner root n) ∨
    ∃ owner root n, d.seedShelf.Has seedFormat owner root n ∧
      c ∈ versionCauses .disposition owner root n :=
  mem_memoryCauses_shelves.mp h

/-- Causes of versions with one action and one identity are one. -/
theorem versionCause_eq {kind : DocumentKind} {owner owner' : OwnerScope} {root root' : String}
    {n n' : Nat} (ha : a ∈ versionCauses kind owner root n)
    (hb : b ∈ versionCauses kind owner' root' n') (haction : a.action = b.action)
    (hfields : a.fields = b.fields) (howner : root = root' → owner = owner') : a = b := by
  obtain ⟨_, _, _, hfa⟩ := of_versionCauses ha
  obtain ⟨_, _, _, hfb⟩ := of_versionCauses hb
  obtain ⟨rfl, rfl⟩ := versionRefOf_inj (List.singleton_inj.mp (hfa.symm.trans (hfields.trans hfb)))
  obtain rfl := howner rfl
  rcases mem_versionCauses.mp ha with rfl | ⟨_, rfl⟩ <;>
    rcases mem_versionCauses.mp hb with rfl | ⟨_, rfl⟩ <;>
    first | rfl | cases haction

/-- The identity of an operation tells its cause. -/
theorem cause_eq (hd : WorldLaw store d) (ho : OutboxLaw store d) (hhash : Collisionless store)
    (ha : a ∈ causes d) (hb : b ∈ causes d)
    (h : store.operationIdentity a = store.operationIdentity b) : a = b := by
  simp only [Store.operationIdentity, List.cons_append, List.nil_append, List.cons.injEq,
    true_and] at h
  obtain ⟨_, haction, hkind, hdocument, hfields⟩ := h
  have haction := IndexAction.text_injective haction
  have hkind := DocumentKind.text_injective hkind
  rcases List.mem_append.mp ha with ha | ha <;> rcases List.mem_append.mp hb with hb | hb
  · obtain ⟨l, hl, hne, rfl⟩ := mem_linkCauses.mp ha
    obtain ⟨l', hl', hne', rfl⟩ := mem_linkCauses.mp hb
    have href : l.episodeRef = l'.episodeRef := hdocument
    have hgroup : l.group = l'.group := by
      apply episodeRef_injective hhash
      rw [← (ho.bound l hl hne).1, ← (ho.bound l' hl' hne').1, href]
    have hfields : (typedLink l).fields = (typedLink l').fields := hfields
    show (⟨_, _, l.episodeRef, l.group.scope.owner, l.episodeRef, (typedLink l).fields⟩ : Cause) = _
    rw [href, hgroup, hfields]
    rfl
  · obtain ⟨l, hl, hne, rfl⟩ := mem_linkCauses.mp ha
    rcases memoryCause_cases hb with ⟨_, _, _, _, hb⟩ | ⟨_, _, _, _, hb⟩ <;>
      cases hkind.trans (of_versionCauses hb).1
  · obtain ⟨l, hl, hne, rfl⟩ := mem_linkCauses.mp hb
    rcases memoryCause_cases ha with ⟨_, _, _, _, ha⟩ | ⟨_, _, _, _, ha⟩ <;>
      cases hkind.symm.trans (of_versionCauses ha).1
  · have howners : ∀ {owner owner' : OwnerScope} {root root' : String}, (owner, root) ∈ d.recollectionShelf.roots →
        (owner', root') ∈ d.recollectionShelf.roots → root = root' → owner = owner' :=
      fun h h' heq => (Prod.mk.inj (hd.memory.recollections.roots _ h _ h' heq)).1
    have hseeds : ∀ {owner owner' : OwnerScope} {root root' : String}, (owner, root) ∈ d.seedShelf.roots →
        (owner', root') ∈ d.seedShelf.roots → root = root' → owner = owner' :=
      fun h h' heq => (Prod.mk.inj (hd.memory.seeds.roots _ h _ h' heq)).1
    rcases memoryCause_cases ha with ⟨owner, root, n, hroot, ha⟩ | ⟨owner, root, n, hroot, ha⟩ <;>
      rcases memoryCause_cases hb with ⟨owner', root', n', hroot', hb⟩ | ⟨owner', root', n', hroot', hb⟩
    · exact versionCause_eq ha hb haction hfields (howners hroot.1 hroot'.1)
    · cases (of_versionCauses ha).1.symm.trans (hkind.trans (of_versionCauses hb).1)
    · cases (of_versionCauses ha).1.symm.trans (hkind.trans (of_versionCauses hb).1)
    · exact versionCause_eq ha hb haction hfields (hseeds hroot.1 hroot'.1)

/-- An operation has one cause. -/
theorem cause_of_operationRef (hd : WorldLaw store d) (ho : OutboxLaw store d)
    (hhash : Collisionless store) (hclash : store.Unclashing d) (ha : a ∈ causes d)
    (hb : b ∈ causes d) (h : store.operationRef a = store.operationRef b) : a = b := by
  refine cause_eq hd ho hhash ha hb (hclash a ha b hb ?_)
  exact (String.append_right_inj _).mp h

theorem Store.Unclashing.earlier (h : store.Unclashing y) (hsub : ∀ c ∈ causes d, c ∈ causes y) :
    store.Unclashing d :=
  fun a ha b hb => h a (hsub a ha) b (hsub b hb)

/-- An operation and its cause. -/
theorem operation_of_cause (hd : WorldLaw store d) (ho : OutboxLaw store d)
    (hhash : Collisionless store) (hclash : store.Unclashing d) (hc : c ∈ causes d)
    {o : IndexOperationRow} (hmem : o ∈ d.indexOperations) (hid : o.operationId = store.operationRef c) :
    ∃ n, o = store.operationOf c n := by
  obtain ⟨c', hc', n, rfl⟩ := ho.founded o hmem
  obtain rfl := cause_of_operationRef hd ho hhash hclash hc' hc hid
  exact ⟨n, rfl⟩

/-- A cause that is new has an operation that is new. -/
theorem fresh_operation (ho : OutboxLaw store d) (hy : WorldLaw store y) (hoy : OutboxLaw store y)
    (hhash : Collisionless store) (hclash : store.Unclashing y) (hsub : ∀ c ∈ causes d, c ∈ causes y)
    (hc : c ∈ causes y) (hnew : c ∉ causes d) (hposts : y.Posts (store.operationRef c)) :
    ∃ o ∈ y.indexOperations, o ∉ d.indexOperations ∧ ∃ n, o = store.operationOf c n := by
  obtain ⟨o, hmem, hid⟩ := hposts
  refine ⟨o, hmem, fun hold => hnew ?_, operation_of_cause hy hoy hhash hclash hc hmem hid⟩
  obtain ⟨c', hc', n, rfl⟩ := ho.founded o hold
  rw [← cause_of_operationRef hy hoy hhash hclash (hsub c' hc') hc hid]
  exact hc'

end

end ChoraMem
