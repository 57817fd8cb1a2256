/-
The outbox in reached states.

Every call of the service commits under two pacts at once: what it says of Memory it says
next to what it put into the outbox.  So the law of the outbox holds in every state that
calls reach, in any interleaving.
-/
import ChoraMem.World.Trail

namespace ChoraMem

open Txn

section

variable {store : Store} {d e : Db} {l : Local Write String}

/-- What a call that is about to commit has done, in Memory and in the outbox. -/
structure Store.Serves (store : Store) (d : Db) (a : MemoryReply) (l : Local Write String) : Prop where
  done : store.Done d a l
  commissions : store.Commissions d l

theorem ends_commission (hhash : Collisionless store) (c : MemoryCommand) (hd : WorldLaw store d)
    (ho : OutboxLaw store d) :
    (servicePact store).Ends d (store.perform c) (fun _ l _ => store.Commissions d l) ⟨[], []⟩ e := by
  cases c with
  | intake c => exact Pact.Ends.bind (Pact.Ends.conseq (ends_intake c ho hhash) fun _ _ _ h => h)
  | lease env request =>
    exact Pact.Ends.bind (Pact.Ends.conseq (ends_quiet ho (emits_leaseConsolidationJob env request
      (fun _ => trivial) fun _ => trivial)) fun _ _ _ h => h)
  | complete env jobRef leaseToken =>
    exact Pact.Ends.bind (Pact.Ends.conseq (ends_quiet ho (emits_endLease jobRef leaseToken _
      fun _ => trivial)) fun _ _ _ h => h)
  | retry env jobRef leaseToken notBefore =>
    exact Pact.Ends.bind (Pact.Ends.conseq (ends_quiet ho (emits_endLease jobRef leaseToken _
      fun _ => trivial)) fun _ _ _ h => h)
  | select index request =>
    exact Pact.Ends.bind (Pact.Ends.conseq (ends_quiet ho (emits_selectMemory (fun _ => trivial)
      (fun _ => trivial) (fun _ => trivial) index request)) fun _ _ _ h => h)
  | consolidate index env window worker => exact ends_commissionConsolidation hd ho hhash

theorem starts_service (hhash : Collisionless store) (p : Tx MemoryReply) (hp : store.Calls p)
    (d d₀ : Db) (hd : (servicePact store).inv d) (h₀ : (servicePact store).inv d₀)
    (hrel : (servicePact store).rel ⟨[], []⟩ d₀ d) :
    (servicePact store).Ends d p (fun a l _ => store.Serves d a l) ⟨[], []⟩ d₀ := by
  obtain ⟨c, rfl⟩ := hp
  have hmemory := ends_perform hhash c d d₀ hd.1 h₀.1 hrel.1
  exact Pact.Ends.conseq (Pact.Ends.and (hmemory.implies (Pact.implies_left _ _))
    (ends_commission hhash c hd.1 hd.2)) fun _ _ _ h => ⟨h.1, h.2⟩

/-- What a commit leaves of the store it commits in. -/
structure Advances (store : Store) (d y : Db) : Prop where
  law : WorldLaw store y
  gains : Gains d y
  grown : Grown d y
  links : KeepsLinks store d y
  contexts : KeepsContexts d y
  operations : d.indexOperations ⊆ y.indexOperations

theorem Store.Done.advances {a : MemoryReply} (hd : WorldLaw store d) (h : store.Done d a l) :
    Advances store d (applyAll d l.log) := by
  have hcommits := commits_done hd h
  have hrel := hcommits.2 ⟨[], []⟩
    ⟨fun _ _ hk => absurd hk List.not_mem_nil, fun _ _ hq => absurd hq List.not_mem_nil⟩
  exact ⟨hcommits.1, hrel.gains, hrel.grown, hrel.links, hrel.contexts, operations_applyAll d l.log⟩

theorem Store.Serves.commits {a : MemoryReply} (hd : (servicePact store).inv d)
    (h : store.Serves d a l) : (servicePact store).Commits l d := by
  have hadvances := h.done.advances hd.1
  refine Pact.Commits.both (commits_done hd.1 h.done) ⟨?_, fun l' hapart => ?_⟩
  · exact h.commissions.posting.law hd.2 hadvances.gains hadvances.grown hadvances.links
      hadvances.operations
  · exact undisturbed_of_apart hapart h.commissions.guarded

variable {s : MemorySys} {C : MemoryReply → Db → Prop}

theorem service_sound (hhash : Collisionless store)
    {cond : MemorySys → MemoryAct → Prop} (h : ReachIf .readCommitted store.Calls cond ⟨{}, []⟩ s) :
    (servicePact store).Sound (fun a l d => store.Serves d a l) s :=
  Pact.soundness (starts_service hhash) (fun _ _ _ hd hserves => hserves.commits hd)
    (Pact.Sound.init ⟨worldLaw_empty store, outboxLaw_empty store⟩) h

/-- The law of the outbox holds in every reached state. -/
theorem outboxLaw_reach (hhash : Collisionless store)
    {cond : MemorySys → MemoryAct → Prop} (h : ReachIf .readCommitted store.Calls cond ⟨{}, []⟩ s) :
    OutboxLaw store s.db :=
  (service_sound hhash h).inv.2

end

end ChoraMem
