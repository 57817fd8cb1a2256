/-
The calls of the service, in any interleaving.

A state is the committed store and the calls that are running.  Each call is a
transaction, and `ConsolidateWindow` two: the first only reads one state of the store,
so here it is the first statement of the second, and the worker answers between them.
Any number of processors may hold a proposal for one job, and a call may be repeated.
-/
import ChoraMem.Txn.Turns
import ChoraMem.World.Selects

namespace ChoraMem

open Txn

/-- What the worker answers; none when it fails. -/
abbrev Worker := WorkerRequest → Option String

/-- A call, with what it takes from outside. -/
inductive MemoryCommand
  | intake (c : IntakeCommand)
  | lease (env : Ambient) (request : LeaseRequest)
  | complete (env : Ambient) (jobRef leaseToken : String)
  | retry (env : Ambient) (jobRef leaseToken : String) (notBefore : Nat)
  | select (index : Option MemoryIndex) (request : SelectRequest)
  | consolidate (index : Option MemoryIndex) (env : Ambient) (window : Window) (worker : Worker)

/-- A reply, with what the call was asked. -/
inductive MemoryReply
  | intake (reply : IntakeReply)
  | leased (job : Option Job)
  | acknowledged
  | selected (request : SelectRequest) (context : MemoryContext)
  | frozen (window : Window) (receipt : Receipt)
  | consolidated (env : Ambient) (p : Proposal) (text : String) (receipt : Receipt)
  deriving DecidableEq, Repr

/-- The text to parse; the worker is not asked where the request cannot be put. -/
def Proposal.answer (p : Proposal) (worker : Worker) : Option String :=
  if p.asks then worker p.request else some ""

namespace Store

variable (store : Store)

def consolidateWindow (index : Option MemoryIndex) (env : Ambient) (window : Window)
    (worker : Worker) : Tx MemoryReply := do
  let snapshot ← selectOrFail (store.snapshotWindow index window)
  match snapshot with
  | .frozen receipt => .ret (.frozen window receipt)
  | .proposed p =>
    match p.answer worker with
    | none => .fail ⟨.plain, "process consolidation window", ""⟩
    | some text => do
      let receipt ← store.commitWindow env p text
      .ret (.consolidated env p text receipt)

/-- The transaction of a call. -/
def perform : MemoryCommand → Tx MemoryReply
  | .intake c => do
    let reply ← store.intake c
    .ret (.intake reply)
  | .lease env request => do
    let job ← store.leaseConsolidationJob env request
    .ret (.leased job)
  | .complete env jobRef leaseToken => do
    completeConsolidationJob env jobRef leaseToken
    .ret .acknowledged
  | .retry env jobRef leaseToken notBefore => do
    retryConsolidationJob env jobRef leaseToken notBefore
    .ret .acknowledged
  | .select index request => do
    let context ← store.selectMemory index request
    .ret (.selected request context)
  | .consolidate index env window worker => store.consolidateWindow index env window worker

/-- The transactions of the service. -/
def Calls (p : Tx MemoryReply) : Prop := ∃ c, p = store.perform c

end Store

/-- Several calls in any interleaving, from an empty store. -/
abbrev MemorySys := Sys Db Write String Fault MemoryReply

abbrev MemoryAct := Act Db Write String Fault MemoryReply

/-- What is said of every reply, of what its call has written, and of the store it commits in. -/
def AtCommits (C : MemoryReply → Local Write String → Db → Prop) (s : MemorySys)
    (act : MemoryAct) : Prop :=
  ∀ i a l v, act = .commit i → s.threads[i]? = some (.running (.ret a) l v) → C a l s.db

/-- The states that calls reach whose commits meet a condition. -/
abbrev MemoryReachIf (store : Store) (C : MemoryReply → Local Write String → Db → Prop)
    (s : MemorySys) : Prop :=
  ReachIf .readCommitted store.Calls (AtCommits C) ⟨{}, []⟩ s

/-- The states that calls reach. -/
abbrev MemoryReach (store : Store) (s : MemorySys) : Prop :=
  Reach .readCommitted store.Calls ⟨{}, []⟩ s

/-! ## What a call has done when it commits -/

/-- A state of the store before this one. -/
structure Earlier (store : Store) (x d : Db) : Prop where
  law : WorldLaw store x
  gains : Gains x d
  grown : Grown x d
  links : KeepsLinks store x d
  contexts : KeepsContexts x d

/-- What a call that is about to commit in `d` has done. -/
def Store.Done (store : Store) (d : Db) : MemoryReply → Local Write String → Prop
  | .selected request context, l => Selected store request d context l.log
  | .frozen window receipt, l => l.log = [] ∧
      ∃ index x, Earlier store x d ∧ store.snapshotWindow index window x = .ok (.frozen receipt)
  | .consolidated env p text receipt, l =>
      (∃ index window x, Earlier store x d ∧
        store.snapshotWindow index window x = .ok (.proposed p)) ∧
      Concluded store env p text d receipt (applyAll d l.log) ∧
      (applyAll d l.log = d ∨ ∀ o, p.locks o → store.Locked l.held o)
  | _, l => ∀ w ∈ l.log, store.Plain w

section

variable {store : Store} {d : Db}

theorem ends_consolidateWindow {index : Option MemoryIndex} {env : Ambient} {window : Window}
    {worker : Worker} (hhash : Collisionless store) (hd : WorldLaw store d) (e : Db) :
    (memoryPact store).Ends d (store.consolidateWindow index env window worker)
      (fun a l _ => store.Done d a l) ⟨[], []⟩ e := by
  unfold Store.consolidateWindow
  refine ends_selectOrFail fun x hb snapshot hsnapshot => ?_
  have hx : Earlier store x d := ⟨hb.inv, hb.before.gains, hb.before.grown, hb.before.links,
    hb.before.contexts⟩
  dsimp only at hsnapshot
  rw [applyAll_nil] at hsnapshot
  cases snapshot with
  | frozen receipt => exact ⟨rfl, index, x, hx, hsnapshot⟩
  | proposed p =>
    have hp : Proposed store p x := (snapshot_proposed hsnapshot).2
    dsimp only
    split
    · exact trivial
    rename_i text _
    refine Pact.Ends.bind (Pact.Ends.conseq (ends_commitWindow hd hhash hx.law hp rfl)
      fun receipt l' _ h => ?_)
    exact ⟨⟨index, window, x, hx, hsnapshot⟩, h.1, h.2⟩

theorem ends_perform (hhash : Collisionless store) (c : MemoryCommand) (d d₀ : Db)
    (hd : (memoryPact store).inv d) (_h₀ : (memoryPact store).inv d₀)
    (_hrel : (memoryPact store).rel ⟨[], []⟩ d₀ d) :
    (memoryPact store).Ends d (store.perform c) (fun a l _ => store.Done d a l) ⟨[], []⟩ d₀ := by
  have hplain : ∀ {α : Type} {p : Tx α}, p.Emits store.Tidy →
      (memoryPact store).Ends d p (fun _ l _ => ∀ w ∈ l.log, store.Plain w) ⟨[], []⟩ d₀ :=
    fun hp => Pact.Ends.logged (hp.mono fun _ => plain_of_tidy) fun w hw => absurd hw List.not_mem_nil
  cases c with
  | intake c =>
    exact Pact.Ends.bind (Pact.Ends.conseq (hplain (emits_intake c)) fun _ _ _ h => h)
  | lease env request =>
    exact Pact.Ends.bind (Pact.Ends.conseq (hplain (emits_leaseConsolidationJob env request
      (fun _ => trivial) fun _ => trivial)) fun _ _ _ h => h)
  | complete env jobRef leaseToken =>
    exact Pact.Ends.bind (Pact.Ends.conseq (hplain (emits_endLease jobRef leaseToken _ fun _ => trivial))
      fun _ _ _ h => h)
  | retry env jobRef leaseToken notBefore =>
    exact Pact.Ends.bind (Pact.Ends.conseq (hplain (emits_endLease jobRef leaseToken _ fun _ => trivial))
      fun _ _ _ h => h)
  | select index request =>
    exact Pact.Ends.bind (Pact.Ends.conseq (ends_selectMemory rfl) fun _ _ _ h => h)
  | consolidate index env window worker => exact ends_consolidateWindow hhash hd d₀

/-- Every call may commit. -/
theorem commits_done {a : MemoryReply} {l : Local Write String} (hd : WorldLaw store d)
    (h : store.Done d a l) : (memoryPact store).Commits l d := by
  cases a with
  | selected request context =>
    obtain ⟨hlaw, hsame⟩ := Selected.keeps h hd
    exact commits_of_sameShelves hsame hlaw (keepsLinks_applyAll h.bindsLinks) h.keepsContexts
  | frozen window receipt =>
    refine commits_plain hd fun w hw => ?_
    rw [h.1] at hw
    cases hw
  | consolidated env p text receipt =>
    obtain ⟨⟨index, window, x, _, hsnapshot⟩, hconcluded, hheld⟩ := h
    exact commits_of_concluded hd (snapshot_proposed hsnapshot).2 hconcluded hheld
  | intake reply => exact commits_plain hd h
  | leased job => exact commits_plain hd h
  | acknowledged => exact commits_plain hd h

/-! ## Reached states -/

variable {s : MemorySys} {C C' : MemoryReply → Local Write String → Db → Prop}

theorem starts_perform (hhash : Collisionless store) (p : Tx MemoryReply) (hp : store.Calls p)
    (d d₀ : Db) (hd : (memoryPact store).inv d) (h₀ : (memoryPact store).inv d₀)
    (hrel : (memoryPact store).rel ⟨[], []⟩ d₀ d) :
    (memoryPact store).Ends d p (fun a l _ => store.Done d a l) ⟨[], []⟩ d₀ := by
  obtain ⟨c, rfl⟩ := hp
  exact ends_perform hhash c d d₀ hd h₀ hrel

/-- Every reached state is sound. -/
theorem memory_sound (hhash : Collisionless store)
    {cond : MemorySys → MemoryAct → Prop} (h : ReachIf .readCommitted store.Calls cond ⟨{}, []⟩ s) :
    (memoryPact store).Sound (fun a l d => store.Done d a l) s :=
  Pact.soundness (starts_perform hhash) (fun _ _ _ hd hdone => commits_done hd hdone)
    (Pact.Sound.init (worldLaw_empty store)) h

theorem worldLaw_reach (hhash : Collisionless store)
    {cond : MemorySys → MemoryAct → Prop} (h : ReachIf .readCommitted store.Calls cond ⟨{}, []⟩ s) :
    WorldLaw store s.db :=
  (memory_sound hhash h).inv

/-- What every call keeps when it commits, every reached store has. -/
theorem memory_keeps (hhash : Collisionless store) {J : Db → Prop} (hJ₀ : J {})
    (hJ : ∀ d a l, WorldLaw store d → C a l d → store.Done d a l → J d → J (applyAll d l.log))
    (h : MemoryReachIf store C s) : J s.db :=
  Pact.reach_keeps (starts_perform hhash) (fun _ _ _ hd hdone => commits_done hd hdone)
    (Pact.Sound.init (worldLaw_empty store)) hJ₀
    (fun s i a l v hi hcond hd hdone hs => hJ s.db a l hd (hcond i a l v rfl hi) hdone hs) h

/-- A condition may count on what every call has done. -/
theorem reachIf_of_done (hhash : Collisionless store)
    (hC : ∀ a l d, WorldLaw store d → store.Done d a l → C a l d → C' a l d)
    (h : MemoryReachIf store C s) : MemoryReachIf store C' s := by
  induction h with
  | start => exact .start
  | step h hstart hcond hstep ih =>
    have hsound := memory_sound hhash h
    refine ih.step hstart (fun i a l v hact hi => ?_) hstep
    exact hC a l _ hsound.inv (hsound.ready hi) (hcond i a l v hact hi)

end

/-! ## Calls in turn -/

/-- Calls one after the other. -/
def Store.calls (store : Store) (cs : List MemoryCommand) (s : MemorySys) : MemorySys :=
  (cs.map store.perform).foldl Sys.turn s

theorem reach_calls {store : Store} {s₀ s : MemorySys} (hs : s.Quiet)
    (h : Reach .readCommitted store.Calls s₀ s) (cs : List MemoryCommand) :
    Reach .readCommitted store.Calls s₀ (store.calls cs s) ∧ (store.calls cs s).Quiet := by
  refine reach_turns hs h fun p hp => ?_
  obtain ⟨c, _, rfl⟩ := List.mem_map.mp hp
  exact ⟨c, rfl⟩

/-- A call whose commit meets the condition. -/
theorem reachIf_call {store : Store} {C : MemoryReply → Local Write String → Db → Prop}
    {s₀ s : MemorySys} (hs : s.Quiet) (h : ReachIf .readCommitted store.Calls (AtCommits C) s₀ s)
    (c : MemoryCommand)
    (hc : ∀ a d, Prog.run (store.perform c) s.db = .ok (a, d) → ∀ l, C a l s.db) :
    ReachIf .readCommitted store.Calls (AtCommits C) s₀ (store.calls [c] s) ∧
      (store.calls [c] s).Quiet := by
  have hfree : ∀ (s : MemorySys) (act : MemoryAct), (∀ i, act ≠ .commit i) → AtCommits C s act :=
    fun _ _ hne i _ _ _ heq _ => absurd heq (hne i)
  refine ⟨reachIf_turn (fun s p => hfree s _ fun _ h => by cases h)
    (fun s i => hfree s _ fun _ h => by cases h) (fun s i => hfree s _ fun _ h => by cases h)
    hs h ⟨c, rfl⟩ ?_, quiet_turn hs _⟩
  intro a d hrun l v i a' l' v' hi hget
  obtain rfl := Act.commit.inj hi
  have hlast : (s.threads ++ [Thread.running (.ret a) l v])[s.threads.length]? =
      some (.running (.ret a) l v) := by simp
  rw [hlast] at hget
  injection hget with hget
  injection hget with hret
  injection hret with hret
  rw [← hret]
  exact hc a d hrun l'

theorem reachIf_calls {store : Store} {C : MemoryReply → Local Write String → Db → Prop}
    {s₀ s : MemorySys} (hs : s.Quiet) (h : ReachIf .readCommitted store.Calls (AtCommits C) s₀ s)
    (cs : List MemoryCommand)
    (hc : ∀ c ∈ cs, ∀ d a d', Prog.run (store.perform c) d = .ok (a, d') → ∀ l, C a l d) :
    ReachIf .readCommitted store.Calls (AtCommits C) s₀ (store.calls cs s) ∧
      (store.calls cs s).Quiet := by
  induction cs generalizing s with
  | nil => exact ⟨h, hs⟩
  | cons c rest ih =>
    obtain ⟨h₁, hs₁⟩ := reachIf_call hs h c (hc c List.mem_cons_self s.db)
    exact ih hs₁ h₁ fun c' hc' => hc c' (List.mem_cons_of_mem _ hc')

/-- What a call replies. -/
def MemoryCommand.Replies (c : MemoryCommand) (a : MemoryReply) : Prop :=
  match c with
  | .consolidate _ env window worker =>
    (∃ receipt, a = .frozen window receipt) ∨
      ∃ p text receipt, p.answer worker = some text ∧ a = .consolidated env p text receipt
  | _ => ∀ env p text receipt, a ≠ .consolidated env p text receipt

theorem exec_ret_bind {α β : Type} {p : Tx α} {f : α → β} {d : Db} {b : β} {log log' : List Write}
    (h : Prog.exec d (p >>= fun a => .ret (f a)) log = .ok (b, log')) : ∃ a, b = f a := by
  change Prog.exec d (p.bind _) log = _ at h
  rw [Prog.exec_bind] at h
  cases hp : Prog.exec d p log with
  | error e =>
    rw [hp] at h
    cases h
  | ok r =>
    obtain ⟨a, log₁⟩ := r
    rw [hp] at h
    exact ⟨a, (Prod.mk.inj (Except.ok.inj h)).1.symm⟩

/-- A consolidation that returns had a window to put to its worker, or a receipt. -/
theorem run_consolidateWindow {store : Store} {index : Option MemoryIndex} {env : Ambient}
    {window : Window} {worker : Worker} {d d' : Db} {a : MemoryReply}
    (h : Prog.run (store.consolidateWindow index env window worker) d = .ok (a, d')) :
    (∃ receipt, a = .frozen window receipt) ∨
      ∃ p text receipt, store.snapshotWindow index window d = .ok (.proposed p) ∧
        p.answer worker = some text ∧ a = .consolidated env p text receipt := by
  obtain ⟨log', hrest, _⟩ := Prog.run_ok h
  change Prog.exec d (selectOrFail (store.snapshotWindow index window) >>= _) [] = _ at hrest
  rw [exec_selectOrFail, applyAll_nil] at hrest
  cases hsnapshot : store.snapshotWindow index window d with
  | error e =>
    rw [hsnapshot] at hrest
    cases hrest
  | ok snapshot =>
    rw [hsnapshot] at hrest
    cases snapshot with
    | frozen receipt => exact Or.inl ⟨receipt, (Prod.mk.inj (Except.ok.inj hrest)).1.symm⟩
    | proposed p =>
      dsimp only at hrest
      split at hrest
      · cases hrest
      · rename_i text htext
        obtain ⟨receipt, rfl⟩ := exec_ret_bind hrest
        exact Or.inr ⟨p, text, receipt, rfl, htext, rfl⟩

theorem replies_perform {store : Store} {c : MemoryCommand} {d d' : Db} {a : MemoryReply}
    (h : Prog.run (store.perform c) d = .ok (a, d')) : c.Replies a := by
  obtain ⟨log', hexec, _⟩ := Prog.run_ok h
  cases c with
  | consolidate index env window worker =>
    rcases run_consolidateWindow h with hfrozen | ⟨p, text, receipt, _, htext, ha⟩
    · exact Or.inl hfrozen
    · exact Or.inr ⟨p, text, receipt, htext, ha⟩
  | intake c =>
    obtain ⟨r, rfl⟩ := exec_ret_bind hexec
    intro _ _ _ _ h
    cases h
  | lease env request =>
    obtain ⟨r, rfl⟩ := exec_ret_bind hexec
    intro _ _ _ _ h
    cases h
  | complete env jobRef leaseToken =>
    obtain ⟨r, rfl⟩ := exec_ret_bind hexec
    intro _ _ _ _ h
    cases h
  | retry env jobRef leaseToken notBefore =>
    obtain ⟨r, rfl⟩ := exec_ret_bind hexec
    intro _ _ _ _ h
    cases h
  | select index request =>
    obtain ⟨r, rfl⟩ := exec_ret_bind hexec
    intro _ _ _ _ h
    cases h

end ChoraMem
