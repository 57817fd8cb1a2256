/-
Materialization under any interleaving.

From any state of the queue, intake transactions run interleaved, statement by
statement.  Under read committed every group obeys its law in every state.  Under
repeatable read it does as long as no group lock is taken under a view that hides
committed situations, agent acts or the Episode of the group; with such a view both calls
can commit their links without the Episode, until a further call of the group.
-/
import ChoraMem.Queue.Laws

namespace ChoraMem

open Txn

/-- The law of one group: it has an Episode exactly when its links hold a situation
and an agent act with distinct sources, and then everything of the group carries
the Episode's ref and is queued. -/
structure GroupLaw (g : StableGroupRef) (d : Db) : Prop where
  gate : (∃ e ∈ d.episodes, e.group = g) ↔ GateOpen g d
  unique : ∀ e ∈ d.episodes, ∀ e' ∈ d.episodes, e.group = g → e'.group = g → e = e'
  links : ∀ e ∈ d.episodes, e.group = g → ∀ l ∈ d.links, l.group = g → l.episodeRef = e.ref
  outcomes : ∀ e ∈ d.episodes, e.group = g → ∀ o ∈ d.outcomes, o.group = g → o.episodeRef = e.ref
  queued : ∀ e ∈ d.episodes, e.group = g → Covered d g.scope.owner e.ref
  queuedOutcomes : ∀ e ∈ d.episodes, e.group = g → ∀ o ∈ d.outcomes, o.group = g →
    CoveredOutcome d g.scope.owner e.ref o.ref

theorem Consistent.groupLaw {store : Store} {d : Db} (h : Consistent store d) (g : StableGroupRef) :
    GroupLaw g d := by
  have hok := h.groups g
  have hcarries : ∀ e ∈ d.episodes, e.group = g → ∀ o ∈ d.outcomes, o.group = g →
      o.episodeRef = e.ref := fun e he hg o ho hog =>
    ((hok.bound ⟨e, he, hg⟩).2 o ho hog).trans (hok.ref e he hg).symm
  refine ⟨hok.gate, fun e he e' he' hg hg' => h.keys.episodes.eq he he' (hg.trans hg'.symm),
    fun e he hg l hl hlg => ((hok.bound ⟨e, he, hg⟩).1 l hl hlg).trans (hok.ref e he hg).symm,
    hcarries, fun e he hg => ?_, fun e he hg o ho hog => ?_⟩
  · have hc := h.jobs.covered e he fun hz => by cases hz
    rw [hg] at hc
    exact hc
  · have hep := hcarries e he hg o ho hog
    have hne : o.episodeRef ≠ "" := by
      rw [hep, hok.ref e he hg]
      exact store.episodeRef_ne g
    have hc := h.jobs.coveredOutcome o ho hne fun hz => by cases hz
    rw [hog, hep] at hc
    exact hc

/-! ## PostgreSQL -/

/-! The calls of the concrete runs: both sources are admitted without a group, then
each is linked to the group. -/

def sampleGroup : StableGroupRef := ⟨sampleScope, "run", "g"⟩

def sampleAdmit (store : Store) (n : Nat) (event : SourceEvent) : Tx IntakeReply :=
  store.intake (.observe (plainAmbient n) ("k" ++ toString n) event ⟨"", "", .situation⟩)

def sampleLink (store : Store) (n : Nat) (event : SourceEvent) (role : SourceRole) : Tx IntakeReply :=
  store.intake (sampleObserve n event role)

def admitted (store : Store) : List (Act Db Write String Fault IntakeReply) :=
  (.start (sampleAdmit store 1 sampleSituation) :: List.replicate 3 (.step 0)) ++ [.commit 0] ++
    (.start (sampleAdmit store 2 sampleAct) :: List.replicate 3 (.step 1)) ++ [.commit 1]

/-- The situation is linked, then the agent act. -/
def linkedInTurn (store : Store) : List (Act Db Write String Fault IntakeReply) :=
  admitted store ++ (.start (sampleLink store 3 sampleSituation .situation) :: List.replicate 8 (.step 2)) ++
    [.commit 2] ++
    (.start (sampleLink store 4 sampleAct .agentAct) :: List.replicate 20 (.step 3)) ++ [.commit 3]

/-- The situation's transaction finds its source admitted, the agent act is linked
and commits, and then the situation is linked. -/
def linkedAround (store : Store) : List (Act Db Write String Fault IntakeReply) :=
  admitted store ++ (.start (sampleLink store 3 sampleSituation .situation) :: List.replicate 3 (.step 2)) ++
    (.start (sampleLink store 4 sampleAct .agentAct) :: List.replicate 9 (.step 3)) ++ [.commit 3] ++
    List.replicate 5 (.step 2) ++ [.commit 2]

def emptySys : Sys Db Write String Fault IntakeReply := ⟨{}, []⟩

/-- Under read committed every group obeys its law in every state that interleaved
intake transactions reach. -/
theorem materialization_postgres {store : Store} (hpg : store.dialect = .postgres)
    {q : QueueState} (hq : QueueReach store q) {s : Sys Db Write String Fault IntakeReply}
    (h : Reach store.dialect.isolation store.Intake ⟨q.db, []⟩ s) (g : StableGroupRef) :
    GroupLaw g s.db := by
  have hdistinct := refsDistinct_postgres hpg
  have hstart := (hq.ok hdistinct (queueOk_empty store)).ok.consistent
  rw [hpg] at h
  have hviewless : Rely.Viewless (⟨q.db, []⟩ : Sys Db Write String Fault IntakeReply) :=
    fun i p l v hi => by cases hi
  exact (intake_consistent hdistinct hstart (Rely.reachIf_readCommitted hviewless h)).groupLaw g

/-- The states after both orders of the links. -/
def inTurn (store : Store) : Sys Db Write String Fault IntakeReply :=
  (emptySys.runs? store.dialect.isolation (linkedInTurn store)).getD emptySys

theorem starts_sample (store : Store) (p : Tx IntakeReply)
    (h : p ∈ [sampleAdmit store 1 sampleSituation, sampleAdmit store 2 sampleAct,
      sampleLink store 3 sampleSituation .situation, sampleLink store 4 sampleAct .agentAct]) :
    store.Intake p := by
  simp only [List.mem_cons, List.not_mem_nil, or_false] at h
  rcases h with rfl | rfl | rfl | rfl <;> exact ⟨_, rfl⟩

theorem linkedInTurn_starts (store : Store) :
    ∀ p ∈ (linkedInTurn store).filterMap Act.program?, store.Intake p :=
  fun p hp => starts_sample store p hp

theorem inTurn_reach {store : Store} (h : (emptySys.runs? store.dialect.isolation
    (linkedInTurn store)).isSome) :
    ReachIf store.dialect.isolation store.Intake (locksFresh (GateFresh store)) emptySys
      (inTurn store) :=
  reachIf_of_runs (fun _ d g _ => (SameGroup.refl g d).sameGate) .start (linkedInTurn_starts store)
    (eq_some_getD h emptySys)

theorem materialization_postgres_inTurn :
    GroupLaw sampleGroup (inTurn (plainStore .postgres)).db ∧
      ∃ e ∈ (inTurn (plainStore .postgres)).db.episodes, e.group = sampleGroup :=
  ⟨materialization_postgres (show (plainStore .postgres).dialect = .postgres from rfl) .refl
    ((inTurn_reach (by decide)).mono fun _ _ _ => trivial) sampleGroup, by decide⟩

/-! ## MySQL -/

/-- Refs differ for different groups when the digest has no collisions. -/
theorem refsDistinct_of_injective {store : Store}
    (h : ∀ a b, store.hashFields a = store.hashFields b → a = b) : RefsDistinct store := by
  intro _ g g' hg
  have hfields := h _ _ (String.append_right_inj _ |>.mp hg)
  obtain ⟨⟨kind, tenant, agent, relationship, session⟩, run, group⟩ := g
  obtain ⟨⟨kind', tenant', agent', relationship', session'⟩, run', group'⟩ := g'
  simp only [List.cons.injEq, and_true, true_and] at hfields
  obtain ⟨hk, rfl, rfl, rfl, rfl, rfl, rfl⟩ := hfields
  rw [ScopeKind.text_injective hk]

/-- Under repeatable read every group obeys its law in every state of a run in which
no group lock is taken under a stale view of what the lock protects. -/
theorem materialization_mysql {store : Store}
    (hhash : ∀ a b, store.hashFields a = store.hashFields b → a = b) {q : QueueState}
    (hq : QueueReach store q) {s : Sys Db Write String Fault IntakeReply}
    (h : ReachIf store.dialect.isolation store.Intake (locksFresh (GateFresh store)) ⟨q.db, []⟩ s)
    (g : StableGroupRef) : GroupLaw g s.db := by
  have hdistinct := refsDistinct_of_injective hhash
  have hstart := (hq.ok hdistinct (queueOk_empty store)).ok.consistent
  exact (intake_consistent hdistinct hstart h).groupLaw g

theorem materialization_mysql_inTurn :
    GroupLaw sampleGroup (inTurn (plainStore .mysql)).db ∧
      ∃ e ∈ (inTurn (plainStore .mysql)).db.episodes, e.group = sampleGroup :=
  ⟨materialization_mysql (fun _ _ => plainFields_injective) .refl (inTurn_reach (by decide))
    sampleGroup, by decide⟩

/-- The state after the agent act has overtaken the situation. -/
def around (store : Store) : Sys Db Write String Fault IntakeReply :=
  (emptySys.steps? store.dialect.isolation (linkedAround store)).getD emptySys

/-- Under repeatable read the situation's transaction misses the agent act that
commits before its group lock, and the group stays without an Episode. -/
theorem materialization_lost_mysql :
    ¬∀ (store : Store), (∀ a b, store.hashFields a = store.hashFields b → a = b) →
      ∀ (q : QueueState) (s : Sys Db Write String Fault IntakeReply), store.dialect = .mysql →
        QueueReach store q → Reach store.dialect.isolation store.Intake ⟨q.db, []⟩ s → s.Quiet →
          ∀ g, GroupLaw g s.db := by
  intro hall
  have hrun := eq_some_getD (o := emptySys.steps? (plainStore .mysql).dialect.isolation
    (linkedAround (plainStore .mysql))) (by decide) emptySys
  have hstarts : ∀ p ∈ (linkedAround (plainStore .mysql)).filterMap Act.program?,
      (plainStore .mysql).Intake p := fun p hp => starts_sample _ p hp
  have hreach : Reach (plainStore .mysql).dialect.isolation (plainStore .mysql).Intake emptySys
      (around (plainStore .mysql)) :=
    reach_of_steps .start hstarts hrun
  have hquiet : (around (plainStore .mysql)).Quiet := by
    have h : (around (plainStore .mysql)).threads.all (fun t => t.local?.isNone) = true := by
      decide
    exact fun t ht => Option.isNone_iff_eq_none.mp (List.all_eq_true.mp h t ht)
  have hlaw := hall (plainStore .mysql) (fun _ _ => plainFields_injective) {} _ rfl .refl hreach
    hquiet sampleGroup
  have hgate : roleGate sampleGroup (around (plainStore .mysql)).db = true := by decide
  have hnone : (around (plainStore .mysql)).db.episodes = [] := by decide
  obtain ⟨e, he, _⟩ := hlaw.gate.mpr (roleGate_iff.mp hgate)
  rw [hnone] at he
  cases he

end ChoraMem
