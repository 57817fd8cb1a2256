/-
Interleaved transactions of a relational store.

A system is the committed store and its transactions.  One step is one statement
of one running transaction, its commit, or its rollback, which can come at any
time.  Two isolation levels are modelled.  Under `readCommitted` a query sees the
store as committed when the query runs.  Under `repeatableRead` it sees the store
as it was at the first query of the transaction: waiting for a named lock fixes no
view, and a statement that writes works on the newest rows at either level.

A named lock is held by one running transaction at a time, and so is every unique
key a transaction has written: a statement that would write a key another one
holds waits.
-/
import ChoraMem.Txn.Prog

namespace Txn

inductive Isolation
  | readCommitted
  | repeatableRead
  deriving DecidableEq, Repr

/-- What a running transaction has gathered: its locks and its log. -/
structure Local (W K : Type) where
  held : List K
  log : List W

inductive Thread (D W K ε α : Type) : Type
  | running (p : Prog D W K ε α) (l : Local W K) (view : Option D)
  | committed (a : α)
  | aborted

structure Sys (D W K ε α : Type) where
  db : D
  threads : List (Thread D W K ε α)

inductive Act (D W K ε α : Type) : Type
  | start (p : Prog D W K ε α)
  | step (i : Nat)
  | commit (i : Nat)
  | abort (i : Nat)

section

variable {D W K ε α RK : Type}

def Thread.local? : Thread D W K ε α → Option (Local W K)
  | .running _ l _ => some l
  | _ => none

/-- What the running transactions besides the `i`-th have gathered. -/
def Sys.others (s : Sys D W K ε α) (i : Nat) : List (Local W K) :=
  (s.threads.eraseIdx i).filterMap Thread.local?

/-- The store a query is evaluated on. -/
def snapshot (iso : Isolation) (db : D) (view : Option D) : D :=
  match iso with
  | .readCommitted => db
  | .repeatableRead => view.getD db

/-- The read view a query leaves behind. -/
def viewAfter (iso : Isolation) (db : D) (view : Option D) : Option D :=
  match iso with
  | .readCommitted => none
  | .repeatableRead => some (view.getD db)

variable [DecidableEq K] [DecidableEq RK] [Journal D W RK]

/-- The next statement of a running transaction, when it need not wait. -/
def Thread.advance? (iso : Isolation) (db : D) (others : List (Local W K)) :
    Thread D W K ε α → Option (Thread D W K ε α)
  | .running (.read k) l view =>
    some (.running (k (applyAll (snapshot iso db view) l.log)) l (viewAfter iso db view))
  | .running (.write w k) l view =>
    let ws := w (applyAll db l.log)
    if ∀ o ∈ others, ∀ r ∈ logKeys D ws, r ∉ logKeys D o.log then
      some (.running (k (applyAll db l.log)) { l with log := l.log ++ ws } view)
    else none
  | .running (.lock key k) l view =>
    if ∀ o ∈ others, key ∉ o.held then
      some (.running k { l with held := key :: l.held } view)
    else none
  | _ => none

def Sys.step? (iso : Isolation) (s : Sys D W K ε α) : Act D W K ε α → Option (Sys D W K ε α)
  | .start p => some { s with threads := s.threads ++ [.running p ⟨[], []⟩ none] }
  | .step i =>
    match s.threads[i]? with
    | some t =>
      match t.advance? iso s.db (s.others i) with
      | some t' => some { s with threads := s.threads.set i t' }
      | none => none
    | none => none
  | .commit i =>
    match s.threads[i]? with
    | some (.running (.ret a) l _) =>
      some { db := applyAll s.db l.log, threads := s.threads.set i (.committed a) }
    | _ => none
  | .abort i =>
    match s.threads[i]? with
    | some (.running _ _ _) => some { s with threads := s.threads.set i .aborted }
    | _ => none

/-- Actions taken one after the other. -/
def Sys.steps? (iso : Isolation) (s : Sys D W K ε α) :
    List (Act D W K ε α) → Option (Sys D W K ε α)
  | [] => some s
  | act :: rest =>
    match s.step? iso act with
    | some s' => s'.steps? iso rest
    | none => none

/-- No transaction is running any more. -/
def Sys.Quiet (s : Sys D W K ε α) : Prop := ∀ t ∈ s.threads, t.local? = none

/-- The states reached from `s₀` when every transaction that starts is in
`starts` and every step taken meets `cond` in the state it is taken from. -/
inductive ReachIf (iso : Isolation) (starts : Prog D W K ε α → Prop)
    (cond : Sys D W K ε α → Act D W K ε α → Prop) (s₀ : Sys D W K ε α) : Sys D W K ε α → Prop
  | start : ReachIf iso starts cond s₀ s₀
  | step {s s' : Sys D W K ε α} {act : Act D W K ε α} (h : ReachIf iso starts cond s₀ s)
      (hstart : ∀ p, act = .start p → starts p) (hcond : cond s act)
      (hstep : s.step? iso act = some s') : ReachIf iso starts cond s₀ s'

/-- The states reached by any order of steps. -/
abbrev Reach (iso : Isolation) (starts : Prog D W K ε α → Prop) (s₀ : Sys D W K ε α) :
    Sys D W K ε α → Prop :=
  ReachIf iso starts (fun _ _ => True) s₀

/-- When a transaction whose view is fixed takes a lock, `fresh` relates the lock,
the view and the committed store. -/
def locksFresh (fresh : K → D → D → Prop) (s : Sys D W K ε α) : Act D W K ε α → Prop
  | .step i =>
    match s.threads[i]? with
    | some (.running (.lock key _) _ (some v)) => fresh key v s.db
    | _ => True
  | _ => True

theorem ReachIf.mono {iso : Isolation} {starts : Prog D W K ε α → Prop}
    {cond cond' : Sys D W K ε α → Act D W K ε α → Prop} {s₀ s : Sys D W K ε α}
    (hc : ∀ s act, cond s act → cond' s act) (h : ReachIf iso starts cond s₀ s) :
    ReachIf iso starts cond' s₀ s := by
  induction h with
  | start => exact .start
  | step _ hstart hcond hstep ih => exact .step ih hstart (hc _ _ hcond) hstep

/-! ## Runs of given actions -/

/-- No lock is taken under a view that the store has left. -/
def Sys.current [DecidableEq D] (s : Sys D W K ε α) : Act D W K ε α → Bool
  | .step i =>
    match s.threads[i]? with
    | some (.running (.lock _ _) _ (some v)) => decide (v = s.db)
    | _ => true
  | _ => true

omit [DecidableEq K] in
theorem locksFresh_of_current [DecidableEq D] {fresh : K → D → D → Prop}
    (hrefl : ∀ key d, fresh key d d) {s : Sys D W K ε α} {act : Act D W K ε α}
    (h : s.current act = true) : locksFresh fresh s act := by
  cases act with
  | step i =>
    simp only [Sys.current] at h
    simp only [locksFresh]
    split at h
    · rw [of_decide_eq_true h]
      exact hrefl _ s.db
    · exact trivial
  | start p => exact trivial
  | commit i => exact trivial
  | abort i => exact trivial

/-- The given actions, each taken only when it is current. -/
def Sys.runs? [DecidableEq D] (iso : Isolation) (s : Sys D W K ε α) :
    List (Act D W K ε α) → Option (Sys D W K ε α)
  | [] => some s
  | act :: rest =>
    if s.current act then
      match s.step? iso act with
      | some s' => s'.runs? iso rest
      | none => none
    else none

/-- The transaction an action starts. -/
def Act.program? : Act D W K ε α → Option (Prog D W K ε α)
  | .start p => some p
  | _ => none

omit [DecidableEq K] in
theorem starts_of_program {starts : Prog D W K ε α → Prop} {act : Act D W K ε α}
    {rest : List (Act D W K ε α)} (h : ∀ p ∈ (act :: rest).filterMap Act.program?, starts p) :
    (∀ p, act = .start p → starts p) ∧ ∀ p ∈ rest.filterMap Act.program?, starts p := by
  constructor
  · rintro p rfl
    exact h p (by simp [Act.program?])
  · intro p hp
    obtain ⟨a, ha, hap⟩ := List.mem_filterMap.mp hp
    exact h p (List.mem_filterMap.mpr ⟨a, List.mem_cons_of_mem _ ha, hap⟩)

theorem reachIf_of_runs [DecidableEq D] {iso : Isolation} {starts : Prog D W K ε α → Prop}
    {fresh : K → D → D → Prop} (hrefl : ∀ key d, fresh key d d) {s₀ s s' : Sys D W K ε α}
    (h₀ : ReachIf iso starts (locksFresh fresh) s₀ s) {acts : List (Act D W K ε α)}
    (hstarts : ∀ p ∈ acts.filterMap Act.program?, starts p) (h : s.runs? iso acts = some s') :
    ReachIf iso starts (locksFresh fresh) s₀ s' := by
  induction acts generalizing s with
  | nil => exact Option.some.inj h ▸ h₀
  | cons act rest ih =>
    obtain ⟨hact, hrest⟩ := starts_of_program hstarts
    simp only [Sys.runs?] at h
    split at h
    · rename_i hcur
      split at h
      · rename_i s₁ hstep
        exact ih (h₀.step hact (locksFresh_of_current hrefl hcur) hstep) hrest h
      · cases h
    · cases h

/-- Actions without a condition. -/
theorem reach_of_steps {iso : Isolation} {starts : Prog D W K ε α → Prop} {s₀ s s' : Sys D W K ε α}
    (h₀ : Reach iso starts s₀ s) {acts : List (Act D W K ε α)}
    (hstarts : ∀ p ∈ acts.filterMap Act.program?, starts p) (h : s.steps? iso acts = some s') :
    Reach iso starts s₀ s' := by
  induction acts generalizing s with
  | nil => exact Option.some.inj h ▸ h₀
  | cons act rest ih =>
    obtain ⟨hact, hrest⟩ := starts_of_program hstarts
    simp only [Sys.steps?] at h
    split at h
    · rename_i s₁ hstep
      exact ih (h₀.step hact trivial hstep) hrest h
    · cases h

end

/-- What a run or a step that goes through leads to. -/
theorem eq_some_getD {α : Type} {o : Option α} (h : o.isSome) (a : α) : o = some (o.getD a) := by
  cases o with
  | none => cases h
  | some b => rfl

end Txn
