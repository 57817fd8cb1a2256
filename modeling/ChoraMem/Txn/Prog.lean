/-
Transactions as programs.

A transaction is a tree of statements.  A `read` continues with the rows it may
see, a `write` evaluates its rows on the newest ones and continues with what it
evaluated them on, a `lock` waits for a named lock that is held to the end of the
transaction.  Nothing a transaction writes reaches the store before it commits:
its writes are collected in its log, and every statement sees the log applied to
the rows the isolation level shows it.

`exec` runs a program alone, from a store nobody else changes.  The interleaved
semantics of the same programs is in `Interleave`.
-/
import Mathlib.Data.List.Basic

namespace Txn

/-- How one written row changes a store, and the unique keys it occupies until
its transaction ends. -/
class Journal (D : Type) (W : Type) (RK : outParam Type) where
  apply : D → W → D
  rowKeys : W → List RK

section

variable {D W RK : Type} [Journal D W RK]

/-- A log applied to a store, oldest write first. -/
def applyAll (d : D) (log : List W) : D := log.foldl Journal.apply d

@[simp] theorem applyAll_nil (d : D) : applyAll d ([] : List W) = d := rfl

@[simp] theorem applyAll_cons (d : D) (w : W) (log : List W) :
    applyAll d (w :: log) = applyAll (Journal.apply d w) log := rfl

@[simp] theorem applyAll_append (d : D) (log more : List W) :
    applyAll d (log ++ more) = applyAll (applyAll d log) more := by
  unfold applyAll
  rw [List.foldl_append]

variable (D) in
/-- The unique keys a log occupies. -/
def logKeys (log : List W) : List RK := log.flatMap (Journal.rowKeys D)

end

/-- The statements of one transaction, with lock names `K`, errors `ε` and
result `α`. -/
inductive Prog (D W K ε α : Type) : Type
  | ret (a : α)
  | fail (e : ε)
  | read (k : D → Prog D W K ε α)
  | write (w : D → List W) (k : D → Prog D W K ε α)
  | lock (key : K) (k : Prog D W K ε α)

namespace Prog

variable {D W K ε α β : Type}

/-- Sequencing.  A failed transaction runs no later statement. -/
def bind : Prog D W K ε α → (α → Prog D W K ε β) → Prog D W K ε β
  | ret a, f => f a
  | fail e, _ => fail e
  | read k, f => read fun d => bind (k d) f
  | write w k, f => write w fun d => bind (k d) f
  | lock key k, f => lock key (bind k f)

instance : Monad (Prog D W K ε) where
  pure := ret
  bind := bind

@[simp] theorem pure_def (a : α) : (pure a : Prog D W K ε α) = ret a := rfl

@[simp] theorem bind_def (p : Prog D W K ε α) (f : α → Prog D W K ε β) : p >>= f = bind p f := rfl

@[simp] theorem ret_bind (a : α) (f : α → Prog D W K ε β) : bind (ret a) f = f a := rfl

@[simp] theorem fail_bind (e : ε) (f : α → Prog D W K ε β) : bind (fail e) f = fail e := rfl

/-- A query on the rows the transaction sees. -/
def select (q : D → α) : Prog D W K ε α := read fun d => ret (q d)

/-- A statement that writes, evaluated on the newest rows; `q` is what it
reports. -/
def statement (w : D → List W) (q : D → α) : Prog D W K ε α := write w fun d => ret (q d)

/-- Wait for the lock named `key`. -/
def acquire (key : K) : Prog D W K ε Unit := lock key (ret ())

@[simp] theorem select_bind (q : D → α) (f : α → Prog D W K ε β) :
    bind (select q) f = read fun d => f (q d) := rfl

@[simp] theorem statement_bind (w : D → List W) (q : D → α) (f : α → Prog D W K ε β) :
    bind (statement w q) f = write w fun d => f (q d) := rfl

@[simp] theorem acquire_bind (key : K) (f : Unit → Prog D W K ε β) :
    bind (acquire key) f = lock key (f ()) := rfl

/-- Run `f` over a list, in its order. -/
def forEach (f : α → Prog D W K ε Unit) : List α → Prog D W K ε Unit
  | [] => ret ()
  | a :: rest => bind (f a) fun _ => forEach f rest

/-! ## What a program may write -/

/-- Every row the program may write satisfies `P`, whatever it reads. -/
def Emits (P : W → Prop) : Prog D W K ε α → Prop
  | ret _ => True
  | fail _ => True
  | read k => ∀ d, Emits P (k d)
  | write w k => (∀ d, ∀ x ∈ w d, P x) ∧ ∀ d, Emits P (k d)
  | lock _ k => Emits P k

theorem Emits.bind {P : W → Prop} {p : Prog D W K ε α} {f : α → Prog D W K ε β}
    (hp : Emits P p) (hf : ∀ a, Emits P (f a)) : Emits P (p.bind f) := by
  induction p with
  | ret a => exact hf a
  | fail e => exact trivial
  | read k ih => exact fun d => ih d (hp d)
  | write w k ih => exact ⟨hp.1, fun d => ih d (hp.2 d)⟩
  | lock key k ih => exact ih hp

theorem Emits.mono {P P' : W → Prop} (h : ∀ w, P w → P' w) {p : Prog D W K ε α}
    (hp : Emits P p) : Emits P' p := by
  induction p with
  | ret a => exact trivial
  | fail e => exact trivial
  | read k ih => exact fun d => ih d (hp d)
  | write w k ih => exact ⟨fun d x hx => h x (hp.1 d x hx), fun d => ih d (hp.2 d)⟩
  | lock key k ih => exact ih hp

theorem emits_true (p : Prog D W K ε α) : Emits (fun _ => True) p := by
  induction p with
  | ret a => exact trivial
  | fail e => exact trivial
  | read k ih => exact ih
  | write w k ih => exact ⟨fun _ _ _ => trivial, ih⟩
  | lock key k ih => exact ih

/-- The rules of the three kinds of statement. -/
theorem Emits.select {P : W → Prop} {q : D → α} {f : α → Prog D W K ε β}
    (h : ∀ a, Emits P (f a)) : Emits P (Prog.select q >>= f) :=
  fun d => h (q d)

theorem Emits.statement {P : W → Prop} {w : D → List W} {q : D → α} {f : α → Prog D W K ε β}
    (hw : ∀ d, ∀ x ∈ w d, P x) (h : ∀ a, Emits P (f a)) : Emits P (Prog.statement w q >>= f) :=
  ⟨hw, fun d => h (q d)⟩

theorem Emits.acquire {P : W → Prop} {key : K} {f : Unit → Prog D W K ε β}
    (h : Emits P (f ())) : Emits P (Prog.acquire key >>= f) :=
  h

theorem emits_forEach_mem {P : W → Prop} {f : α → Prog D W K ε Unit} {l : List α}
    (hf : ∀ a ∈ l, Emits P (f a)) : Emits P (forEach f l) := by
  induction l with
  | nil => exact trivial
  | cons a rest ih =>
    refine (hf a List.mem_cons_self).bind fun _ => ih fun b hb => ?_
    exact hf b (List.mem_cons_of_mem _ hb)

theorem emits_forEach {P : W → Prop} {f : α → Prog D W K ε Unit} (hf : ∀ a, Emits P (f a))
    (l : List α) : Emits P (forEach f l) :=
  emits_forEach_mem fun a _ => hf a

/-! ## What a program may return -/

/-- Some run of the program ends with `b`, each statement seeing whatever rows. -/
def Yields : Prog D W K ε α → α → Prop
  | ret a, b => a = b
  | fail _, _ => False
  | read k, b => ∃ d, Yields (k d) b
  | write _ k, b => ∃ d, Yields (k d) b
  | lock _ k, b => Yields k b

/-! ## Running alone -/

section Exec

variable {RK : Type} [Journal D W RK]

/-- The run of a program from the store `d` with the log it has so far: its
result and its whole log. -/
def exec (d : D) : Prog D W K ε α → List W → Except ε (α × List W)
  | ret a, log => .ok (a, log)
  | fail e, _ => .error e
  | read k, log => exec d (k (applyAll d log)) log
  | write w k, log => exec d (k (applyAll d log)) (log ++ w (applyAll d log))
  | lock _ k, log => exec d k log

/-- A whole transaction run alone: its result and the store after its commit.  A
failed transaction is rolled back. -/
def run (p : Prog D W K ε α) (d : D) : Except ε (α × D) :=
  match exec d p [] with
  | .ok (a, log) => .ok (a, applyAll d log)
  | .error e => .error e

/-- The store after a transaction, committed or rolled back. -/
def after (p : Prog D W K ε α) (d : D) : D :=
  match run p d with
  | .ok (_, d') => d'
  | .error _ => d

theorem exec_bind (d : D) (p : Prog D W K ε α) (f : α → Prog D W K ε β) (log : List W) :
    exec d (bind p f) log =
      match exec d p log with
      | .ok (a, log') => exec d (f a) log'
      | .error e => .error e := by
  induction p generalizing log with
  | ret a => rfl
  | fail e => rfl
  | read k ih => exact ih _ _
  | write w k ih => exact ih _ _
  | lock key k ih => exact ih _

theorem run_ok {p : Prog D W K ε α} {d d' : D} {a : α} (h : run p d = .ok (a, d')) :
    ∃ log, exec d p [] = .ok (a, log) ∧ d' = applyAll d log := by
  unfold run at h
  cases hx : exec d p [] with
  | error e => rw [hx] at h; cases h
  | ok r =>
    rw [hx] at h
    obtain ⟨b, log⟩ := r
    cases h
    exact ⟨log, rfl, rfl⟩

end Exec

end Prog

end Txn
