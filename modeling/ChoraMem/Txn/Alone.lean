/-
What a transaction does when it runs alone.

`wp p Q F d` says that `p`, run from rows that show `d`, ends with `Q` of its
result and of the rows it then shows, or fails with an error in `F`.  With `F`
empty the transaction does not fail; with `F` everything it may.  The rules follow
the statements; `wp_run` reads the whole off the run.
-/
import ChoraMem.Txn.Prog

namespace Txn

namespace Prog

variable {D W K ε α β RK : Type} [Journal D W RK]

def wp : Prog D W K ε α → (α → D → Prop) → (ε → Prop) → D → Prop
  | ret a, Q, _, d => Q a d
  | fail e, _, F, _ => F e
  | read k, Q, F, d => wp (k d) Q F d
  | write w k, Q, F, d => wp (k d) Q F (applyAll d (w d))
  | lock _ k, Q, F, d => wp k Q F d

variable {Q Q' : α → D → Prop} {F F' : ε → Prop} {d : D}

theorem wp_exec {p : Prog D W K ε α} (log : List W) :
    wp p Q F (applyAll d log) ↔
      match exec d p log with
      | .ok (a, log') => Q a (applyAll d log')
      | .error e => F e := by
  induction p generalizing log with
  | ret a => exact Iff.rfl
  | fail e => exact Iff.rfl
  | read k ih => exact ih _ log
  | write w k ih =>
    rw [exec, ← ih]
    change wp (k _) Q F (applyAll (applyAll d log) (w _)) ↔ _
    rw [applyAll_append]
  | lock key k ih => exact ih log

/-- What a whole transaction ends with. -/
theorem wp_run {p : Prog D W K ε α} :
    wp p Q F d ↔
      match run p d with
      | .ok (a, d') => Q a d'
      | .error e => F e := by
  have h := wp_exec (Q := Q) (F := F) (d := d) (p := p) []
  rw [applyAll_nil] at h
  rw [h, run]
  cases exec d p [] with
  | ok r => exact Iff.rfl
  | error e => exact Iff.rfl

theorem wp.ok {p : Prog D W K ε α} (h : wp p Q F d) {a : α} {d' : D}
    (hr : run p d = .ok (a, d')) : Q a d' := by
  have h' := wp_run.mp h
  rw [hr] at h'
  exact h'

theorem wp.error {p : Prog D W K ε α} (h : wp p Q F d) {e : ε} (hr : run p d = .error e) : F e := by
  have h' := wp_run.mp h
  rw [hr] at h'
  exact h'

/-- A transaction that cannot fail has a result. -/
theorem wp.total {p : Prog D W K ε α} (h : wp p Q (fun _ => False) d) :
    ∃ a d', run p d = .ok (a, d') ∧ Q a d' := by
  have h' := wp_run.mp h
  cases hr : run p d with
  | ok r =>
    rw [hr] at h'
    exact ⟨r.1, r.2, rfl, h'⟩
  | error e =>
    rw [hr] at h'
    exact h'.elim

/-- The store after a transaction keeps what the transaction keeps. -/
theorem wp.after {J : D → Prop} {p : Prog D W K ε α} (h : wp p (fun _ => J) F d) (hd : J d) :
    J (p.after d) := by
  unfold Prog.after
  cases hr : run p d with
  | ok r => exact h.ok hr
  | error e => exact hd

theorem wp.mono {p : Prog D W K ε α} (h : wp p Q F d) (hQ : ∀ a d, Q a d → Q' a d)
    (hF : ∀ e, F e → F' e) : wp p Q' F' d := by
  induction p generalizing d with
  | ret a => exact hQ a d h
  | fail e => exact hF e h
  | read k ih => exact ih _ h
  | write w k ih => exact ih _ h
  | lock key k ih => exact ih h

theorem wp.conseq {p : Prog D W K ε α} (h : wp p Q F d) (hQ : ∀ a d, Q a d → Q' a d) :
    wp p Q' F d :=
  h.mono hQ fun _ he => he

theorem wp.and {p : Prog D W K ε α} (h : wp p Q F d) (h' : wp p Q' F' d) :
    wp p (fun a d => Q a d ∧ Q' a d) F d := by
  induction p generalizing d with
  | ret a => exact ⟨h, h'⟩
  | fail e => exact h
  | read k ih => exact ih _ h h'
  | write w k ih => exact ih _ h h'
  | lock key k ih => exact ih h h'

theorem wp_bind {p : Prog D W K ε α} {f : α → Prog D W K ε β} {Q : β → D → Prop} :
    wp (p >>= f) Q F d ↔ wp p (fun a d => wp (f a) Q F d) F d := by
  change wp (p.bind f) Q F d ↔ _
  induction p generalizing d with
  | ret a => exact Iff.rfl
  | fail e => exact Iff.rfl
  | read k ih => exact ih _
  | write w k ih => exact ih _
  | lock key k ih => exact ih

theorem wp_select {q : D → α} {f : α → Prog D W K ε β} {Q : β → D → Prop} :
    wp (select q >>= f) Q F d ↔ wp (f (q d)) Q F d :=
  Iff.rfl

theorem wp_statement {w : D → List W} {q : D → α} {f : α → Prog D W K ε β} {Q : β → D → Prop} :
    wp (statement w q >>= f) Q F d ↔ wp (f (q d)) Q F (applyAll d (w d)) :=
  Iff.rfl

theorem wp_acquire {key : K} {f : Unit → Prog D W K ε β} {Q : β → D → Prop} :
    wp (acquire key >>= f) Q F d ↔ wp (f ()) Q F d :=
  Iff.rfl

/-- Rows with `P` keep `J`, so a program that writes only such rows does. -/
theorem wp_of_emits {J : D → Prop} {P : W → Prop} {p : Prog D W K ε α} (hp : p.Emits P)
    (h : ∀ d w, J d → P w → J (Journal.apply d w)) (hd : J d) :
    wp p (fun _ => J) (fun _ => True) d := by
  have hall : ∀ (ws : List W) d, J d → (∀ w ∈ ws, P w) → J (applyAll d ws) := by
    intro ws
    induction ws with
    | nil => exact fun _ hd _ => hd
    | cons w rest ih =>
      exact fun d hd hw => ih _ (h d w hd (hw w List.mem_cons_self)) fun x hx =>
        hw x (List.mem_cons_of_mem _ hx)
  induction p generalizing d with
  | ret a => exact hd
  | fail e => exact trivial
  | read k ih => exact ih _ (hp d) hd
  | write w k ih => exact ih _ (hp.2 d) (hall _ d hd (hp.1 d))
  | lock key k ih => exact ih hp hd

theorem wp_forEach {J : D → Prop} {f : α → Prog D W K ε Unit} {l : List α}
    (hf : ∀ a ∈ l, ∀ d, J d → wp (f a) (fun _ => J) F d) (hd : J d) :
    wp (forEach f l) (fun _ => J) F d := by
  induction l generalizing d with
  | nil => exact hd
  | cons a rest ih =>
    refine wp_bind.mpr ((hf a List.mem_cons_self d hd).conseq fun _ d' hd' => ?_)
    exact ih (fun b hb => hf b (List.mem_cons_of_mem _ hb)) hd'

end Prog

end Txn
