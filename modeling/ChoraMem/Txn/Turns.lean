/-
Transactions one after the other.

A transaction that starts while no other is running waits for nothing, so its
statements can follow each other up to its commit and it ends as it does when it runs
alone.  Calls taken in turn are therefore one of the interleavings.

A transaction that only reads, and whose queries have one answer in every store to come,
ends as that answer says, whatever runs beside it.
-/
import ChoraMem.Txn.Rely

namespace Txn

variable {D W K ε α RK : Type} [DecidableEq K] [DecidableEq RK] [Journal D W RK]

/-- The system after a whole transaction, committed or rolled back. -/
def Sys.turn (s : Sys D W K ε α) (p : Prog D W K ε α) : Sys D W K ε α :=
  match Prog.run p s.db with
  | .ok (a, d) => { db := d, threads := s.threads ++ [.committed a] }
  | .error _ => { s with threads := s.threads ++ [.aborted] }

section

variable {iso : Isolation} {ts : List (Thread D W K ε α)} {db : D}

omit [DecidableEq K] [DecidableEq RK] [Journal D W RK] in
theorem set_last (t t' : Thread D W K ε α) : (ts ++ [t]).set ts.length t' = ts ++ [t'] := by
  rw [List.set_append_right _ _ (Nat.le_refl _)]
  simp

/-- The last transaction is the only one running. -/
theorem step_last (h : ∀ t ∈ ts, t.local? = none) {t t' : Thread D W K ε α}
    (hadv : t.advance? iso db [] = some t') :
    Sys.step? iso ⟨db, ts ++ [t]⟩ (.step ts.length) = some ⟨db, ts ++ [t']⟩ := by
  have hget : (ts ++ [t])[ts.length]? = some t := by simp
  have hothers : (⟨db, ts ++ [t]⟩ : Sys D W K ε α).others ts.length = [] := by
    have hlen : (ts ++ [t]).eraseIdx ts.length = ts := by
      rw [List.eraseIdx_append_of_length_le (Nat.le_refl _)]
      simp
    unfold Sys.others
    rw [hlen]
    exact List.filterMap_eq_nil_iff.mpr h
  simp only [Sys.step?, hget, hothers, hadv, set_last]

variable {starts : Prog D W K ε α → Prop} {cond : Sys D W K ε α → Act D W K ε α → Prop}
variable {s₀ s : Sys D W K ε α}

/-- One more action. -/
theorem ReachIf.next {s' : Sys D W K ε α} (h : ReachIf iso starts cond s₀ s) (act : Act D W K ε α)
    (hstart : ∀ p, act = .start p → starts p) (hcond : cond s act)
    (hstep : Sys.step? iso s act = some s') : ReachIf iso starts cond s₀ s' :=
  h.step hstart hcond hstep

/-- The last transaction steps up to its end. -/
theorem reachIf_statements (hstep : ∀ s i, cond s (.step i)) (h : ∀ t ∈ ts, t.local? = none)
    (p : Prog D W K ε α) (l : Local W K) (view : Option D) (hview : ∀ v, view = some v → v = db)
    (hr : ReachIf iso starts cond s₀ ⟨db, ts ++ [.running p l view]⟩) :
    match Prog.exec db p l.log with
    | .ok (a, log) => ∃ held v,
        ReachIf iso starts cond s₀ ⟨db, ts ++ [.running (.ret a) ⟨held, log⟩ v]⟩
    | .error e => ∃ l' v, ReachIf iso starts cond s₀ ⟨db, ts ++ [.running (.fail e) l' v]⟩ := by
  induction p generalizing l view with
  | ret a => exact ⟨l.held, view, hr⟩
  | fail e => exact ⟨l, view, hr⟩
  | read k ih =>
    have hsnap : snapshot iso db view = db := by
      cases iso with
      | readCommitted => rfl
      | repeatableRead =>
        cases view with
        | none => rfl
        | some v => exact hview v rfl
    have hafter : ∀ v, viewAfter iso db view = some v → v = db := by
      intro v hv
      cases iso with
      | readCommitted => cases hv
      | repeatableRead =>
        cases view with
        | none => exact (Option.some.inj hv).symm
        | some v' => exact (Option.some.inj hv).symm.trans (hview v' rfl)
    have hnext := hr.next (.step ts.length) (fun p hp => by cases hp) (hstep _ _)
      (step_last h rfl)
    rw [hsnap] at hnext
    exact ih _ l _ hafter hnext
  | write w k ih =>
    refine ih _ { l with log := l.log ++ w (applyAll db l.log) } view hview ?_
    refine hr.next (.step ts.length) (fun p hp => by cases hp) (hstep _ _) (step_last h ?_)
    simp [Thread.advance?]
  | lock key k ih =>
    refine ih { l with held := key :: l.held } view hview ?_
    refine hr.next (.step ts.length) (fun p hp => by cases hp) (hstep _ _) (step_last h ?_)
    simp [Thread.advance?]

/-- A transaction that starts while no other runs, when its commit meets the condition. -/
theorem reachIf_turn (hstart : ∀ s p, cond s (.start p)) (hstep : ∀ s i, cond s (.step i))
    (habort : ∀ s i, cond s (.abort i)) (hs : s.Quiet) (h : ReachIf iso starts cond s₀ s)
    {p : Prog D W K ε α} (hp : starts p)
    (hcommit : ∀ a d, Prog.run p s.db = .ok (a, d) → ∀ l v,
      cond ⟨s.db, s.threads ++ [.running (.ret a) l v]⟩ (.commit s.threads.length)) :
    ReachIf iso starts cond s₀ (s.turn p) := by
  have hget : ∀ t : Thread D W K ε α, (s.threads ++ [t])[s.threads.length]? = some t := by
    intro t
    simp
  have hnext : ReachIf iso starts cond s₀ ⟨s.db, s.threads ++ [.running p ⟨[], []⟩ none]⟩ :=
    h.next (.start p) (fun q hq => by cases hq; exact hp) (hstart _ _) rfl
  have hlast := reachIf_statements hstep hs p ⟨[], []⟩ none (fun v hv => by cases hv) hnext
  unfold Prog.run at hcommit
  unfold Sys.turn Prog.run
  cases hexec : Prog.exec s.db p [] with
  | ok r =>
    obtain ⟨a, log⟩ := r
    rw [hexec] at hlast hcommit
    obtain ⟨held, v, hlast⟩ := hlast
    refine hlast.next (.commit s.threads.length) (fun p hp => by cases hp)
      (hcommit a _ rfl _ v) ?_
    simp only [Sys.step?, hget, set_last]
  | error e =>
    rw [hexec] at hlast
    obtain ⟨l, v, hlast⟩ := hlast
    refine hlast.next (.abort s.threads.length) (fun p hp => by cases hp) (habort _ _) ?_
    simp only [Sys.step?, hget, set_last]

/-- A transaction that runs while no other does is about to commit. -/
theorem reach_before_commit {starts : Prog D W K ε α → Prop} {s₀ s : Sys D W K ε α}
    (hs : s.Quiet) (h : Reach iso starts s₀ s) {p : Prog D W K ε α} (hp : starts p) {a : α} {d : D}
    (hrun : Prog.run p s.db = .ok (a, d)) :
    ∃ l v, applyAll s.db l.log = d ∧
      Reach iso starts s₀ ⟨s.db, s.threads ++ [.running (.ret a) l v]⟩ := by
  have hnext : Reach iso starts s₀ ⟨s.db, s.threads ++ [.running p ⟨[], []⟩ none]⟩ :=
    h.next (.start p) (fun q hq => by cases hq; exact hp) trivial rfl
  have hlast := reachIf_statements (fun _ _ => trivial) hs p ⟨[], []⟩ none (fun v hv => by cases hv)
    hnext
  obtain ⟨log, hexec, rfl⟩ := Prog.run_ok hrun
  rw [hexec] at hlast
  obtain ⟨held, v, hlast⟩ := hlast
  exact ⟨⟨held, log⟩, v, rfl, hlast⟩

omit [DecidableEq K] [DecidableEq RK] in
theorem quiet_turn {s : Sys D W K ε α} (h : s.Quiet) (p : Prog D W K ε α) : (s.turn p).Quiet := by
  unfold Sys.turn
  split <;>
  · intro t ht
    rcases List.mem_append.mp ht with ht | ht
    · exact h t ht
    · rw [List.mem_singleton.mp ht]
      rfl

theorem reach_turn {starts : Prog D W K ε α → Prop} {s₀ s : Sys D W K ε α} (hs : s.Quiet)
    (h : Reach iso starts s₀ s) {p : Prog D W K ε α} (hp : starts p) : Reach iso starts s₀ (s.turn p) :=
  reachIf_turn (fun _ _ => trivial) (fun _ _ => trivial) (fun _ _ => trivial) hs h hp
    fun _ _ _ _ _ => trivial

/-- Calls in turn are an interleaving. -/
theorem reach_turns {starts : Prog D W K ε α → Prop} {s₀ s : Sys D W K ε α} (hs : s.Quiet)
    (h : Reach iso starts s₀ s) {ps : List (Prog D W K ε α)} (hps : ∀ p ∈ ps, starts p) :
    Reach iso starts s₀ (ps.foldl Sys.turn s) ∧ (ps.foldl Sys.turn s).Quiet := by
  induction ps generalizing s with
  | nil => exact ⟨h, hs⟩
  | cons p rest ih =>
    exact ih (quiet_turn hs p) (reach_turn hs h (hps p List.mem_cons_self)) fun q hq =>
      hps q (List.mem_cons_of_mem _ hq)

end

/-! ## Transactions that only read -/

/-- A program that takes locks, reads stores of `J`, and is left with `q`. -/
inductive Prog.Settles (J : D → Prop) : Prog D W K ε α → Prog D W K ε α → Prop
  | ended {q : Prog D W K ε α} : Prog.Settles J q q
  | read {k : D → Prog D W K ε α} {q : Prog D W K ε α} (h : ∀ d, J d → Prog.Settles J (k d) q) :
      Prog.Settles J (.read k) q
  | lock {p q : Prog D W K ε α} (key : K) (h : Prog.Settles J p q) :
      Prog.Settles J (.lock key p) q

/-- Nothing is left to do but to end. -/
def Prog.Ended (q : Prog D W K ε α) : Prop := (∃ a, q = .ret a) ∨ ∃ e, q = .fail e

/-- A transaction that has written nothing and ends as `q` does, unless it is rolled back. -/
inductive Thread.EndsWith (J : D → Prop) (q : Prog D W K ε α) : Thread D W K ε α → Prop
  | running {p : Prog D W K ε α} {l : Local W K} (view : Option D) (hlog : l.log = [])
      (hp : p.Settles J q) : Thread.EndsWith J q (.running p l view)
  | committed {a : α} (h : q = .ret a) : Thread.EndsWith J q (.committed a)
  | aborted : Thread.EndsWith J q .aborted

/-- The system with one more transaction. -/
def Sys.started (s : Sys D W K ε α) (p : Prog D W K ε α) : Sys D W K ε α :=
  { s with threads := s.threads ++ [.running p ⟨[], []⟩ none] }

/-- The stores that a system can come to. -/
def Sys.Future (starts : Prog D W K ε α → Prop) (s : Sys D W K ε α) (d : D) : Prop :=
  ∃ u, Reach .readCommitted starts s u ∧ u.db = d

/-- However the system goes on once `p` is started, `p` writes nothing and ends as `q`. -/
def Sys.Settles (starts : Prog D W K ε α → Prop) (s : Sys D W K ε α) (p q : Prog D W K ε α) :
    Prop :=
  ∀ u, Reach .readCommitted starts (s.started p) u →
    ∃ t, u.threads[s.threads.length]? = some t ∧ t.EndsWith (s.Future starts) q

section

variable {starts : Prog D W K ε α → Prop} {s u t : Sys D W K ε α} {J : D → Prop}
variable {p q : Prog D W K ε α}

theorem Reach.trans (h : Reach .readCommitted starts s t) (h' : Reach .readCommitted starts t u) :
    Reach .readCommitted starts s u := by
  induction h' with
  | start => exact h
  | step _ hstart hcond hstep ih => exact ih.step hstart hcond hstep

theorem reach_started (hp : starts p) : Reach .readCommitted starts s (s.started p) :=
  ReachIf.start.next (.start p) (fun q hq => by cases hq; exact hp) trivial rfl

theorem advance_endsWith {th th' : Thread D W K ε α} {others : List (Local W K)} {d : D}
    (ht : th.EndsWith J q) (hd : J d) (hq : q.Ended)
    (hadv : th.advance? .readCommitted d others = some th') : th'.EndsWith J q := by
  cases ht with
  | running view hlog hp =>
    cases hp with
    | ended => rcases hq with ⟨a, rfl⟩ | ⟨e, rfl⟩ <;> cases hadv
    | read hk =>
      simp only [Thread.advance?, hlog, applyAll_nil] at hadv
      obtain rfl := Option.some.inj hadv
      exact .running _ hlog (hk d hd)
    | lock key hp =>
      simp only [Thread.advance?] at hadv
      split at hadv
      · obtain rfl := Option.some.inj hadv
        exact .running _ hlog hp
      · cases hadv
  | committed | aborted => cases hadv

theorem step_endsWith {act : Act D W K ε α} {i : Nat} {th : Thread D W K ε α}
    (hi : s.threads[i]? = some th) (ht : th.EndsWith J q) (hd : J s.db) (hq : q.Ended)
    (hstep : s.step? .readCommitted act = some u) :
    ∃ th', u.threads[i]? = some th' ∧ th'.EndsWith J q := by
  have hlt : i < s.threads.length := (List.getElem?_eq_some_iff.mp hi).1
  have hset : ∀ (j : Nat) (th' : Thread D W K ε α), (j = i → th'.EndsWith J q) →
      ∃ th₁, (s.threads.set j th')[i]? = some th₁ ∧ th₁.EndsWith J q := by
    intro j th' h
    by_cases hij : j = i
    · subst hij
      exact ⟨th', by simp [hlt], h rfl⟩
    · exact ⟨th, by rw [List.getElem?_set_ne hij, hi], ht⟩
  cases act with
  | start p =>
    obtain rfl := Option.some.inj hstep
    refine ⟨th, ?_, ht⟩
    show (s.threads ++ _)[i]? = some th
    rw [List.getElem?_append_left hlt, hi]
  | step j =>
    simp only [Sys.step?] at hstep
    split at hstep
    · rename_i th₁ hj
      split at hstep
      · rename_i th₂ hadv
        obtain rfl := Option.some.inj hstep
        refine hset j th₂ fun hij => ?_
        subst hij
        obtain rfl := Option.some.inj (hi.symm.trans hj)
        exact advance_endsWith ht hd hq hadv
      · cases hstep
    · cases hstep
  | commit j =>
    simp only [Sys.step?] at hstep
    split at hstep
    · rename_i a l view hj
      obtain rfl := Option.some.inj hstep
      refine hset j (.committed a) fun hij => ?_
      subst hij
      obtain rfl := Option.some.inj (hi.symm.trans hj)
      cases ht with
      | running _ _ hp =>
        cases hp with
        | ended => exact .committed rfl
    · cases hstep
  | abort j =>
    simp only [Sys.step?] at hstep
    split at hstep
    · obtain rfl := Option.some.inj hstep
      exact hset j .aborted fun _ => .aborted
    · cases hstep

/-- A program that settles on every store to come settles its transaction. -/
theorem settles_of_prog (hstarts : starts p) (hp : p.Settles (s.Future starts) q) (hq : q.Ended) :
    s.Settles starts p q := by
  intro u h
  induction h with
  | start => exact ⟨.running p ⟨[], []⟩ none, by simp [Sys.started], .running none rfl hp⟩
  | @step u u' act h _ _ hstep ih =>
    obtain ⟨th, hi, ht⟩ := ih
    exact step_endsWith hi ht ⟨u, (reach_started hstarts).trans h, rfl⟩ hq hstep

end

end Txn
