/-
Transactions judged from their commits.

Under read committed every statement of a transaction sees the newest committed
store.  A `Pact` says how the others may change that store while a transaction holds
its locks and keys.  Every statement's store is then an earlier one of the store the
transaction commits in, and related to it by the pact, so a program can be judged with
the last store fixed from the start: `Ends d p Q l` says that a run of `p` that commits
in `d` ends with `Q`, whatever related stores its statements saw on the way.

`Replays` is the case that matters most: a program whose statements cannot tell their
stores from `d` did what it would have done alone on `d`.
-/
import ChoraMem.Txn.Rely

namespace Txn

variable {D W K RK : Type}

/-- A later state of the same transaction. -/
structure Local.Grown (l l' : Local W K) : Prop where
  held : ∀ k ∈ l.held, k ∈ l'.held
  log : ∃ more, l'.log = l.log ++ more

theorem Local.Grown.refl (l : Local W K) : l.Grown l := ⟨fun _ hk => hk, [], by simp⟩

theorem Local.grown_write (l : Local W K) (ws : List W) : l.Grown { l with log := l.log ++ ws } :=
  ⟨fun _ hk => hk, ws, rfl⟩

theorem Local.grown_lock (l : Local W K) (key : K) : l.Grown { l with held := key :: l.held } :=
  ⟨fun _ hk => List.mem_cons_of_mem _ hk, [], by simp⟩

/-- A later state of the same transaction, which has added rows with `P` only. -/
structure Local.Gathers (P : W → Prop) (l l' : Local W K) : Prop where
  held : ∀ k ∈ l.held, k ∈ l'.held
  log : ∃ more, l'.log = l.log ++ more ∧ ∀ w ∈ more, P w

variable (D W K) in
structure Pact where
  /-- The invariant of the committed store. -/
  inv : D → Prop
  /-- How others may change the store while a transaction has gathered this much. -/
  rel : Local W K → D → D → Prop
  refl : ∀ l d, rel l d d
  trans : ∀ l d d' d'', rel l d d' → rel l d' d'' → rel l d d''
  /-- Who has gathered more is promised more. -/
  mono : ∀ l l' d d', l.Grown l' → rel l' d d' → rel l d d'

variable [Journal D W RK]

namespace Pact

variable {ε α β : Type} (r : Pact D W K)

/-- The store may have gone from `e` to `e'` in a transaction that commits in `d`. -/
structure Between (l : Local W K) (e e' d : D) : Prop where
  inv : r.inv e'
  since : r.rel l e e'
  before : r.rel l e' d

/-- Every run of `p` that commits in `d`, going on from the store `e`, ends with `Q`. -/
def Ends (d : D) : Prog D W K ε α → (α → Local W K → D → Prop) → Local W K → D → Prop
  | .ret a, Q, l, e => Q a l e
  | .fail _, _, _, _ => True
  | .read k, Q, l, e => ∀ e', r.Between l e e' d → Ends d (k (applyAll e' l.log)) Q l e'
  | .write w k, Q, l, e => ∀ e', r.Between l e e' d →
      r.rel { l with log := l.log ++ w (applyAll e' l.log) } e' d →
      Ends d (k (applyAll e' l.log)) Q { l with log := l.log ++ w (applyAll e' l.log) } e'
  | .lock key k, Q, l, e =>
    ∀ e', r.Between l e e' d → r.rel { l with held := key :: l.held } e' d →
      Ends d k Q { l with held := key :: l.held } e'

variable {r} {d : D}

theorem Between.trans {l : Local W K} {e e' e'' : D} (h : r.Between l e e' d)
    (h' : r.Between l e' e'' d) : r.Between l e e'' d :=
  ⟨h'.inv, r.trans l e e' e'' h.since h'.since, h'.before⟩

/-! ## Rules -/

/-- What the others do before the next statement does not matter. -/
theorem Ends.later {p : Prog D W K ε α} {Q : α → Local W K → D → Prop} {l : Local W K} {e e' : D}
    (hQ : ∀ a l e e', Q a l e → r.Between l e e' d → Q a l e') (h : r.Ends d p Q l e)
    (hl : r.Between l e e' d) : r.Ends d p Q l e' := by
  cases p with
  | ret a => exact hQ a l e e' h hl
  | fail e => exact trivial
  | read k => exact fun e'' h' => h e'' (hl.trans h')
  | write w k => exact fun e'' h' hw => h e'' (hl.trans h') hw
  | lock key k => exact fun e'' h' hw => h e'' (hl.trans h') hw

theorem Ends.conseq {p : Prog D W K ε α} {Q Q' : α → Local W K → D → Prop} {l : Local W K} {e : D}
    (h : r.Ends d p Q l e) (hQ : ∀ a l e, Q a l e → Q' a l e) : r.Ends d p Q' l e := by
  induction p generalizing l e with
  | ret a => exact hQ a l e h
  | fail e => exact trivial
  | read k ih => exact fun e' h' => ih _ (h e' h')
  | write w k ih => exact fun e' h' hw => ih _ (h e' h' hw)
  | lock key k ih => exact fun e' h' hw => ih (h e' h' hw)

theorem Ends.and {p : Prog D W K ε α} {Q Q' : α → Local W K → D → Prop} {l : Local W K} {e : D}
    (h : r.Ends d p Q l e) (h' : r.Ends d p Q' l e) :
    r.Ends d p (fun a l e => Q a l e ∧ Q' a l e) l e := by
  induction p generalizing l e with
  | ret a => exact ⟨h, h'⟩
  | fail e => exact trivial
  | read k ih => exact fun e' he => ih _ (h e' he) (h' e' he)
  | write w k ih => exact fun e' he hw => ih _ (h e' he hw) (h' e' he hw)
  | lock key k ih => exact fun e' he hw => ih (h e' he hw) (h' e' he hw)

theorem Ends.bind {p : Prog D W K ε α} {f : α → Prog D W K ε β}
    {Q : β → Local W K → D → Prop} {l : Local W K} {e : D}
    (h : r.Ends d p (fun a l e => r.Ends d (f a) Q l e) l e) : r.Ends d (p >>= f) Q l e := by
  change r.Ends d (p.bind f) Q l e
  induction p generalizing l e with
  | ret a => exact h
  | fail e => exact trivial
  | read k ih => exact fun e' h' => ih _ (h e' h')
  | write w k ih => exact fun e' h' hw => ih _ (h e' h' hw)
  | lock key k ih => exact fun e' h' hw => ih (h e' h' hw)

theorem Ends.select {q : D → α} {f : α → Prog D W K ε β} {Q : β → Local W K → D → Prop}
    {l : Local W K} {e : D}
    (h : ∀ e', r.Between l e e' d → r.Ends d (f (q (applyAll e' l.log))) Q l e') :
    r.Ends d (Prog.select q >>= f) Q l e :=
  h

theorem Ends.statement {w : D → List W} {q : D → α} {f : α → Prog D W K ε β}
    {Q : β → Local W K → D → Prop} {l : Local W K} {e : D}
    (h : ∀ e', r.Between l e e' d → r.rel { l with log := l.log ++ w (applyAll e' l.log) } e' d →
      r.Ends d (f (q (applyAll e' l.log))) Q { l with log := l.log ++ w (applyAll e' l.log) } e') :
    r.Ends d (Prog.statement w q >>= f) Q l e :=
  h

theorem Ends.acquire {key : K} {f : Unit → Prog D W K ε β} {Q : β → Local W K → D → Prop}
    {l : Local W K} {e : D}
    (h : ∀ e', r.Between l e e' d → r.rel { l with held := key :: l.held } e' d →
      r.Ends d (f ()) Q { l with held := key :: l.held } e') :
    r.Ends d (Prog.acquire key >>= f) Q l e :=
  h

/-- A program keeps what its statements, its writes and the others keep. -/
theorem Ends.of_emits {P : W → Prop} {J : Local W K → D → Prop} {p : Prog D W K ε α}
    (hp : p.Emits P) (hlater : ∀ l e e', J l e → r.Between l e e' d → J l e')
    (hwrite : ∀ l e ws, J l e → (∀ w ∈ ws, P w) → J { l with log := l.log ++ ws } e)
    (hlock : ∀ l e key, J l e → J { l with held := key :: l.held } e) {l : Local W K} {e : D}
    (h : J l e) : r.Ends d p (fun _ l e => J l e) l e := by
  induction p generalizing l e with
  | ret a => exact h
  | fail e => exact trivial
  | read k ih => exact fun e' h' => ih _ (hp _) (hlater l e e' h h')
  | write w k ih =>
    exact fun e' h' _ => ih _ (hp.2 _) (hwrite l e' _ (hlater l e e' h h') (hp.1 _))
  | lock key k ih => exact fun e' h' _ => ih hp (hlock l e' key (hlater l e e' h h'))

/-- The log of a transaction that started empty holds what its program emits. -/
theorem Ends.logged {P : W → Prop} {p : Prog D W K ε α} (hp : p.Emits P) {l : Local W K} {e : D}
    (hl : ∀ w ∈ l.log, P w) : r.Ends d p (fun _ l _ => ∀ w ∈ l.log, P w) l e := by
  refine Ends.of_emits (J := fun l _ => ∀ w ∈ l.log, P w) hp (fun _ _ _ h _ => h) ?_
    (fun _ _ _ h => h) hl
  intro l _ ws hlog hws w hw
  exact (List.mem_append.mp hw).elim (hlog w) (hws w)

theorem Ends.grown (p : Prog D W K ε α) (l : Local W K) (e : D) :
    r.Ends d p (fun _ l' _ => l.Grown l') l e := by
  refine Ends.of_emits (J := fun l' _ => l.Grown l') (Prog.emits_true p) (fun _ _ _ h _ => h) ?_ ?_
    (Local.Grown.refl l)
  · intro l' _ ws hl _
    obtain ⟨more, hmore⟩ := hl.log
    exact ⟨hl.held, more ++ ws, by simp [hmore]⟩
  · intro l' _ key hl
    exact ⟨fun k hk => List.mem_cons_of_mem _ (hl.held k hk), hl.log⟩

theorem Ends.gathers {P : W → Prop} {p : Prog D W K ε α} (hp : p.Emits P) (l : Local W K) (e : D) :
    r.Ends d p (fun _ l' _ => l.Gathers P l') l e := by
  refine Ends.of_emits (J := fun l' _ => l.Gathers P l') hp (fun _ _ _ h _ => h) ?_ ?_ ?_
  · intro l' _ ws hl hws
    obtain ⟨more, hmore, hall⟩ := hl.log
    refine ⟨hl.held, more ++ ws, by rw [hmore, List.append_assoc], ?_⟩
    intro w hw
    exact (List.mem_append.mp hw).elim (hall w) (hws w)
  · intro l' _ key hl
    exact ⟨fun k hk => List.mem_cons_of_mem _ (hl.held k hk), hl.log⟩
  · exact ⟨fun _ hk => hk, [], (List.append_nil _).symm, fun _ hw => absurd hw List.not_mem_nil⟩

/-! ## Replaying -/

variable (r) in
/-- `p` does what it does alone on `d`, and leaves `R`. -/
def Replays (d : D) (p : Prog D W K ε α) (R : Local W K → D → Prop) (l : Local W K) (e : D) : Prop :=
  r.Ends d p (fun a l' e' => Prog.exec d p l.log = .ok (a, l'.log) ∧ R l' e') l e

section

variable {R R' : Local W K → D → Prop} {l : Local W K} {e : D}

theorem Replays.ret {a : α} (h : R l e) : r.Replays d (.ret a : Prog D W K ε α) R l e := ⟨rfl, h⟩

/-- The first part replays, and what comes after it replays wherever it ends. -/
theorem Replays.bind {p : Prog D W K ε α} {f : α → Prog D W K ε β} (hp : r.Replays d p R l e)
    (hf : ∀ a l' e', Prog.exec d p l.log = .ok (a, l'.log) → R l' e' → r.Replays d (f a) R' l' e') :
    r.Replays d (p >>= f) R' l e := by
  refine Ends.bind (hp.conseq fun a l' e' h => ?_)
  refine (hf a l' e' h.1 h.2).conseq fun b l'' e'' h'' => ⟨?_, h''.2⟩
  change Prog.exec d (p.bind f) l.log = _
  rw [Prog.exec_bind, h.1]
  exact h''.1

theorem Replays.select {q : D → α} {f : α → Prog D W K ε β}
    (hq : ∀ e', r.Between l e e' d → q (applyAll e' l.log) = q (applyAll d l.log))
    (h : ∀ e', r.Between l e e' d → r.Replays d (f (q (applyAll d l.log))) R l e') :
    r.Replays d (Prog.select q >>= f) R l e := by
  refine Ends.select fun e' he => ?_
  rw [hq e' he]
  exact (h e' he).conseq fun a l' e'' h' => h'

/-- A statement that writes the same rows on `d`. -/
theorem Replays.write {w : D → List W} {k : D → Prog D W K ε α}
    (h : ∀ e', r.Between l e e' d → r.rel { l with log := l.log ++ w (applyAll e' l.log) } e' d →
      w (applyAll d l.log) = w (applyAll e' l.log) ∧
        Prog.exec d (k (applyAll d l.log)) (l.log ++ w (applyAll e' l.log)) =
          Prog.exec d (k (applyAll e' l.log)) (l.log ++ w (applyAll e' l.log)) ∧
        r.Replays d (k (applyAll e' l.log)) R { l with log := l.log ++ w (applyAll e' l.log) } e') :
    r.Replays d (.write w k) R l e := by
  intro e' he hrel
  obtain ⟨hw, hk, hrest⟩ := h e' he hrel
  refine hrest.conseq fun a l' e'' h' => ⟨?_, h'.2⟩
  rw [Prog.exec, hw, hk]
  exact h'.1

end

/-! ## Soundness -/

variable (r) in
/-- What holds of a system while its transactions run. -/
structure Sound (Q : α → Local W K → D → Prop) (s : Sys D W K ε α) : Prop where
  inv : r.inv s.db
  ends : ∀ (i : Nat) p l v, s.threads[i]? = some (.running p l v) →
    ∀ d, r.inv d → r.rel l s.db d → r.Ends d p (fun a l _ => Q a l d) l s.db
  apart : ∀ (i j : Nat) p l v p' l' v', i ≠ j → s.threads[i]? = some (.running p l v) →
    s.threads[j]? = some (.running p' l' v') → Apart (D := D) l l'

variable {Q : α → Local W K → D → Prop} {s s' : Sys D W K ε α}

theorem Sound.init {d : D} (hd : r.inv d) : r.Sound Q (⟨d, []⟩ : Sys D W K ε α) where
  inv := hd
  ends := fun i p l v h => by cases h
  apart := fun i j p l v p' l' v' _ h => by cases h

/-- A transaction that is ready to commit has its postcondition in the store. -/
theorem Sound.ready (h : r.Sound Q s) {i : Nat} {a : α} {l : Local W K} {v : Option D}
    (hi : s.threads[i]? = some (.running (.ret a) l v)) : Q a l s.db :=
  h.ends i _ l v hi s.db h.inv (r.refl l s.db)

theorem Sound.set_running (h : r.Sound Q s) {i : Nat} {p : Prog D W K ε α} {l : Local W K}
    {v : Option D}
    (hends : ∀ d, r.inv d → r.rel l s.db d → r.Ends d p (fun a l _ => Q a l d) l s.db)
    (hapart : ∀ o ∈ s.others i, Apart (D := D) l o) :
    r.Sound Q { s with threads := s.threads.set i (.running p l v) } where
  inv := h.inv
  ends := by
    intro j p' l' v' hj
    rcases Rely.running_of_set hj with ⟨_, ht⟩ | ⟨_, hj⟩
    · injection ht with hp hl _
      subst hp hl
      exact hends
    · exact h.ends j p' l' v' hj
  apart := by
    intro j k p₁ l₁ v₁ p₂ l₂ v₂ hjk hj hk
    rcases Rely.running_of_set hj with ⟨hij, ht⟩ | ⟨hij, hj⟩ <;>
      rcases Rely.running_of_set hk with ⟨hik, ht'⟩ | ⟨hik, hk⟩
    · exact absurd (hij.symm.trans hik) hjk
    · injection ht with _ hl _
      subst hl
      exact hapart l₂ (Rely.mem_others hik hk)
    · injection ht' with _ hl _
      subst hl
      exact (hapart l₁ (Rely.mem_others hij hj)).symm
    · exact h.apart j k p₁ l₁ v₁ p₂ l₂ v₂ hjk hj hk

theorem Sound.set_ended (h : r.Sound Q s) {i : Nat} {t : Thread D W K ε α} {d : D}
    (ht : t.local? = none) (hinv : r.inv d)
    (hrel : ∀ j p l v, i ≠ j → s.threads[j]? = some (.running p l v) → r.rel l s.db d) :
    r.Sound Q { db := d, threads := s.threads.set i t } where
  inv := hinv
  ends := by
    intro j p l v hj
    rcases Rely.running_of_set hj with ⟨_, rfl⟩ | ⟨hij, hj⟩
    · cases ht
    · intro d' hd' hl
      have hd := hrel j p l v hij hj
      exact (h.ends j p l v hj d' hd' (r.trans l _ _ _ hd hl)).later (fun _ _ _ _ hQ _ => hQ)
        ⟨hinv, hd, hl⟩
  apart := by
    intro j k p₁ l₁ v₁ p₂ l₂ v₂ hjk hj hk
    rcases Rely.running_of_set hj with ⟨_, rfl⟩ | ⟨_, hj⟩
    · cases ht
    · rcases Rely.running_of_set hk with ⟨_, rfl⟩ | ⟨_, hk⟩
      · cases ht
      · exact h.apart j k p₁ l₁ v₁ p₂ l₂ v₂ hjk hj hk

theorem Sound.start (h : r.Sound Q s) {p : Prog D W K ε α}
    (hp : ∀ d d₀, r.inv d → r.inv d₀ → r.rel ⟨[], []⟩ d₀ d → r.Ends d p (fun a l _ => Q a l d) ⟨[], []⟩ d₀) :
    r.Sound Q { s with threads := s.threads ++ [.running p ⟨[], []⟩ none] } := by
  have hrun : ∀ {j : Nat} {p' : Prog D W K ε α} {l : Local W K} {v : Option D},
      (s.threads ++ [.running p ⟨[], []⟩ none])[j]? = some (.running p' l v) →
      s.threads[j]? = some (.running p' l v) ∨ (j = s.threads.length ∧ p' = p ∧ l = ⟨[], []⟩) := by
    intro j p' l v hj
    rw [List.getElem?_append] at hj
    by_cases hlt : j < s.threads.length
    · rw [if_pos hlt] at hj
      exact Or.inl hj
    · rw [if_neg hlt, List.getElem?_singleton] at hj
      by_cases hz : j - s.threads.length = 0
      · rw [if_pos hz] at hj
        injection hj with hj
        injection hj with h1 h2 h3
        exact Or.inr ⟨by omega, h1.symm, h2.symm⟩
      · rw [if_neg hz] at hj
        cases hj
  have hnil : ∀ l : Local W K, Apart (D := D) ⟨[], []⟩ l := fun l =>
    ⟨fun k hk => absurd hk List.not_mem_nil, fun q hq => absurd hq List.not_mem_nil⟩
  constructor
  · exact h.inv
  · intro j p' l v hj
    rcases hrun hj with hj | ⟨_, rfl, rfl⟩
    · exact h.ends j p' l v hj
    · exact fun d hd hrel => hp d s.db hd h.inv hrel
  · intro j k p₁ l₁ v₁ p₂ l₂ v₂ hjk hj hk
    rcases hrun hj with hj | ⟨hj, _, rfl⟩
    · rcases hrun hk with hk | ⟨_, _, rfl⟩
      · exact h.apart j k p₁ l₁ v₁ p₂ l₂ v₂ hjk hj hk
      · exact (hnil l₁).symm
    · exact hnil l₂

theorem Sound.others_apart (h : r.Sound Q s) {i : Nat} {p : Prog D W K ε α} {l : Local W K}
    {v : Option D} (hi : s.threads[i]? = some (.running p l v)) :
    ∀ o ∈ s.others i, Apart (D := D) l o := by
  intro o ho
  obtain ⟨t, ht, hl⟩ := List.mem_filterMap.mp ho
  obtain ⟨j, hij, hj⟩ := List.mem_eraseIdx_iff_getElem?.mp ht
  cases t with
  | running p' l' v' =>
    obtain rfl := Option.some.inj hl
    exact h.apart i j p l v p' l' v' (Ne.symm hij) hi hj
  | committed a => cases hl
  | aborted => cases hl

variable [DecidableEq K] [DecidableEq RK]

theorem Sound.advance (h : r.Sound Q s) {i : Nat} {t t' : Thread D W K ε α}
    (hi : s.threads[i]? = some t) (hadv : t.advance? .readCommitted s.db (s.others i) = some t') :
    r.Sound Q { s with threads := s.threads.set i t' } := by
  rcases Rely.advance_cases hadv with ⟨k, l, view, rfl, rfl⟩ | ⟨w, k, l, view, rfl, hkeys, rfl⟩ |
    ⟨key, k, l, view, rfl, hheld, rfl⟩
  · refine h.set_running (fun d hd hrel => ?_) (h.others_apart hi)
    exact h.ends i _ l view hi d hd hrel s.db ⟨h.inv, r.refl l s.db, hrel⟩
  · refine h.set_running (fun d hd hrel => ?_) ?_
    · have hrel' := r.mono _ _ _ _ (l.grown_write _) hrel
      exact h.ends i _ l view hi d hd hrel' s.db ⟨h.inv, r.refl l s.db, hrel'⟩ hrel
    · intro o ho
      refine ⟨(h.others_apart hi o ho).locks, fun q hq => ?_⟩
      unfold logKeys at hq
      rw [List.flatMap_append, List.mem_append] at hq
      rcases hq with hq | hq
      · exact (h.others_apart hi o ho).keys q hq
      · exact hkeys o ho q hq
  · refine h.set_running (fun d hd hrel => ?_) ?_
    · have hrel' := r.mono _ _ _ _ (l.grown_lock key) hrel
      exact h.ends i _ l view hi d hd hrel' s.db ⟨h.inv, r.refl l s.db, hrel'⟩ hrel
    · intro o ho
      refine ⟨fun k' hk' => ?_, (h.others_apart hi o ho).keys⟩
      rcases List.mem_cons.mp hk' with rfl | hk'
      · exact hheld o ho
      · exact (h.others_apart hi o ho).locks k' hk'

variable (r) in
/-- A transaction may commit: the store stays in its invariant, and every other
running transaction sees a permitted change. -/
def Commits (l : Local W K) (d : D) : Prop :=
  r.inv (applyAll d l.log) ∧ ∀ l', Apart (D := D) l l' → r.rel l' d (applyAll d l.log)

theorem Sound.step {starts : Prog D W K ε α → Prop}
    (hstarts : ∀ p, starts p → ∀ d d₀, r.inv d → r.inv d₀ → r.rel ⟨[], []⟩ d₀ d →
      r.Ends d p (fun a l _ => Q a l d) ⟨[], []⟩ d₀)
    (hQ : ∀ a l d, r.inv d → Q a l d → r.Commits l d) (h : r.Sound Q s) {act : Act D W K ε α}
    (hstart : ∀ p, act = .start p → starts p) (hstep : s.step? .readCommitted act = some s') :
    r.Sound Q s' := by
  cases act with
  | start p =>
    obtain rfl := Option.some.inj hstep
    exact h.start (hstarts p (hstart p rfl))
  | step i =>
    simp only [Sys.step?] at hstep
    split at hstep
    · rename_i t hi
      split at hstep
      · rename_i t' hadv
        obtain rfl := Option.some.inj hstep
        exact h.advance hi hadv
      · cases hstep
    · cases hstep
  | commit i =>
    simp only [Sys.step?] at hstep
    split at hstep
    · rename_i a l view hi
      obtain rfl := Option.some.inj hstep
      obtain ⟨hinv, hrel⟩ := hQ a l s.db h.inv (h.ready hi)
      refine h.set_ended rfl hinv fun j p l' v hij hj => hrel l' ?_
      exact h.apart i j _ l view p l' v hij hi hj
    · cases hstep
  | abort i =>
    simp only [Sys.step?] at hstep
    split at hstep
    · obtain rfl := Option.some.inj hstep
      exact h.set_ended rfl h.inv fun j p l v _ _ => r.refl l s.db
    · cases hstep

/-- Transactions that keep a pact can be judged from their commits in every state
they reach. -/
theorem soundness {starts : Prog D W K ε α → Prop}
    (hstarts : ∀ p, starts p → ∀ d d₀, r.inv d → r.inv d₀ → r.rel ⟨[], []⟩ d₀ d →
      r.Ends d p (fun a l _ => Q a l d) ⟨[], []⟩ d₀)
    (hQ : ∀ a l d, r.inv d → Q a l d → r.Commits l d)
    {cond : Sys D W K ε α → Act D W K ε α → Prop} {s₀ : Sys D W K ε α} (h₀ : r.Sound Q s₀)
    (h : ReachIf .readCommitted starts cond s₀ s) : r.Sound Q s := by
  induction h with
  | start => exact h₀
  | step _ hstart _ hstep ih => exact ih.step hstarts hQ hstart hstep

/-- What every commit that has its postcondition keeps, every reached store has. -/
theorem reach_keeps {starts : Prog D W K ε α → Prop}
    (hstarts : ∀ p, starts p → ∀ d d₀, r.inv d → r.inv d₀ → r.rel ⟨[], []⟩ d₀ d →
      r.Ends d p (fun a l _ => Q a l d) ⟨[], []⟩ d₀)
    (hQ : ∀ a l d, r.inv d → Q a l d → r.Commits l d)
    {cond : Sys D W K ε α → Act D W K ε α → Prop} {s₀ : Sys D W K ε α} (h₀ : r.Sound Q s₀)
    {J : D → Prop} (hJ₀ : J s₀.db)
    (hJ : ∀ s i a l v, s.threads[i]? = some (.running (.ret a) l v) → cond s (.commit i) →
      r.inv s.db → Q a l s.db → J s.db → J (applyAll s.db l.log))
    (h : ReachIf .readCommitted starts cond s₀ s) : J s.db := by
  induction h with
  | start => exact hJ₀
  | @step s s' act h hstart hcond hstep ih =>
    have hs := soundness hstarts hQ h₀ h
    cases act with
    | start p =>
      obtain rfl := Option.some.inj hstep
      exact ih
    | step i =>
      simp only [Sys.step?] at hstep
      split at hstep
      · split at hstep
        · obtain rfl := Option.some.inj hstep
          exact ih
        · cases hstep
      · cases hstep
    | commit i =>
      simp only [Sys.step?] at hstep
      split at hstep
      · rename_i a l view hi
        obtain rfl := Option.some.inj hstep
        exact hJ s i a l view hi hcond hs.inv (hs.ready hi) ih
      · cases hstep
    | abort i =>
      simp only [Sys.step?] at hstep
      split at hstep
      · obtain rfl := Option.some.inj hstep
        exact ih
      · cases hstep

end Pact

end Txn
