/-
Rely reasoning about interleaved transactions.

A `Rely` says what a transaction may count on while it runs: an invariant of the
committed store, how the others may change the store under its locks and its
written keys, and how far a fixed read view still agrees with the store.  `Safe`
is the weakest condition under which every run of a program, interrupted at every
statement by any permitted change, ends with its postcondition.  `soundness`
concludes for any number of interleaved transactions: if each is safe alone
against the rely, and its postcondition makes its commit a permitted change, then
the invariant holds in every state reached.
-/
import ChoraMem.Txn.Interleave

namespace Txn

variable {D W K RK : Type} [Journal D W RK]

/-- Two running transactions hold no lock and no unique key in common. -/
structure Apart (l l' : Local W K) : Prop where
  locks : ∀ k ∈ l.held, k ∉ l'.held
  keys : ∀ r ∈ logKeys D l.log, r ∉ logKeys D l'.log

theorem Apart.symm {l l' : Local W K} (h : Apart (D := D) l l') : Apart (D := D) l' l :=
  ⟨fun k hk hk' => h.locks k hk' hk, fun q hq hq' => h.keys q hq' hq⟩

variable (D W K) in
structure Rely where
  /-- The invariant of the committed store. -/
  inv : D → Prop
  /-- How others may change the store while a transaction has gathered this much. -/
  rel : Local W K → D → D → Prop
  /-- How a fixed view agrees with the store under these locks. -/
  sees : List K → D → D → Prop
  /-- What taking a lock asks of a view that is already fixed. -/
  fresh : K → D → D → Prop
  refl : ∀ l d, rel l d d
  trans : ∀ l d d' d'', rel l d d' → rel l d' d'' → rel l d d''
  sees_refl : ∀ held d, sees held d d
  sees_rel : ∀ l v d d', sees l.held v d → rel l d d' → sees l.held v d'
  sees_lock : ∀ held key v d, sees held v d → fresh key v d → sees (key :: held) v d

namespace Rely

variable {ε α β : Type} (r : Rely D W K)

/-- The store may have become `d'` since `d`. -/
def Later (l : Local W K) (d d' : D) : Prop := r.rel l d d' ∧ r.inv d'

theorem Later.trans {l : Local W K} {d d' d'' : D} (h : r.Later l d d') (h' : r.Later l d' d'') :
    r.Later l d d'' :=
  ⟨r.trans l d d' d'' h.1 h'.1, h'.2⟩

/-- Every interrupted run of `p`, from the store `d` and what its transaction has
gathered, ends with `Q` or fails. -/
def Safe : Prog D W K ε α → (α → Local W K → D → Prop) → Local W K → D → Prop
  | .ret a, Q, l, d => ∀ d', r.Later l d d' → Q a l d'
  | .fail _, _, _, _ => True
  | .read k, Q, l, d =>
    ∀ d' v, r.Later l d d' → r.sees l.held v d' → Safe (k (applyAll v l.log)) Q l d'
  | .write w k, Q, l, d =>
    ∀ d', r.Later l d d' →
      Safe (k (applyAll d' l.log)) Q { l with log := l.log ++ w (applyAll d' l.log) } d'
  | .lock key k, Q, l, d =>
    ∀ d', r.Later l d d' → Safe k Q { l with held := key :: l.held } d'

variable {r}

/-! ## Rules -/

theorem Safe.later {p : Prog D W K ε α} {Q : α → Local W K → D → Prop} {l : Local W K} {d d' : D}
    (h : r.Safe p Q l d) (hl : r.Later l d d') : r.Safe p Q l d' := by
  cases p with
  | ret a => exact fun d'' h' => h d'' (hl.trans r h')
  | fail e => exact trivial
  | read k => exact fun d'' v h' hs => h d'' v (hl.trans r h') hs
  | write w k => exact fun d'' h' => h d'' (hl.trans r h')
  | lock key k => exact fun d'' h' => h d'' (hl.trans r h')

theorem Safe.conseq {p : Prog D W K ε α} {Q Q' : α → Local W K → D → Prop} {l : Local W K} {d : D}
    (h : r.Safe p Q l d) (hQ : ∀ a l d, Q a l d → Q' a l d) : r.Safe p Q' l d := by
  induction p generalizing l d with
  | ret a => exact fun d' h' => hQ _ _ _ (h d' h')
  | fail e => exact trivial
  | read k ih => exact fun d' v h' hs => ih _ (h d' v h' hs)
  | write w k ih => exact fun d' h' => ih _ (h d' h')
  | lock key k ih => exact fun d' h' => ih (h d' h')

/-- Sequencing: the rest is safe wherever the first part ends. -/
theorem Safe.bind {p : Prog D W K ε α} {f : α → Prog D W K ε β}
    {Q : β → Local W K → D → Prop} {l : Local W K} {d : D} (hd : r.inv d)
    (h : r.Safe p (fun a l d => r.inv d → r.Safe (f a) Q l d) l d) :
    r.Safe (p >>= f) Q l d := by
  change r.Safe (p.bind f) Q l d
  induction p generalizing l d with
  | ret a => exact h d ⟨r.refl l d, hd⟩ hd
  | fail e => exact trivial
  | read k ih => exact fun d' v h' hs => ih _ h'.2 (h d' v h' hs)
  | write w k ih => exact fun d' h' => ih _ h'.2 (h d' h')
  | lock key k ih => exact fun d' h' => ih h'.2 (h d' h')

theorem Safe.select {q : D → α} {f : α → Prog D W K ε β} {Q : β → Local W K → D → Prop}
    {l : Local W K} {d : D}
    (h : ∀ d' v, r.Later l d d' → r.sees l.held v d' → r.Safe (f (q (applyAll v l.log))) Q l d') :
    r.Safe (Prog.select q >>= f) Q l d :=
  fun d' v h' hs => h d' v h' hs

theorem Safe.statement {w : D → List W} {q : D → α} {f : α → Prog D W K ε β}
    {Q : β → Local W K → D → Prop} {l : Local W K} {d : D}
    (h : ∀ d', r.Later l d d' → r.Safe (f (q (applyAll d' l.log))) Q
      { l with log := l.log ++ w (applyAll d' l.log) } d') :
    r.Safe (Prog.statement w q >>= f) Q l d :=
  fun d' h' => h d' h'

theorem Safe.acquire {key : K} {f : Unit → Prog D W K ε β} {Q : β → Local W K → D → Prop}
    {l : Local W K} {d : D}
    (h : ∀ d', r.Later l d d' → r.Safe (f ()) Q { l with held := key :: l.held } d') :
    r.Safe (Prog.acquire key >>= f) Q l d :=
  fun d' h' => h d' h'

theorem Safe.and {p : Prog D W K ε α} {Q Q' : α → Local W K → D → Prop} {l : Local W K} {d : D}
    (h : r.Safe p Q l d) (h' : r.Safe p Q' l d) :
    r.Safe p (fun a l d => Q a l d ∧ Q' a l d) l d := by
  induction p generalizing l d with
  | ret a => exact fun d' hd => ⟨h d' hd, h' d' hd⟩
  | fail e => exact trivial
  | read k ih => exact fun d' v hd hs => ih _ (h d' v hd hs) (h' d' v hd hs)
  | write w k ih => exact fun d' hd => ih _ (h d' hd) (h' d' hd)
  | lock key k ih => exact fun d' hd => ih (h d' hd) (h' d' hd)

/-- Wherever a program ends, the store is in its invariant. -/
theorem Safe.and_inv {p : Prog D W K ε α} {Q : α → Local W K → D → Prop} {l : Local W K} {d : D}
    (h : r.Safe p Q l d) : r.Safe p (fun a l d => Q a l d ∧ r.inv d) l d := by
  induction p generalizing l d with
  | ret a => exact fun d' hd => ⟨h d' hd, hd.2⟩
  | fail e => exact trivial
  | read k ih => exact fun d' v hd hs => ih _ (h d' v hd hs)
  | write w k ih => exact fun d' hd => ih _ (h d' hd)
  | lock key k ih => exact fun d' hd => ih (h d' hd)

/-- A program that only writes rows with `P` keeps what such rows, locks and the
others keep. -/
theorem Safe.of_emits {P : W → Prop} {J : Local W K → D → Prop} {p : Prog D W K ε α}
    (hp : p.Emits P) (hlater : ∀ l d d', J l d → r.Later l d d' → J l d')
    (hwrite : ∀ l d ws, J l d → (∀ w ∈ ws, P w) → J { l with log := l.log ++ ws } d)
    (hlock : ∀ l d key, J l d → J { l with held := key :: l.held } d) {l : Local W K} {d : D}
    (h : J l d) : r.Safe p (fun _ l d => J l d) l d := by
  induction p generalizing l d with
  | ret a => exact fun d' h' => hlater l d d' h h'
  | fail e => exact trivial
  | read k ih => exact fun d' v h' _ => ih _ (hp _) (hlater l d d' h h')
  | write w k ih =>
    exact fun d' h' => ih _ (hp.2 _) (hwrite l d' _ (hlater l d d' h h') (hp.1 _))
  | lock key k ih => exact fun d' h' => ih hp (hlock l d' key (hlater l d d' h h'))

/-- What a program adds to the log is what it may write. -/
theorem Safe.logs {P : W → Prop} {p : Prog D W K ε α} (hp : p.Emits P) (l : Local W K) (d : D) :
    r.Safe p (fun _ l' _ => ∃ more, l'.log = l.log ++ more ∧ ∀ w ∈ more, P w) l d := by
  refine Safe.of_emits (J := fun l' _ => ∃ more, l'.log = l.log ++ more ∧ ∀ w ∈ more, P w) hp
    (fun _ _ _ h _ => h) ?_ (fun _ _ _ h => h) ⟨[], (List.append_nil _).symm, by simp⟩
  rintro l' _ ws ⟨more, hlog, hmore⟩ hws
  refine ⟨more ++ ws, ?_, fun w hw => (List.mem_append.mp hw).elim (hmore w) (hws w)⟩
  rw [hlog, List.append_assoc]

/-- A transaction keeps its locks. -/
theorem Safe.holds (p : Prog D W K ε α) (l : Local W K) (d : D) :
    r.Safe p (fun _ l' _ => ∀ k ∈ l.held, k ∈ l'.held) l d := by
  suffices h : ∀ l', (∀ k ∈ l.held, k ∈ l'.held) →
      r.Safe p (fun _ l' _ => ∀ k ∈ l.held, k ∈ l'.held) l' d from h l fun _ hk => hk
  intro l' hl'
  induction p generalizing l' d with
  | ret a => exact fun d' _ => hl'
  | fail e => exact trivial
  | read k ih => exact fun d' v _ _ => ih _ d' l' hl'
  | write w k ih => exact fun d' _ => ih _ d' _ hl'
  | lock key k ih => exact fun d' _ => ih d' _ fun q hq => List.mem_cons_of_mem _ (hl' q hq)

/-- What the others keep of the store, every program keeps. -/
theorem Safe.stable {J : D → Prop} (hlater : ∀ l d d', J d → r.Later l d d' → J d')
    (p : Prog D W K ε α) {l : Local W K} {d : D} (h : J d) : r.Safe p (fun _ _ d => J d) l d := by
  induction p generalizing l d with
  | ret a => exact fun d' h' => hlater l d d' h h'
  | fail e => exact trivial
  | read k ih => exact fun d' v h' _ => ih _ (hlater l d d' h h')
  | write w k ih => exact fun d' h' => ih _ (hlater l d d' h h')
  | lock key k ih => exact fun d' h' => ih (hlater l d d' h h')

/-- A loop keeps what each of its rounds keeps. -/
theorem Safe.forEach {J : Local W K → D → Prop} {f : α → Prog D W K ε Unit} {as : List α}
    (hlater : ∀ l d d', J l d → r.Later l d d' → J l d')
    (hf : ∀ a ∈ as, ∀ l d, r.inv d → J l d → r.Safe (f a) (fun _ l d => J l d) l d)
    {l : Local W K} {d : D} (hd : r.inv d) (h : J l d) :
    r.Safe (Prog.forEach f as) (fun _ l d => J l d) l d := by
  induction as generalizing l d with
  | nil => exact fun d' h' => hlater l d d' h h'
  | cons a rest ih =>
    refine Safe.bind hd ((hf a List.mem_cons_self l d hd h).conseq fun _ l d hJ hd => ?_)
    exact ih (fun b hb => hf b (List.mem_cons_of_mem _ hb)) hd hJ

/-! ## A safe program run alone -/

theorem Safe.exec {p : Prog D W K ε α} {Q : α → Local W K → D → Prop} {l : Local W K} {d : D}
    (hd : r.inv d) (h : r.Safe p Q l d) {a : α} {log : List W}
    (hrun : Prog.exec d p l.log = .ok (a, log)) : ∃ held, Q a ⟨held, log⟩ d := by
  have hrefl : ∀ l, r.Later l d d := fun l => ⟨r.refl l d, hd⟩
  induction p generalizing l with
  | ret b =>
    obtain ⟨rfl, rfl⟩ := Prod.mk.inj (Except.ok.inj hrun)
    exact ⟨l.held, h d (hrefl l)⟩
  | fail e => cases hrun
  | read k ih => exact ih _ (h d d (hrefl l) (r.sees_refl _ d)) hrun
  | write w k ih => exact ih _ (h d (hrefl l)) hrun
  | lock key k ih => exact ih (h d (hrefl l)) hrun

/-! ## Soundness for a system -/

/-- A transaction that has gathered `l` may commit: the store stays in its
invariant and every other running transaction sees a permitted change. -/
def Commits (r : Rely D W K) (l : Local W K) (d : D) : Prop :=
  r.inv (applyAll d l.log) ∧ ∀ l', Apart (D := D) l l' → r.rel l' d (applyAll d l.log)

variable (r) in
/-- What holds of a system while its transactions run. -/
structure Sound (Q : α → Local W K → D → Prop) (s : Sys D W K ε α) : Prop where
  inv : r.inv s.db
  safe : ∀ (i : Nat) p l v, s.threads[i]? = some (.running p l v) → r.Safe p Q l s.db
  view : ∀ (i : Nat) p l v, s.threads[i]? = some (.running p l (some v)) → r.sees l.held v s.db
  apart : ∀ (i j : Nat) p l v p' l' v', i ≠ j → s.threads[i]? = some (.running p l v) →
    s.threads[j]? = some (.running p' l' v') → Apart (D := D) l l'

theorem mem_others {s : Sys D W K ε α} {i j : Nat} (hij : i ≠ j) {p : Prog D W K ε α}
    {l : Local W K} {v : Option D} (hj : s.threads[j]? = some (.running p l v)) :
    l ∈ s.others i := by
  refine List.mem_filterMap.mpr ⟨.running p l v, ?_, rfl⟩
  rw [List.mem_eraseIdx_iff_getElem?]
  exact ⟨j, Ne.symm hij, hj⟩

/-- A transaction list in which the `i`-th thread moved on to `t`. -/
theorem running_of_set {ts : List (Thread D W K ε α)} {t : Thread D W K ε α} {i j : Nat}
    {p : Prog D W K ε α} {l : Local W K} {v : Option D}
    (h : (ts.set i t)[j]? = some (.running p l v)) :
    (i = j ∧ t = .running p l v) ∨ (i ≠ j ∧ ts[j]? = some (.running p l v)) := by
  by_cases hij : i = j
  · subst hij
    rw [List.getElem?_set] at h
    by_cases hlt : i < ts.length
    · rw [if_pos rfl, if_pos hlt] at h
      exact Or.inl ⟨rfl, Option.some.inj h⟩
    · rw [if_pos rfl, if_neg hlt] at h
      cases h
  · rw [List.getElem?_set_ne hij] at h
    exact Or.inr ⟨hij, h⟩

section

variable {Q : α → Local W K → D → Prop} {s : Sys D W K ε α}

/-- One transaction moved on to a state that is safe, agrees with its view and is
apart from the others. -/
theorem Sound.set_running (h : r.Sound Q s) {i : Nat} {p : Prog D W K ε α} {l : Local W K}
    {view : Option D} (hsafe : r.Safe p Q l s.db) (hview : ∀ v, view = some v → r.sees l.held v s.db)
    (hapart : ∀ o ∈ s.others i, Apart (D := D) l o) :
    r.Sound Q { s with threads := s.threads.set i (.running p l view) } where
  inv := h.inv
  safe := by
    intro j p' l' v' hj
    rcases running_of_set hj with ⟨_, ht⟩ | ⟨_, hj⟩
    · injection ht with hp hl hv
      subst hp hl hv
      exact hsafe
    · exact h.safe j p' l' v' hj
  view := by
    intro j p' l' v' hj
    rcases running_of_set hj with ⟨_, ht⟩ | ⟨_, hj⟩
    · injection ht with hp hl hv
      subst hp hl
      exact hview v' hv
    · exact h.view j p' l' v' hj
  apart := by
    intro j k p₁ l₁ v₁ p₂ l₂ v₂ hjk hj hk
    rcases running_of_set hj with ⟨hij, ht⟩ | ⟨hij, hj⟩ <;>
      rcases running_of_set hk with ⟨hik, ht'⟩ | ⟨hik, hk⟩
    · exact absurd (hij.symm.trans hik) hjk
    · injection ht with _ hl _
      subst hl
      exact hapart l₂ (mem_others hik hk)
    · injection ht' with _ hl _
      subst hl
      exact (hapart l₁ (mem_others hij hj)).symm
    · exact h.apart j k p₁ l₁ v₁ p₂ l₂ v₂ hjk hj hk

/-- One transaction ended, and left a store that the others permit. -/
theorem Sound.set_ended (h : r.Sound Q s) {i : Nat} {t : Thread D W K ε α} {d : D}
    (ht : t.local? = none) (hinv : r.inv d)
    (hrel : ∀ j p l v, i ≠ j → s.threads[j]? = some (.running p l v) → r.rel l s.db d) :
    r.Sound Q { db := d, threads := s.threads.set i t } where
  inv := hinv
  safe := by
    intro j p l v hj
    rcases running_of_set hj with ⟨_, rfl⟩ | ⟨hij, hj⟩
    · cases ht
    · exact (h.safe j p l v hj).later ⟨hrel j p l v hij hj, hinv⟩
  view := by
    intro j p l v hj
    rcases running_of_set hj with ⟨_, rfl⟩ | ⟨hij, hj⟩
    · cases ht
    · exact r.sees_rel l v s.db d (h.view j p l v hj) (hrel j p l (some v) hij hj)
  apart := by
    intro j k p₁ l₁ v₁ p₂ l₂ v₂ hjk hj hk
    rcases running_of_set hj with ⟨_, rfl⟩ | ⟨_, hj⟩
    · cases ht
    · rcases running_of_set hk with ⟨_, rfl⟩ | ⟨_, hk⟩
      · cases ht
      · exact h.apart j k p₁ l₁ v₁ p₂ l₂ v₂ hjk hj hk

theorem Sound.start (h : r.Sound Q s) {p : Prog D W K ε α} (hp : r.Safe p Q ⟨[], []⟩ s.db) :
    r.Sound Q { s with threads := s.threads ++ [.running p ⟨[], []⟩ none] } := by
  have hrun : ∀ {j : Nat} {p' : Prog D W K ε α} {l : Local W K} {v : Option D},
      (s.threads ++ [.running p ⟨[], []⟩ none])[j]? = some (.running p' l v) →
      s.threads[j]? = some (.running p' l v) ∨
        (j = s.threads.length ∧ p' = p ∧ l = ⟨[], []⟩ ∧ v = none) := by
    intro j p' l v hj
    rw [List.getElem?_append] at hj
    by_cases hlt : j < s.threads.length
    · rw [if_pos hlt] at hj
      exact Or.inl hj
    · rw [if_neg hlt, List.getElem?_singleton] at hj
      by_cases hz : j - s.threads.length = 0
      · rw [if_pos hz] at hj
        injection hj with hj
        injection hj with h1 h2 h3
        exact Or.inr ⟨by omega, h1.symm, h2.symm, h3.symm⟩
      · rw [if_neg hz] at hj
        cases hj
  have hnil : ∀ l : Local W K, Apart (D := D) ⟨[], []⟩ l := fun l =>
    ⟨fun k hk => absurd hk List.not_mem_nil, fun q hq => absurd hq List.not_mem_nil⟩
  constructor
  · exact h.inv
  · intro j p' l v hj
    rcases hrun hj with hj | ⟨_, rfl, rfl, _⟩
    · exact h.safe j p' l v hj
    · exact hp
  · intro j p' l v hj
    rcases hrun hj with hj | ⟨_, _, _, hv⟩
    · exact h.view j p' l v hj
    · cases hv
  · intro j k p₁ l₁ v₁ p₂ l₂ v₂ hjk hj hk
    rcases hrun hj with hj | ⟨hj, _, rfl, _⟩
    · rcases hrun hk with hk | ⟨_, _, rfl, _⟩
      · exact h.apart j k p₁ l₁ v₁ p₂ l₂ v₂ hjk hj hk
      · exact (hnil l₁).symm
    · exact hnil l₂

end

section

variable [DecidableEq K] [DecidableEq RK]
variable {Q : α → Local W K → D → Prop} {s s' : Sys D W K ε α} {iso : Isolation}

/-- What one statement does, by its kind. -/
theorem advance_cases {db : D} {others : List (Local W K)} {t t' : Thread D W K ε α}
    (h : t.advance? iso db others = some t') :
    (∃ k l view, t = .running (.read k) l view ∧
      t' = .running (k (applyAll (snapshot iso db view) l.log)) l (viewAfter iso db view)) ∨
    (∃ w k l view, t = .running (.write w k) l view ∧
      (∀ o ∈ others, ∀ q ∈ logKeys D (w (applyAll db l.log)), q ∉ logKeys D o.log) ∧
      t' = .running (k (applyAll db l.log)) { l with log := l.log ++ w (applyAll db l.log) } view) ∨
    (∃ key k l view, t = .running (.lock key k) l view ∧ (∀ o ∈ others, key ∉ o.held) ∧
      t' = .running k { l with held := key :: l.held } view) := by
  cases t with
  | committed a => cases h
  | aborted => cases h
  | running p l view =>
    cases p with
    | ret a => cases h
    | fail e => cases h
    | read k => exact Or.inl ⟨k, l, view, rfl, (Option.some.inj h).symm⟩
    | write w k =>
      simp only [Thread.advance?] at h
      split at h
      · exact Or.inr (Or.inl ⟨w, k, l, view, rfl, ‹_›, (Option.some.inj h).symm⟩)
      · cases h
    | lock key k =>
      simp only [Thread.advance?] at h
      split at h
      · exact Or.inr (Or.inr ⟨key, k, l, view, rfl, ‹_›, (Option.some.inj h).symm⟩)
      · cases h

theorem Sound.advance (h : r.Sound Q s) {i : Nat} {t t' : Thread D W K ε α}
    (hi : s.threads[i]? = some t) (hfresh : locksFresh r.fresh s (.step i))
    (hadv : t.advance? iso s.db (s.others i) = some t') :
    r.Sound Q { s with threads := s.threads.set i t' } := by
  have hnow : ∀ l, r.Later l s.db s.db := fun l => ⟨r.refl l s.db, h.inv⟩
  have hothers : ∀ {p l v}, s.threads[i]? = some (.running p l v) →
      ∀ o ∈ s.others i, Apart (D := D) l o := by
    intro p l v hp o ho
    obtain ⟨t, ht, hl⟩ := List.mem_filterMap.mp ho
    obtain ⟨j, hij, hj⟩ := List.mem_eraseIdx_iff_getElem?.mp ht
    cases t with
    | running p' l' v' =>
      obtain rfl := Option.some.inj hl
      exact h.apart i j p l v p' l' v' (Ne.symm hij) hp hj
    | committed a => cases hl
    | aborted => cases hl
  rcases advance_cases hadv with ⟨k, l, view, rfl, rfl⟩ | ⟨w, k, l, view, rfl, hkeys, rfl⟩ |
    ⟨key, k, l, view, rfl, hheld, rfl⟩
  · -- A query: a view that is fixed agrees with the store, the first one is the store.
    have hsees : r.sees l.held (snapshot iso s.db view) s.db := by
      cases iso with
      | readCommitted => exact r.sees_refl _ _
      | repeatableRead =>
        cases view with
        | none => exact r.sees_refl _ _
        | some v => exact h.view i _ l v hi
    refine h.set_running (h.safe i _ l view hi s.db _ (hnow l) hsees) ?_ (hothers hi)
    intro v hv
    cases iso with
    | readCommitted => cases hv
    | repeatableRead => exact Option.some.inj hv ▸ hsees
  · refine h.set_running (h.safe i _ l view hi s.db (hnow l)) ?_ ?_
    · intro v hv
      exact h.view i _ l v (hv ▸ hi)
    · intro o ho
      refine ⟨(hothers hi o ho).locks, fun q hq => ?_⟩
      unfold logKeys at hq
      rw [List.flatMap_append, List.mem_append] at hq
      rcases hq with hq | hq
      · exact (hothers hi o ho).keys q hq
      · exact hkeys o ho q hq
  · refine h.set_running (h.safe i _ l view hi s.db (hnow l)) ?_ ?_
    · intro v hv
      subst hv
      refine r.sees_lock _ _ _ _ (h.view i _ l v hi) ?_
      simpa only [locksFresh, hi] using hfresh
    · intro o ho
      refine ⟨fun k' hk' => ?_, (hothers hi o ho).keys⟩
      rcases List.mem_cons.mp hk' with rfl | hk'
      · exact hheld o ho
      · exact (hothers hi o ho).locks k' hk'

/-- One step of a system keeps it sound. -/
theorem Sound.step {starts : Prog D W K ε α → Prop}
    (hstarts : ∀ p, starts p → ∀ d, r.inv d → r.Safe p Q ⟨[], []⟩ d)
    (hQ : ∀ a l d, r.inv d → Q a l d → r.Commits l d) (h : r.Sound Q s) {act : Act D W K ε α}
    (hstart : ∀ p, act = .start p → starts p) (hfresh : locksFresh r.fresh s act)
    (hstep : s.step? iso act = some s') : r.Sound Q s' := by
  have hnow : ∀ l, r.Later l s.db s.db := fun l => ⟨r.refl l s.db, h.inv⟩
  cases act with
  | start p =>
    obtain rfl := Option.some.inj hstep
    exact h.start (hstarts p (hstart p rfl) s.db h.inv)
  | step i =>
    simp only [Sys.step?] at hstep
    cases hi : s.threads[i]? with
    | none => rw [hi] at hstep; cases hstep
    | some t =>
      rw [hi] at hstep
      cases hadv : t.advance? iso s.db (s.others i) with
      | none => simp only [hadv] at hstep; cases hstep
      | some t' =>
        simp only [hadv] at hstep
        obtain rfl := Option.some.inj hstep
        exact h.advance hi hfresh hadv
  | commit i =>
    simp only [Sys.step?] at hstep
    split at hstep
    · rename_i a l view hi
      obtain rfl := Option.some.inj hstep
      obtain ⟨hinv, hrel⟩ := hQ a l s.db h.inv (h.safe i _ l view hi s.db (hnow l))
      refine h.set_ended rfl hinv fun j p l' v hij hj => hrel l' ?_
      exact h.apart i j _ l view p l' v hij hi hj
    · cases hstep
  | abort i =>
    simp only [Sys.step?] at hstep
    split at hstep
    · obtain rfl := Option.some.inj hstep
      exact h.set_ended rfl h.inv fun j p l v _ _ => r.refl l s.db
    · cases hstep

/-- Interleaved transactions that are safe against a rely, and commit within it,
keep its invariant in every state they reach. -/
theorem soundness {starts : Prog D W K ε α → Prop}
    (hstarts : ∀ p, starts p → ∀ d, r.inv d → r.Safe p Q ⟨[], []⟩ d)
    (hQ : ∀ a l d, r.inv d → Q a l d → r.Commits l d) {s₀ : Sys D W K ε α}
    (h₀ : r.Sound Q s₀) (h : ReachIf iso starts (locksFresh r.fresh) s₀ s) : r.Sound Q s := by
  induction h with
  | start => exact h₀
  | step _ hstart hcond hstep ih => exact ih.step hstarts hQ hstart hcond hstep

end

section

variable {Q : α → Local W K → D → Prop}

/-- A store in its invariant with no transaction yet is sound. -/
theorem Sound.init {d : D} (hd : r.inv d) : r.Sound Q (⟨d, []⟩ : Sys D W K ε α) where
  inv := hd
  safe := fun i p l v h => by cases h
  view := fun i p l v h => by cases h
  apart := fun i j p l v p' l' v' _ h => by cases h

end

/-! ## Read committed fixes no view -/

def Viewless (s : Sys D W K ε α) : Prop :=
  ∀ (i : Nat) p l v, s.threads[i]? = some (.running p l v) → v = none

omit [Journal D W RK] in
theorem Viewless.locksFresh {s : Sys D W K ε α} (h : Viewless s) {fresh : K → D → D → Prop}
    (act : Act D W K ε α) : locksFresh fresh s act := by
  cases act with
  | step i =>
    simp only [Txn.locksFresh]
    split
    · rename_i key k l v hi
      cases h i _ l (some v) hi
    · exact trivial
  | start p => exact trivial
  | commit i => exact trivial
  | abort i => exact trivial

section

variable [DecidableEq K] [DecidableEq RK]

theorem Viewless.step {s s' : Sys D W K ε α} {act : Act D W K ε α} (h : Viewless s)
    (hstep : s.step? .readCommitted act = some s') : Viewless s' := by
  have hset : ∀ (i : Nat) t, (∀ p l v, t = .running p l v → v = none) →
      ∀ db, Viewless (⟨db, s.threads.set i t⟩ : Sys D W K ε α) := by
    intro i t ht db j p l v hj
    rcases running_of_set hj with ⟨_, hj⟩ | ⟨_, hj⟩
    · exact ht p l v hj
    · exact h j p l v hj
  cases act with
  | start p =>
    obtain rfl := Option.some.inj hstep
    intro j p' l v hj
    rcases List.mem_append.mp (List.mem_of_getElem? hj) with hm | hm
    · obtain ⟨k, hk⟩ := List.getElem?_of_mem hm
      exact h k p' l v hk
    · rw [List.mem_singleton] at hm
      injection hm with _ _ hv
  | step i =>
    simp only [Sys.step?] at hstep
    split at hstep
    · rename_i t hi
      split at hstep
      · rename_i t' hadv
        obtain rfl := Option.some.inj hstep
        refine hset i t' ?_ _
        rintro p l v rfl
        rcases advance_cases hadv with ⟨k, l', view, rfl, ht⟩ | ⟨w, k, l', view, rfl, _, ht⟩ |
          ⟨key, k, l', view, rfl, _, ht⟩
        · injection ht
        · injection ht with _ _ hv
          exact hv.trans (h i _ _ _ hi)
        · injection ht with _ _ hv
          exact hv.trans (h i _ _ _ hi)
      · cases hstep
    · cases hstep
  | commit i =>
    simp only [Sys.step?] at hstep
    split at hstep
    · obtain rfl := Option.some.inj hstep
      exact hset i _ (fun p l v ht => by cases ht) _
    · cases hstep
  | abort i =>
    simp only [Sys.step?] at hstep
    split at hstep
    · obtain rfl := Option.some.inj hstep
      exact hset i _ (fun p l v ht => by cases ht) _
    · cases hstep

/-- Under read committed no lock is ever taken with a fixed view. -/
theorem reachIf_readCommitted {starts : Prog D W K ε α → Prop} {fresh : K → D → D → Prop}
    {s₀ s : Sys D W K ε α} (h₀ : Viewless s₀) (h : Reach .readCommitted starts s₀ s) :
    ReachIf .readCommitted starts (locksFresh fresh) s₀ s := by
  have hboth : ReachIf .readCommitted starts (locksFresh fresh) s₀ s ∧ Viewless s := by
    induction h with
    | start => exact ⟨.start, h₀⟩
    | @step s _ act _ hstart _ hstep ih =>
      exact ⟨.step ih.1 hstart (ih.2.locksFresh act) hstep, ih.2.step hstep⟩
  exact hboth.1

end

end Rely

end Txn
