/-
Laws of single rows.

A law `J` of a store that every row with `P` keeps is kept by any interleaving of
programs that write only rows with `P`.  What a program writes may depend on what it
read, so a program is only asked about stores in which the law holds: `Keeps` follows
`Emits` with this assumption on every store that is read.  No lock and no isolation
level is needed.
-/
import ChoraMem.Txn.Alone
import ChoraMem.Txn.Rely

namespace Txn

variable {D W K ε α β RK : Type}

namespace Prog

/-- Reading stores with `J` only, the program writes rows with `P` only. -/
def Keeps (J : D → Prop) (P : W → Prop) : Prog D W K ε α → Prop
  | ret _ => True
  | fail _ => True
  | read k => ∀ d, J d → Keeps J P (k d)
  | write w k => ∀ d, J d → (∀ x ∈ w d, P x) ∧ Keeps J P (k d)
  | lock _ k => Keeps J P k

variable {J : D → Prop} {P : W → Prop}

theorem Keeps.of_emits {p : Prog D W K ε α} (h : p.Emits P) : p.Keeps J P := by
  induction p with
  | ret a => exact trivial
  | fail e => exact trivial
  | read k ih => exact fun d _ => ih d (h d)
  | write w k ih => exact fun d _ => ⟨h.1 d, ih d (h.2 d)⟩
  | lock key k ih => exact ih h

theorem Keeps.bind {p : Prog D W K ε α} {f : α → Prog D W K ε β} (hp : p.Keeps J P)
    (hf : ∀ a, (f a).Keeps J P) : (p >>= f).Keeps J P := by
  change (p.bind f).Keeps J P
  induction p with
  | ret a => exact hf a
  | fail e => exact trivial
  | read k ih => exact fun d hd => ih d (hp d hd)
  | write w k ih => exact fun d hd => ⟨(hp d hd).1, ih d (hp d hd).2⟩
  | lock key k ih => exact ih hp

theorem Keeps.select {q : D → α} {f : α → Prog D W K ε β} (h : ∀ d, J d → (f (q d)).Keeps J P) :
    (Prog.select q >>= f).Keeps J P :=
  fun d hd => h d hd

theorem Keeps.statement {w : D → List W} {q : D → α} {f : α → Prog D W K ε β}
    (hw : ∀ d, J d → ∀ x ∈ w d, P x) (h : ∀ d, J d → (f (q d)).Keeps J P) :
    (Prog.statement w q >>= f).Keeps J P :=
  fun d hd => ⟨hw d hd, h d hd⟩

/-- As `Keeps`, and what the program returns has `Q`. -/
def Returns (J : D → Prop) (P : W → Prop) (Q : α → Prop) : Prog D W K ε α → Prop
  | ret a => Q a
  | fail _ => True
  | read k => ∀ d, J d → Returns J P Q (k d)
  | write w k => ∀ d, J d → (∀ x ∈ w d, P x) ∧ Returns J P Q (k d)
  | lock _ k => Returns J P Q k

theorem Returns.after {Q : α → Prop} {p : Prog D W K ε α} {f : α → Prog D W K ε β}
    (hp : p.Returns J P Q) (hf : ∀ a, Q a → (f a).Keeps J P) : (p >>= f).Keeps J P := by
  change (p.bind f).Keeps J P
  induction p with
  | ret a => exact hf a hp
  | fail e => exact trivial
  | read k ih => exact fun d hd => ih d (hp d hd)
  | write w k ih => exact fun d hd => ⟨(hp d hd).1, ih d (hp d hd).2⟩
  | lock key k ih => exact ih hp

theorem Returns.bind {Q : α → Prop} {R : β → Prop} {p : Prog D W K ε α} {f : α → Prog D W K ε β}
    (hp : p.Returns J P Q) (hf : ∀ a, Q a → (f a).Returns J P R) : (p >>= f).Returns J P R := by
  change (p.bind f).Returns J P R
  induction p with
  | ret a => exact hf a hp
  | fail e => exact trivial
  | read k ih => exact fun d hd => ih d (hp d hd)
  | write w k ih => exact fun d hd => ⟨(hp d hd).1, ih d (hp d hd).2⟩
  | lock key k ih => exact ih hp

theorem Returns.select {R : β → Prop} {q : D → α} {f : α → Prog D W K ε β}
    (h : ∀ d, J d → (f (q d)).Returns J P R) : (Prog.select q >>= f).Returns J P R :=
  fun d hd => h d hd

theorem Returns.of_keeps {p : Prog D W K ε α} (h : p.Keeps J P) : p.Returns J P fun _ => True := by
  induction p with
  | ret a => exact trivial
  | fail e => exact trivial
  | read k ih => exact fun d hd => ih d (h d hd)
  | write w k ih => exact fun d hd => ⟨(h d hd).1, ih d (h d hd).2⟩
  | lock key k ih => exact ih h

theorem Returns.keeps {Q : α → Prop} {p : Prog D W K ε α} (h : p.Returns J P Q) : p.Keeps J P := by
  induction p with
  | ret a => exact trivial
  | fail e => exact trivial
  | read k ih => exact fun d hd => ih d (h d hd)
  | write w k ih => exact fun d hd => ⟨(h d hd).1, ih d (h d hd).2⟩
  | lock key k ih => exact ih h

end Prog

section

variable [Journal D W RK] {J : D → Prop} {P : W → Prop}

theorem law_applyAll (hlaw : ∀ d w, J d → P w → J (Journal.apply d w)) {d : D} {log : List W}
    (hd : J d) (hlog : ∀ w ∈ log, P w) : J (applyAll d log) := by
  induction log generalizing d with
  | nil => exact hd
  | cons w rest ih =>
    exact ih (hlaw d w hd (hlog w List.mem_cons_self)) fun x hx => hlog x (List.mem_cons_of_mem _ hx)

/-- What holds of a running transaction that keeps the law. -/
structure Thread.Lawful (J : D → Prop) (P : W → Prop) (p : Prog D W K ε α) (l : Local W K)
    (view : Option D) : Prop where
  keeps : p.Keeps J P
  log : ∀ w ∈ l.log, P w
  view : ∀ v, view = some v → J v

/-- The store and every running transaction keep the law. -/
structure Sys.Lawful (J : D → Prop) (P : W → Prop) (s : Sys D W K ε α) : Prop where
  db : J s.db
  threads : ∀ (i : Nat) p l v, s.threads[i]? = some (.running p l v) → Thread.Lawful J P p l v

variable [DecidableEq K] [DecidableEq RK] {iso : Isolation} {s s' : Sys D W K ε α}

omit [DecidableEq K] in
theorem Sys.Lawful.set (h : s.Lawful J P) {d : D} (hd : J d) {i : Nat} {t : Thread D W K ε α}
    (ht : ∀ p l v, t = .running p l v → Thread.Lawful J P p l v) :
    Sys.Lawful J P { db := d, threads := s.threads.set i t } where
  db := hd
  threads := by
    intro j p l v hj
    rcases Rely.running_of_set hj with ⟨_, hj⟩ | ⟨_, hj⟩
    · exact ht p l v hj
    · exact h.threads j p l v hj

theorem Thread.Lawful.advance (hlaw : ∀ d w, J d → P w → J (Journal.apply d w)) (h : s.Lawful J P)
    {i : Nat} {t t' : Thread D W K ε α} (hi : s.threads[i]? = some t)
    (hadv : t.advance? iso s.db (s.others i) = some t') :
    ∀ p l v, t' = .running p l v → Thread.Lawful J P p l v := by
  rintro p l v rfl
  rcases Rely.advance_cases hadv with ⟨k, l', view, rfl, ht⟩ | ⟨w, k, l', view, rfl, _, ht⟩ |
    ⟨key, k, l', view, rfl, _, ht⟩
  · obtain ⟨hkeeps, hlog, hview⟩ := h.threads i _ _ _ hi
    injection ht with hp hl hv
    subst hp hl hv
    have hsnap : J (snapshot iso s.db view) := by
      cases iso with
      | readCommitted => exact h.db
      | repeatableRead =>
        cases view with
        | none => exact h.db
        | some v => exact hview v rfl
    refine ⟨hkeeps _ (law_applyAll hlaw hsnap hlog), hlog, ?_⟩
    intro v hv
    cases iso with
    | readCommitted => cases hv
    | repeatableRead =>
      cases view with
      | none => exact Option.some.inj hv ▸ h.db
      | some v' => exact hview v hv
  · obtain ⟨hkeeps, hlog, hview⟩ := h.threads i _ _ _ hi
    injection ht with hp hl hv
    subst hp hl hv
    have hstep := hkeeps _ (law_applyAll hlaw h.db hlog)
    refine ⟨hstep.2, fun x hx => ?_, hview⟩
    rcases List.mem_append.mp hx with hx | hx
    · exact hlog x hx
    · exact hstep.1 x hx
  · obtain ⟨hkeeps, hlog, hview⟩ := h.threads i _ _ _ hi
    injection ht with hp hl hv
    subst hp hl hv
    exact ⟨hkeeps, hlog, hview⟩

theorem Sys.Lawful.step {starts : Prog D W K ε α → Prop}
    (hlaw : ∀ d w, J d → P w → J (Journal.apply d w)) (hstarts : ∀ p, starts p → p.Keeps J P)
    (h : s.Lawful J P) {act : Act D W K ε α} (hstart : ∀ p, act = .start p → starts p)
    (hstep : s.step? iso act = some s') : s'.Lawful J P := by
  cases act with
  | start p =>
    obtain rfl := Option.some.inj hstep
    refine ⟨h.db, fun j p' l v hj => ?_⟩
    rcases List.mem_append.mp (List.mem_of_getElem? hj) with hm | hm
    · obtain ⟨k, hk⟩ := List.getElem?_of_mem hm
      exact h.threads k p' l v hk
    · rw [List.mem_singleton] at hm
      injection hm with hp hl hv
      subst hp hl hv
      exact ⟨hstarts _ (hstart _ rfl), fun w hw => absurd hw List.not_mem_nil, fun v hv => by cases hv⟩
  | step i =>
    simp only [Sys.step?] at hstep
    split at hstep
    · rename_i t hi
      split at hstep
      · rename_i t' hadv
        obtain rfl := Option.some.inj hstep
        exact h.set h.db (Thread.Lawful.advance hlaw h hi hadv)
      · cases hstep
    · cases hstep
  | commit i =>
    simp only [Sys.step?] at hstep
    split at hstep
    · rename_i a l v hi
      obtain rfl := Option.some.inj hstep
      exact h.set (law_applyAll hlaw h.db (h.threads i _ l v hi).log) fun p l v ht => by cases ht
    · cases hstep
  | abort i =>
    simp only [Sys.step?] at hstep
    split at hstep
    · obtain rfl := Option.some.inj hstep
      exact h.set h.db fun p l v ht => by cases ht
    · cases hstep

/-- Every interleaving keeps the law, at either isolation level. -/
theorem reach_lawful {starts : Prog D W K ε α → Prop} {cond : Sys D W K ε α → Act D W K ε α → Prop}
    (hlaw : ∀ d w, J d → P w → J (Journal.apply d w)) (hstarts : ∀ p, starts p → p.Keeps J P) {d₀ : D}
    (h₀ : J d₀) (h : ReachIf iso starts cond ⟨d₀, []⟩ s) : s.Lawful J P := by
  induction h with
  | start => exact ⟨h₀, fun i p l v hi => by cases hi⟩
  | step _ hstart _ hstep ih => exact ih.step hlaw hstarts hstart hstep

end

end Txn
