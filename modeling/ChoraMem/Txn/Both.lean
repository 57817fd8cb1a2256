/-
Two pacts at once.

Transactions that keep two pacts may count on both.  What was shown of a program under
one of them holds under both, so the same program can be looked at twice, each time with
the invariant that matters, and the results be joined at its commit.
-/
import ChoraMem.Txn.Pact

namespace Txn

variable {D W K RK ε α : Type}

namespace Pact

/-- `r'` promises all that `r` does. -/
structure Implies [Journal D W RK] (r' r : Pact D W K) : Prop where
  inv : ∀ d, r'.inv d → r.inv d
  rel : ∀ l d d', r'.rel l d d' → r.rel l d d'

def both (r₁ r₂ : Pact D W K) : Pact D W K where
  inv := fun d => r₁.inv d ∧ r₂.inv d
  rel := fun l d d' => r₁.rel l d d' ∧ r₂.rel l d d'
  refl := fun l d => ⟨r₁.refl l d, r₂.refl l d⟩
  trans := fun l d d' d'' h h' => ⟨r₁.trans l d d' d'' h.1 h'.1, r₂.trans l d d' d'' h.2 h'.2⟩
  mono := fun l l' d d' hl h => ⟨r₁.mono l l' d d' hl h.1, r₂.mono l l' d d' hl h.2⟩

variable [Journal D W RK] {r r' r₁ r₂ : Pact D W K}

theorem Implies.refl (r : Pact D W K) : r.Implies r := ⟨fun _ h => h, fun _ _ _ h => h⟩

theorem implies_left (r₁ r₂ : Pact D W K) : (r₁.both r₂).Implies r₁ :=
  ⟨fun _ h => h.1, fun _ _ _ h => h.1⟩

theorem Between.implies {l : Local W K} {e e' d : D} (hr : r'.Implies r) (h : r'.Between l e e' d) :
    r.Between l e e' d :=
  ⟨hr.inv e' h.inv, hr.rel l e e' h.since, hr.rel l e' d h.before⟩

/-- Who may count on more ends no worse. -/
theorem Ends.implies {d : D} {p : Prog D W K ε α} {Q : α → Local W K → D → Prop} {l : Local W K}
    {e : D} (hr : r'.Implies r) (h : r.Ends d p Q l e) : r'.Ends d p Q l e := by
  induction p generalizing l e with
  | ret a => exact h
  | fail err => exact trivial
  | read k ih => exact fun e' he => ih _ (h e' (he.implies hr))
  | write w k ih =>
    exact fun e' he hw => ih _ (h e' (he.implies hr) (hr.rel _ e' d hw))
  | lock key k ih =>
    exact fun e' he hw => ih (h e' (he.implies hr) (hr.rel _ e' d hw))

theorem Commits.both {l : Local W K} {d : D} (h₁ : r₁.Commits l d) (h₂ : r₂.Commits l d) :
    (r₁.both r₂).Commits l d :=
  ⟨⟨h₁.1, h₂.1⟩, fun l' hl => ⟨h₁.2 l' hl, h₂.2 l' hl⟩⟩

end Pact

end Txn
