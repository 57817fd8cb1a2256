/-
Programs that ask others.

A program asks, and goes on with the answer.  What happens between two asks is not its
doing, and an ask may have been carried out although its answer is a failure.  So a program
is watched from outside: a watch has a place for everything the program is allowed to do
next, and says to which places an answer may lead.  A program that follows a watch never asks
what its place does not allow, whatever it is answered.
-/
import Mathlib.Data.List.Basic

namespace Dialog

/-- A result, or something to ask and what to do with the answer. -/
inductive Program {A : Type} (R : A → Type) (α : Type) : Type
  | ret (a : α)
  | ask (q : A) (k : R q → Program R α)

namespace Program

variable {A : Type} {R : A → Type} {α β : Type}

def bind : Program R α → (α → Program R β) → Program R β
  | ret a, f => f a
  | ask q k, f => ask q fun x => bind (k x) f

instance : Monad (Program R) where
  pure := ret
  bind := bind

/-- Ask, and be done with the answer. -/
def call (q : A) : Program R (R q) := ask q ret

@[simp] theorem pure_def (a : α) : (pure a : Program R α) = ret a := rfl

@[simp] theorem bind_def (p : Program R α) (f : α → Program R β) : p >>= f = bind p f := rfl

@[simp] theorem ret_bind (a : α) (f : α → Program R β) : bind (ret a) f = f a := rfl

@[simp] theorem call_bind (q : A) (f : R q → Program R β) : bind (call q) f = ask q f := rfl

end Program

/-- The asks that a place allows, and the places that an answer may lead to. -/
structure Watch {A : Type} (R : A → Type) (φ : Type) where
  allows : φ → A → Prop
  moves : φ → (q : A) → R q → φ → Prop

section

variable {A : Type} {R : A → Type} {α β φ : Type} (W : Watch R φ)

/-- From a place on, the program asks only what it may, and ends as `post` says. -/
def Follows (post : α → φ → Prop) : φ → Program R α → Prop
  | place, .ret a => post a place
  | place, .ask q k => W.allows place q ∧ ∀ x next, W.moves place q x next → Follows post next (k x)

variable {W} {post : α → φ → Prop} {place : φ}

theorem Follows.bind {p : Program R α} {f : α → Program R β} {post' : β → φ → Prop}
    (hp : Follows W post place p) (hf : ∀ a next, post a next → Follows W post' next (f a)) :
    Follows W post' place (p.bind f) := by
  induction p generalizing place with
  | ret a => exact hf a place hp
  | ask q k ih => exact ⟨hp.1, fun x next hmove => ih x (hp.2 x next hmove)⟩

theorem follows_ite {c : Prop} [Decidable c] {p p' : Program R α} (h : c → Follows W post place p)
    (h' : ¬c → Follows W post place p') : Follows W post place (if c then p else p') := by
  by_cases hc : c
  · rw [if_pos hc]
    exact h hc
  · rw [if_neg hc]
    exact h' hc

end

/-! ## Alone -/

section

variable {A : Type} {R : A → Type} {α β S : Type}

/-- The run of a program that nobody interferes with. -/
def Program.run (answer : S → (q : A) → R q × S) : S → Program R α → α × S
  | s, .ret a => (a, s)
  | s, .ask q k => (k (answer s q).1).run answer (answer s q).2

theorem Program.run_bind (answer : S → (q : A) → R q × S) (s : S) (p : Program R α)
    (f : α → Program R β) :
    (p.bind f).run answer s = (f (p.run answer s).1).run answer (p.run answer s).2 := by
  induction p generalizing s with
  | ret a => rfl
  | ask q k ih => exact ih _ _

end

end Dialog
