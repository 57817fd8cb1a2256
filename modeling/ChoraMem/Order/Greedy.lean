/-
Greedy choice under two budgets.

A scan takes every item that still fits, up to a number of items and a total weight.  What
it took of a head of the list it keeps, so an item is left out just when what was taken
before it left no room.
-/
import Mathlib.Algebra.Order.Ring.Nat
import Mathlib.Algebra.BigOperators.Group.List.Basic
import Mathlib.Data.List.Induction

namespace Greedy

section

variable {ι : Type} (count budget : Nat) (weight : ι → Nat)

def total (items : List ι) : Nat := (items.map weight).sum

/-- Take the item when it fits beside what was taken. -/
def step (taken : List ι × Nat) (item : ι) : List ι × Nat :=
  if taken.1.length = count || decide (budget < taken.2 + weight item) then taken
  else (taken.1 ++ [item], taken.2 + weight item)

def scan (items : List ι) : List ι × Nat := items.foldl (step count budget weight) ([], 0)

def choose (items : List ι) : List ι := (scan count budget weight items).1

/-! ## One more item -/

variable {count budget weight}

theorem total_append (a b : List ι) : total weight (a ++ b) = total weight a + total weight b := by
  rw [total, List.map_append, List.sum_append]
  rfl

theorem total_singleton (item : ι) : total weight [item] = weight item := by
  simp [total]

theorem weight_le_total {items : List ι} {item : ι} (h : item ∈ items) :
    weight item ≤ total weight items := by
  obtain ⟨head, rest, rfl⟩ := List.append_of_mem h
  rw [total_append, ← List.singleton_append, total_append, total_singleton]
  omega

theorem scan_append (items : List ι) (item : ι) :
    scan count budget weight (items ++ [item]) =
      step count budget weight (scan count budget weight items) item := by
  rw [scan, List.foldl_append]
  rfl

/-- The scan knows the weight of what it took. -/
theorem scan_total (items : List ι) :
    (scan count budget weight items).2 = total weight (choose count budget weight items) := by
  induction items using List.reverseRecOn with
  | nil => rfl
  | append_singleton items item ih =>
    rw [choose, scan_append, step]
    split
    · exact ih
    · rw [total_append, total_singleton, ih]
      rfl

theorem choose_append (items : List ι) (item : ι) :
    choose count budget weight (items ++ [item]) =
      if (choose count budget weight items).length = count ∨
          budget < total weight (choose count budget weight items) + weight item then
        choose count budget weight items
      else choose count budget weight items ++ [item] := by
  have hscan : choose count budget weight (items ++ [item]) =
      (step count budget weight (scan count budget weight items) item).1 := by
    rw [choose, scan_append]
  have hfull : ((scan count budget weight items).1.length = count || decide
      ((budget < (scan count budget weight items).2 + weight item)) : Bool) = true ↔
        (choose count budget weight items).length = count ∨
          budget < total weight (choose count budget weight items) + weight item := by
    rw [Bool.or_eq_true, decide_eq_true_eq, decide_eq_true_eq, scan_total]
    rfl
  rw [hscan, step]
  by_cases h : (choose count budget weight items).length = count ∨
      budget < total weight (choose count budget weight items) + weight item
  · rw [if_pos h, if_pos (hfull.mpr h)]
    rfl
  · rw [if_neg h, if_neg fun hf => h (hfull.mp hf)]
    rfl

/-! ## What is chosen -/

theorem choose_sublist (items : List ι) : (choose count budget weight items).Sublist items := by
  induction items using List.reverseRecOn with
  | nil => exact List.Sublist.slnil
  | append_singleton items item ih =>
    rw [choose_append]
    split
    · exact ih.trans (List.sublist_append_left _ _)
    · exact ih.append (List.Sublist.refl _)

theorem choose_length_le (items : List ι) : (choose count budget weight items).length ≤ count := by
  induction items using List.reverseRecOn with
  | nil => exact Nat.zero_le _
  | append_singleton items item ih =>
    rw [choose_append]
    split
    · exact ih
    · rename_i h
      rw [not_or] at h
      rw [List.length_append, List.length_singleton]
      omega

theorem choose_total_le (items : List ι) :
    total weight (choose count budget weight items) ≤ budget := by
  induction items using List.reverseRecOn with
  | nil => exact Nat.zero_le _
  | append_singleton items item ih =>
    rw [choose_append]
    split
    · exact ih
    · rename_i h
      rw [not_or] at h
      rw [total_append, total_singleton]
      omega

/-- What was chosen of a head stays the head of what is chosen, and the rest is of the rest. -/
theorem choose_head (head rest : List ι) :
    ∃ more, choose count budget weight (head ++ rest) = choose count budget weight head ++ more ∧
      more.Sublist rest := by
  induction rest using List.reverseRecOn with
  | nil => exact ⟨[], by rw [List.append_nil, List.append_nil], List.Sublist.slnil⟩
  | append_singleton rest item ih =>
    obtain ⟨more, heq, hsub⟩ := ih
    rw [← List.append_assoc, choose_append]
    split
    · exact ⟨more, heq, hsub.trans (List.sublist_append_left _ _)⟩
    · exact ⟨more ++ [item], by rw [heq, List.append_assoc], hsub.append (List.Sublist.refl _)⟩

/-- An item that is left out had no room. -/
theorem no_room {head rest : List ι} {item : ι}
    (h : item ∉ choose count budget weight (head ++ item :: rest)) :
    (choose count budget weight head).length = count ∨
      budget < total weight (choose count budget weight head) + weight item := by
  by_contra hroom
  obtain ⟨more, heq, _⟩ :=
    @choose_head ι count budget weight (head ++ [item]) rest
  rw [List.append_assoc, List.singleton_append] at heq
  rw [heq, choose_append, if_neg hroom] at h
  exact h (List.mem_append_left _ (List.mem_append_right _ List.mem_cons_self))

end

end Greedy
