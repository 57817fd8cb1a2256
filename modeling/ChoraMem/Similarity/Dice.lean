/-
The Dice coefficient of two multisets.

Twice what two multisets have in common, over how much they have together: 0 for multisets
with nothing in common, 1 for equal ones.  Nothing is like the empty multiset.
-/
import Mathlib.Data.Multiset.UnionInter
import Mathlib.Algebra.BigOperators.Group.Finset.Basic
import Mathlib.Algebra.Order.Field.Basic
import Mathlib.Algebra.Order.Ring.Rat
import Mathlib.Tactic.FieldSimp
import Mathlib.Tactic.Linarith

namespace Similarity

section

variable {α : Type} [DecidableEq α]

/-! ## The coefficient -/

def dice (s t : Multiset α) : ℚ :=
  if s = 0 ∨ t = 0 then 0 else 2 * ((s ∩ t).card : ℚ) / ((s.card + t.card : ℕ) : ℚ)

theorem dice_nonneg (s t : Multiset α) : 0 ≤ dice s t := by
  unfold dice
  split
  · exact le_rfl
  · positivity

theorem dice_le_one (s t : Multiset α) : dice s t ≤ 1 := by
  unfold dice
  split
  · exact zero_le_one
  · have hleft : ((s ∩ t).card : ℚ) ≤ (s.card : ℚ) := by
      exact_mod_cast Multiset.card_le_card Multiset.inter_le_left
    have hright : ((s ∩ t).card : ℚ) ≤ (t.card : ℚ) := by
      exact_mod_cast Multiset.card_le_card Multiset.inter_le_right
    refine div_le_one_of_le₀ ?_ (Nat.cast_nonneg _)
    push_cast
    linarith

theorem dice_comm (s t : Multiset α) : dice s t = dice t s := by
  unfold dice
  rw [Multiset.inter_comm, Nat.add_comm]
  exact if_congr or_comm rfl rfl

theorem dice_self (s : Multiset α) : dice s s = if s = 0 then 0 else 1 := by
  unfold dice
  by_cases hs : s = 0
  · rw [if_pos (Or.inl hs), if_pos hs]
  · have hcard : (s.card : ℚ) ≠ 0 := by
      exact_mod_cast fun h => hs (Multiset.card_eq_zero.mp h)
    have hinter : s ∩ s = s := inf_idem s
    rw [if_neg (by rwa [or_self]), if_neg hs, hinter]
    push_cast
    rw [two_mul]
    exact div_self (by
      have hpos : (0 : ℚ) ≤ (s.card : ℚ) := Nat.cast_nonneg _
      intro hsum
      exact hcard (by linarith))

/-! ## Counting -/

/-- In a list without duplicates each common item counts once. -/
theorem card_inter_of_nodup {l r : List α} (h : l.Nodup) :
    ((l : Multiset α) ∩ (r : Multiset α)).card = (l.filter fun a => decide (a ∈ r)).length := by
  have heq : ((l : Multiset α) ∩ (r : Multiset α)) =
      ((l.filter fun a => decide (a ∈ r) : List α) : Multiset α) := by
    ext a
    rw [Multiset.count_inter, Multiset.coe_count, Multiset.coe_count, Multiset.coe_count]
    by_cases hr : a ∈ r
    · have hpos : 0 < r.count a := List.count_pos_iff.mpr hr
      have hle : l.count a ≤ 1 := List.nodup_iff_count_le_one.mp h a
      rw [List.count_filter (by simpa using hr)]
      omega
    · rw [List.count_eq_zero_of_not_mem hr, Nat.min_zero, List.count_eq_zero_of_not_mem]
      intro hmem
      exact hr (by simpa using (List.mem_filter.mp hmem).2)
  rw [heq, Multiset.coe_card]

/-- Otherwise it counts as often as it comes in both. -/
theorem card_inter_eq_sum (l r : List α) :
    ((l : Multiset α) ∩ (r : Multiset α)).card =
      (l.dedup.map fun a => min (l.count a) (r.count a)).sum := by
  have hsub : ((l : Multiset α) ∩ (r : Multiset α)).toFinset ⊆ l.toFinset := by
    intro a ha
    rw [Multiset.mem_toFinset, Multiset.mem_inter] at ha
    exact List.mem_toFinset.mpr ha.1
  rw [← Multiset.toFinset_sum_count_eq, Finset.sum_subset hsub]
  · have hcount : ∀ a, ((l : Multiset α) ∩ (r : Multiset α)).count a =
        min (l.count a) (r.count a) := by
      intro a
      rw [Multiset.count_inter, Multiset.coe_count, Multiset.coe_count]
    simp only [hcount]
    have hset : l.toFinset = l.dedup.toFinset := by
      ext a
      rw [List.mem_toFinset, List.mem_toFinset, List.mem_dedup]
    rw [hset, List.sum_toFinset _ (List.nodup_dedup l)]
  · intro a _ ha
    rw [Multiset.count_eq_zero]
    intro hmem
    exact ha (Multiset.mem_toFinset.mpr hmem)

end

end Similarity
