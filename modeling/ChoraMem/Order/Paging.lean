/-
Paging by key.

A page is the first items behind a cursor, and the next cursor is the key of the last of
them.  Over items in strict order the pages follow each other without a gap or an overlap,
so from the start they end and have every item once.
-/
import Mathlib.Data.List.Basic
import Mathlib.Order.Lattice

namespace Paging

section

variable {α κ : Type} [LinearOrder κ] (key : α → κ)

/-- The items behind a cursor; behind no cursor are all. -/
def after (cursor : Option κ) (items : List α) : List α :=
  items.filter fun a => cursor.all fun k => decide (k < key a)

/-- The pages from a cursor on, each with the cursor it was asked with. -/
inductive Run (size : Nat) (items : List α) : Option κ → List (Option κ × List α) → Prop
  | last {cursor : Option κ} (h : (after key cursor items).length ≤ size) :
      Run size items cursor [(cursor, after key cursor items)]
  | more {cursor : Option κ} {item : α} {rest : List (Option κ × List α)}
      (h : size < (after key cursor items).length)
      (hlast : ((after key cursor items).take size).getLast? = some item)
      (hrest : Run size items (some (key item)) rest) :
      Run size items cursor ((cursor, (after key cursor items).take size) :: rest)

variable {key} {size : Nat} {items : List α}

theorem after_none : after key none items = items := by
  simp [after]

theorem mem_after {cursor : Option κ} {a : α} :
    a ∈ after key cursor items ↔ a ∈ items ∧ ∀ k, cursor = some k → k < key a := by
  cases cursor <;> simp [after]

/-- Behind the last item of a page is what the page left. -/
theorem after_last {cursor : Option κ} {item : α}
    (hsorted : items.Pairwise fun a b => key a < key b)
    (hlast : ((after key cursor items).take size).getLast? = some item) :
    after key (some (key item)) items = (after key cursor items).drop size := by
  have hmem : item ∈ after key cursor items :=
    List.mem_of_mem_take (List.mem_of_getLast? hlast)
  have hcursor : ∀ a ∈ items, key item < key a →
      (cursor.all fun k => decide (k < key a)) = true := by
    intro a _ hlt
    cases cursor with
    | none => rfl
    | some k =>
      have hk := (mem_after.mp hmem).2 k rfl
      simpa using hk.trans hlt
  have hrefine : after key (some (key item)) items =
      (after key cursor items).filter fun a => decide (key item < key a) := by
    rw [after, after, List.filter_filter]
    refine List.filter_congr fun a ha => ?_
    by_cases hlt : key item < key a
    · rw [hcursor a ha hlt]
      simp
    · simp [hlt]
  have hafter : (after key cursor items).Pairwise fun a b => key a < key b :=
    hsorted.sublist List.filter_sublist
  rw [hrefine]
  conv_lhs => rw [← List.take_append_drop size (after key cursor items)]
  rw [← List.take_append_drop size (after key cursor items), List.pairwise_append] at hafter
  obtain ⟨front, hfront⟩ := List.getLast?_eq_some_iff.mp hlast
  rw [List.filter_append]
  have htake : ((after key cursor items).take size).filter (fun a => decide (key item < key a)) = [] := by
    rw [List.filter_eq_nil_iff]
    intro a ha
    rw [hfront] at ha hafter
    rcases List.mem_append.mp ha with ha | ha
    · have hlt := (List.pairwise_append.mp hafter.1).2.2 a ha item List.mem_cons_self
      simpa using hlt.le
    · rw [List.mem_singleton.mp ha]
      simp
  have hdrop : ((after key cursor items).drop size).filter (fun a => decide (key item < key a)) =
      (after key cursor items).drop size := by
    rw [List.filter_eq_self]
    intro a ha
    have hlt := hafter.2.2 item (List.mem_of_getLast? hlast) a ha
    simpa using hlt
  rw [htake, hdrop, List.nil_append]

/-- From every cursor the pages end, ask with growing cursors and have what is behind it. -/
theorem exists_run_from (hsorted : items.Pairwise fun a b => key a < key b) (hsize : 0 < size)
    (cursor : Option κ) :
    ∃ run, Run key size items cursor run ∧ (run.map Prod.snd).flatten = after key cursor items ∧
      (run.map Prod.fst).Pairwise (fun c c' => ∀ k, c = some k → ∃ k', c' = some k' ∧ k < k') ∧
      (run.map Prod.fst).head? = some cursor ∧
      ∀ c ∈ (run.map Prod.fst).tail, ∃ a ∈ after key cursor items, c = some (key a) := by
  induction hlen : (after key cursor items).length using Nat.strongRecOn generalizing cursor with
  | ind n ih =>
    by_cases hle : (after key cursor items).length ≤ size
    · exact ⟨_, .last hle, by simp, by simp, rfl, fun c hc => by cases hc⟩
    · have hlt : size < (after key cursor items).length := Nat.lt_of_not_le hle
      have hne : (after key cursor items).take size ≠ [] := by
        intro hnil
        have h := congrArg List.length hnil
        rw [List.length_take, List.length_nil] at h
        omega
      have hlast := List.getLast?_eq_some_getLast hne
      generalize ((after key cursor items).take size).getLast hne = item at hlast
      have hafter := after_last hsorted hlast
      obtain ⟨run, hrun, hflat, hgrow, hhead, htail⟩ := ih (after key (some (key item)) items).length
        (by rw [hafter, List.length_drop]; omega) (some (key item)) rfl
      have hmem : item ∈ after key cursor items :=
        List.mem_of_mem_take (List.mem_of_getLast? hlast)
      have hcursors : ∀ c ∈ run.map Prod.fst, ∃ a ∈ after key cursor items, c = some (key a) := by
        intro c hc
        obtain ⟨cursors, hcursors⟩ := List.head?_eq_some_iff.mp hhead
        rw [hcursors] at hc htail
        rcases List.mem_cons.mp hc with rfl | hc
        · exact ⟨item, hmem, rfl⟩
        · obtain ⟨a, ha, rfl⟩ := htail c hc
          rw [hafter] at ha
          exact ⟨a, List.mem_of_mem_drop ha, rfl⟩
      refine ⟨_, .more hlt hlast hrun, ?_, ?_, rfl, hcursors⟩
      · rw [List.map_cons, List.flatten_cons, hflat, hafter]
        exact List.take_append_drop _ _
      · rw [List.map_cons, List.pairwise_cons]
        refine ⟨fun c hc k hk => ?_, hgrow⟩
        obtain ⟨a, ha, rfl⟩ := hcursors c hc
        exact ⟨key a, rfl, (mem_after.mp ha).2 k hk⟩

/-- From the start the pages end, never ask twice with one cursor and have every item once. -/
theorem exists_run (hsorted : items.Pairwise fun a b => key a < key b) (hsize : 0 < size) :
    ∃ run, Run key size items none run ∧ (run.map Prod.fst).Nodup ∧
      (run.map Prod.snd).flatten = items := by
  obtain ⟨run, hrun, hflat, hgrow, hhead, htail⟩ := exists_run_from hsorted hsize none
  refine ⟨run, hrun, ?_, by rw [hflat, after_none]⟩
  obtain ⟨cursors, hcursors⟩ := List.head?_eq_some_iff.mp hhead
  rw [hcursors] at hgrow htail ⊢
  rw [List.pairwise_cons] at hgrow
  rw [List.nodup_cons]
  constructor
  · intro hmem
    obtain ⟨a, _, h⟩ := htail none hmem
    cases h
  · refine hgrow.2.imp_of_mem fun hc _ hlt heq => ?_
    obtain ⟨a, _, rfl⟩ := htail _ hc
    obtain ⟨k', hk', hlt⟩ := hlt (key a) rfl
    rw [← heq] at hk'
    rw [Option.some.inj hk'] at hlt
    exact lt_irrefl _ hlt

end

end Paging
