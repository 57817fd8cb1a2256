/-
The best of a list by a key.

A scan that keeps the better of the best so far and the next item ends with an item of
least key.  Where a key tells the items of a list apart, the best item and the sorted
list depend only on which items there are, not on the order they come in.  Comparisons
field by field are comparisons of lexicographic keys.
-/
import Mathlib.Data.Prod.Lex
import Mathlib.Data.List.Sort
import Mathlib.Order.OrderDual

namespace Best

/-! ## Lexicographic keys -/

/-- To compare a field and then the rest is to compare both in lexicographic order. -/
theorem decide_toLex_lt {α β : Type} [LinearOrder α] [LinearOrder β] (a a' : α) (b b' : β) :
    decide (toLex (a, b) < toLex (a', b')) =
      if a != a' then decide (a < a') else decide (b < b') := by
  by_cases h : a = a'
  · simp [h, Prod.Lex.toLex_lt_toLex]
  · simp [h, Prod.Lex.toLex_lt_toLex]

/-- Three fields compare alike, whichever two are taken together. -/
theorem toLex_le_assoc {α β γ : Type} [LinearOrder α] [LinearOrder β] [LinearOrder γ]
    (a a' : α) (b b' : β) (c c' : γ) :
    toLex (toLex (a, b), c) ≤ toLex (toLex (a', b'), c') ↔
      toLex (a, toLex (b, c)) ≤ toLex (a', toLex (b', c')) := by
  simp only [Prod.Lex.toLex_le_toLex, Prod.Lex.toLex_lt_toLex, EmbeddingLike.apply_eq_iff_eq,
    Prod.mk.injEq]
  tauto

section

variable {α κ : Type} [LinearOrder κ] (key : α → κ)

/-! ## Scanning -/

/-- Keep the better of the best so far and one more, the earlier of equals. -/
def keep (best : Option α) (a : α) : Option α :=
  match best with
  | none => some a
  | some b => if key a < key b then some a else some b

def best (l : List α) : Option α := l.foldl (keep key) none

variable {key} {l l' : List α}

theorem foldl_keep_some (b : α) :
    ∃ c, l.foldl (keep key) (some b) = some c ∧ (c = b ∨ c ∈ l) ∧ key c ≤ key b ∧
      ∀ a ∈ l, key c ≤ key a := by
  induction l generalizing b with
  | nil => exact ⟨b, rfl, Or.inl rfl, le_refl _, by simp⟩
  | cons first rest ih =>
    by_cases h : key first < key b
    · obtain ⟨c, hc, hmem, hle, hall⟩ := ih first
      refine ⟨c, ?_, ?_, le_trans hle (le_of_lt h), ?_⟩
      · show rest.foldl (keep key) (if key first < key b then some first else some b) = some c
        rw [if_pos h, hc]
      · right
        rcases hmem with rfl | hmem
        · exact List.mem_cons_self
        · exact List.mem_cons_of_mem _ hmem
      · intro a ha
        rcases List.mem_cons.mp ha with rfl | ha
        · exact hle
        · exact hall a ha
    · obtain ⟨c, hc, hmem, hle, hall⟩ := ih b
      refine ⟨c, ?_, ?_, hle, ?_⟩
      · show rest.foldl (keep key) (if key first < key b then some first else some b) = some c
        rw [if_neg h, hc]
      · rcases hmem with rfl | hmem
        · exact Or.inl rfl
        · exact Or.inr (List.mem_cons_of_mem _ hmem)
      · intro a ha
        rcases List.mem_cons.mp ha with rfl | ha
        · exact le_trans hle (not_lt.mp h)
        · exact hall a ha

/-- The best item has the least key. -/
theorem best_spec {b : α} (h : best key l = some b) : b ∈ l ∧ ∀ a ∈ l, key b ≤ key a := by
  cases l with
  | nil => cases h
  | cons first rest =>
    obtain ⟨c, hc, hmem, hle, hall⟩ := @foldl_keep_some α κ _ key rest first
    obtain rfl : c = b := Option.some.inj (hc.symm.trans h)
    constructor
    · rcases hmem with rfl | hmem
      · exact List.mem_cons_self
      · exact List.mem_cons_of_mem _ hmem
    · intro a ha
      rcases List.mem_cons.mp ha with rfl | ha
      · exact hle
      · exact hall a ha

theorem best_eq_none : best key l = none ↔ l = [] := by
  cases l with
  | nil => simp [best]
  | cons first rest =>
    obtain ⟨c, hc, _⟩ := @foldl_keep_some α κ _ key rest first
    have hbest : best key (first :: rest) = some c := hc
    simp [hbest]

/-! ## Order does not matter -/

/-- The key tells the items of the list apart. -/
def Faithful (key : α → κ) (l : List α) : Prop := ∀ a ∈ l, ∀ b ∈ l, key a = key b → a = b

theorem best_perm (h : l.Perm l') (hkey : Faithful key l) : best key l = best key l' := by
  cases hb : best key l with
  | none =>
    have hnil := best_eq_none.mp hb
    subst hnil
    rw [List.nil_perm.mp h]
    rfl
  | some b =>
    obtain ⟨hmem, hleast⟩ := best_spec hb
    cases hb' : best key l' with
    | none =>
      have hnil := best_eq_none.mp hb'
      subst hnil
      rw [List.perm_nil.mp h] at hmem
      cases hmem
    | some b' =>
      obtain ⟨hmem', hleast'⟩ := best_spec hb'
      have hle := hleast b' (h.mem_iff.mpr hmem')
      have hle' := hleast' b (h.mem_iff.mp hmem)
      rw [hkey b hmem b' (h.mem_iff.mpr hmem') (le_antisymm hle hle')]

/-- Two sorted lists of the same items are the same. -/
theorem sorted_unique (h : l.Perm l') (hkey : Faithful key l)
    (hs : l.Pairwise fun a b => key a ≤ key b) (hs' : l'.Pairwise fun a b => key a ≤ key b) :
    l = l' := by
  refine List.Perm.eq_of_pairwise ?_ hs hs' h
  intro a b ha hb hab hba
  exact hkey a ha b (h.mem_iff.mpr hb) (le_antisymm hab hba)

/-- An insertion sort by a key is sorted by it. -/
theorem insertionSort_sorted (r : α → α → Prop) [DecidableRel r] (hr : ∀ a b, r a b ↔ key a ≤ key b)
    (l : List α) : (l.insertionSort r).Pairwise fun a b => key a ≤ key b := by
  have htotal : Std.Total r := ⟨fun a b => by
    rw [hr, hr]
    exact le_total _ _⟩
  have htrans : IsTrans α r := ⟨fun a b c hab hbc => by
    rw [hr] at *
    exact le_trans hab hbc⟩
  exact (List.pairwise_insertionSort r l).imp fun h => (hr _ _).mp h

/-! ## Stable sorts -/

theorem orderedInsert_congr {r r' : α → α → Prop} [DecidableRel r] [DecidableRel r'] {a : α}
    (h : ∀ b ∈ l, r a b ↔ r' a b) : l.orderedInsert r a = l.orderedInsert r' a := by
  induction l with
  | nil => rfl
  | cons b l ih =>
    rw [List.orderedInsert_cons, List.orderedInsert_cons,
      if_congr (h b List.mem_cons_self) rfl (by rw [ih fun c hc => h c (List.mem_cons_of_mem _ hc)])]

/-- To sort by a key what is sorted by another is to sort by both. -/
theorem insertionSort_lex {κ' : Type} [LinearOrder κ'] {key' : α → κ'} (r : α → α → Prop)
    [DecidableRel r] (hr : ∀ a b, r a b ↔ key a ≤ key b)
    (hl : l.Pairwise fun a b => key' a ≤ key' b) :
    l.insertionSort r =
      l.insertionSort fun a b => toLex (key a, key' a) ≤ toLex (key b, key' b) := by
  induction l with
  | nil => rfl
  | cons a l ih =>
    rw [List.pairwise_cons] at hl
    rw [List.insertionSort_cons, List.insertionSort_cons, ← ih hl.2]
    refine orderedInsert_congr fun b hb => ?_
    have hle : key' a ≤ key' b := hl.1 b ((List.mem_insertionSort r).mp hb)
    rw [hr, Prod.Lex.toLex_le_toLex, le_iff_lt_or_eq]
    exact or_congr Iff.rfl ⟨fun heq => ⟨heq, hle⟩, fun h => h.1⟩

/-! ## The first of a list -/

/-- How many items come before one. -/
def place (key : α → κ) (l : List α) (a : α) : ℕ := l.countP fun b => decide (key b < key a)

theorem place_perm (h : l.Perm l') (a : α) : place key l a = place key l' a := h.countP_eq _

/-- The first items of a list in strict order are those with fewer before them. -/
theorem mem_take_iff {n : ℕ} {a : α} (h : l.Pairwise fun a b => key a < key b) :
    a ∈ l.take n ↔ a ∈ l ∧ place key l a < n := by
  have hsplit := List.take_append_drop n l
  rw [← hsplit, List.pairwise_append] at h
  obtain ⟨hfront, _, hcross⟩ := h
  have hcount : place key l a = place key (l.take n) a + place key (l.drop n) a := by
    conv_lhs => rw [← hsplit]
    exact List.countP_append
  constructor
  · intro ha
    refine ⟨List.mem_of_mem_take ha, ?_⟩
    have hbehind : place key (l.drop n) a = 0 := by
      rw [place, List.countP_eq_zero]
      intro b hb
      simpa using (hcross a ha b hb).le
    have hlt : place key (l.take n) a < (l.take n).length := by
      refine lt_of_le_of_ne List.countP_le_length fun heq => ?_
      have hself := List.countP_eq_length.mp heq a ha
      simp at hself
    have hlen : (l.take n).length ≤ n := List.length_take_le n l
    omega
  · rintro ⟨ha, hplace⟩
    rw [← hsplit, List.mem_append] at ha
    rcases ha with ha | ha
    · exact ha
    · have hall : place key (l.take n) a = (l.take n).length :=
        List.countP_eq_length.mpr fun b hb => decide_eq_true (hcross b hb a ha)
      have hlong : n < l.length := by
        rw [← Nat.sub_pos_iff_lt, ← List.length_drop]
        exact List.length_pos_of_mem ha
      rw [List.length_take, Nat.min_eq_left hlong.le] at hall
      omega

end

end Best
