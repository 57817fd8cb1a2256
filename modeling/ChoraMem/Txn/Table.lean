/-
Keyed tables of a relational store.

A table is the list of its rows, and the key of a row is what its primary key
covers.  `insertRow` is `INSERT ... ON CONFLICT DO NOTHING`: the first row with a
key keeps it.  `updateRow` writes one whole row under its key.  A transaction
evaluates its statement on the newest rows and publishes the result later, on
rows it has not seen, so both are total: `updateRow` also lands on a table
where the row is missing, as an updated row does in the read view of its own
transaction.
-/
import Mathlib.Data.List.Nodup

namespace Txn

variable {ρ κ : Type} [DecidableEq κ]

/-- Add `r` unless a row already has its key. -/
def insertRow (key : ρ → κ) (r : ρ) (t : List ρ) : List ρ :=
  if ∃ x ∈ t, key x = key r then t else t ++ [r]

/-- Let `r` be the row with its key. -/
def updateRow (key : ρ → κ) (r : ρ) (t : List ρ) : List ρ :=
  if ∃ x ∈ t, key x = key r then t.map (fun x => if key x = key r then r else x) else t ++ [r]

theorem mem_insertRow {key : ρ → κ} {r x : ρ} {t : List ρ} :
    x ∈ insertRow key r t ↔ x ∈ t ∨ (x = r ∧ ∀ y ∈ t, key y ≠ key r) := by
  unfold insertRow
  by_cases h : ∃ y ∈ t, key y = key r
  · rw [if_pos h]
    obtain ⟨y, hy, hk⟩ := h
    exact ⟨Or.inl, fun hx => hx.elim id fun hx => absurd hk (hx.2 y hy)⟩
  · rw [if_neg h, List.mem_append, List.mem_singleton]
    have hne : ∀ y ∈ t, key y ≠ key r := fun y hy hk => h ⟨y, hy, hk⟩
    exact or_congr Iff.rfl ⟨fun hx => ⟨hx, hne⟩, And.left⟩

theorem mem_updateRow {key : ρ → κ} {r x : ρ} {t : List ρ} :
    x ∈ updateRow key r t ↔ (x ∈ t ∧ key x ≠ key r) ∨ x = r := by
  unfold updateRow
  by_cases h : ∃ y ∈ t, key y = key r
  · rw [if_pos h, List.mem_map]
    constructor
    · rintro ⟨y, hy, rfl⟩
      by_cases hk : key y = key r
      · exact Or.inr (if_pos hk)
      · rw [if_neg hk]
        exact Or.inl ⟨hy, hk⟩
    · rintro (⟨hx, hk⟩ | rfl)
      · exact ⟨x, hx, if_neg hk⟩
      · obtain ⟨y, hy, hk⟩ := h
        exact ⟨y, hy, if_pos hk⟩
  · rw [if_neg h, List.mem_append, List.mem_singleton]
    have hne : x ∈ t → key x ≠ key r := fun hx hk => h ⟨x, hx, hk⟩
    exact or_congr ⟨fun hx => ⟨hx, hne hx⟩, And.left⟩ Iff.rfl

theorem mem_insertRow_of_mem {key : ρ → κ} {r x : ρ} {t : List ρ} (h : x ∈ t) :
    x ∈ insertRow key r t :=
  mem_insertRow.mpr (Or.inl h)

theorem self_mem_updateRow {key : ρ → κ} {r : ρ} {t : List ρ} : r ∈ updateRow key r t :=
  mem_updateRow.mpr (Or.inr rfl)

theorem mem_updateRow_of_ne {key : ρ → κ} {r x : ρ} {t : List ρ} (h : key x ≠ key r) :
    x ∈ updateRow key r t ↔ x ∈ t := by
  rw [mem_updateRow]
  exact ⟨fun hx => hx.elim And.left fun hx => absurd (congrArg key hx) h, fun hx => Or.inl ⟨hx, h⟩⟩

theorem map_key_updateRow {key : ρ → κ} {r : ρ} {t : List ρ} (h : ∃ x ∈ t, key x = key r) :
    (updateRow key r t).map key = t.map key := by
  rw [updateRow, if_pos h, List.map_map]
  refine List.map_congr_left fun x _ => ?_
  rw [Function.comp_apply]
  by_cases hk : key x = key r
  · rw [if_pos hk, hk]
  · rw [if_neg hk]

/-! ## Keys stay unique -/

/-- No two rows of the table share their key. -/
def KeysUnique (key : ρ → κ) (t : List ρ) : Prop := (t.map key).Nodup

omit [DecidableEq κ] in
theorem keysUnique_append {key : ρ → κ} {r : ρ} {t : List ρ} (ht : KeysUnique key t)
    (h : ¬∃ x ∈ t, key x = key r) : KeysUnique key (t ++ [r]) := by
  unfold KeysUnique at *
  rw [List.map_append, List.nodup_append]
  refine ⟨ht, List.nodup_singleton _, ?_⟩
  intro a ha b hb hab
  obtain ⟨x, hx, rfl⟩ := List.mem_map.mp ha
  rw [List.map_singleton, List.mem_singleton] at hb
  exact h ⟨x, hx, hab.trans hb⟩

theorem KeysUnique.insertRow {key : ρ → κ} {t : List ρ} (ht : KeysUnique key t) (r : ρ) :
    KeysUnique key (insertRow key r t) := by
  by_cases h : ∃ x ∈ t, key x = key r
  · rw [Txn.insertRow, if_pos h]
    exact ht
  · rw [Txn.insertRow, if_neg h]
    exact keysUnique_append ht h

theorem KeysUnique.updateRow {key : ρ → κ} {t : List ρ} (ht : KeysUnique key t) (r : ρ) :
    KeysUnique key (updateRow key r t) := by
  by_cases h : ∃ x ∈ t, key x = key r
  · unfold KeysUnique
    rw [map_key_updateRow h]
    exact ht
  · rw [Txn.updateRow, if_neg h]
    exact keysUnique_append ht h

omit [DecidableEq κ] in
theorem KeysUnique.eq {key : ρ → κ} {t : List ρ} (ht : KeysUnique key t) {x y : ρ}
    (hx : x ∈ t) (hy : y ∈ t) (h : key x = key y) : x = y :=
  List.inj_on_of_nodup_map ht hx hy h

/-- A search finds the only row it is about. -/
theorem find_only {t : List ρ} {p : ρ → Bool} {r : ρ} (hr : r ∈ t) (hp : p r = true)
    (honly : ∀ x ∈ t, p x = true → x = r) : t.find? p = some r := by
  cases hfind : t.find? p with
  | none => exact absurd hp (List.find?_eq_none.mp hfind r hr)
  | some x => rw [honly x (List.mem_of_find?_eq_some hfind) (List.find?_some hfind)]

theorem KeysUnique.find {key : ρ → κ} {t : List ρ} (ht : KeysUnique key t) {r : ρ} (hr : r ∈ t) {k : κ}
    (hk : key r = k) : t.find? (fun x => decide (key x = k)) = some r :=
  find_only hr (decide_eq_true hk) fun _ hx hkey =>
    ht.eq hx hr ((of_decide_eq_true hkey).trans hk.symm)

theorem updateRow_self {key : ρ → κ} {r : ρ} {t : List ρ} (ht : KeysUnique key t) (hr : r ∈ t) :
    updateRow key r t = t := by
  rw [updateRow, if_pos ⟨r, hr, rfl⟩]
  refine (List.map_congr_left fun x hx => ?_).trans (List.map_id t)
  by_cases hk : key x = key r
  · rw [if_pos hk, ht.eq hx hr hk, id]
  · rw [if_neg hk, id]

/-- The rows with the key of a row that is there. -/
theorem filter_key {key : ρ → κ} {t : List ρ} (ht : KeysUnique key t) {r : ρ} (hr : r ∈ t) :
    t.filter (fun x => decide (key x = key r)) = [r] := by
  have hnd : (t.filter (fun x => decide (key x = key r))).Nodup := (List.Nodup.of_map _ ht).filter _
  have hmem : ∀ x, x ∈ t.filter (fun x => decide (key x = key r)) ↔ x = r := by
    intro x
    rw [List.mem_filter, decide_eq_true_eq]
    refine ⟨fun hx => ht.eq hx.1 hr hx.2, ?_⟩
    rintro rfl
    exact ⟨hr, rfl⟩
  exact List.perm_singleton.mp ((List.perm_ext_iff_of_nodup hnd (List.nodup_singleton r)).mpr
    fun x => (hmem x).trans List.mem_singleton.symm)

/-- An update that keeps another unique column. -/
theorem KeysUnique.replace {μ : Type} {key : ρ → κ} {col : ρ → μ} {t : List ρ}
    (hcol : KeysUnique col t) (ht : KeysUnique key t) {r r' : ρ} (hr : r ∈ t)
    (hk : key r' = key r) (hc : col r' = col r) : KeysUnique col (Txn.updateRow key r' t) := by
  have hmap : (Txn.updateRow key r' t).map col = t.map col := by
    rw [Txn.updateRow, if_pos ⟨r, hr, hk.symm⟩, List.map_map]
    refine List.map_congr_left fun x hx => ?_
    rw [Function.comp_apply]
    by_cases hxk : key x = key r'
    · rw [if_pos hxk, hc, ht.eq hx hr (hxk.trans hk)]
    · rw [if_neg hxk]
  unfold KeysUnique
  rw [hmap]
  exact hcol

/-! ## Several updates -/

def updateRows (key : ρ → κ) (rs t : List ρ) : List ρ := rs.foldl (fun t r => updateRow key r t) t

/-- A row of the result was written, or has a key that nothing wrote. -/
theorem of_mem_updateRows {key : ρ → κ} {rs t : List ρ} {x : ρ} (h : x ∈ updateRows key rs t) :
    x ∈ rs ∨ (x ∈ t ∧ ∀ r ∈ rs, key x ≠ key r) := by
  induction rs generalizing t with
  | nil => exact Or.inr ⟨h, fun r hr => absurd hr List.not_mem_nil⟩
  | cons r rest ih =>
    rcases ih h with hx | ⟨hx, hne⟩
    · exact Or.inl (List.mem_cons_of_mem _ hx)
    · rcases mem_updateRow.mp hx with ⟨hx, hk⟩ | rfl
      · refine Or.inr ⟨hx, fun q hq => ?_⟩
        rcases List.mem_cons.mp hq with rfl | hq
        · exact hk
        · exact hne q hq
      · exact Or.inl List.mem_cons_self

theorem mem_updateRows_of_ne {key : ρ → κ} {rs t : List ρ} {x : ρ} (hx : x ∈ t)
    (hne : ∀ r ∈ rs, key x ≠ key r) : x ∈ updateRows key rs t := by
  induction rs generalizing t with
  | nil => exact hx
  | cons r rest ih =>
    refine ih ?_ fun q hq => hne q (List.mem_cons_of_mem _ hq)
    exact mem_updateRow.mpr (Or.inl ⟨hx, hne r List.mem_cons_self⟩)

/-- Updates of rows that are there keep the list of keys. -/
theorem map_key_updateRows {key : ρ → κ} {rs t : List ρ}
    (h : ∀ r ∈ rs, ∃ x ∈ t, key x = key r) : (updateRows key rs t).map key = t.map key := by
  induction rs generalizing t with
  | nil => rfl
  | cons r rest ih =>
    have hr := map_key_updateRow (h r List.mem_cons_self)
    refine (ih fun q hq => ?_).trans hr
    obtain ⟨x, hx, hk⟩ := h q (List.mem_cons_of_mem _ hq)
    have hm : key x ∈ (updateRow key r t).map key := hr ▸ List.mem_map_of_mem hx
    obtain ⟨y, hy, hyk⟩ := List.mem_map.mp hm
    exact ⟨y, hy, hyk.trans hk⟩

/-! ## Rows of a part of the table

`SameRows p t u` says that `t` and `u` hold the same rows among those with `p`.
When `p` is decided by the key, inserts and updates preserve it. -/

def SameRows (p : ρ → Prop) (t u : List ρ) : Prop := ∀ x, p x → (x ∈ t ↔ x ∈ u)

theorem SameRows.refl {p : ρ → Prop} (t : List ρ) : SameRows p t t := fun _ _ => Iff.rfl

theorem SameRows.symm {p : ρ → Prop} {t u : List ρ} (h : SameRows p t u) : SameRows p u t :=
  fun x hx => (h x hx).symm

theorem SameRows.trans {p : ρ → Prop} {t u v : List ρ} (h : SameRows p t u)
    (h' : SameRows p u v) : SameRows p t v :=
  fun x hx => (h x hx).trans (h' x hx)

theorem SameRows.insertRow {key : ρ → κ} {p : ρ → Prop} {t u : List ρ}
    (hp : ∀ x y, key x = key y → (p x ↔ p y)) (h : SameRows p t u) (r : ρ) :
    SameRows p (insertRow key r t) (insertRow key r u) := by
  intro x hx
  rw [mem_insertRow, mem_insertRow, h x hx]
  refine or_congr Iff.rfl (and_congr_right fun hxr => ?_)
  subst hxr
  constructor
  · intro hne y hy hk
    exact hne y ((h y ((hp y x hk).mpr hx)).mpr hy) hk
  · intro hne y hy hk
    exact hne y ((h y ((hp y x hk).mpr hx)).mp hy) hk

theorem SameRows.updateRow {key : ρ → κ} {p : ρ → Prop} {t u : List ρ}
    (h : SameRows p t u) (r : ρ) : SameRows p (updateRow key r t) (updateRow key r u) := by
  intro x hx
  rw [mem_updateRow, mem_updateRow, h x hx]

/-- An insert outside the part leaves the part alone. -/
theorem sameRows_insertRow {key : ρ → κ} {p : ρ → Prop} {t : List ρ} {r : ρ} (hr : ¬p r) :
    SameRows p (insertRow key r t) t := by
  intro x hx
  rw [mem_insertRow]
  exact ⟨fun h => h.elim id fun h => absurd (h.1 ▸ hx) hr, Or.inl⟩

theorem sameRows_updateRow {key : ρ → κ} {p : ρ → Prop} {t : List ρ} {r : ρ}
    (hp : ∀ x y, key x = key y → (p x ↔ p y)) (hr : ¬p r) :
    SameRows p (updateRow key r t) t := by
  intro x hx
  exact mem_updateRow_of_ne fun hk => hr ((hp x r hk).mp hx)

end Txn
