/-
Laws that unique indexes keep.

A row may go into a store when it clashes with no row under its unique keys.  The check
is made when the statement runs, and the row is published when the transaction commits.
In between nobody else writes a row under these keys, so the row still goes in, and the
law of the index holds in every store that is reached.
-/
import Mathlib.Data.List.Basic
import ChoraMem.Txn.Rely

namespace Txn

variable {D W K ε α β RK : Type} [Journal D W RK]

variable (D W) in
/-- A law of a store, and when a row may be written without breaking it. -/
structure Index where
  law : D → Prop
  fits : W → D → Prop
  /-- The stores agree on the rows that matter to this one. -/
  same : W → D → D → Prop
  keeps : ∀ (d : D) (w : W), law d → fits w d → law (Journal.apply d w)
  refl : ∀ w d, same w d d
  trans : ∀ w d d' d'', same w d d' → same w d' d'' → same w d d''
  carried : ∀ w d d', same w d d' → fits w d → fits w d'
  congr : ∀ (w v : W) (d d' : D), same w d d' → same w (Journal.apply d v) (Journal.apply d' v)
  apart : ∀ (w v : W) (d : D), (∀ k ∈ Journal.rowKeys D v, k ∉ Journal.rowKeys D w) →
    same w d (Journal.apply d v)

namespace Index

variable (x : Index D W)

/-- Each row of a log fits the store that the rows before it leave. -/
def FitsAll (d : D) : List W → Prop
  | [] => True
  | w :: rest => x.fits w d ∧ FitsAll (Journal.apply d w) rest

variable {x} {d d' : D} {log : List W}

theorem FitsAll.append {more : List W} (h : x.FitsAll d log)
    (hmore : x.FitsAll (applyAll d log) more) : x.FitsAll d (log ++ more) := by
  induction log generalizing d with
  | nil => exact hmore
  | cons w rest ih => exact ⟨h.1, ih h.2 hmore⟩

theorem FitsAll.law (h : x.FitsAll d log) (hd : x.law d) : x.law (applyAll d log) := by
  induction log generalizing d with
  | nil => exact hd
  | cons w rest ih => exact ih h.2 (x.keeps d w hd h.1)

/-- A log fits every store that agrees on its rows. -/
theorem FitsAll.carried (h : x.FitsAll d log) (hsame : ∀ w ∈ log, x.same w d d') :
    x.FitsAll d' log := by
  induction log generalizing d d' with
  | nil => exact trivial
  | cons w rest ih =>
    refine ⟨x.carried w d d' (hsame w List.mem_cons_self) h.1, ih h.2 fun v hv => ?_⟩
    exact x.congr v w d d' (hsame v (List.mem_cons_of_mem _ hv))

theorem same_applyAll {w : W} (h : ∀ k ∈ logKeys D log, k ∉ Journal.rowKeys D w) :
    x.same w d (applyAll d log) := by
  induction log generalizing d with
  | nil => exact x.refl w d
  | cons v rest ih =>
    unfold logKeys at h ih
    rw [List.flatMap_cons] at h
    refine x.trans w d (Journal.apply d v) _ (x.apart w v d fun k hk => ?_) (ih fun k hk => ?_)
    · exact h k (List.mem_append_left _ hk)
    · exact h k (List.mem_append_right _ hk)

/-! ## Programs -/

variable (x) in
/-- On stores with the law the program writes only rows that fit. -/
def Checked : Prog D W K ε α → Prop
  | .ret _ => True
  | .fail _ => True
  | .read k => ∀ d, Checked (k d)
  | .write w k => ∀ d, x.law d → x.FitsAll d (w d) ∧ Checked (k d)
  | .lock _ k => Checked k

theorem Checked.bind {p : Prog D W K ε α} {f : α → Prog D W K ε β} (hp : x.Checked p)
    (hf : ∀ a, x.Checked (f a)) : x.Checked (p >>= f) := by
  change x.Checked (p.bind f)
  induction p with
  | ret a => exact hf a
  | fail e => exact trivial
  | read k ih => exact fun d => ih d (hp d)
  | write w k ih => exact fun d hd => ⟨(hp d hd).1, ih d (hp d hd).2⟩
  | lock key k ih => exact ih hp

theorem Checked.select {q : D → α} {f : α → Prog D W K ε β} (h : ∀ a, x.Checked (f a)) :
    x.Checked (Prog.select q >>= f) :=
  fun d => h (q d)

theorem fitsAll_of_forall {P : W → Prop} (hfits : ∀ w d, P w → x.fits w d)
    (h : ∀ w ∈ log, P w) : x.FitsAll d log := by
  induction log generalizing d with
  | nil => exact trivial
  | cons w rest ih =>
    exact ⟨hfits w d (h w List.mem_cons_self), ih fun v hv => h v (List.mem_cons_of_mem _ hv)⟩

/-- Rows that always fit need no check. -/
theorem Checked.of_emits {P : W → Prop} {p : Prog D W K ε α} (hfits : ∀ w d, P w → x.fits w d)
    (h : p.Emits P) : x.Checked p := by
  induction p with
  | ret a => exact trivial
  | fail e => exact trivial
  | read k ih => exact fun d => ih d (h d)
  | write w k ih => exact fun d _ => ⟨fitsAll_of_forall hfits (h.1 d), ih d (h.2 d)⟩
  | lock key k ih => exact ih h

/-! ## Systems -/

variable (x) in
/-- While a transaction holds keys, the others leave alone what matters to its rows. -/
def rely : Rely D W K where
  inv := x.law
  rel := fun l d d' => ∀ w ∈ l.log, x.same w d d'
  sees := fun _ _ _ => True
  fresh := fun _ _ _ => True
  refl := fun _ d w _ => x.refl w d
  trans := fun _ d d' d'' h h' w hw => x.trans w d d' d'' (h w hw) (h' w hw)
  sees_refl := fun _ _ => trivial
  sees_rel := fun _ _ _ _ _ _ => trivial
  sees_lock := fun _ _ _ _ _ _ => trivial

theorem Checked.safe {p : Prog D W K ε α} {l : Local W K} (hp : x.Checked p)
    (h : x.FitsAll d l.log) : x.rely.Safe p (fun _ l d => x.FitsAll d l.log) l d := by
  have hlater : ∀ {l : Local W K} {d d'}, x.FitsAll d l.log → x.rely.Later l d d' →
      x.FitsAll d' l.log := fun h hl => h.carried hl.1
  induction p generalizing l d with
  | ret a => exact fun d' hl => hlater h hl
  | fail e => exact trivial
  | read k ih => exact fun d' v hl _ => ih _ (hp _) (hlater h hl)
  | write w k ih =>
    intro d' hl
    have hfits := hlater h hl
    have hstep := hp _ (hfits.law hl.2)
    exact ih _ hstep.2 (hfits.append hstep.1)
  | lock key k ih => exact fun d' hl => ih hp (hlater h hl)

variable [DecidableEq K] [DecidableEq RK] {iso : Isolation} {s : Sys D W K ε α}

/-- However programs that check their rows interleave, the law holds. -/
theorem law_reach {starts : Prog D W K ε α → Prop} (hstarts : ∀ p, starts p → x.Checked p)
    (hd : x.law d) (h : Reach iso starts ⟨d, []⟩ s) : x.law s.db := by
  have hcond : ReachIf iso starts (locksFresh (x.rely (K := K)).fresh) ⟨d, []⟩ s := by
    refine h.mono fun t act _ => ?_
    cases act with
    | step i =>
      simp only [locksFresh]
      split <;> exact trivial
    | _ => exact trivial
  refine (Rely.soundness (r := x.rely) (Q := fun _ l d => x.FitsAll d l.log)
    (fun p hp d _ => (hstarts p hp).safe trivial) (fun a l d hd hfits => ⟨hfits.law hd, ?_⟩)
    (Rely.Sound.init hd) hcond).inv
  intro l' hapart w hw
  refine same_applyAll fun k hk hkw => hapart.keys k hk ?_
  exact List.mem_flatMap.mpr ⟨w, hw, hkw⟩

end Index

end Txn
