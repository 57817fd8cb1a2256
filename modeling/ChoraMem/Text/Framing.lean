/-
Framings that can be read back.

A value is written as a list of fields, and values are written one after the other with
nothing between them.  What is written can be read back when it tells the value and where
what follows begins; so can a list of such values, once its length is known, or when what
follows it begins with no field that a value begins with.
-/
import Mathlib.Data.List.Basic
import Mathlib.Data.List.Forall2

namespace Text

section

variable {α β : Type} {f : α → List β}

/-- What is written of a value tells it, and what follows it. -/
def Readable (f : α → List β) : Prop := ∀ a b u v, f a ++ u = f b ++ v → a = b ∧ u = v

/-- As many values, one after the other. -/
theorem Readable.flatMap (h : Readable f) {l l' : List α} {u v : List β}
    (hlength : l.length = l'.length) (heq : l.flatMap f ++ u = l'.flatMap f ++ v) : l = l' ∧ u = v := by
  induction l generalizing l' with
  | nil =>
    obtain rfl := List.length_eq_zero_iff.mp hlength.symm
    exact ⟨rfl, heq⟩
  | cons a rest ih =>
    cases l' with
    | nil => cases hlength
    | cons a' rest' =>
      rw [List.flatMap_cons, List.flatMap_cons, List.append_assoc, List.append_assoc] at heq
      obtain ⟨rfl, hrest⟩ := h _ _ _ _ heq
      obtain ⟨rfl, huv⟩ := ih (Nat.succ.inj hlength) hrest
      exact ⟨rfl, huv⟩

end

/-! ## Lists without a length -/

section

variable {α β : Type} {S E : β → Prop} {u v : List β}

/-- The first field, when there is one, is of this kind. -/
def Starts (S : β → Prop) (u : List β) : Prop := ∀ b ∈ u.head?, S b

@[simp] theorem starts_nil : Starts S [] := by simp [Starts]

@[simp] theorem starts_cons {b : β} : Starts S (b :: u) ↔ S b := by simp [Starts]

theorem Starts.mono (h : Starts S u) (hS : ∀ b, S b → E b) : Starts E u := fun b hb => hS b (h b hb)

/-- Fields of one kind end where a field of another kind begins. -/
theorem run_ends {l l' : List β} (hl : ∀ b ∈ l, S b) (hl' : ∀ b ∈ l', S b)
    (hu : Starts (¬S ·) u) (hv : Starts (¬S ·) v) (h : l ++ u = l' ++ v) : l = l' ∧ u = v := by
  induction l generalizing l' with
  | nil =>
    cases l' with
    | nil => exact ⟨rfl, h⟩
    | cons b rest =>
      obtain rfl : u = b :: rest ++ v := h
      exact absurd (hl' b List.mem_cons_self) (hu b rfl)
  | cons b rest ih =>
    cases l' with
    | nil =>
      obtain rfl : v = b :: rest ++ u := h.symm
      exact absurd (hl b List.mem_cons_self) (hv b rfl)
    | cons b' rest' =>
      obtain ⟨rfl, hrest⟩ := List.cons.inj h
      obtain ⟨rfl, huv⟩ := ih (fun c hc => hl c (List.mem_cons_of_mem _ hc))
        (fun c hc => hl' c (List.mem_cons_of_mem _ hc)) hrest
      exact ⟨rfl, huv⟩

/-- Fields of one kind end where a mark of another kind stands. -/
theorem run_mark {l l' : List β} {mark : β} (hl : ∀ b ∈ l, S b) (hl' : ∀ b ∈ l', S b)
    (hmark : ¬S mark) (h : l ++ mark :: u = l' ++ mark :: v) : l = l' ∧ u = v := by
  obtain ⟨hsame, hrest⟩ := run_ends hl hl' (starts_cons.mpr hmark) (starts_cons.mpr hmark) h
  exact ⟨hsame, (List.cons.inj hrest).2⟩

variable {good : α → Prop} {R : α → α → Prop} {f : α → List β}

/-- What is written of a good value tells it up to `R`, when what follows begins with a field of
this kind. -/
def ReadableBefore (good : α → Prop) (S : β → Prop) (R : α → α → Prop) (f : α → List β) : Prop :=
  ∀ a b u v, good a → good b → Starts S u → Starts S v → f a ++ u = f b ++ v → R a b ∧ u = v

/-- Good values, one after the other, up to a field that begins none. -/
theorem ReadableBefore.flatMap (h : ReadableBefore good S R f)
    (hstart : ∀ a u, good a → Starts S (f a ++ u)) (hend : ∀ a u, good a → ¬Starts E (f a ++ u))
    (hE : ∀ b, E b → S b) {l l' : List α} (hl : ∀ a ∈ l, good a) (hl' : ∀ a ∈ l', good a)
    (hu : Starts E u) (hv : Starts E v) (heq : l.flatMap f ++ u = l'.flatMap f ++ v) :
    List.Forall₂ R l l' ∧ u = v := by
  have hrest : ∀ {l : List α} {u : List β}, (∀ a ∈ l, good a) → Starts E u →
      Starts S (l.flatMap f ++ u) := by
    intro l u hl hu
    cases l with
    | nil => exact hu.mono hE
    | cons a rest =>
      rw [List.flatMap_cons, List.append_assoc]
      exact hstart a _ (hl a List.mem_cons_self)
  induction l generalizing l' with
  | nil =>
    cases l' with
    | nil => exact ⟨.nil, heq⟩
    | cons a rest =>
      rw [List.flatMap_cons, List.append_assoc] at heq
      obtain rfl : u = f a ++ (rest.flatMap f ++ v) := heq
      exact absurd hu (hend a _ (hl' a List.mem_cons_self))
  | cons a rest ih =>
    cases l' with
    | nil =>
      rw [List.flatMap_cons, List.append_assoc] at heq
      obtain rfl : v = f a ++ (rest.flatMap f ++ u) := heq.symm
      exact absurd hv (hend a _ (hl a List.mem_cons_self))
    | cons a' rest' =>
      have hgood : ∀ b ∈ rest, good b := fun b hb => hl b (List.mem_cons_of_mem _ hb)
      have hgood' : ∀ b ∈ rest', good b := fun b hb => hl' b (List.mem_cons_of_mem _ hb)
      rw [List.flatMap_cons, List.flatMap_cons, List.append_assoc, List.append_assoc] at heq
      obtain ⟨hsame, hfields⟩ := h _ _ _ _ (hl a List.mem_cons_self) (hl' a' List.mem_cons_self)
        (hrest hgood hu) (hrest hgood' hv) heq
      obtain ⟨htail, huv⟩ := ih hgood hgood' hfields
      exact ⟨.cons hsame htail, huv⟩

end

end Text
