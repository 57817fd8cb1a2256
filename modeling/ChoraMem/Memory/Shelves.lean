/-
The two shelves of the store.

Seeds with their versions and bases are one shelf, Recollections with theirs another.
The projections forget nothing of a row; they only turn tables into sets, so what a
written row does to a shelf is what it does to the table.
-/
import ChoraMem.Storage.Apply
import ChoraMem.Versions.Shelf

namespace ChoraMem

open Txn Versions

/-! ## Version refs -/

theorem toDigits_injective {n m : Nat} (h : Nat.toDigits 10 n = Nat.toDigits 10 m) : n = m := by
  have hn := Nat.ofDigitChars_ten_toDigits (n := n)
  rw [h, Nat.ofDigitChars_ten_toDigits] at hn
  exact hn.symm

theorem at_not_mem_toDigits (n : Nat) : '@' ∉ Nat.toDigits 10 n := by
  intro h
  have := Nat.isDigit_of_mem_toDigits (by decide) (by decide) h
  exact absurd this (by decide)

/-- Two texts that agree from the last `@` on. -/
theorem split_last_at {a b x y : List Char} (hx : '@' ∉ x) (hy : '@' ∉ y)
    (h : a ++ '@' :: x = b ++ '@' :: y) : a = b ∧ x = y := by
  induction a generalizing b with
  | nil =>
    cases b with
    | nil => exact ⟨rfl, (List.cons.inj h).2⟩
    | cons c rest =>
      have hmem : '@' ∈ x := by
        rw [(List.cons.inj h).2]
        simp
      exact absurd hmem hx
  | cons c rest ih =>
    cases b with
    | nil =>
      have hmem : '@' ∈ y := by
        rw [← (List.cons.inj h).2]
        simp
      exact absurd hmem hy
    | cons c' rest' =>
      obtain ⟨rfl, hrest⟩ := List.cons.inj h
      obtain ⟨rfl, rfl⟩ := ih hrest
      exact ⟨rfl, rfl⟩

theorem versionRefOf_inj {r r' : String} {n n' : Nat} (h : versionRefOf r n = versionRefOf r' n') :
    r = r' ∧ n = n' := by
  have hl := congrArg String.toList h
  simp only [versionRefOf, String.toList_append, Nat.toString_eq_ofList_toDigits,
    String.toList_ofList, List.append_assoc] at hl
  obtain ⟨hr, hn⟩ := split_last_at (at_not_mem_toDigits n) (at_not_mem_toDigits n') hl
  exact ⟨String.toList_inj.mp hr, toDigits_injective hn⟩

theorem versionRefOf_ne_empty (r : String) (n : Nat) : versionRefOf r n ≠ "" := by
  intro h
  have hl := congrArg String.toList h
  simp [versionRefOf] at hl

/-! ## Formats -/

/-- A basis row of a SeedVersion, of an Episode or of an Outcome. -/
inductive SeedCite
  | episode (b : BasisRow)
  | outcome (b : BasisRow)

def SeedCite.row : SeedCite → BasisRow
  | episode b | outcome b => b

def seedFormat : Format String String SeedVersionRow SeedCite String where
  root := SeedVersionRow.seedRef
  number := SeedVersionRow.number
  ref := SeedVersionRow.ref
  label := SeedVersionRow.tendency
  live := fun v => v.status = .active
  retire := fun v => { v with status := .superseded }
  name := versionRefOf
  of := fun c => c.row.versionRef
  root_retire := fun _ => rfl
  number_retire := fun _ => rfl
  ref_retire := fun _ => rfl
  not_live_retire := fun _ h => by cases h
  name_inj := versionRefOf_inj

def recollectionFormat :
    Format String String RecollectionVersionRow BasisRow (String × String) where
  root := RecollectionVersionRow.recollectionRef
  number := RecollectionVersionRow.number
  ref := RecollectionVersionRow.ref
  label := fun v => (v.application, v.text)
  live := fun v => v.status = .active
  retire := fun v => { v with status := .superseded }
  name := versionRefOf
  of := BasisRow.versionRef
  root_retire := fun _ => rfl
  number_retire := fun _ => rfl
  ref_retire := fun _ => rfl
  not_live_retire := fun _ h => by cases h
  name_inj := versionRefOf_inj

abbrev SeedShelf := Shelf OwnerScope String SeedVersionRow SeedCite

abbrev RecollectionShelf := Shelf OwnerScope String RecollectionVersionRow BasisRow

abbrev SeedStep := Step OwnerScope String SeedVersionRow SeedCite

abbrev RecollectionStep := Step OwnerScope String RecollectionVersionRow BasisRow

def SeedRow.root (s : SeedRow) : OwnerScope × String := (s.owner, s.ref)

def RecollectionRow.root (r : RecollectionRow) : OwnerScope × String := (r.owner, r.ref)

namespace Db

def seedShelf (d : Db) : SeedShelf where
  roots := {r | ∃ s ∈ d.seeds, s.root = r}
  versions := {v | v ∈ d.seedVersions}
  cites := {c | match c with
    | .episode b => b ∈ d.seedBasis
    | .outcome b => b ∈ d.seedOutcomeBasis}

def recollectionShelf (d : Db) : RecollectionShelf where
  roots := {r | ∃ s ∈ d.recollections, s.root = r}
  versions := {v | v ∈ d.recollectionVersions}
  cites := {b | b ∈ d.recollectionBasis}

variable {d d' : Db}

@[simp] theorem mem_seedShelf_versions {v : SeedVersionRow} :
    v ∈ d.seedShelf.versions ↔ v ∈ d.seedVersions := Iff.rfl

@[simp] theorem mem_recollectionShelf_versions {v : RecollectionVersionRow} :
    v ∈ d.recollectionShelf.versions ↔ v ∈ d.recollectionVersions := Iff.rfl

@[simp] theorem episode_mem_seedShelf {b : BasisRow} :
    SeedCite.episode b ∈ d.seedShelf.cites ↔ b ∈ d.seedBasis := Iff.rfl

@[simp] theorem outcome_mem_seedShelf {b : BasisRow} :
    SeedCite.outcome b ∈ d.seedShelf.cites ↔ b ∈ d.seedOutcomeBasis := Iff.rfl

@[simp] theorem mem_recollectionShelf_cites {b : BasisRow} :
    b ∈ d.recollectionShelf.cites ↔ b ∈ d.recollectionBasis := Iff.rfl

theorem mem_seedShelf_roots {r : OwnerScope × String} :
    r ∈ d.seedShelf.roots ↔ ⟨r.1, r.2⟩ ∈ d.seeds := by
  constructor
  · rintro ⟨s, hs, rfl⟩
    exact hs
  · intro h
    exact ⟨_, h, rfl⟩

theorem mem_recollectionShelf_roots {r : OwnerScope × String} :
    r ∈ d.recollectionShelf.roots ↔ ⟨r.1, r.2⟩ ∈ d.recollections := by
  constructor
  · rintro ⟨s, hs, rfl⟩
    exact hs
  · intro h
    exact ⟨_, h, rfl⟩

theorem seedShelf_owns {o : OwnerScope → Prop} {root : String} :
    d.seedShelf.Owns o root ↔ ∃ s ∈ d.seeds, s.ref = root ∧ o s.owner := by
  constructor
  · rintro ⟨r, hr, hroot, ho⟩
    exact ⟨_, mem_seedShelf_roots.mp hr, hroot, ho⟩
  · rintro ⟨s, hs, hroot, ho⟩
    exact ⟨s.root, ⟨s, hs, rfl⟩, hroot, ho⟩

theorem recollectionShelf_owns {o : OwnerScope → Prop} {root : String} :
    d.recollectionShelf.Owns o root ↔ ∃ s ∈ d.recollections, s.ref = root ∧ o s.owner := by
  constructor
  · rintro ⟨r, hr, hroot, ho⟩
    exact ⟨_, mem_recollectionShelf_roots.mp hr, hroot, ho⟩
  · rintro ⟨s, hs, hroot, ho⟩
    exact ⟨s.root, ⟨s, hs, rfl⟩, hroot, ho⟩

/-- Stores with the same rows have the same shelf. -/
theorem seedShelf_congr (hs : ∀ s, s ∈ d.seeds ↔ s ∈ d'.seeds)
    (hv : ∀ v, v ∈ d.seedVersions ↔ v ∈ d'.seedVersions)
    (hb : ∀ b, b ∈ d.seedBasis ↔ b ∈ d'.seedBasis)
    (ho : ∀ b, b ∈ d.seedOutcomeBasis ↔ b ∈ d'.seedOutcomeBasis) : d.seedShelf = d'.seedShelf := by
  ext x
  · rw [mem_seedShelf_roots, mem_seedShelf_roots]
    exact hs _
  · exact hv x
  · cases x with
    | episode b => exact hb b
    | outcome b => exact ho b

theorem recollectionShelf_congr (hs : ∀ s, s ∈ d.recollections ↔ s ∈ d'.recollections)
    (hv : ∀ v, v ∈ d.recollectionVersions ↔ v ∈ d'.recollectionVersions)
    (hb : ∀ b, b ∈ d.recollectionBasis ↔ b ∈ d'.recollectionBasis) :
    d.recollectionShelf = d'.recollectionShelf := by
  ext x
  · rw [mem_recollectionShelf_roots, mem_recollectionShelf_roots]
    exact hs _
  · exact hv x
  · exact hb x

end Db

/-- Adding rows that a statement has found missing. -/
theorem insertRow_fresh {ρ κ : Type} [DecidableEq κ] {key : ρ → κ} {r : ρ} {t : List ρ}
    (h : ∀ x ∈ t, key x ≠ key r) : insertRow key r t = t ++ [r] := by
  rw [insertRow, if_neg]
  rintro ⟨x, hx, hk⟩
  exact h x hx hk

@[simp] theorem mem_insertRow_id {ρ : Type} [DecidableEq ρ] {r x : ρ} {t : List ρ} :
    x ∈ insertRow id r t ↔ x ∈ t ∨ x = r := by
  rw [mem_insertRow]
  constructor
  · exact fun h => h.imp_right And.left
  · rintro (hx | rfl)
    · exact Or.inl hx
    · by_cases hx : x ∈ t
      · exact Or.inl hx
      · exact Or.inr ⟨rfl, fun y hy hxy => hx ((show y = x from hxy) ▸ hy)⟩

end ChoraMem
