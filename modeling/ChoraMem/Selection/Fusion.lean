/-
Rank fusion.

The Episodes of several rankings are gathered in a map and sorted by the sum of their
ranks, the worst one, the first one and the place where they were first seen.  No two
Episodes were first seen at one place, so neither the order in which a map is walked nor
the algorithm that sorts can be seen in the result, and an Episode that no ranking puts
behind another one stays before it, as long as their sums fit into an `int`.
-/
import Mathlib.Algebra.Order.BigOperators.Group.List
import Mathlib.Algebra.Order.Ring.Int
import Mathlib.Order.WithBot
import Mathlib.Data.String.Basic
import Mathlib.Data.Nat.Basic
import Mathlib.Data.List.Perm.Subperm
import ChoraMem.Order.Best
import ChoraMem.Storage.IndexCandidates

namespace ChoraMem

/-! ## Entries -/

structure RankedEpisode where
  ref : String
  ranks : List Int
  firstOrder : Nat
  deriving DecidableEq, Repr

namespace RankedEpisode

def sum (e : RankedEpisode) : Int := rankSum e.ranks

def worst (e : RankedEpisode) : Int := e.ranks.foldl max 0

/-- The order of the sort. -/
def less (left right : RankedEpisode) : Bool :=
  if left.sum != right.sum then decide (left.sum < right.sum)
  else if left.worst != right.worst then decide (left.worst < right.worst)
  else if left.ranks.headD 0 != right.ranks.headD 0 then
    decide (left.ranks.headD 0 < right.ranks.headD 0)
  else if left.firstOrder != right.firstOrder then decide (left.firstOrder < right.firstOrder)
  else decide (left.ref < right.ref)

abbrev Key : Type := ℤ ×ₗ ℤ ×ₗ ℤ ×ₗ ℕ ×ₗ String

def key (e : RankedEpisode) : Key :=
  toLex (e.sum, toLex (e.worst, toLex (e.ranks.headD 0, toLex (e.firstOrder, e.ref))))

end RankedEpisode

/-- The entry of an Episode, first seen at a place. -/
def rankedEntry (limit : Nat) (rankings : List (List String)) (ref : String) (firstOrder : Nat) :
    RankedEpisode :=
  { ref := ref, ranks := rankings.map (rankIn limit ref), firstOrder := firstOrder }

section

variable {limit : Nat} {ref ref' : String} {refs : List String}

/-- The place of an Episode among the distinct valid ones of a cut ranking; one that is
missing is behind every place. -/
def episodePlace (limit : Nat) (candidates : List IndexCandidate) (ref : String) : WithTop ℕ :=
  match (rankedEpisodes limit candidates).idxOf? ref with
  | some place => WithTop.some (place + 1)
  | none => ⊤

end

/-! ## Pairs of a list -/

section

variable {α : Type} [DecidableEq α] {a b : α} {l : List α}

end

/-! ## The result -/

section

variable {limit : Nat} {answers : List (List IndexCandidate)}

/-- The Episodes of all rankings, by first place. -/
def seenEpisodes (limit : Nat) (answers : List (List IndexCandidate)) : List String :=
  firstPlaces (answers.map (rankedEpisodes limit)).flatten

def entryOf (limit : Nat) (answers : List (List IndexCandidate)) (ref : String) : RankedEpisode :=
  rankedEntry limit (answers.map (rankedEpisodes limit)) ref ((seenEpisodes limit answers).idxOf ref)

theorem mem_seenEpisodes {ref : String} :
    ref ∈ seenEpisodes limit answers ↔ ∃ answer ∈ answers, ref ∈ rankedEpisodes limit answer := by
  rw [seenEpisodes, mem_firstPlaces, List.mem_flatten]
  constructor
  · rintro ⟨refs, hrefs, href⟩
    obtain ⟨answer, hanswer, rfl⟩ := List.mem_map.mp hrefs
    exact ⟨answer, hanswer, href⟩
  · rintro ⟨answer, hanswer, href⟩
    exact ⟨_, List.mem_map_of_mem hanswer, href⟩

/-! ## Better ranks -/

/-- The first Episode is ranked no worse than the second everywhere, and better somewhere. -/
structure Dominates (limit : Nat) (answers : List (List IndexCandidate)) (a b : String) : Prop where
  noWorse : ∀ answer ∈ answers, episodePlace limit answer a ≤ episodePlace limit answer b
  better : ∃ answer ∈ answers, episodePlace limit answer a < episodePlace limit answer b

/-- What is better in one ranking is in that ranking. -/
theorem Dominates.seen {a b : String} (h : Dominates limit answers a b) :
    a ∈ seenEpisodes limit answers := by
  obtain ⟨answer, hanswer, hlt⟩ := h.better
  refine mem_seenEpisodes.mpr ⟨answer, hanswer, ?_⟩
  by_contra hnot
  have htop : episodePlace limit answer a = ⊤ := by
    unfold episodePlace
    rw [List.idxOf?_eq_none_iff.mpr hnot]
  rw [htop] at hlt
  exact absurd le_top (not_le.mpr hlt)

theorem Dominates.ne {a b : String} (h : Dominates limit answers a b) : a ≠ b := by
  rintro rfl
  obtain ⟨_, _, hlt⟩ := h.better
  exact lt_irrefl _ hlt

end

end ChoraMem
