/-
The orders of a selection.

Paths, anchors and ranked candidates are compared field by field.  Each comparison is
the order of a lexicographic key, and the key tells apart all that a selection compares:
paths of one candidate, anchors, and candidates of different versions.  So a selection
depends only on which queries, candidates, anchors and answers there are, not on the
order they come in, and on no choice of a sort.
-/
import Mathlib.Algebra.Order.Ring.Unbundled.Rat
import Mathlib.Data.String.Basic
import ChoraMem.Order.Best
import ChoraMem.Selection.Ranking

namespace ChoraMem

open Best OrderDual

/-! ## Keys -/

def Anchor.key (a : Anchor) : String ×ₗ String ×ₗ String :=
  toLex (a.episodeRef, toLex (a.sourceRef, a.text))

theorem anchorBefore_eq (a b : Anchor) : anchorBefore a b = decide (a.key < b.key) := by
  unfold Anchor.key anchorBefore
  rw [decide_toLex_lt, decide_toLex_lt]

theorem Anchor.key_injective {a b : Anchor} (h : a.key = b.key) : a = b := by
  obtain ⟨x, y, z⟩ := a
  obtain ⟨x', y', z'⟩ := b
  simp only [Anchor.key, EmbeddingLike.apply_eq_iff_eq, Prod.mk.injEq] at h
  obtain ⟨rfl, rfl, rfl⟩ := h
  rfl

/-- Better paths have smaller keys.  Rank and lane count between indexed paths only. -/
def ActivationPath.key (p : ActivationPath) :
    Bool ×ₗ Int ×ₗ Int ×ₗ ℚᵒᵈ ×ₗ Bool ×ₗ String ×ₗ String ×ₗ String ×ₗ String :=
  toLex (!p.indexed, toLex (if p.indexed then p.indexRank else 0,
    toLex (if p.indexed then p.laneOrder else 0, toLex (toDual p.score, toLex (!p.direct,
      toLex (p.activation.querySourceRef, toLex (p.activation.matchedRef,
        toLex (p.activation.evidenceEpisodeRef, p.activation.evidenceSourceRef))))))))

theorem betterPath_eq (left right : ActivationPath) :
    betterPath left right = decide (left.key < right.key) := by
  unfold ActivationPath.key betterPath
  simp only [decide_toLex_lt]
  have hno : ¬(true < false) := by decide
  cases left.indexed <;> cases right.indexed <;> cases left.direct <;> cases right.direct <;>
    simp [toDual_lt_toDual, hno]

/-- What ranks first has the smaller key. -/
def RankedActivation.key (r : RankedActivation) :
    Bool ×ₗ Int ×ₗ Int ×ₗ ℚᵒᵈ ×ₗ Int ×ₗ Intᵒᵈ ×ₗ String ×ₗ String :=
  toLex (!r.indexed, toLex (if r.indexed then r.indexRank else 0,
    toLex (if r.indexed then r.laneOrder else 0, toLex (toDual r.support, toLex (r.ownerOrder,
      toLex (toDual r.availability, toLex (r.activation.kind.text, r.activation.versionRef)))))))

theorem ItemKind.text_inj {a b : ItemKind} : a.text = b.text ↔ a = b := by
  cases a <;> cases b <;> decide

theorem rankedBefore_eq (a b : RankedActivation) :
    rankedBefore a b = decide (a.key < b.key) := by
  unfold RankedActivation.key rankedBefore
  simp only [decide_toLex_lt]
  cases a.indexed <;> cases b.indexed <;> simp [toDual_lt_toDual, ItemKind.text_inj]

/-! ## Scans and sorts by a key -/

section

variable {c c' : Candidate} {score : String → String → Rat} {queries queries' : List Query}
variable {policy : Policy} {candidates candidates' : List Candidate}

theorem keepBetter_eq : keepBetter = keep ActivationPath.key := by
  funext best path
  cases best with
  | none => rfl
  | some b => simp [keepBetter, keep, betterPath_eq]

theorem bestSupportPath_eq (anchors : List Anchor) (evidence : Anchor) :
    bestSupportPath score queries c anchors evidence = best ActivationPath.key
      (c.indexMatches.filterMap (indexedPath score queries c anchors evidence) ++
        (queries.filter Query.usable).flatMap (queryPaths score c anchors evidence)) := by
  simp only [bestSupportPath, keepBetter_eq, best]

theorem bestInhibition_eq (anchors : List Anchor) :
    bestInhibition score queries anchors = best (fun s : Rat => toDual s)
      ((queries.filter Query.usable).flatMap fun query =>
        (liveAnchors anchors).map fun anchor => normalizeScore (score query.text anchor.text)) := by
  simp only [bestInhibition, best]
  congr 1
  funext b s
  cases b <;> rfl

theorem liveAnchors_sorted (anchors : List Anchor) :
    (liveAnchors anchors).Pairwise fun a b => a.key ≤ b.key := by
  refine insertionSort_sorted _ (fun a b => ?_) _
  rw [anchorBefore_eq]
  simp

/-- The live anchors do not depend on the order of the anchors. -/
theorem liveAnchors_perm {anchors anchors' : List Anchor} (h : anchors.Perm anchors') :
    liveAnchors anchors = liveAnchors anchors' := by
  refine @sorted_unique _ _ _ Anchor.key _ _ ?_ (fun _ _ _ _ hkey => Anchor.key_injective hkey)
    (liveAnchors_sorted anchors) (liveAnchors_sorted anchors')
  unfold liveAnchors
  exact ((List.perm_insertionSort _ _).trans (h.filter _)).trans (List.perm_insertionSort _ _).symm

/-- A search by a key that tells the items apart. -/
theorem find?_perm {α β : Type} [DecidableEq β] {f : α → β} {l l' : List α} (h : l.Perm l')
    (hnd : (l.map f).Nodup) (b : β) : l.find? (f · == b) = l'.find? (f · == b) := by
  have hsome : ∀ {x y : List α}, x.Perm y → (x.map f).Nodup → ∀ a, x.find? (f · == b) = some a →
      y.find? (f · == b) = some a := by
    intro x y hxy hx a ha
    have hfa := List.find?_some ha
    have hmem := List.mem_of_find?_eq_some ha
    cases hy : y.find? (f · == b) with
    | none =>
      have hno := List.find?_eq_none.mp hy a (hxy.mem_iff.mp hmem)
      exact absurd hfa hno
    | some a' =>
      have hfa' := List.find?_some hy
      have hmem' := hxy.mem_iff.mpr (List.mem_of_find?_eq_some hy)
      simp only [beq_iff_eq] at hfa hfa'
      rw [List.inj_on_of_nodup_map hx hmem hmem' (hfa.trans hfa'.symm)]
  cases hl : l.find? (f · == b) with
  | some a => exact (hsome h hnd a hl).symm
  | none =>
    cases hl' : l'.find? (f · == b) with
    | none => rfl
    | some a =>
      have hnd' : (l'.map f).Nodup := (h.map f).nodup_iff.mp hnd
      rw [hsome h.symm hnd' a hl'] at hl
      cases hl

theorem usable_perm (h : queries.Perm queries') :
    (queries.filter Query.usable).Perm (queries'.filter Query.usable) := h.filter _

theorem indexedPath_perm (h : queries.Perm queries') (hrefs : (queries.map (·.ref)).Nodup)
    (anchors : List Anchor) (evidence : Anchor) (found : IndexMatch) :
    indexedPath score queries c anchors evidence found =
      indexedPath score queries' c anchors evidence found := by
  have hfind : (queries.filter Query.usable).reverse.find? (·.ref == found.querySourceRef) =
      (queries'.filter Query.usable).reverse.find? (·.ref == found.querySourceRef) := by
    refine find?_perm (((List.reverse_perm _).trans (usable_perm h)).trans
      (List.reverse_perm _).symm) ?_ _
    rw [List.map_reverse, List.nodup_reverse]
    exact hrefs.sublist (List.filter_sublist.map _)
  unfold indexedPath
  rw [hfind]

/-! ## Paths of one candidate -/

/-- A path of the candidate as a selection makes it. -/
def ActivationPath.Of (p : ActivationPath) (c : Candidate) : Prop :=
  p.activation.From c ∧ (p.indexed = false → p.indexRank = 0 ∧ p.laneOrder = 0)

theorem of_indexedPath {anchors : List Anchor} {evidence : Anchor} {found : IndexMatch}
    {p : ActivationPath} (h : indexedPath score queries c anchors evidence found = some p) :
    p.Of c := by
  refine ⟨from_indexedPath h, fun hno => ?_⟩
  rw [indexed_of_indexedPath h] at hno
  cases hno

theorem of_queryPaths {anchors : List Anchor} {evidence : Anchor} {query : Query}
    {p : ActivationPath} (h : p ∈ queryPaths score c anchors evidence query) : p.Of c := by
  refine ⟨from_queryPaths h, fun _ => ?_⟩
  unfold queryPaths at h
  rcases List.mem_cons.mp h with rfl | h
  · exact ⟨rfl, rfl⟩
  · split at h
    · cases h
    · obtain ⟨anchor, _, rfl⟩ := List.mem_map.mp h
      exact ⟨rfl, rfl⟩

/-- The key tells the paths of a candidate apart. -/
theorem ActivationPath.key_injective {p q : ActivationPath} (hp : p.Of c) (hq : q.Of c)
    (h : p.key = q.key) : p = q := by
  obtain ⟨⟨_, _, _, hpa⟩, hp0⟩ := hp
  obtain ⟨⟨_, _, _, hqa⟩, hq0⟩ := hq
  obtain ⟨pa, ps, pd, pi, pr, pl⟩ := p
  obtain ⟨qa, qs, qd, qi, qr, ql⟩ := q
  simp only at hpa hqa hp0 hq0
  subst hpa hqa
  simp only [ActivationPath.key, EmbeddingLike.apply_eq_iff_eq, Prod.mk.injEq, Bool.not_inj_iff,
    Candidate.activation] at h
  obtain ⟨rfl, hr, hl, rfl, rfl, rfl, rfl, heps, hsrc⟩ := h
  cases pi with
  | true =>
    simp only [if_true] at hr hl
    simp [Candidate.activation, hr, hl, heps, hsrc]
  | false =>
    obtain ⟨rfl, rfl⟩ := hp0 rfl
    obtain ⟨rfl, rfl⟩ := hq0 rfl
    simp [Candidate.activation, heps, hsrc]

/-! ## Order does not matter -/

/-- The candidate with its anchors and answers in another order. -/
structure Candidate.Shuffled (c c' : Candidate) : Prop where
  same : c' = { c with support := c'.support, inhibition := c'.inhibition,
                       indexMatches := c'.indexMatches }
  support : c.support.Perm c'.support
  inhibition : c.inhibition.Perm c'.inhibition
  indexMatches : c.indexMatches.Perm c'.indexMatches

/-- The candidates in another order, each shuffled. -/
def Reordered (candidates candidates' : List Candidate) : Prop :=
  ∃ middle, candidates.Perm middle ∧ List.Forall₂ Candidate.Shuffled middle candidates'

theorem bestSupportPath_shuffled (h : c.Shuffled c') (hq : queries.Perm queries')
    (hrefs : (queries.map (·.ref)).Nodup) (anchors : List Anchor) (evidence : Anchor) :
    bestSupportPath score queries c anchors evidence =
      bestSupportPath score queries' c' anchors evidence := by
  have hindexed : indexedPath score queries c anchors evidence =
      indexedPath score queries' c' anchors evidence := by
    funext found
    rw [indexedPath_perm hq hrefs, h.same]
    rfl
  have hplain : queryPaths score c anchors evidence = queryPaths score c' anchors evidence := by
    funext query
    rw [h.same]
    rfl
  rw [bestSupportPath_eq, bestSupportPath_eq, ← hindexed, ← hplain]
  refine best_perm ((h.indexMatches.filterMap _).append ((usable_perm hq).flatMap_right _)) ?_
  have hof : ∀ p ∈ c.indexMatches.filterMap (indexedPath score queries c anchors evidence) ++
      (queries.filter Query.usable).flatMap (queryPaths score c anchors evidence), p.Of c := by
    intro p hp
    rcases List.mem_append.mp hp with hp | hp
    · obtain ⟨found, _, hf⟩ := List.mem_filterMap.mp hp
      exact of_indexedPath hf
    · obtain ⟨query, _, hp⟩ := List.mem_flatMap.mp hp
      exact of_queryPaths hp
  intro p hp q hq' hkey
  exact ActivationPath.key_injective (hof p hp) (hof q hq') hkey

theorem bestInhibition_perm {anchors anchors' : List Anchor} (h : anchors.Perm anchors')
    (hq : queries.Perm queries') :
    bestInhibition score queries anchors = bestInhibition score queries' anchors' := by
  rw [bestInhibition_eq, bestInhibition_eq, liveAnchors_perm h]
  exact best_perm ((usable_perm hq).flatMap_right _) fun _ _ _ _ heq => toDual.injective heq

/-- A shuffled candidate ranks the same. -/
theorem rankCandidate_shuffled (h : c.Shuffled c') (hq : queries.Perm queries')
    (hrefs : (queries.map (·.ref)).Nodup) :
    rankCandidate score queries policy c = rankCandidate score queries' policy c' := by
  have hpath := @bestSupportPath_shuffled c c' score queries queries' h hq hrefs
  have hinhibition := @bestInhibition_perm score _ _ _ _ h.inhibition hq
  have hlive := liveAnchors_perm h.support
  have hkind : c'.kind = c.kind := by rw [h.same]
  have href : c'.versionRef = c.versionRef := by rw [h.same]
  have htext : c'.text = c.text := by rw [h.same]
  have howner : c'.ownerOrder = c.ownerOrder := by rw [h.same]
  have hcount : c'.reenactments = c.reenactments := by rw [h.same]
  unfold rankCandidate
  rw [hlive]
  cases liveAnchors c'.support with
  | nil => rfl
  | cons evidence rest =>
    simp only [href, htext, hkind, howner, hcount, hpath, inhibited, hinhibition]

theorem filterMap_rankCandidate_reordered (h : Reordered candidates candidates')
    (hq : queries.Perm queries') (hrefs : (queries.map (·.ref)).Nodup) :
    (candidates.filterMap (rankCandidate score queries policy)).Perm
      (candidates'.filterMap (rankCandidate score queries' policy)) := by
  obtain ⟨middle, hperm, hshuffled⟩ := h
  have hsame : ∀ {l l' : List Candidate}, List.Forall₂ Candidate.Shuffled l l' →
      l.filterMap (rankCandidate score queries policy) =
        l'.filterMap (rankCandidate score queries' policy) := by
    intro l l' hl
    induction hl with
    | nil => rfl
    | cons hc _ ih =>
      rw [List.filterMap_cons, List.filterMap_cons, rankCandidate_shuffled hc hq hrefs, ih]
  rw [← hsame hshuffled]
  exact hperm.filterMap _

/-- Candidates of different versions have different keys. -/
theorem faithful_ranked (hdistinct : (candidates.map fun c => (c.kind, c.versionRef)).Nodup) :
    Faithful RankedActivation.key (candidates.filterMap (rankCandidate score queries policy)) := by
  intro r hr r' hr' hkey
  obtain ⟨c, hc, hrank⟩ := List.mem_filterMap.mp hr
  obtain ⟨c', hc', hrank'⟩ := List.mem_filterMap.mp hr'
  simp only [RankedActivation.key, EmbeddingLike.apply_eq_iff_eq, Prod.mk.injEq,
    ItemKind.text_inj] at hkey
  obtain ⟨_, _, _, _, _, _, hkind, href⟩ := hkey
  have hs := (from_rankCandidate hrank).shows
  have hs' := (from_rankCandidate hrank').shows
  have heq : c = c' := by
    refine List.inj_on_of_nodup_map hdistinct hc hc' ?_
    simp only [Prod.mk.injEq]
    exact ⟨hs.1.symm.trans (hkind.trans hs'.1), hs.2.symm.trans (href.trans hs'.2)⟩
  subst heq
  exact Option.some.inj (hrank.symm.trans hrank')

/-- What a selection may answer, whatever sort it uses. -/
def Selects (score : String → String → Rat) (queries : List Query) (candidates : List Candidate)
    (policy : Policy) (activations : List Activation) : Prop :=
  policy.invalid = false ∧ ∃ ranked : List RankedActivation,
    ranked.Perm (candidates.filterMap (rankCandidate score queries policy)) ∧
      ranked.Pairwise (fun a b => rankedBefore b a = false) ∧
        activations = takeWithin policy 0 0 ranked

theorem selects_of_select {activations : List Activation}
    (h : select score queries candidates policy = .ok activations) :
    Selects score queries candidates policy activations := by
  unfold select at h
  cases hv : policy.invalid with
  | true => simp [hv] at h
  | false =>
    rw [hv, if_neg Bool.false_ne_true] at h
    refine ⟨hv, _, List.perm_insertionSort _ _, ?_, (Except.ok.inj h).symm⟩
    have hsorted := @insertionSort_sorted _ _ _ RankedActivation.key
      (fun a b => (!rankedBefore b a) = true) _ (fun a b => by simp [rankedBefore_eq])
      (candidates.filterMap (rankCandidate score queries policy))
    refine hsorted.imp fun {a b} hle => ?_
    rw [rankedBefore_eq]
    simpa using hle

/-- Queries of different refs and candidates of different versions are selected from
alike in whatever order they, their anchors and their answers come, by whatever sort. -/
theorem select_reordered (score : String → String → Rat) (policy : Policy)
    {queries queries' : List Query} {candidates candidates' : List Candidate}
    (hq : queries.Perm queries') (hrefs : (queries.map (·.ref)).Nodup)
    (hc : Reordered candidates candidates')
    (hdistinct : (candidates.map fun c => (c.kind, c.versionRef)).Nodup) :
    select score queries candidates policy = select score queries' candidates' policy ∧
      ∀ activations activations', Selects score queries candidates policy activations →
        Selects score queries' candidates' policy activations' → activations = activations' := by
  have hall : ∀ activations activations', Selects score queries candidates policy activations →
      Selects score queries' candidates' policy activations' → activations = activations' := by
    intro activations activations' ⟨_, ranked, hperm, hsorted, heq⟩
      ⟨_, ranked', hperm', hsorted', heq'⟩
    have hsame : ranked = ranked' := by
      refine @sorted_unique _ _ _ RankedActivation.key _ _ ?_ ?_ ?_ ?_
      · exact (hperm.trans (filterMap_rankCandidate_reordered hc hq hrefs)).trans hperm'.symm
      · intro r hr r' hr'
        exact faithful_ranked hdistinct r (hperm.mem_iff.mp hr) r' (hperm.mem_iff.mp hr')
      · refine hsorted.imp fun {a b} h => ?_
        rw [rankedBefore_eq] at h
        simpa using h
      · refine hsorted'.imp fun {a b} h => ?_
        rw [rankedBefore_eq] at h
        simpa using h
    rw [heq, heq', hsame]
  refine ⟨?_, hall⟩
  cases h : select score queries candidates policy with
  | error e =>
    cases h' : select score queries' candidates' policy with
    | error e' =>
      unfold select at h h'
      cases hv : policy.invalid <;> simp_all
    | ok activations' =>
      have hv := (selects_of_select h').1
      simp [select, hv] at h
  | ok activations =>
    have hs := selects_of_select h
    cases h' : select score queries' candidates' policy with
    | error e' => simp [select, hs.1] at h'
    | ok activations' => rw [hall _ _ hs (selects_of_select h')]

/-- A Disposition with two anchors. -/
def twoAnchors (first second : Anchor) : Candidate :=
  { kind := .disposition, versionRef := "seed_1_v1", text := "t", application := "self",
    ownerOrder := 0, support := [first, second], inhibition := [], reenactments := 0,
    indexMatches := [] }

theorem shuffled_twoAnchors (a b : Anchor) : (twoAnchors a b).Shuffled (twoAnchors b a) where
  same := rfl
  support := List.Perm.swap _ _ _
  inhibition := List.Perm.refl _
  indexMatches := List.Perm.refl _

theorem select_reordered_twoAnchors :
    select (fun _ _ => 1) [⟨"q", "x"⟩, ⟨"p", "y"⟩] [twoAnchors ⟨"e", "s", "a"⟩ ⟨"d", "s", "b"⟩]
        defaultPolicy =
      select (fun _ _ => 1) [⟨"p", "y"⟩, ⟨"q", "x"⟩] [twoAnchors ⟨"d", "s", "b"⟩ ⟨"e", "s", "a"⟩]
        defaultPolicy :=
  (select_reordered _ _ (List.Perm.swap _ _ _) (by decide)
    ⟨_, List.Perm.refl _, .cons (shuffled_twoAnchors _ _) .nil⟩
    (by decide)).1

end

end ChoraMem
