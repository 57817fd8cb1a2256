/-
What `select` chooses, and what an answer of the index changes.

Ranking only chooses among the candidates, and when its bounds leave room for all of
them it leaves out only what has no support or is inhibited.  An indexed path comes
before every path of the local ranker, whatever its score, and the score of the path
that comes first is the one inhibition competes with.  So an answer of the index takes a
Disposition away exactly when the best indexed path does not beat its inhibition.
-/
import ChoraMem.Storage.Selection

namespace ChoraMem

section

variable {c : Candidate} {score : String → String → Rat} {queries : List Query} {policy : Policy}

/-! ## Ranking -/

/-- The activation shows the candidate. -/
def Activation.Shows (a : Activation) (c : Candidate) : Prop :=
  a.kind = c.kind ∧ a.versionRef = c.versionRef

/-- The activation is made of the candidate. -/
def Activation.From (a : Activation) (c : Candidate) : Prop :=
  ∃ query matched evidence, a = c.activation query matched evidence

theorem Activation.From.shows {a : Activation} (h : a.From c) : a.Shows c := by
  obtain ⟨_, _, _, rfl⟩ := h
  exact ⟨rfl, rfl⟩

theorem from_indexedPath {anchors : List Anchor} {evidence : Anchor} {found : IndexMatch}
    {p : ActivationPath} (h : indexedPath score queries c anchors evidence found = some p) :
    p.activation.From c := by
  simp only [indexedPath, Option.bind_eq_bind, Option.pure_def] at h
  split at h
  · cases h
  obtain ⟨query, _, h⟩ := Option.bind_eq_some_iff.mp h
  split at h
  · rw [← Option.some.inj h]
    exact ⟨_, _, _, rfl⟩
  split at h
  · cases h
  obtain ⟨anchor, _, h⟩ := Option.bind_eq_some_iff.mp h
  rw [← Option.some.inj h]
  exact ⟨_, _, _, rfl⟩

theorem from_queryPaths {anchors : List Anchor} {evidence : Anchor} {query : Query}
    {p : ActivationPath} (h : p ∈ queryPaths score c anchors evidence query) :
    p.activation.From c := by
  unfold queryPaths at h
  rcases List.mem_cons.mp h with rfl | h
  · exact ⟨_, _, _, rfl⟩
  · split at h
    · cases h
    · obtain ⟨anchor, _, rfl⟩ := List.mem_map.mp h
      exact ⟨_, _, _, rfl⟩

theorem foldl_keepBetter {P : ActivationPath → Prop} {l : List ActivationPath}
    (hl : ∀ p ∈ l, P p) {best : Option ActivationPath} (hbest : ∀ p, best = some p → P p)
    {p : ActivationPath} (h : l.foldl keepBetter best = some p) : P p := by
  induction l generalizing best with
  | nil => exact hbest p h
  | cons first rest ih =>
    refine ih (fun q hq => hl q (List.mem_cons_of_mem _ hq)) ?_ h
    intro q hq
    unfold keepBetter at hq
    split at hq
    · rw [← Option.some.inj hq]
      exact hl first List.mem_cons_self
    · split at hq
      · rw [← Option.some.inj hq]
        exact hl first List.mem_cons_self
      · exact hbest q hq

theorem from_bestSupportPath {anchors : List Anchor} {evidence : Anchor} {p : ActivationPath}
    (h : bestSupportPath score queries c anchors evidence = some p) : p.activation.From c := by
  refine foldl_keepBetter (P := fun p => p.activation.From c) (fun q hq => ?_) (fun q hq => by cases hq) h
  rcases List.mem_append.mp hq with hq | hq
  · obtain ⟨found, _, hf⟩ := List.mem_filterMap.mp hq
    exact from_indexedPath hf
  · obtain ⟨query, _, hq⟩ := List.mem_flatMap.mp hq
    exact from_queryPaths hq

theorem from_rankCandidate {r : RankedActivation}
    (h : rankCandidate score queries policy c = some r) : r.activation.From c := by
  unfold rankCandidate at h
  split at h
  · cases h
  split at h
  · cases h
  split at h
  · cases h
  rename_i path hpath
  split at h
  · cases h
  · rw [← Option.some.inj h]
    exact from_bestSupportPath hpath

theorem mem_takeWithin {l : List RankedActivation} {n m : Nat} {a : Activation}
    (h : a ∈ takeWithin policy n m l) : ∃ r ∈ l, r.activation = a := by
  induction l generalizing n m with
  | nil => cases h
  | cons first rest ih =>
    have hrest : ∀ {n m}, a ∈ takeWithin policy n m rest → ∃ r ∈ first :: rest, r.activation = a := by
      intro n m ha
      obtain ⟨r, hr, hra⟩ := ih ha
      exact ⟨r, List.mem_cons_of_mem _ hr, hra⟩
    unfold takeWithin at h
    split at h <;> split at h
    · exact hrest h
    · rcases List.mem_cons.mp h with rfl | h
      · exact ⟨first, List.mem_cons_self, rfl⟩
      · exact hrest h
    · exact hrest h
    · rcases List.mem_cons.mp h with rfl | h
      · exact ⟨first, List.mem_cons_self, rfl⟩
      · exact hrest h

/-- Ranking only chooses. -/
theorem from_select {candidates : List Candidate} {activations : List Activation}
    (h : select score queries candidates policy = .ok activations) :
    ∀ a ∈ activations, ∃ c ∈ candidates, a.From c := by
  unfold select at h
  split at h
  · cases h
  obtain rfl := Except.ok.inj h
  intro a ha
  obtain ⟨r, hr, rfl⟩ := mem_takeWithin ha
  obtain ⟨c, hc, hrank⟩ := List.mem_filterMap.mp ((List.mem_insertionSort _).mp hr)
  exact ⟨c, hc, from_rankCandidate hrank⟩

/-! ## Room for every candidate -/

/-- The bounds leave room for every candidate of each kind. -/
def Policy.RoomFor (policy : Policy) (candidates : List Candidate) : Prop :=
  candidates.countP (·.kind == .recollection) ≤ policy.maxRecollections ∧
    candidates.countP (·.kind == .disposition) ≤ policy.maxDispositions

instance (policy : Policy) (candidates : List Candidate) :
    Decidable (policy.RoomFor candidates) :=
  inferInstanceAs (Decidable (_ ∧ _))

/-- The selection activates the candidate. -/
def Chooses (activations : List Activation) (c : Candidate) : Prop := ∃ a ∈ activations, a.Shows c

theorem takeWithin_all {l : List RankedActivation} {n m : Nat}
    (hn : n + l.countP (·.activation.kind == .recollection) ≤ policy.maxRecollections)
    (hm : m + l.countP (·.activation.kind == .disposition) ≤ policy.maxDispositions) :
    takeWithin policy n m l = l.map (·.activation) := by
  induction l generalizing n m with
  | nil => rfl
  | cons first rest ih =>
    rw [List.countP_cons] at hn hm
    unfold takeWithin
    cases hk : first.activation.kind with
    | recollection =>
      have hother : (ItemKind.recollection == ItemKind.disposition) = false := rfl
      simp only [hk, hother, beq_self_eq_true, if_true, Bool.false_eq_true, if_false] at hn hm
      simp only
      rw [if_neg (by omega), ih (by omega) (by omega), List.map_cons]
    | disposition =>
      have hother : (ItemKind.disposition == ItemKind.recollection) = false := rfl
      simp only [hk, hother, beq_self_eq_true, if_true, Bool.false_eq_true, if_false] at hn hm
      simp only
      rw [if_neg (by omega), ih (by omega) (by omega), List.map_cons]

/-- Ranking adds no activation of a kind. -/
theorem countP_rankCandidate_le (kind : ItemKind) (candidates : List Candidate) :
    (candidates.filterMap (rankCandidate score queries policy)).countP
      (·.activation.kind == kind) ≤ candidates.countP (·.kind == kind) := by
  induction candidates with
  | nil => exact Nat.le_refl _
  | cons first rest ih =>
    rw [List.filterMap_cons, List.countP_cons]
    cases h : rankCandidate score queries policy first with
    | none =>
      simp only
      omega
    | some r =>
      simp only
      rw [List.countP_cons, (from_rankCandidate h).shows.1]
      omega

/-- With room for all, what is activated is what is ranked. -/
theorem chooses_select {candidates : List Candidate} {activations : List Activation}
    (hroom : policy.RoomFor candidates)
    (h : select score queries candidates policy = .ok activations) :
    Chooses activations c ↔ ∃ o ∈ candidates, o.kind = c.kind ∧ o.versionRef = c.versionRef ∧
      (rankCandidate score queries policy o).isSome := by
  unfold select at h
  split at h
  · cases h
  obtain rfl := Except.ok.inj h
  have hcount : ∀ kind : ItemKind, ((candidates.filterMap
      (rankCandidate score queries policy)).insertionSort fun a b => !rankedBefore b a).countP
        (·.activation.kind == kind) ≤ candidates.countP (·.kind == kind) := by
    intro kind
    rw [(List.perm_insertionSort _ _).countP_eq]
    exact countP_rankCandidate_le kind candidates
  rw [takeWithin_all (by have := hcount .recollection; have := hroom.1; omega)
    (by have := hcount .disposition; have := hroom.2; omega)]
  constructor
  · intro ⟨a, ha, hshow⟩
    obtain ⟨r, hr, rfl⟩ := List.mem_map.mp ha
    obtain ⟨o, ho, hrank⟩ := List.mem_filterMap.mp ((List.mem_insertionSort _).mp hr)
    have hso := (from_rankCandidate hrank).shows
    exact ⟨o, ho, hso.1.symm.trans hshow.1, hso.2.symm.trans hshow.2, by rw [hrank]; rfl⟩
  · intro ⟨o, ho, hkind, href, hsome⟩
    obtain ⟨r, hrank⟩ := Option.isSome_iff_exists.mp hsome
    have hso := (from_rankCandidate hrank).shows
    have hr := List.mem_filterMap.mpr ⟨o, ho, hrank⟩
    exact ⟨r.activation, List.mem_map.mpr ⟨r, (List.mem_insertionSort _).mpr hr, rfl⟩,
      hso.1.trans hkind, hso.2.trans href⟩

/-! ## Answers of the index -/

variable (score queries) in
/-- The path the answers of the index give a candidate, if they give it one. -/
def Candidate.bestIndexedPath (c : Candidate) : Option ActivationPath :=
  match liveAnchors c.support with
  | [] => none
  | evidence :: rest => (c.indexMatches.filterMap
      (indexedPath score queries c (evidence :: rest) evidence)).foldl keepBetter none

variable (score queries) in
/-- The answers give no path, or one that beats every inhibition. -/
def Candidate.Withstands (c : Candidate) : Prop :=
  ∀ p, c.bestIndexedPath score queries = some p →
    ∀ i, bestInhibition score queries c.inhibition = some i → i < p.score

theorem indexed_of_indexedPath {anchors : List Anchor} {evidence : Anchor} {found : IndexMatch}
    {p : ActivationPath} (h : indexedPath score queries c anchors evidence found = some p) :
    p.indexed = true := by
  simp only [indexedPath, Option.bind_eq_bind, Option.pure_def] at h
  split at h
  · cases h
  obtain ⟨query, _, h⟩ := Option.bind_eq_some_iff.mp h
  split at h
  · rw [← Option.some.inj h]
  split at h
  · cases h
  obtain ⟨anchor, _, h⟩ := Option.bind_eq_some_iff.mp h
  rw [← Option.some.inj h]

theorem indexed_of_queryPaths {anchors : List Anchor} {evidence : Anchor} {query : Query}
    {p : ActivationPath} (h : p ∈ queryPaths score c anchors evidence query) :
    p.indexed = false := by
  unfold queryPaths at h
  rcases List.mem_cons.mp h with rfl | h
  · rfl
  · split at h
    · cases h
    · obtain ⟨anchor, _, rfl⟩ := List.mem_map.mp h
      rfl

/-- No path of the local ranker comes before an indexed one. -/
theorem foldl_keepBetter_indexed {l : List ActivationPath} {b : ActivationPath}
    (hb : b.indexed = true) (hl : ∀ p ∈ l, p.indexed = false) :
    l.foldl keepBetter (some b) = some b := by
  induction l with
  | nil => rfl
  | cons first rest ih =>
    have hfirst := hl first List.mem_cons_self
    have hkeep : keepBetter (some b) first = some b := by
      simp [keepBetter, betterPath, hfirst, hb]
    rw [List.foldl_cons, hkeep]
    exact ih fun p hp => hl p (List.mem_cons_of_mem _ hp)

/-- The best path is the best indexed one, or, where there is none, the path the
candidate has without answers. -/
theorem bestSupportPath_matched {anchors : List Anchor} {evidence : Anchor}
    (found : List IndexMatch) :
    bestSupportPath score queries { c with indexMatches := found } anchors evidence =
      ((found.filterMap (indexedPath score queries c anchors evidence)).foldl keepBetter none).or
        (bestSupportPath score queries { c with indexMatches := [] } anchors evidence) := by
  have hpath : ∀ m, indexedPath score queries { c with indexMatches := found } anchors evidence m =
      indexedPath score queries c anchors evidence m := fun m => rfl
  simp only [bestSupportPath, hpath, List.filterMap_nil, List.nil_append,
    List.foldl_append]
  cases hbest : (found.filterMap (indexedPath score queries c anchors evidence)).foldl
      keepBetter none with
  | none => rfl
  | some b =>
    have hb : b.indexed = true := by
      refine foldl_keepBetter (P := fun p => p.indexed = true) (fun p hp => ?_)
        (fun p hp => by cases hp) hbest
      obtain ⟨m, _, hm⟩ := List.mem_filterMap.mp hp
      exact indexed_of_indexedPath hm
    rw [foldl_keepBetter_indexed hb]
    · rfl
    · intro p hp
      obtain ⟨query, _, hp⟩ := List.mem_flatMap.mp hp
      exact indexed_of_queryPaths hp

theorem inhibited_eq_false (hd : c.kind = .disposition) (support : Rat) :
    inhibited score queries c support = false ↔
      ∀ i, bestInhibition score queries c.inhibition = some i → i < support := by
  unfold inhibited
  rw [hd]
  cases bestInhibition score queries c.inhibition with
  | none => simp
  | some i => simpa using Rat.not_le

/-- A Disposition that is ranked without answers is ranked with them exactly when the
best indexed path beats its inhibition. -/
theorem rankCandidate_matched (hd : c.kind = .disposition) (h0 : c.indexMatches = [])
    (hrank : (rankCandidate score queries policy c).isSome) (found : List IndexMatch) :
    (rankCandidate score queries policy { c with indexMatches := found }).isSome ↔
      ({ c with indexMatches := found } : Candidate).Withstands score queries := by
  have hsame : ({ c with indexMatches := [] } : Candidate) = c := by rw [← h0]
  unfold Candidate.Withstands Candidate.bestIndexedPath
  unfold rankCandidate at hrank ⊢
  simp only
  cases hlive : liveAnchors c.support with
  | nil => simp [hlive] at hrank
  | cons evidence rest =>
    simp only [hlive] at hrank ⊢
    split at hrank
    · cases hrank
    rename_i htext
    rw [if_neg htext, bestSupportPath_matched, hsame]
    have hpath : ∀ m, indexedPath score queries { c with indexMatches := found }
        (evidence :: rest) evidence m = indexedPath score queries c (evidence :: rest) evidence m :=
      fun m => rfl
    have hinh : ∀ support, inhibited score queries { c with indexMatches := found } support =
        inhibited score queries c support := fun support => rfl
    simp only [hpath, hinh]
    cases hbest : (found.filterMap (indexedPath score queries c (evidence :: rest) evidence)).foldl
        keepBetter none with
    | none =>
      simp only [Option.none_or]
      cases hlocal : bestSupportPath score queries c (evidence :: rest) evidence with
      | none => simp [hlocal] at hrank
      | some p =>
        simp only [hlocal] at hrank ⊢
        split at hrank
        · cases hrank
        · rename_i hkeep
          rw [if_neg hkeep]
          simp
    | some p =>
      have hp : p.indexed = true := by
        refine foldl_keepBetter (P := fun p => p.indexed = true) (fun q hq => ?_)
          (fun q hq => by cases hq) hbest
        obtain ⟨m, _, hm⟩ := List.mem_filterMap.mp hq
        exact indexed_of_indexedPath hm
      have hiff : inhibited score queries c p.score = false ↔ _ := inhibited_eq_false hd p.score
      simp only [Option.some_or, hp, Bool.not_true, Bool.false_and, Bool.false_or]
      cases hi : inhibited score queries c p.score with
      | false => simpa using hiff.mp hi
      | true =>
        have hno := hiff.not.mp (by rw [hi]; simp)
        simpa using hno

theorem Policy.RoomFor.matched {before after : List Candidate}
    (h : policy.RoomFor (before ++ c :: after)) (found : List IndexMatch) :
    policy.RoomFor (before ++ { c with indexMatches := found } :: after) := by
  unfold Policy.RoomFor at h ⊢
  simpa [List.countP_append, List.countP_cons] using h

theorem Policy.RoomFor.without {before after : List Candidate}
    (h : policy.RoomFor (before ++ c :: after)) : policy.RoomFor (before ++ after) := by
  unfold Policy.RoomFor at h ⊢
  simp only [List.countP_append, List.countP_cons] at h ⊢
  omega

/-- Answers of the index keep a Disposition activated exactly when they give it no path,
when the best path they give beats its inhibition, or when another candidate of the same
version is activated. -/
theorem select_matched {before after : List Candidate} {activations : List Activation}
    (hd : c.kind = .disposition) (h0 : c.indexMatches = [])
    (hroom : policy.RoomFor (before ++ c :: after))
    (h : select score queries (before ++ c :: after) policy = .ok activations)
    (hc : Chooses activations c) (found : List IndexMatch) :
    ∃ matched others,
      select score queries (before ++ { c with indexMatches := found } :: after) policy =
        .ok matched ∧
      select score queries (before ++ after) policy = .ok others ∧
      (Chooses matched c ↔
        ({ c with indexMatches := found } : Candidate).Withstands score queries ∨
          Chooses others c) := by
  have hvalid : policy.invalid = false := by
    cases hv : policy.invalid with
    | false => rfl
    | true => simp [select, hv] at h
  have hok : ∀ l, ∃ out, select score queries l policy = .ok out := by
    intro l
    unfold select
    rw [hvalid]
    exact ⟨_, rfl⟩
  obtain ⟨matched, hmatched⟩ := hok (before ++ { c with indexMatches := found } :: after)
  obtain ⟨others, hothers⟩ := hok (before ++ after)
  refine ⟨matched, others, hmatched, hothers, ?_⟩
  rw [chooses_select (hroom.matched found) hmatched, chooses_select hroom.without hothers]
  have hrest : ∀ o ∈ before ++ after, o ∈ before ++ { c with indexMatches := found } :: after := by
    intro o ho
    rcases List.mem_append.mp ho with ho | ho
    · exact List.mem_append_left _ ho
    · exact List.mem_append_right _ (List.mem_cons_of_mem _ ho)
  obtain ⟨o, ho, hkind, href, hsome⟩ := (chooses_select hroom h).mp hc
  have hcase : o ∈ before ++ after ∨ o = c := by
    simp only [List.mem_append, List.mem_cons] at ho ⊢
    tauto
  rcases hcase with ho | rfl
  · exact ⟨fun _ => Or.inr ⟨o, ho, hkind, href, hsome⟩,
      fun _ => ⟨o, hrest o ho, hkind, href, hsome⟩⟩
  · rw [← rankCandidate_matched hd h0 hsome]
    constructor
    · intro ⟨o', ho', hkind', href', hsome'⟩
      have hcase' : o' ∈ before ++ after ∨ o' = { o with indexMatches := found } := by
        simp only [List.mem_append, List.mem_cons] at ho' ⊢
        tauto
      rcases hcase' with ho' | rfl
      · exact Or.inr ⟨o', ho', hkind', href', hsome'⟩
      · exact Or.inl hsome'
    · intro hor
      rcases hor with hsome' | ⟨o', ho', hrank'⟩
      · exact ⟨_, List.mem_append_right _ List.mem_cons_self, hkind, href, hsome'⟩
      · exact ⟨o', hrest o' ho', hrank'⟩

end

/-! ## A hit that suppresses

The local ranker finds the support Episode and it beats the inhibition.  The index finds
the memory itself, whose own text the local ranker scores low, and that path comes
first. -/

def samplePlanScore (_ text : String) : Rat :=
  if text = "plan the move" then 9 / 10 else if text = "too many steps" then 1 / 2 else 1 / 10

def samplePlanQueries : List Query := [⟨"query", "how to plan"⟩]

def samplePlanSeed : Candidate :=
  { kind := .disposition, versionRef := "seed@1", text := "offer a structure",
    application := "SELF", ownerOrder := 0, support := [⟨"episode", "source", "plan the move"⟩],
    inhibition := [⟨"other", "other-source", "too many steps"⟩], reenactments := 0,
    indexMatches := [] }

/-- The answer that names the memory itself, and the one that names its support. -/
def sampleDirectHit : IndexMatch := ⟨"query", "", 0, 0⟩

def sampleSupportHit : IndexMatch := ⟨"query", "episode", 1, 0⟩

def samplePlanActivation : Activation :=
  ⟨.disposition, "seed@1", "SELF", "query", "source", "episode", "source"⟩

theorem select_samplePlan :
    select samplePlanScore samplePlanQueries [samplePlanSeed] defaultPolicy =
      .ok [samplePlanActivation] := by
  decide +kernel

theorem select_directHit_suppresses :
    defaultPolicy.RoomFor [samplePlanSeed] ∧
      (∃ local', select samplePlanScore samplePlanQueries [samplePlanSeed] defaultPolicy =
        .ok local' ∧ Chooses local' samplePlanSeed) ∧
      ∃ matched, select samplePlanScore samplePlanQueries
        [{ samplePlanSeed with indexMatches := [sampleDirectHit] }] defaultPolicy = .ok matched ∧
        ¬ Chooses matched samplePlanSeed := by
  have hnone : select samplePlanScore samplePlanQueries
      [{ samplePlanSeed with indexMatches := [sampleDirectHit] }] defaultPolicy = .ok [] := by
    decide +kernel
  refine ⟨by decide, ⟨_, select_samplePlan, _, List.mem_cons_self, rfl, rfl⟩, [], hnone, ?_⟩
  intro ⟨a, ha, _⟩
  cases ha

theorem select_matched_supportHit :
    ∃ matched others,
      select samplePlanScore samplePlanQueries
        ([] ++ { samplePlanSeed with indexMatches := [sampleSupportHit] } :: []) defaultPolicy =
        .ok matched ∧
      select samplePlanScore samplePlanQueries ([] ++ []) defaultPolicy = .ok others ∧
      (Chooses matched samplePlanSeed ↔
        ({ samplePlanSeed with indexMatches := [sampleSupportHit] } : Candidate).Withstands
          samplePlanScore samplePlanQueries ∨ Chooses others samplePlanSeed) :=
  select_matched rfl rfl (by decide) select_samplePlan ⟨_, List.mem_cons_self, rfl, rfl⟩ _

end ChoraMem
