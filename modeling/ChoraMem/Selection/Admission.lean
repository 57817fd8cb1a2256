/-
What a selection answers.

A candidate is admitted when it has a live support anchor, and its best path is indexed
or scores enough and beats every inhibition.  The answer lists admitted candidates in
their order, of each kind the first ones up to the bound of the kind.
-/
import Mathlib.Data.List.Perm.Basic
import ChoraMem.Selection.Order

namespace ChoraMem

open Best OrderDual

section

variable {c : Candidate} {score : String → String → Rat} {queries : List Query} {policy : Policy}
variable {candidates : List Candidate}

/-! ## Paths -/

def Anchor.Live (a : Anchor) : Prop := a.episodeRef ≠ "" ∧ a.sourceRef ≠ "" ∧ a.text ≠ ""

theorem mem_liveAnchors {anchors : List Anchor} {a : Anchor} :
    a ∈ liveAnchors anchors ↔ a ∈ anchors ∧ a.Live := by
  unfold liveAnchors Anchor.Live
  rw [List.mem_insertionSort, List.mem_filter]
  simp [and_assoc]

variable (score queries) in
/-- Every path of a candidate: the answers of the index, then the local ranker's. -/
def Candidate.paths (c : Candidate) : List ActivationPath :=
  match liveAnchors c.support with
  | [] => []
  | evidence :: rest =>
    c.indexMatches.filterMap (indexedPath score queries c (evidence :: rest) evidence) ++
      (queries.filter Query.usable).flatMap (queryPaths score c (evidence :: rest) evidence)

variable (score queries) in
/-- The path starts at a query that is known and not empty, rests on a live anchor of
the candidate, and scores the candidate's own text or, for a Disposition, that anchor's. -/
def ActivationPath.Supported (p : ActivationPath) (c : Candidate) : Prop :=
  ∃ query ∈ queries, query.ref ≠ "" ∧ query.text ≠ "" ∧ p.activation.querySourceRef = query.ref ∧
    ∃ anchor ∈ c.support, anchor.Live ∧ p.activation.evidenceEpisodeRef = anchor.episodeRef ∧
      p.activation.evidenceSourceRef = anchor.sourceRef ∧
      (p.activation.matchedRef = c.versionRef ∧ p.score = normalizeScore (score query.text c.text) ∨
        c.kind = .disposition ∧ p.score = normalizeScore (score query.text anchor.text))

theorem usable_iff {query : Query} : query.usable = true ↔ query.ref ≠ "" ∧ query.text ≠ "" := by
  simp [Query.usable]

theorem supported_indexedPath {anchors : List Anchor} {evidence : Anchor} {found : IndexMatch}
    {p : ActivationPath} (hevidence : evidence ∈ anchors)
    (hanchors : ∀ a ∈ anchors, a ∈ c.support ∧ a.Live)
    (h : indexedPath score queries c anchors evidence found = some p) :
    p.Supported score queries c := by
  simp only [indexedPath, Option.bind_eq_bind, Option.pure_def] at h
  split at h
  · cases h
  obtain ⟨query, hquery, h⟩ := Option.bind_eq_some_iff.mp h
  have href := List.find?_some hquery
  have hmem := List.mem_filter.mp (List.mem_reverse.mp (List.mem_of_find?_eq_some hquery))
  obtain ⟨hr, ht⟩ := usable_iff.mp hmem.2
  have hq : found.querySourceRef = query.ref := (eq_of_beq href).symm
  split at h
  · obtain ⟨hsupport, hlive⟩ := hanchors evidence hevidence
    rw [← Option.some.inj h]
    exact ⟨query, hmem.1, hr, ht, hq, evidence, hsupport, hlive, rfl, rfl, Or.inl ⟨rfl, rfl⟩⟩
  split at h
  · cases h
  rename_i hkind
  obtain ⟨anchor, hanchor, h⟩ := Option.bind_eq_some_iff.mp h
  obtain ⟨hsupport, hlive⟩ := hanchors anchor (List.mem_of_find?_eq_some hanchor)
  rw [← Option.some.inj h]
  exact ⟨query, hmem.1, hr, ht, hq, anchor, hsupport, hlive, rfl, rfl,
    Or.inr ⟨by simpa using hkind, rfl⟩⟩

theorem supported_queryPaths {anchors : List Anchor} {evidence : Anchor} {query : Query}
    {p : ActivationPath} (hevidence : evidence ∈ anchors)
    (hanchors : ∀ a ∈ anchors, a ∈ c.support ∧ a.Live)
    (hquery : query ∈ queries.filter Query.usable)
    (h : p ∈ queryPaths score c anchors evidence query) : p.Supported score queries c := by
  obtain ⟨hmem, husable⟩ := List.mem_filter.mp hquery
  obtain ⟨hr, ht⟩ := usable_iff.mp husable
  unfold queryPaths at h
  rcases List.mem_cons.mp h with rfl | h
  · obtain ⟨hsupport, hlive⟩ := hanchors evidence hevidence
    exact ⟨query, hmem, hr, ht, rfl, evidence, hsupport, hlive, rfl, rfl, Or.inl ⟨rfl, rfl⟩⟩
  · split at h
    · cases h
    rename_i hkind
    have hdisposition : c.kind = .disposition := by
      cases hk : c.kind with
      | recollection => simp [hk] at hkind
      | disposition => rfl
    obtain ⟨anchor, hanchor, rfl⟩ := List.mem_map.mp h
    obtain ⟨hsupport, hlive⟩ := hanchors anchor hanchor
    exact ⟨query, hmem, hr, ht, rfl, anchor, hsupport, hlive, rfl, rfl, Or.inr ⟨hdisposition, rfl⟩⟩

theorem supported_paths {p : ActivationPath} (h : p ∈ c.paths score queries) :
    p.Of c ∧ p.Supported score queries c := by
  unfold Candidate.paths at h
  cases hlive : liveAnchors c.support with
  | nil => simp [hlive] at h
  | cons evidence rest =>
    rw [hlive] at h
    have hanchors : ∀ a ∈ evidence :: rest, a ∈ c.support ∧ a.Live := by
      intro a ha
      rw [← hlive] at ha
      exact mem_liveAnchors.mp ha
    rcases List.mem_append.mp h with h | h
    · obtain ⟨found, _, hf⟩ := List.mem_filterMap.mp h
      exact ⟨of_indexedPath hf, supported_indexedPath List.mem_cons_self hanchors hf⟩
    · obtain ⟨query, hquery, hp⟩ := List.mem_flatMap.mp h
      exact ⟨of_queryPaths hp, supported_queryPaths List.mem_cons_self hanchors hquery hp⟩

/-! ## Admission -/

variable (score queries policy) in
/-- The candidate is admitted, by its best path. -/
structure Candidate.Admitted (c : Candidate) (p : ActivationPath) : Prop where
  named : c.versionRef ≠ "" ∧ c.text ≠ ""
  path : p ∈ c.paths score queries
  best : ∀ q ∈ c.paths score queries, p.key ≤ q.key
  minimum : p.indexed = false → policy.minimumScore ≤ p.score
  /-- Support beats every inhibition. -/
  uninhibited : c.kind = .disposition → ∀ query ∈ queries, query.ref ≠ "" → query.text ≠ "" →
    ∀ anchor ∈ c.inhibition, anchor.Live → normalizeScore (score query.text anchor.text) < p.score

variable (policy) in
/-- How the candidate is ranked by a path. -/
def Candidate.ranked (c : Candidate) (p : ActivationPath) : RankedActivation :=
  { activation := p.activation, support := p.score,
    availability := if c.kind == .disposition then
      min (max 0 c.reenactments) policy.availabilityCap else 0,
    ownerOrder := c.ownerOrder, indexed := p.indexed, indexRank := p.indexRank,
    laneOrder := p.laneOrder }

theorem inhibited_iff (support : Rat) : inhibited score queries c support = false ↔
    (c.kind = .disposition → ∀ query ∈ queries, query.ref ≠ "" → query.text ≠ "" →
      ∀ anchor ∈ c.inhibition, anchor.Live →
        normalizeScore (score query.text anchor.text) < support) := by
  cases hk : c.kind with
  | recollection => simp [inhibited, hk]
  | disposition =>
    rw [inhibited_eq_false hk, bestInhibition_eq]
    have hmem : ∀ s, (s ∈ (queries.filter Query.usable).flatMap fun query =>
        (liveAnchors c.inhibition).map fun a => normalizeScore (score query.text a.text)) ↔
          ∃ query ∈ queries, query.ref ≠ "" ∧ query.text ≠ "" ∧ ∃ a ∈ c.inhibition, a.Live ∧
            normalizeScore (score query.text a.text) = s := by
      intro s
      simp only [List.mem_flatMap, List.mem_filter, usable_iff, List.mem_map, mem_liveAnchors,
        and_assoc]
    constructor
    · intro h _ query hq hr ht anchor ha hlive
      have hs := (hmem _).mpr ⟨query, hq, hr, ht, anchor, ha, hlive, rfl⟩
      cases hb : Best.best (fun s : Rat => toDual s) ((queries.filter Query.usable).flatMap fun query =>
          (liveAnchors c.inhibition).map fun a => normalizeScore (score query.text a.text)) with
      | none =>
        rw [best_eq_none.mp hb] at hs
        cases hs
      | some i =>
        have hle : normalizeScore (score query.text anchor.text) ≤ i :=
          toDual_le_toDual.mp ((best_spec hb).2 _ hs)
        exact lt_of_le_of_lt hle (h i hb)
    · intro h i hi
      obtain ⟨query, hq, hr, ht, anchor, ha, hlive, rfl⟩ := (hmem i).mp (best_spec hi).1
      exact h rfl query hq hr ht anchor ha hlive

/-- A candidate is ranked exactly when it is admitted, by its best path. -/
theorem rankCandidate_iff {r : RankedActivation} :
    rankCandidate score queries policy c = some r ↔
      ∃ p, c.Admitted score queries policy p ∧ r = c.ranked policy p := by
  unfold rankCandidate
  cases hlive : liveAnchors c.support with
  | nil =>
    simp only [reduceCtorEq, false_iff, not_exists, not_and]
    intro p hp
    have := hp.path
    simp [Candidate.paths, hlive] at this
  | cons evidence rest =>
    have hpaths : c.paths score queries =
        c.indexMatches.filterMap (indexedPath score queries c (evidence :: rest) evidence) ++
          (queries.filter Query.usable).flatMap (queryPaths score c (evidence :: rest) evidence) := by
      simp only [Candidate.paths, hlive]
    simp only
    rw [bestSupportPath_eq, ← hpaths]
    constructor
    · intro h
      split at h
      · cases h
      rename_i hnamed
      cases hbest : Best.best ActivationPath.key (c.paths score queries) with
      | none => simp [hbest] at h
      | some p =>
        rw [hbest] at h
        simp only at h
        split at h
        · cases h
        rename_i hkeep
        simp only [Bool.or_eq_true, not_or, Bool.and_eq_true, Bool.not_eq_true', decide_eq_true_eq,
          not_and, not_lt, Bool.not_eq_true] at hkeep
        refine ⟨p, ⟨by simpa using hnamed, (best_spec hbest).1, (best_spec hbest).2, hkeep.1,
          (inhibited_iff p.score).mp hkeep.2⟩, (Option.some.inj h).symm⟩
    · intro ⟨p, hp, hr⟩
      rw [if_neg (by simpa using hp.named)]
      cases hbest : Best.best ActivationPath.key (c.paths score queries) with
      | none =>
        have := hp.path
        rw [best_eq_none.mp hbest] at this
        cases this
      | some q =>
        have hq : q = p := by
          obtain ⟨hmem, hleast⟩ := best_spec hbest
          exact ActivationPath.key_injective (supported_paths hmem).1 (supported_paths hp.path).1
            (le_antisymm (hleast p hp.path) (hp.best q hmem))
        subst hq
        simp only
        have hinh := (inhibited_iff q.score).mpr hp.uninhibited
        rw [if_neg, hr]
        · rfl
        · simp only [hinh, Bool.or_false, Bool.and_eq_true, Bool.not_eq_true', decide_eq_true_eq,
            not_and, not_lt]
          exact hp.minimum

/-! ## The answer -/

/-- How many activations of a kind an answer has at most. -/
def Policy.cap (policy : Policy) : ItemKind → Nat
  | .recollection => policy.maxRecollections
  | .disposition => policy.maxDispositions

theorem takeWithin_sublist (l : List RankedActivation) (n m : Nat) :
    (takeWithin policy n m l).Sublist (l.map (·.activation)) := by
  induction l generalizing n m with
  | nil => exact List.Sublist.refl _
  | cons first rest ih =>
    unfold takeWithin
    cases first.activation.kind with
    | recollection =>
      simp only
      split
      · exact (ih n m).cons _
      · exact (ih (n + 1) m).cons_cons _
    | disposition =>
      simp only
      split
      · exact (ih n m).cons _
      · exact (ih n (m + 1)).cons_cons _

/-- Of each kind the first ones are taken, up to its bound. -/
theorem filter_takeWithin (l : List RankedActivation) (n m : Nat) (kind : ItemKind) :
    (takeWithin policy n m l).filter (·.kind == kind) =
      ((l.map (·.activation)).filter (·.kind == kind)).take
        (policy.cap kind - match kind with | .recollection => n | .disposition => m) := by
  induction l generalizing n m with
  | nil => simp [takeWithin]
  | cons first rest ih =>
    have hother : (ItemKind.recollection == ItemKind.disposition) = false := rfl
    have hother' : (ItemKind.disposition == ItemKind.recollection) = false := rfl
    unfold takeWithin
    cases hk : first.activation.kind with
    | recollection =>
      simp only
      cases kind with
      | recollection =>
        by_cases hfull : policy.maxRecollections ≤ n
        · rw [if_pos hfull, ih]
          simp [Policy.cap, Nat.sub_eq_zero_of_le hfull]
        · have hsub : policy.maxRecollections - n = policy.maxRecollections - (n + 1) + 1 := by omega
          rw [if_neg hfull, List.filter_cons_of_pos (by simp [hk]), ih]
          simp [hk, Policy.cap, hsub]
      | disposition =>
        split
        · rw [ih]
          simp [hk, hother]
        · rw [List.filter_cons_of_neg (by simp [hk, hother]), ih]
          simp [hk, hother]
    | disposition =>
      simp only
      cases kind with
      | disposition =>
        by_cases hfull : policy.maxDispositions ≤ m
        · rw [if_pos hfull, ih]
          simp [Policy.cap, Nat.sub_eq_zero_of_le hfull]
        · have hsub : policy.maxDispositions - m = policy.maxDispositions - (m + 1) + 1 := by omega
          rw [if_neg hfull, List.filter_cons_of_pos (by simp [hk]), ih]
          simp [hk, Policy.cap, hsub]
      | recollection =>
        split
        · rw [ih]
          simp [hk, hother']
        · rw [List.filter_cons_of_neg (by simp [hk, hother']), ih]
          simp [hk, hother']

/-- The answer is made from the admitted candidates, each by its best path. -/
structure Answers (score : String → String → Rat) (queries : List Query)
    (candidates : List Candidate) (policy : Policy) (activations : List Activation)
    (ranked : List (Candidate × ActivationPath)) : Prop where
  admitted : ∀ x ∈ ranked, x.1.Admitted score queries policy x.2 ∧
    x.2.Supported score queries x.1 ∧ x.2.activation.kind = x.1.kind ∧
    x.2.activation.versionRef = x.1.versionRef ∧ x.2.activation.application = x.1.application
  /-- Every admitted candidate is ranked, once for each time it was given. -/
  all : (ranked.map (·.1)).Perm
    (candidates.filter fun c => (rankCandidate score queries policy c).isSome)
  ordered : ranked.Pairwise fun x y => rankedBefore (y.1.ranked policy y.2) (x.1.ranked policy x.2) = false
  sublist : activations.Sublist (ranked.map (·.2.activation))
  capped : ∀ kind, activations.filter (·.kind == kind) =
    ((ranked.map (·.2.activation)).filter (·.kind == kind)).take (policy.cap kind)

/-- The ranked candidates with the paths that ranked them. -/
theorem exists_paths (candidates : List Candidate) :
    ∃ pairs : List (Candidate × ActivationPath),
      (∀ x ∈ pairs, x.1.Admitted score queries policy x.2) ∧
        pairs.map (·.1) = candidates.filter (fun c => (rankCandidate score queries policy c).isSome) ∧
          pairs.map (fun x => x.1.ranked policy x.2) =
            candidates.filterMap (rankCandidate score queries policy) := by
  induction candidates with
  | nil => exact ⟨[], by simp, rfl, rfl⟩
  | cons first rest ih =>
    obtain ⟨pairs, hadmitted, hfst, hranked⟩ := ih
    cases hrank : rankCandidate score queries policy first with
    | none =>
      refine ⟨pairs, hadmitted, ?_, ?_⟩
      · rw [List.filter_cons_of_neg (by simp [hrank]), hfst]
      · rw [List.filterMap_cons_none hrank, hranked]
    | some r =>
      obtain ⟨p, hp, rfl⟩ := rankCandidate_iff.mp hrank
      refine ⟨(first, p) :: pairs, ?_, ?_, ?_⟩
      · intro x hx
        rcases List.mem_cons.mp hx with rfl | hx
        · exact hp
        · exact hadmitted x hx
      · rw [List.filter_cons_of_pos (by simp [hrank]), List.map_cons, hfst]
      · rw [List.filterMap_cons_some hrank, List.map_cons, hranked]

theorem exists_answers {activations : List Activation}
    (h : Selects score queries candidates policy activations) :
    ∃ ranked, Answers score queries candidates policy activations ranked := by
  obtain ⟨_, sorted, hperm, hsorted, rfl⟩ := h
  obtain ⟨given, hadmitted, hfst, hranked⟩ :=
    @exists_paths score queries policy candidates
  -- The sort moves the candidates along with their ranks.
  have hgiven : List.Forall₂ (fun (r : RankedActivation) (x : Candidate × ActivationPath) =>
      x.1.ranked policy x.2 = r) (given.map fun x => x.1.ranked policy x.2) given := by
    rw [List.forall₂_map_left_iff]
    exact List.forall₂_same.mpr fun _ _ => rfl
  rw [← hranked] at hperm
  obtain ⟨ranked, hforall, hmoved⟩ := List.perm_comp_forall₂ hperm hgiven
  have hmap : ranked.map (fun x => x.1.ranked policy x.2) = sorted := by
    clear hperm hsorted hmoved
    induction hforall with
    | nil => rfl
    | cons heq _ ih => rw [List.map_cons, heq, ih]
  have hactivation : sorted.map (·.activation) = ranked.map (·.2.activation) := by
    rw [← hmap, List.map_map]
    rfl
  refine ⟨ranked, ?_, ?_, ?_, ?_, ?_⟩
  · intro x hx
    have hx' := hadmitted x (hmoved.mem_iff.mp hx)
    obtain ⟨⟨⟨query, matched, evidence, heq⟩, _⟩, hsupported⟩ := supported_paths hx'.path
    refine ⟨hx', hsupported, ?_, ?_, ?_⟩ <;> rw [heq] <;> rfl
  · rw [← hfst]
    exact hmoved.map _
  · rw [← hmap, List.pairwise_map] at hsorted
    exact hsorted
  · rw [← hactivation]
    exact takeWithin_sublist sorted 0 0
  · intro kind
    rw [filter_takeWithin, hactivation]
    cases kind <;> rfl

/-- With a valid policy a selection answers, and whatever sort it uses the answer lists
admitted candidates in their order, of each kind the first up to its bound. -/
theorem select_answers (score : String → String → Rat) (queries : List Query)
    (candidates : List Candidate) (policy : Policy) :
    (policy.invalid = false → ∃ activations, select score queries candidates policy = .ok activations ∧
      Selects score queries candidates policy activations) ∧
    (∀ c, (rankCandidate score queries policy c).isSome ↔ ∃ p, c.Admitted score queries policy p) ∧
    ∀ activations, Selects score queries candidates policy activations →
      ∃ ranked, Answers score queries candidates policy activations ranked := by
  refine ⟨fun hvalid => ?_, fun c => ?_, fun activations h => exists_answers h⟩
  · cases h : select score queries candidates policy with
    | error e => simp [select, hvalid] at h
    | ok activations => exact ⟨activations, rfl, selects_of_select h⟩
  · rw [Option.isSome_iff_exists]
    constructor
    · rintro ⟨r, hr⟩
      obtain ⟨p, hp, _⟩ := rankCandidate_iff.mp hr
      exact ⟨p, hp⟩
    · rintro ⟨p, hp⟩
      exact ⟨_, rankCandidate_iff.mpr ⟨p, hp, rfl⟩⟩

theorem select_answers_twoAnchors : ∃ activations ranked,
    select (fun _ _ => 1) [⟨"q", "x"⟩] [twoAnchors ⟨"e", "s", "a"⟩ ⟨"d", "s", "b"⟩] defaultPolicy =
        .ok activations ∧
      Answers (fun _ _ => 1) [⟨"q", "x"⟩] [twoAnchors ⟨"e", "s", "a"⟩ ⟨"d", "s", "b"⟩] defaultPolicy
        activations ranked := by
  have h := select_answers (fun _ _ => 1) [⟨"q", "x"⟩] [twoAnchors ⟨"e", "s", "a"⟩ ⟨"d", "s", "b"⟩]
    defaultPolicy
  obtain ⟨activations, hselect, hselects⟩ := h.1 (by decide +kernel)
  obtain ⟨ranked, hanswers⟩ := h.2.2 activations hselects
  exact ⟨activations, ranked, hselect, hanswers⟩

end

end ChoraMem
