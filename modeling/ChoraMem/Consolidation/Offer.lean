/-
Accepted changes stay inside the offer.

The request lists what may be targeted and cited, and the acceptance decides on its own
what is eligible.  Whatever state a window was loaded to, a batch that is accepted names
nothing that the request of this state does not list.
-/
import Mathlib.Data.List.Pairwise
import ChoraMem.Consolidation.Reload

namespace ChoraMem

/-! ## Members of the loaded state -/

theorem episodeByRef_some {episodes : List EpisodeEvidence} {ref : String} {e : EpisodeEvidence}
    (h : episodeByRef episodes ref = some e) : e ∈ episodes ∧ e.ref = ref := by
  have hmem := List.mem_of_find?_eq_some h
  have href := List.find?_some h
  exact ⟨List.mem_reverse.mp hmem, by simpa using href⟩

theorem episodeByRef_isSome {episodes : List EpisodeEvidence} {e : EpisodeEvidence}
    (h : e ∈ episodes) : (episodeByRef episodes e.ref).isSome := by
  simp only [episodeByRef, List.find?_isSome, List.mem_reverse]
  exact ⟨e, h, by simp⟩

theorem targetByRef_some {targets : List FeedbackTarget} {ref : String} {t : FeedbackTarget}
    (h : targetByRef targets ref = some t) : t ∈ targets ∧ t.versionRef = ref :=
  ⟨List.mem_of_find?_eq_some h, by simpa using List.find?_some h⟩

theorem outcomeByRef_some {outcomes : List FeedbackOutcome} {ref : String} {o : FeedbackOutcome}
    (h : outcomeByRef outcomes ref = some o) : o ∈ outcomes ∧ o.ref = ref :=
  ⟨List.mem_of_find?_eq_some h, by simpa using List.find?_some h⟩

theorem mem_sortedTargets {targets : List FeedbackTarget} {ref : String} {t : FeedbackTarget}
    (h : targetByRef targets ref = some t) : t ∈ sortedTargets targets := by
  refine List.mem_filterMap.mpr ⟨ref, ?_, h⟩
  obtain ⟨ht, href⟩ := targetByRef_some h
  unfold targetRefs
  rw [mem_sortedKeys, ← href]
  exact List.mem_map_of_mem ht

namespace WindowState

variable {w : WindowState} {change : Change}

/-- A current or related Episode may be cited. -/
theorem mem_allowedBasisRefs_of_episode {ref : String} (h : (w.episodeOf ref).isSome) :
    ref ∈ w.allowedBasisRefs := by
  obtain ⟨e, he⟩ := Option.isSome_iff_exists.mp h
  obtain ⟨hmem, rfl⟩ := episodeByRef_some he
  unfold allowedBasisRefs
  rw [mem_firstPlaces]
  simp only [List.mem_append, List.mem_map]
  rcases List.mem_append.mp hmem with hmem | hmem
  · exact Or.inl (Or.inl (Or.inl ⟨e, hmem, rfl⟩))
  · exact Or.inl (Or.inl (Or.inr ⟨e, hmem, rfl⟩))

theorem mem_allowedBasisRefs_of_target {ref : String} {t : FeedbackTarget}
    (ht : targetByRef w.targets t.versionRef = some t) (h : ref ∈ t.offeredBasis) :
    ref ∈ w.allowedBasisRefs := by
  unfold allowedBasisRefs
  rw [mem_firstPlaces]
  exact List.mem_append_right _ (List.mem_flatMap.mpr ⟨t, mem_sortedTargets ht, h⟩)

theorem mem_allowedBasisRefs_of_formation {ref : String} (h : ref ∈ w.formationOutcomes) :
    ref ∈ w.allowedBasisRefs := by
  unfold allowedBasisRefs
  rw [mem_firstPlaces]
  exact List.mem_append_left _ (List.mem_append_right _ h)

end WindowState

/-! ## Eligible bases -/

theorem eligibleRecollectionBasis_some {refs basis : List String}
    {byRef : String → Option EpisodeEvidence}
    (h : eligibleRecollectionBasis refs byRef = some basis) :
    basis = sortRefs refs ∧ uniqueStableRefs refs = true ∧ ∀ ref ∈ refs, (byRef ref).isSome := by
  unfold eligibleRecollectionBasis at h
  split at h
  · cases h
  · rename_i hno
    simp only [Bool.or_eq_true, Bool.not_eq_true', not_or, Bool.not_eq_false, List.all_eq_true] at hno
    exact ⟨(Option.some.inj h).symm, hno.1.2, hno.2⟩

theorem eligibleAdaptationBasis_some {refs basis : List String}
    {byRef : String → Option EpisodeEvidence} {current : Option (List String)}
    (h : eligibleAdaptationBasis refs byRef current = some basis) :
    ∃ ref e, refs = [ref] ∧ basis = [ref] ∧ byRef ref = some e ∧
      episodeHasSituationActor e true = true ∧ ∀ l, current = some l → ref ∈ l := by
  unfold eligibleAdaptationBasis at h
  split at h
  · cases h
  rename_i hlen
  split at h
  · cases h
  rename_i sorted hr
  obtain ⟨rfl, _, _⟩ := eligibleRecollectionBasis_some hr
  obtain ⟨ref, rfl⟩ := List.length_eq_one_iff.mp (by simpa using hlen : refs.length = 1)
  split at h
  · rename_i hany
    simp [sortRefs] at hany h
    obtain ⟨hcur, huser⟩ := hany
    cases he : byRef ref with
    | none =>
      rw [he] at huser
      simp at huser
    | some e =>
      rw [he] at huser
      refine ⟨ref, e, rfl, h.symm, he, by simpa using huser, ?_⟩
      intro l hl
      simpa [hl] using hcur
  · cases h

/-- What an eligible formation basis is made of. -/
structure FormationBasis (refs : List String) (byRef : String → Option EpisodeEvidence)
    (episodes : List EpisodeEvidence) : Prop where
  two : 2 ≤ refs.length
  unique : uniqueStableRefs refs = true
  loaded : (sortRefs refs).mapM byRef = some episodes
  supports : ∀ e ∈ episodes, supportsFormation e = true
  disjoint : (episodes.flatMap scopedSources).Nodup
  sessions : 2 ≤ (episodes.map (·.sessionRef)).dedup.length

theorem mapM_some {α β : Type} {f : α → Option β} {l : List α} {l' : List β}
    (h : l.mapM f = some l') :
    (∀ a ∈ l, ∃ b ∈ l', f a = some b) ∧ ∀ b ∈ l', ∃ a ∈ l, f a = some b := by
  induction l generalizing l' with
  | nil =>
    rw [List.mapM_nil] at h
    rw [← Option.some.inj h]
    simp
  | cons a rest ih =>
    rw [List.mapM_cons] at h
    cases hf : f a with
    | none => simp [hf] at h
    | some b =>
      cases hm : rest.mapM f with
      | none => simp [hf, hm] at h
      | some bs =>
        simp [hf, hm] at h
        rw [← h]
        have hrest := ih hm
        grind

theorem eligibleFormationBasis_iff {refs basis : List String}
    {byRef : String → Option EpisodeEvidence} :
    eligibleFormationBasis refs byRef = some basis ↔
      basis = sortRefs refs ∧ ∃ episodes, FormationBasis refs byRef episodes := by
  unfold eligibleFormationBasis
  by_cases hargs : (decide (refs.length < 2) || !uniqueStableRefs refs) = true
  · rw [if_pos hargs]
    refine ⟨fun h => (by cases h), ?_⟩
    intro ⟨_, _, h⟩
    have h₁ := h.two
    have h₂ := h.unique
    simp [h₂] at hargs
    omega
  rw [if_neg hargs]
  simp only [Bool.or_eq_true, decide_eq_true_eq, Bool.not_eq_true', not_or, Nat.not_lt,
    Bool.not_eq_false] at hargs
  cases hm : (sortRefs refs).mapM byRef with
  | none =>
    refine ⟨fun h => (by simp at h), ?_⟩
    intro ⟨_, _, h⟩
    rw [h.loaded] at hm
    cases hm
  | some episodes =>
    simp only
    split
    · rename_i hno
      refine ⟨fun h => (by cases h), ?_⟩
      intro ⟨_, episodes', h⟩
      obtain rfl := Option.some.inj (hm.symm.trans h.loaded)
      have hs : episodes.all supportsFormation = true := List.all_eq_true.mpr h.supports
      have hd : decide (episodes.flatMap scopedSources).Nodup = true := decide_eq_true h.disjoint
      have hn := h.sessions
      simp [hs, hd] at hno
      omega
    · rename_i hno
      simp only [Bool.or_eq_true, Bool.not_eq_true', decide_eq_true_eq, decide_eq_false_iff_not,
        not_or, Bool.not_eq_false, Nat.not_lt, not_not, List.all_eq_true] at hno
      constructor
      · intro h
        exact ⟨(Option.some.inj h).symm, episodes, hargs.1, hargs.2, hm, hno.1.1, hno.1.2, hno.2⟩
      · intro ⟨h, _⟩
        rw [h]

/-! ## A pair of an eligible basis -/

theorem uniqueStableRefs_iff {refs : List String} :
    uniqueStableRefs refs = true ↔ refs.Nodup ∧ ∀ ref ∈ refs, stableFeedbackRef ref = true := by
  induction refs with
  | nil => simp [uniqueFeedbackRefs]
  | cons ref rest ih =>
    simp only [uniqueStableRefs] at ih ⊢
    simp [uniqueFeedbackRefs, ih]
    grind

theorem sortRefs_pair (a b : String) : sortRefs [a, b] = [a, b] ∨ sortRefs [a, b] = [b, a] := by
  by_cases h : a ≤ b
  · exact Or.inl (by simp [sortRefs, h])
  · exact Or.inr (by simp [sortRefs, h])

/-- Two sessions among the Episodes of a list leave one for each of them. -/
theorem exists_other_session {episodes : List EpisodeEvidence}
    (h : 2 ≤ (episodes.map (·.sessionRef)).dedup.length) (e : EpisodeEvidence) :
    ∃ other ∈ episodes, other.sessionRef ≠ e.sessionRef := by
  by_contra hno
  simp only [not_exists, not_and, not_not] at hno
  have hall : ∀ x ∈ (episodes.map (·.sessionRef)).dedup, x = e.sessionRef := by
    intro x hx
    obtain ⟨other, hother, rfl⟩ := List.mem_map.mp (List.mem_dedup.mp hx)
    exact hno other hother
  have hrep := List.eq_replicate_of_mem hall
  have hnd := List.nodup_dedup (episodes.map (·.sessionRef))
  rw [hrep, List.nodup_replicate] at hnd
  omega

instance : Std.Symm (Function.onFun List.Disjoint scopedSources) := ⟨fun _ _ h => h.symm⟩

/-- Two Episodes of two sessions that share no source. -/
theorem formationBasis_two {refs : List String} {byRef : String → Option EpisodeEvidence}
    {a b : EpisodeEvidence} (two : 2 ≤ refs.length) (unique : uniqueStableRefs refs = true)
    (loaded : (sortRefs refs).mapM byRef = some [a, b]) (ha : supportsFormation a = true)
    (hb : supportsFormation b = true) (na : (scopedSources a).Nodup) (nb : (scopedSources b).Nodup)
    (apart : List.Disjoint (scopedSources a) (scopedSources b))
    (sessions : a.sessionRef ≠ b.sessionRef) : FormationBasis refs byRef [a, b] := by
  refine ⟨two, unique, loaded, by simp [ha, hb], ?_, by simp [sessions]⟩
  simp only [List.flatMap_cons, List.flatMap_nil, List.append_nil, List.nodup_append']
  exact ⟨na, nb, apart⟩

/-- Every Episode of an eligible basis makes an eligible pair with another one. -/
theorem FormationBasis.pair {refs : List String} {byRef : String → Option EpisodeEvidence}
    {episodes : List EpisodeEvidence} (h : FormationBasis refs byRef episodes) {ref : String}
    (hr : ref ∈ refs) :
    ∃ other ∈ refs, (eligibleFormationBasis [ref, other] byRef).isSome := by
  obtain ⟨hleft, hright⟩ := mapM_some h.loaded
  obtain ⟨e, he, hload⟩ := hleft ref (mem_sortRefs.mpr hr)
  obtain ⟨e', he', hsession⟩ := exists_other_session h.sessions e
  obtain ⟨other, hother, hload'⟩ := hright e' he'
  have hne : ref ≠ other := by
    intro heq
    rw [heq, hload'] at hload
    exact hsession (congrArg EpisodeEvidence.sessionRef (Option.some.inj hload))
  obtain ⟨hnodup, hpair⟩ := List.nodup_flatMap.mp h.disjoint
  have hapart : List.Disjoint (scopedSources e) (scopedSources e') :=
    hpair.forall he he' (fun heq => hsession (congrArg EpisodeEvidence.sessionRef heq.symm))
  have hmem : other ∈ refs := mem_sortRefs.mp hother
  have hstable := (uniqueStableRefs_iff.mp h.unique).2
  have hunique : uniqueStableRefs [ref, other] = true := by
    rw [uniqueStableRefs_iff]
    simp [hne, hstable ref hr, hstable other hmem]
  refine ⟨other, hmem, Option.isSome_iff_exists.mpr ⟨_, eligibleFormationBasis_iff.mpr ⟨rfl, ?_⟩⟩⟩
  rcases sortRefs_pair ref other with hsort | hsort
  · have hloaded : (sortRefs [ref, other]).mapM byRef = some [e, e'] := by
      simp [hsort, List.mapM_cons, hload, hload']
    exact ⟨_, formationBasis_two (by simp) hunique hloaded (h.supports e he) (h.supports e' he')
      (hnodup e he) (hnodup e' he') hapart hsession.symm⟩
  · have hloaded : (sortRefs [ref, other]).mapM byRef = some [e', e] := by
      simp [hsort, List.mapM_cons, hload, hload']
    exact ⟨_, formationBasis_two (by simp) hunique hloaded (h.supports e' he') (h.supports e he)
      (hnodup e' he') (hnodup e he) hapart.symm hsession⟩

/-! ## The offer -/

theorem eligibleDispositionFormationBasis_some {refs : List String}
    {byRef : String → Option EpisodeEvidence} {outcomes : List FeedbackOutcome}
    {basis : List String × List String}
    (h : eligibleDispositionFormationBasis refs byRef outcomes = some basis) :
    ∃ episodes, FormationBasis (refs.filter fun ref => (byRef ref).isSome) byRef episodes ∧
      basis = (sortRefs (refs.filter fun ref => (byRef ref).isSome),
        sortRefs (refs.filter fun ref => (byRef ref).isNone)) ∧
      ∀ ref ∈ refs, byRef ref = none → ∃ o, outcomeByRef outcomes ref = some o ∧
        o.external = true ∧ o.cited byRef basis.1 = true := by
  simp only [eligibleDispositionFormationBasis] at h
  split at h
  · cases h
  rename_i hargs
  split at h
  · cases h
  rename_i sorted hbasis
  obtain ⟨rfl, episodes, hf⟩ := eligibleFormationBasis_iff.mp hbasis
  split at h
  · cases h
  rename_i hcited
  rw [← Option.some.inj h]
  refine ⟨episodes, hf, rfl, ?_⟩
  intro ref href hnone
  simp only [Bool.or_eq_true, Bool.not_eq_true', not_or, Bool.not_eq_false] at hargs hcited
  have hout : ref ∈ refs.filter fun ref => (byRef ref).isNone := by
    simp [href, hnone]
  have hext := List.all_eq_true.mp hargs.2 ref hout
  have hcit := List.all_eq_true.mp hcited ref hout
  cases ho : outcomeByRef outcomes ref with
  | none => simp [ho] at hext
  | some o =>
    rw [ho] at hext hcit
    exact ⟨o, rfl, by simpa using hext, by simpa using hcit⟩

namespace WindowState

variable {w : WindowState} {change : Change}

theorem current_mem {refs : List String} (h : basisIncludesCurrentEpisode refs w.currentRefs = true) :
    ∃ e ∈ w.episodes, e.ref ∈ refs := by
  simp only [basisIncludesCurrentEpisode, currentRefs, List.any_eq_true, List.contains_eq_mem,
    decide_eq_true_eq, List.mem_map] at h
  obtain ⟨ref, href, e, he, rfl⟩ := h
  exact ⟨e, he, href⟩

theorem newRecollection_offered (h : w.validRecollectionFormation change = true) :
    targetNewRecollection ∈ w.allowedTargetRefs := by
  simp only [validRecollectionFormation, Bool.and_eq_true] at h
  obtain ⟨e, he, _⟩ := current_mem h.2
  have hne : w.episodes.isEmpty = false := by
    cases heps : w.episodes with
    | nil => simp [heps] at he
    | cons _ _ => rfl
  simp [allowedTargetRefs, hne]

/-- An inferred formation needs a pair, which is what makes the formation an offer. -/
theorem canForm_of_eligible {refs : List String} {basis : List String × List String}
    (h : eligibleDispositionFormationBasis refs w.episodeOf w.outcomes = some basis)
    (hcur : basisIncludesCurrentEpisode refs w.currentRefs = true) : w.canForm = true := by
  obtain ⟨episodes, hf, _⟩ := eligibleDispositionFormationBasis_some h
  obtain ⟨e, he, href⟩ := current_mem hcur
  have hsome : (w.episodeOf e.ref).isSome := episodeByRef_isSome (List.mem_append_left _ he)
  obtain ⟨other, hother, hpair⟩ := hf.pair (List.mem_filter.mpr ⟨href, by simpa using hsome⟩)
  obtain ⟨o, ho⟩ := Option.isSome_iff_exists.mp (by simpa using (List.mem_filter.mp hother).2)
  obtain ⟨hmem, rfl⟩ := episodeByRef_some ho
  simp only [canForm, hasFormationEvidence, List.any_eq_true]
  exact ⟨e, he, o, hmem, hpair⟩

/-- Related Episodes are not current ones. -/
def Apart (w : WindowState) : Prop := ∀ e ∈ w.episodes, ∀ r ∈ w.related, r.ref ≠ e.ref

/-- A direct requirement cites a current Episode of a user. -/
theorem direct_of_eligible {refs basis : List String} (hapart : w.Apart)
    (h : eligibleAdaptationBasis refs w.episodeOf (some w.currentRefs) = some basis) :
    (directEpisodes w.episodes).isEmpty = false := by
  obtain ⟨ref, e, _, _, he, huser, hcur⟩ := eligibleAdaptationBasis_some h
  obtain ⟨e', he', href'⟩ := List.mem_map.mp (hcur _ rfl)
  obtain ⟨hmem, href⟩ := episodeByRef_some he
  have hcurrent : e ∈ w.episodes := by
    rcases List.mem_append.mp hmem with hmem | hmem
    · exact hmem
    · exact absurd (href.trans href'.symm) (hapart e' he' e hmem)
  have hdirect : e.ref ∈ directEpisodes w.episodes :=
    List.mem_map_of_mem (List.mem_filter.mpr ⟨hcurrent, huser⟩)
  cases hl : directEpisodes w.episodes with
  | nil => simp [hl] at hdirect
  | cons _ _ => rfl

theorem newDisposition_offered (hapart : w.Apart) (h : w.validDispositionFormation change = true) :
    targetNewDisposition ∈ w.allowedTargetRefs := by
  simp only [validDispositionFormation, Bool.and_eq_true] at h
  obtain ⟨⟨_, helig⟩, hcur⟩ := h
  have hoffer : w.canForm = true ∨ (directEpisodes w.episodes).isEmpty = false := by
    unfold eligibleFormation at helig
    split at helig
    · obtain ⟨basis, hb⟩ := Option.isSome_iff_exists.mp helig
      exact Or.inr (direct_of_eligible hapart hb)
    · simp only [Bool.and_eq_true] at helig
      obtain ⟨basis, hb⟩ := Option.isSome_iff_exists.mp helig.1
      exact Or.inl (canForm_of_eligible hb hcur)
  rcases hoffer with hoffer | hoffer <;> simp [allowedTargetRefs, hoffer]

theorem newDisposition_basis (h : w.validDispositionFormation change = true) :
    ∀ ref ∈ change.basisRefs, ref ∈ w.allowedBasisRefs := by
  simp only [validDispositionFormation, Bool.and_eq_true] at h
  obtain ⟨⟨_, helig⟩, hcur⟩ := h
  intro ref href
  unfold eligibleFormation at helig
  split at helig
  · obtain ⟨basis, hb⟩ := Option.isSome_iff_exists.mp helig
    obtain ⟨ref', e, hrefs, _, he, _⟩ := eligibleAdaptationBasis_some hb
    rw [hrefs, List.mem_singleton] at href
    rw [href]
    exact mem_allowedBasisRefs_of_episode (by simp [he])
  · simp only [Bool.and_eq_true] at helig
    obtain ⟨basis, hb⟩ := Option.isSome_iff_exists.mp helig.1
    have hform := canForm_of_eligible hb hcur
    obtain ⟨_, _, _, houts⟩ := eligibleDispositionFormationBasis_some hb
    cases hep : w.episodeOf ref with
    | some e => exact mem_allowedBasisRefs_of_episode (by simp [hep])
    | none =>
      obtain ⟨o, ho, hext, hcited⟩ := houts ref href hep
      obtain ⟨homem, rfl⟩ := outcomeByRef_some ho
      simp only [FeedbackOutcome.cited, Bool.and_eq_true] at hcited
      have helig' : o.ref ∈ w.eligibleFormationOutcomes := by
        unfold eligibleFormationOutcomes
        unfold canForm at hform
        rw [if_neg (by simp [hform])]
        exact List.mem_map_of_mem (List.mem_filter.mpr ⟨homem, by simp [hext, ← hcited.2, episodeOf]⟩)
      refine mem_allowedBasisRefs_of_formation ?_
      simp [formationOutcomes, helig']

/-! ## Existing targets -/

theorem recollection_offered {r : ActiveRecollection} (h : w.recollectionOf change.target = some r) :
    change.target ∈ w.allowedTargetRefs := by
  have hmem := List.mem_of_find?_eq_some h
  have href : r.versionRef = change.target := by simpa using List.find?_some h
  simp only [allowedTargetRefs, List.mem_append, List.mem_map]
  exact Or.inl (Or.inr ⟨r, hmem, href⟩)

theorem recollection_basis {refs : List String} (h : (eligibleRecollectionBasis refs w.episodeOf).isSome) :
    ∀ ref ∈ refs, ref ∈ w.allowedBasisRefs := by
  obtain ⟨basis, hb⟩ := Option.isSome_iff_exists.mp h
  obtain ⟨_, _, hall⟩ := eligibleRecollectionBasis_some hb
  exact fun ref href => mem_allowedBasisRefs_of_episode (hall ref href)

theorem target_offered {t : FeedbackTarget} (h : targetByRef w.targets change.target = some t) :
    change.target ∈ w.allowedTargetRefs := by
  obtain ⟨ht, href⟩ := targetByRef_some h
  simp only [allowedTargetRefs, List.mem_append]
  refine Or.inr ?_
  rw [targetRefs, mem_sortedKeys, ← href]
  exact List.mem_map_of_mem ht

end WindowState

theorem splitBasis_some {t : FeedbackTarget} {allow : Bool} {refs : List String}
    {s : List String × List String} (h : t.splitBasis allow refs = some s) :
    (∀ ref ∈ refs, ref ∈ t.episodes ∨ (allow = true ∧ ref ∈ t.anchors) ∨ ref ∈ t.outcomeRefs) ∧
    (∀ ref ∈ s.1, ref ∈ refs ∧ (ref ∈ t.episodes ∨ (allow = true ∧ ref ∈ t.anchors))) ∧
    ∀ ref ∈ s.2, ref ∈ refs ∧ ref ∈ t.outcomeRefs := by
  induction refs generalizing s with
  | nil =>
    rw [← Option.some.inj h]
    simp
  | cons ref rest ih =>
    simp only [FeedbackTarget.splitBasis, Bool.or_eq_true, Bool.and_eq_true, List.contains_eq_mem,
      decide_eq_true_eq] at h
    split at h
    · obtain ⟨s', hs', rfl⟩ := Option.map_eq_some_iff.mp h
      have := ih hs'
      grind
    · split at h
      · obtain ⟨s', hs', rfl⟩ := Option.map_eq_some_iff.mp h
        have := ih hs'
        grind
      · cases h

/-- What an accepted basis of feedback is made of. -/
theorem feedbackBasis_some {t : FeedbackTarget} {allow : Bool} {refs : List String}
    {s : List String × List String} (h : feedbackBasis t refs allow = some s) :
    classifyFeedbackBasis t refs allow = some s ∧
      exactFeedbackEpisodeOutcomeMatch t s.1 s.2 = true := by
  unfold feedbackBasis at h
  split at h
  · cases h
  rename_i episodes outcomes hc
  split at h
  · cases h
  rename_i hno
  simp only [Bool.or_eq_true, Bool.not_eq_true', not_or, Bool.not_eq_false] at hno
  rw [← Option.some.inj h]
  exact ⟨hc, hno.2⟩

/-- Feedback cites a feedback Episode. -/
theorem exactMatch_episode {t : FeedbackTarget} {episodes outcomes : List String}
    (h : exactFeedbackEpisodeOutcomeMatch t episodes outcomes = true) :
    ∃ ref ∈ episodes, ref ∈ t.episodes := by
  simp only [exactFeedbackEpisodeOutcomeMatch, Bool.and_eq_true, Bool.not_eq_true'] at h
  cases hcited : episodes.filter t.episodes.contains with
  | nil => simp [hcited] at h
  | cons ref rest =>
    have hmem : ref ∈ episodes.filter t.episodes.contains := hcited ▸ List.mem_cons_self
    rw [List.mem_filter] at hmem
    exact ⟨ref, hmem.1, by simpa using hmem.2⟩

theorem mem_offeredBasis {t : FeedbackTarget} {ref : String}
    (h : ref ∈ t.episodes ∨ ref ∈ t.outcomeRefs ∨ (t.episodes.isEmpty = false ∧ ref ∈ t.anchors)) :
    ref ∈ t.offeredBasis := by
  simp only [FeedbackTarget.offeredBasis, List.mem_append, mem_sortedKeys,
    FeedbackTarget.offeredAnchors]
  rcases h with h | h | ⟨he, h⟩
  · exact Or.inl (Or.inl h)
  · exact Or.inl (Or.inr h)
  · refine Or.inr ?_
    rw [he]
    simpa using h

/-- An accepted feedback basis was offered. -/
theorem feedbackBasis_offered {t : FeedbackTarget} {allow : Bool} {refs : List String}
    (h : (feedbackBasis t refs allow).isSome) : ∀ ref ∈ refs, ref ∈ t.offeredBasis := by
  obtain ⟨s, hs⟩ := Option.isSome_iff_exists.mp h
  obtain ⟨hclass, hmatch⟩ := feedbackBasis_some hs
  obtain ⟨s', hs', _⟩ := Option.map_eq_some_iff.mp hclass
  obtain ⟨ref', _, hep⟩ := exactMatch_episode hmatch
  have hne : t.episodes.isEmpty = false := by
    cases hl : t.episodes with
    | nil => simp [hl] at hep
    | cons _ _ => rfl
  intro ref href
  rcases (splitBasis_some hs').1 ref href with h | ⟨_, h⟩ | h
  · exact mem_offeredBasis (Or.inl h)
  · exact mem_offeredBasis (Or.inr (Or.inr ⟨hne, h⟩))
  · exact mem_offeredBasis (Or.inr (Or.inl h))

namespace WindowState

variable {w : WindowState} {change : Change}

theorem disposition_basis {t : FeedbackTarget} (ht : targetByRef w.targets change.target = some t)
    (h : w.validDispositionChange change t = true) :
    ∀ ref ∈ change.basisRefs, ref ∈ w.allowedBasisRefs := by
  have ht' : targetByRef w.targets t.versionRef = some t := by
    rw [(targetByRef_some ht).2, ht]
  simp only [validDispositionChange, Bool.and_eq_true] at h
  obtain ⟨_, h⟩ := h
  intro ref href
  cases hop : change.operation with
  | keep => simp [hop] at h
  | reenact =>
    simp only [hop, Bool.and_eq_true, List.all_eq_true, List.contains_eq_mem,
      decide_eq_true_eq] at h
    exact mem_allowedBasisRefs_of_target ht' (mem_offeredBasis (Or.inl (h.2 ref href)))
  | inhibit =>
    simp only [hop] at h
    exact mem_allowedBasisRefs_of_target ht' (feedbackBasis_offered h ref href)
  | text =>
    simp only [hop, Bool.and_eq_true] at h
    exact mem_allowedBasisRefs_of_target ht' (feedbackBasis_offered h.1 ref href)
  | adapt =>
    simp only [hop, validAdaptation, Bool.and_eq_true, List.all_eq_true, citable,
      Bool.or_eq_true, Bool.not_eq_true', List.contains_eq_mem, decide_eq_true_eq] at h
    rcases h.2 ref href with hep | ⟨hne, hanchor⟩
    · exact mem_allowedBasisRefs_of_episode hep
    · exact mem_allowedBasisRefs_of_target ht' (mem_offeredBasis (Or.inr (Or.inr ⟨hne, hanchor⟩)))

theorem validChange_offered (hapart : w.Apart) (h : w.validChange change = true) :
    change.target ∈ w.allowedTargetRefs ∧ ∀ ref ∈ change.basisRefs, ref ∈ w.allowedBasisRefs := by
  unfold validChange at h
  split at h
  · rename_i htarget
    rw [htarget]
    refine ⟨newRecollection_offered h, recollection_basis ?_⟩
    simp only [validRecollectionFormation, Bool.and_eq_true] at h
    exact h.1.2
  split at h
  · rename_i htarget
    rw [htarget]
    exact ⟨newDisposition_offered hapart h, newDisposition_basis h⟩
  split at h
  · rename_i r hr
    simp only [validRecollectionChange, Bool.and_eq_true] at h
    exact ⟨recollection_offered hr, recollection_basis h.1.1.2⟩
  split at h
  · rename_i t ht
    exact ⟨target_offered ht, disposition_basis ht h⟩
  · cases h

end WindowState

/-! ## The loaded state -/

theorem loadEpisode_ref {ref : String} {d : Db} {e : EpisodeEvidence} (h : loadEpisode ref d = some e) :
    e.ref = ref := by
  unfold loadEpisode at h
  split at h
  · cases h
  · rename_i row hrow
    split at h
    · cases h
    · have href := List.find?_some hrow
      rw [← Option.some.inj h]
      exact of_decide_eq_true href

/-- No Episode of a list has the ref of a current one. -/
def OtherRefs (current l : List EpisodeEvidence) : Prop := ∀ r ∈ l, ∀ e ∈ current, r.ref ≠ e.ref

theorem otherRefs_addIndexed {owner : OwnerScope} {current l : List EpisodeEvidence} {d : Db}
    {ref : String} (h : OtherRefs current l) :
    OtherRefs current (addIndexedEpisode owner current d l ref) := by
  unfold addIndexedEpisode
  split
  · exact h
  rename_i hnew
  split
  · exact h
  rename_i e he
  split
  · intro r hr e' he' heq
    rcases List.mem_append.mp hr with hr | hr
    · exact h r hr e' he' heq
    · rw [List.mem_singleton] at hr
      subst hr
      refine hnew (List.any_eq_true.mpr ⟨e', List.mem_append_left _ he', ?_⟩)
      simp [← heq, loadEpisode_ref he]
  · exact h

theorem otherRefs_foldl {α β : Type} {current : List EpisodeEvidence} {refs : List α}
    {step : β → α → β} (related : β → List EpisodeEvidence)
    (hstep : ∀ b a, OtherRefs current (related b) → OtherRefs current (related (step b a))) {b : β}
    (h : OtherRefs current (related b)) : OtherRefs current (related (refs.foldl step b)) := by
  induction refs generalizing b with
  | nil => exact h
  | cons a rest ih => exact ih (hstep b a h)

theorem otherRefs_loadIndexed (owner : OwnerScope) (refs : List String)
    (current : List EpisodeEvidence) (d : Db) :
    OtherRefs current (loadIndexedConsolidationEpisodes owner refs current d) :=
  otherRefs_foldl id (fun _ _ h => otherRefs_addIndexed h) fun r hr => by cases hr

theorem otherRefs_addFormation {owner : OwnerScope} {current : List EpisodeEvidence} {d : Db}
    {found : FormationPairs} {ref : String} (h : OtherRefs current found.related) :
    OtherRefs current (addFormationCandidate owner current d found ref).related := by
  unfold addFormationCandidate
  split
  · exact h
  split
  · exact h
  rename_i episode hcandidate
  split
  · exact h
  split
  · exact h
  split
  · exact h
  rename_i hnew
  intro r hr e he heq
  rcases List.mem_append.mp hr with hr | hr
  · exact h r hr e he heq
  rw [List.mem_singleton] at hr
  subst hr
  have hnone : episodeByRef current ref = none := by simpa using hnew
  unfold formationCandidate at hcandidate
  rw [hnone] at hcandidate
  simp only at hcandidate
  split at hcandidate
  · cases hcandidate
  rename_i e' he'
  split at hcandidate
  · obtain rfl := Option.some.inj hcandidate
    have hsome := episodeByRef_isSome he
    rw [← heq, loadEpisode_ref he', hnone] at hsome
    cases hsome
  · cases hcandidate

theorem otherRefs_pairs (owner : OwnerScope) (current : List EpisodeEvidence)
    (outcomes : List FeedbackOutcome) (refs : List String) (d : Db) :
    OtherRefs current (loadDispositionFormationPairs owner current outcomes refs d).related := by
  unfold loadDispositionFormationPairs
  split
  · intro r hr
    cases hr
  split
  · intro r hr
    cases hr
  split
  · intro r hr
    cases hr
  · exact otherRefs_foldl FormationPairs.related
      (fun _ _ h => otherRefs_addFormation h) fun r hr => by cases hr

theorem mem_mergeRelated {formation related : List EpisodeEvidence} {e : EpisodeEvidence}
    (h : e ∈ mergeRelated formation related) : e ∈ formation ∨ e ∈ related := by
  have hsub : ∀ (l acc : List EpisodeEvidence), e ∈ l.foldl
      (fun acc e => if acc.any (·.ref == e.ref) then acc else acc ++ [e]) acc → e ∈ acc ∨ e ∈ l := by
    intro l
    induction l with
    | nil => exact fun acc h => Or.inl h
    | cons a rest ih =>
      intro acc h
      have := ih _ h
      grind
  rcases hsub _ _ h with h | h
  · cases h
  · exact List.mem_append.mp h

theorem WindowState.Apart.withPairs {w : WindowState} (h : w.Apart) {formation : Option FormationPairs}
    (hf : ∀ found, formation = some found → OtherRefs w.episodes found.related) :
    (w.withPairs formation).Apart := by
  cases formation with
  | none => exact h
  | some found =>
    intro e he r hr
    rcases mem_mergeRelated hr with hr | hr
    · exact hf found rfl r hr e he
    · exact h e he r hr

theorem reloadWindow_apart {store : Store} {p : Proposal} {episodes related : List EpisodeEvidence}
    {w : WindowState} (hrelated : OtherRefs episodes related)
    (h : (store.reloadWindow p episodes related).Yields w) : w.Apart := by
  obtain ⟨d₁, d₂, d₃, d₄, targets, outcomes, _, rfl⟩ := reloadWindow_yields h
  refine WindowState.Apart.withPairs (fun e he r hr => hrelated r hr e he) ?_
  intro found hfound
  obtain ⟨refs, _, rfl⟩ := Option.map_eq_some_iff.mp hfound
  exact otherRefs_pairs p.owner episodes outcomes refs d₃

/-- Whatever rows the commit's queries see, the changes it accepts name only targets
and bases that the request of the loaded state lists. -/
theorem accepted_offered (store : Store) (p : Proposal) (episodes : List EpisodeEvidence) (d : Db)
    (text : String) {w : WindowState}
    (hw : (store.reloadWindow p episodes
      (loadIndexedConsolidationEpisodes p.owner p.found.episodeRefs episodes d)).Yields w) :
    ∀ change ∈ w.accepted text,
      change.target ∈ (w.workerRequest p.window.jobRef).allowedTargetRefs ∧
        ∀ ref ∈ change.basisRefs, ref ∈ (w.workerRequest p.window.jobRef).allowedBasisRefs := by
  intro change hchange
  obtain ⟨changes, _, heq, hvalid⟩ := mem_accepted hchange
  rw [heq] at hchange
  have hapart := reloadWindow_apart (otherRefs_loadIndexed _ _ _ _) hw
  exact WindowState.validChange_offered hapart (validChange_of_valid hvalid hchange)

/-! A question and its answer, and a Recollection formed of them. -/

def sampleEpisodeRow : EpisodeRow := ⟨⟨sampleScope, "run", "g"⟩, "episode_1"⟩

def answeredDb : Db :=
  { sources := [⟨sampleSituation, 1⟩, ⟨sampleAct, 2⟩], episodes := [sampleEpisodeRow],
    links := [⟨sampleEpisodeRow.group, "ask", .situation, "episode_1"⟩,
      ⟨sampleEpisodeRow.group, "act", .agentAct, "episode_1"⟩] }

def sampleState : WindowState :=
  { episodes := [episodeEvidence sampleEpisodeRow answeredDb], related := [], outcomes := [],
    targets := [], dispositions := [], recollections := [], pairs := [] }

def sampleProposal : Proposal :=
  (plainStore .postgres).proposal ⟨"job", ["episode_1"], []⟩ {} none sampleState

def sampleAnswer : String :=
  "TARGET\nNEW_RECOLLECTION\nAPPLICATION\nOTHER\nCHANGE\nTEXT says please\nBASIS\nepisode_1\n"

def sampleWindow : WindowState :=
  (plainStore .postgres).windowState sampleProposal [episodeEvidence sampleEpisodeRow answeredDb] [] []
    [] answeredDb answeredDb answeredDb

theorem sampleWindow_loaded :
    loadFeedbackState [episodeEvidence sampleEpisodeRow answeredDb] [] [] answeredDb = .ok ([], []) := by
  decide

theorem accepted_offered_sample :
    (sampleWindow.accepted sampleAnswer).length = 1 ∧
      ∀ change ∈ sampleWindow.accepted sampleAnswer,
        change.target ∈ (sampleWindow.workerRequest "job").allowedTargetRefs ∧
          ∀ ref ∈ change.basisRefs, ref ∈ (sampleWindow.workerRequest "job").allowedBasisRefs :=
  ⟨by decide,
    accepted_offered (plainStore .postgres) sampleProposal
      [episodeEvidence sampleEpisodeRow answeredDb] answeredDb sampleAnswer
      (yields_reloadWindow sampleWindow_loaded)⟩

end ChoraMem
