/-
Whose Memory a selection can show.

Every lane of a selection ends in a query of its own owners, so it does not matter what
the index answered: a candidate is an active version of the agent's baseline or of the
exact relationship, and a piece of evidence is an Episode of one of them.  Ranking only
chooses among the candidates.
-/
import ChoraMem.Selection.Interference
import ChoraMem.Selection.Ranking
import ChoraMem.World.Loads

namespace ChoraMem

open Txn

section

variable {d : Db} {scope : Scope} {limit : Nat} {refs : Option (List String)}

/-! ## Owners -/

theorem catalogue_selectionOwners {o : OwnerScope × Nat} (h : o ∈ catalogueOwners scope) :
    o.1 ∈ selectionOwners scope := by
  unfold catalogueOwners at h
  unfold selectionOwners
  rcases List.mem_append.mp h with h | h
  · split at h
    · rename_i hkind
      rw [if_pos hkind, List.mem_singleton.mp h]
      simp
    · cases h
  · rw [List.mem_singleton.mp h]
    exact List.mem_cons_self

/-- A lane looks in the owners of the selection. -/
theorem lane_selectionOwners {owner : OwnerScope} (h : owner ∈ selectionOwners scope)
    {o : OwnerScope × Nat} (ho : o ∈ catalogueOwners owner.laneScope) :
    o.1 ∈ selectionOwners scope := by
  have hmem := catalogue_selectionOwners ho
  unfold selectionOwners at h
  rcases List.mem_cons.mp h with rfl | h
  · have hown : selectionOwners (agentBaseline scope.tenantRef scope.agentRef).laneScope =
        [agentBaseline scope.tenantRef scope.agentRef] := by
      simp [selectionOwners, OwnerScope.laneScope, agentBaseline]
    rw [hown] at hmem
    rw [List.mem_singleton.mp hmem]
    exact List.mem_cons_self
  · split at h
    · rename_i hkind
      rw [List.mem_singleton.mp h] at hmem
      have hown : selectionOwners scope.owner.laneScope = selectionOwners scope := by
        simp [selectionOwners, OwnerScope.laneScope, Scope.owner, hkind]
      rwa [hown] at hmem
    · cases h

theorem lane_of_selectionLanes {queries : List Query} {lane : Lane}
    (h : lane ∈ selectionLanes scope queries) : lane.owner ∈ selectionOwners scope := by
  obtain ⟨l, hl, rfl⟩ := List.mem_map.mp h
  have hpair := List.fst_mem_of_mem_zipIdx hl
  obtain ⟨o, ho, hq⟩ := List.mem_flatMap.mp hpair
  obtain ⟨q, _, heq⟩ := List.mem_map.mp hq
  show l.1.1 ∈ selectionOwners scope
  rw [← heq]
  exact ho

theorem mem_dropRepeats {items : List ScopedIndexCandidate} {c : ScopedIndexCandidate}
    (h : c ∈ dropRepeats items) : c ∈ items := by
  unfold dropRepeats at h
  revert h
  refine List.foldlRecOn items _ (motive := fun acc => c ∈ acc → c ∈ items)
    (fun h => absurd h List.not_mem_nil) fun acc hacc first hfirst h => ?_
  split at h
  · exact hacc h
  · rcases List.mem_append.mp h with h | h
    · exact hacc h
    · rwa [List.mem_singleton.mp h]

/-- An answer keeps the owner of its lane. -/
theorem scope_of_search {index : Option MemoryIndex} {queries : List Query}
    {c : ScopedIndexCandidate} (h : c ∈ searchSelectionIndex index scope queries limit) :
    c.scope ∈ selectionOwners scope := by
  unfold searchSelectionIndex at h
  split at h
  · cases h
  obtain ⟨lane, hlane, hc⟩ := List.mem_flatMap.mp (mem_dropRepeats h)
  obtain ⟨answer, _, hc⟩ := List.mem_filterMap.mp hc
  have hscope : c.scope = lane.owner := by
    unfold Lane.scoped at hc
    split at hc
    · cases hc
    · split at hc
      · cases hc
      · rw [← Option.some.inj hc]
  rw [hscope]
  exact lane_of_selectionLanes hlane

/-! ## Candidates -/

/-- A version of the ref has the text. -/
def Worded (kind : ItemKind) (ref text : String) (d : Db) : Prop :=
  match kind with
  | .recollection => ∃ v ∈ d.recollectionVersions, v.ref = ref ∧ v.text = text
  | .disposition => ∃ v ∈ d.seedVersions, v.ref = ref ∧ v.tendency = text

/-- A version keeps its text. -/
theorem Worded.mono {kind : ItemKind} {ref text : String} {d' : Db} (h : Worded kind ref text d)
    (hg : Grown d d') : Worded kind ref text d' := by
  cases kind with
  | recollection =>
    obtain ⟨v, hv, hrest⟩ := h
    rcases hg.recollections.versions v hv with hv' | ⟨_, hv'⟩
    · exact ⟨v, hv', hrest⟩
    · exact ⟨_, hv', hrest⟩
  | disposition =>
    obtain ⟨v, hv, hrest⟩ := h
    rcases hg.seeds.versions v hv with hv' | ⟨_, hv'⟩
    · exact ⟨v, hv', hrest⟩
    · exact ⟨_, hv', hrest⟩

/-- A version of the ref applies so. -/
def AppliedAs (kind : ItemKind) (ref application : String) (d : Db) : Prop :=
  match kind with
  | .recollection => ∃ v ∈ d.recollectionVersions, v.ref = ref ∧ v.application = application
  | .disposition => ∃ v ∈ d.seedVersions, v.ref = ref ∧ ∃ s ∈ d.seeds, s.ref = v.seedRef ∧
      application = if s.owner.kind = .agent then "self" else "relation"

theorem AppliedAs.mono {kind : ItemKind} {ref application : String} {d' : Db}
    (h : AppliedAs kind ref application d) (hg : Gains d d') (hgrown : Grown d d') :
    AppliedAs kind ref application d' := by
  cases kind with
  | recollection =>
    obtain ⟨v, hv, hrest⟩ := h
    rcases hgrown.recollections.versions v hv with hv' | ⟨_, hv'⟩
    · exact ⟨v, hv', hrest⟩
    · exact ⟨_, hv', hrest⟩
  | disposition =>
    obtain ⟨v, hv, href, s, hs, hrest⟩ := h
    rcases hgrown.seeds.versions v hv with hv' | ⟨_, hv'⟩
    · exact ⟨v, hv', href, s, hg.seeds hs, hrest⟩
    · exact ⟨_, hv', href, s, hg.seeds hs, hrest⟩

/-- The candidate is a version of one of these owners, with its text and application. -/
structure Candidate.Of (owners : List OwnerScope) (d : Db) (c : Candidate) : Prop where
  memory : MemoryOf owners c.kind c.versionRef d
  text : Worded c.kind c.versionRef c.text d
  application : AppliedAs c.kind c.versionRef c.application d

variable {owners : List OwnerScope} {c : Candidate}

theorem of_loadRecollectionCandidates (hd : MemoryLaw d)
    (howners : ∀ o ∈ catalogueOwners scope, o.1 ∈ owners)
    (h : c ∈ loadRecollectionCandidates scope limit refs d) : c.Of owners d := by
  obtain ⟨o, ho, hc⟩ := List.mem_flatMap.mp h
  obtain ⟨r, hr, hc⟩ := List.mem_filterMap.mp hc
  unfold recollectionCandidate at hc
  simp only at hc
  split at hc
  · cases hc
  obtain rfl := Option.some.inj hc
  obtain ⟨root, hroot, hown, v, hv, ht, href, _, rfl⟩ := mem_ownedRecollections.mp (mem_boundedCatalogue hr)
  refine ⟨⟨root, hroot, v.number, ?_, hown ▸ howners o ho⟩, ⟨v, hv, rfl, rfl⟩, v, hv, rfl, rfl⟩
  rw [← href]
  exact hd.recollectionName hv

theorem of_loadDispositionCandidates (hd : MemoryLaw d)
    (howners : ∀ o ∈ catalogueOwners scope, o.1 ∈ owners)
    (h : c ∈ loadDispositionCandidates scope limit refs d) : c.Of owners d := by
  obtain ⟨o, ho, hc⟩ := List.mem_flatMap.mp h
  obtain ⟨r, hr, hc⟩ := List.mem_filterMap.mp hc
  unfold dispositionCandidate at hc
  simp only at hc
  split at hc
  · cases hc
  obtain rfl := Option.some.inj hc
  obtain ⟨root, hroot, hown, v, hv, ht, href, _, rfl⟩ := mem_ownedDispositions.mp (mem_boundedCatalogue hr)
  refine ⟨⟨root, hroot, v.number, ?_, hown ▸ howners o ho⟩, ⟨v, hv, rfl, rfl⟩, v, hv, rfl, root,
    hroot, href.symm, ?_⟩
  · rw [← href]
    exact hd.seedName hv
  · rw [hown]
    rfl

theorem Candidate.Of.matched (h : c.Of owners d) (matches' : List IndexMatch) :
    ({ c with indexMatches := matches' } : Candidate).Of owners d :=
  ⟨h.memory, h.text, h.application⟩

theorem of_laneCandidates (hd : MemoryLaw d) {indexed : List ScopedIndexCandidate}
    {owner : OwnerScope} (howner : owner ∈ selectionOwners scope)
    (h : c ∈ laneCandidates indexed d owner) : c.Of (selectionOwners scope) d := by
  unfold laneCandidates at h
  rcases List.mem_append.mp h with h | h
  · obtain ⟨c', hc', rfl⟩ := List.mem_map.mp h
    exact (of_loadRecollectionCandidates hd (fun _ ho => lane_selectionOwners howner ho) hc').matched _
  · obtain ⟨c', hc', rfl⟩ := List.mem_map.mp h
    exact ((of_loadDispositionCandidates hd (fun _ ho => lane_selectionOwners howner ho)
      hc').matched _).matched _

theorem of_uniteCandidate {l : List Candidate} (hl : ∀ a ∈ l, a.Of owners d) (hc : c.Of owners d) :
    ∀ a ∈ uniteCandidate l c, a.Of owners d := by
  unfold uniteCandidate
  intro a ha
  split at ha
  · obtain ⟨b, hb, rfl⟩ := List.mem_map.mp ha
    split
    · exact (hl b hb).matched _
    · exact hl b hb
  · rcases List.mem_append.mp ha with ha | ha
    · exact hl a ha
    · rw [List.mem_singleton.mp ha]
      exact hc

theorem of_unionSelectionCandidates {canonical indexed : List Candidate}
    (h : ∀ a ∈ canonical ++ indexed, a.Of owners d) :
    ∀ a ∈ unionSelectionCandidates canonical indexed, a.Of owners d := by
  refine List.foldlRecOn _ uniteCandidate (motive := fun acc => ∀ a ∈ acc, a.Of owners d)
    (fun a ha => absurd ha List.not_mem_nil) fun acc hacc first hfirst => ?_
  exact of_uniteCandidate hacc (h first hfirst)

/-! ## Chosen texts -/

/-- The text of a chosen candidate is the text of a version of its ref. -/
theorem worded_candidateText {candidates : List Candidate} {a : Activation}
    (hof : ∀ c ∈ candidates, c.Of owners d) (ha : ∃ c ∈ candidates, a.Shows c) :
    Worded a.kind a.versionRef (candidateText candidates a) d := by
  unfold candidateText
  cases hf : candidates.reverse.find? fun c => c.kind == a.kind && c.versionRef == a.versionRef with
  | none =>
    obtain ⟨c, hc, hkind, href⟩ := ha
    have hno := List.find?_eq_none.mp hf c (List.mem_reverse.mpr hc)
    simp [hkind, href] at hno
  | some c =>
    have hfound := List.find?_some hf
    simp only [Bool.and_eq_true, beq_iff_eq] at hfound
    have hc := (hof c (List.mem_reverse.mp (List.mem_of_find?_eq_some hf))).text
    rw [hfound.1, hfound.2] at hc
    exact hc

/-! ## Episode evidence -/

theorem mem_boundEpisodeEvidence {ι : Type} {text : ι → String} {maxBytes : Int} {items : List ι}
    {x : ι} (h : x ∈ boundEpisodeEvidence text maxBytes items) : x ∈ items := by
  unfold boundEpisodeEvidence at h
  split at h
  · exact absurd h List.not_mem_nil
  revert h
  refine List.foldlRecOn items _ (motive := fun acc : List ι × Nat => x ∈ acc.1 → x ∈ items)
    (fun h => absurd h List.not_mem_nil) fun acc hacc first hfirst h => ?_
  split at h
  · exact hacc h
  · rcases List.mem_append.mp h with h | h
    · exact hacc h
    · rwa [List.mem_singleton.mp h]

/-- The evidence is an Episode of one of these owners, rendered. -/
def FrozenEpisodeEvidence.Of (owners : List OwnerScope) (d : Db) (x : FrozenEpisodeEvidence) : Prop :=
  EpisodeOf owners x.memoryRef x.text d

theorem source_of_linkedSource {l : LinkRow} {s : SourceEvidence} (h : linkedSource d l = some s) :
    ∃ row ∈ d.sources, row.key = (l.group.scope, s.ref) ∧ row.event.text = s.text := by
  obtain ⟨row, hrow, rfl⟩ := Option.map_eq_some_iff.mp h
  have hkey := List.find?_some hrow
  exact ⟨row, List.mem_of_find?_eq_some hrow, of_decide_eq_true hkey, rfl⟩

theorem episodeOf_load {ref : String} {e : EpisodeEvidence} (h : loadEpisode ref d = some e)
    (howner : e.owner ∈ owners) : EpisodeOf owners ref (renderEpisodeEvidence e) d := by
  obtain ⟨row, hrow, href, hev, _⟩ := loadEpisode_row h
  refine ⟨row, hrow, href, ?_, e, rfl, fun s hs => ?_⟩
  · rw [hev] at howner
    exact howner
  · rw [hev] at hs
    obtain ⟨l, hl, hs⟩ := List.mem_filterMap.mp hs
    have hl := (List.mem_filter.mp ((List.mem_insertionSort _).mp hl)).2
    simp only [Bool.and_eq_true, decide_eq_true_eq] at hl
    rw [← hl.1]
    exact source_of_linkedSource hs

theorem of_indexedEvidence {request : SelectRequest} {answer : ScopedIndexCandidate}
    {x : FrozenEpisodeEvidence} (howner : answer.scope ∈ owners)
    (h : indexedEvidence request d answer = some x) : x.Of owners d := by
  unfold indexedEvidence at h
  split at h
  · cases h
  split at h
  · cases h
  rename_i e hload
  split at h
  · cases h
  rename_i hno
  simp only [Bool.or_eq_true, decide_eq_true_eq, not_or, ne_eq, not_not] at hno
  obtain rfl := Option.some.inj h
  exact episodeOf_load hload (hno.1 ▸ howner)

theorem of_loadEpisodeEvidence {request : SelectRequest} {indexed : List ScopedIndexCandidate}
    (howners : ∀ a ∈ indexed, a.scope ∈ owners) {x : FrozenEpisodeEvidence}
    (h : x ∈ loadEpisodeEvidence request indexed d) : x.Of owners d := by
  unfold loadEpisodeEvidence at h
  split at h
  · cases h
  have hmem := mem_boundEpisodeEvidence h
  revert hmem
  refine List.foldlRecOn _ _ (motive := fun acc => x ∈ acc → x.Of owners d)
    (fun hx => absurd hx List.not_mem_nil) fun acc hacc first hfirst hx => ?_
  unfold addEvidence at hx
  split at hx
  · exact hacc hx
  · rcases List.mem_append.mp hx with hx | hx
    · exact hacc hx
    · have hanswer := (List.mem_insertionSort _).mp hfirst
      exact of_indexedEvidence (howners first hanswer) (Option.mem_toList.mp hx)

end

end ChoraMem
