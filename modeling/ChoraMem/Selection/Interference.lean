/-
What a selection sees of its lanes.

Episode evidence and indexed candidates are read from the store by ref, so an answer
that is not usable adds nothing to them.  The position of an answer is its rank and the
bound on an answer is applied to positions, so what a selection depends on is the usable
answers with their positions, and no more.
-/
import Mathlib.Data.List.Perm.Subperm
import ChoraMem.Selection.Usable
import ChoraMem.Consolidation.Reload
import ChoraMem.Storage.Intake
import ChoraMem.Txn.Turns

namespace ChoraMem

open Txn

section

variable {d : Db}

/-! ## Episode evidence -/

theorem usable_of_indexedEvidence {request : SelectRequest} {c : ScopedIndexCandidate}
    {e : FrozenEpisodeEvidence} (h : indexedEvidence request d c = some e) : c.usable d = true := by
  unfold indexedEvidence at h
  split at h
  · cases h
  rename_i hkind
  split at h
  · cases h
  rename_i episode hload
  split at h
  · cases h
  rename_i hno
  simp only [Bool.or_eq_true, decide_eq_true_eq, not_or, ne_eq, not_not] at hno
  have hk : c.kind = .episode := by simpa using hkind
  unfold loadEpisode at hload
  split at hload
  · cases hload
  rename_i row hrow
  split at hload
  · cases hload
  obtain rfl := Option.some.inj hload
  have hmem := List.mem_of_find?_eq_some hrow
  have hfound := List.find?_some hrow
  have href : row.ref = c.ref := of_decide_eq_true hfound
  have howner : row.group.scope.owner = c.scope := hno.1
  simp only [ScopedIndexCandidate.usable, usableRef, hk, List.any_eq_true, Bool.and_eq_true,
    decide_eq_true_eq, beq_iff_eq]
  exact ⟨row, hmem, by rw [howner]; exact List.mem_cons_self, href⟩

theorem addEvidence_unusable {request : SelectRequest} {result : List FrozenEpisodeEvidence}
    {c : ScopedIndexCandidate} (h : c.usable d = false) : addEvidence request d result c = result := by
  have hnone : indexedEvidence request d c = none := by
    cases he : indexedEvidence request d c with
    | none => rfl
    | some e =>
      rw [usable_of_indexedEvidence he] at h
      cases h
  unfold addEvidence
  rw [hnone]
  split
  · rfl
  · simp

theorem loadEpisodeEvidence_usable (request : SelectRequest) (indexed : List ScopedIndexCandidate) :
    loadEpisodeEvidence request indexed d =
      loadEpisodeEvidence request (indexed.filter (ScopedIndexCandidate.usable d)) d := by
  unfold loadEpisodeEvidence
  split
  · rfl
  simp only
  rw [foldl_filter_skip (p := ScopedIndexCandidate.usable d)
    (fun result c hc => addEvidence_unusable hc) [] (indexed.insertionSort _), filter_insertionSort]
  · intro a b
    omega
  · intro a b c
    omega

/-! ## Refs of a lane -/

/-- A usable ref is in the lane with the others and without. -/
theorem mem_laneRefs_usable {owner : OwnerScope} {kind : DocumentKind}
    {indexed : List ScopedIndexCandidate} {ref : String} (h : usableRef d owner kind ref = true) :
    ref ∈ laneRefs owner kind (indexed.filter (ScopedIndexCandidate.usable d)) ↔
      ref ∈ laneRefs owner kind indexed := by
  simp only [laneRefs, List.mem_map, List.mem_filter, Bool.and_eq_true, decide_eq_true_eq, beq_iff_eq]
  constructor
  · rintro ⟨c, ⟨⟨hc, _⟩, hrest⟩, rfl⟩
    exact ⟨c, ⟨hc, hrest⟩, rfl⟩
  · rintro ⟨c, ⟨hc, hscope, hkind⟩, rfl⟩
    refine ⟨c, ⟨⟨hc, ?_⟩, hscope, hkind⟩, rfl⟩
    rw [ScopedIndexCandidate.usable, hscope, hkind]
    exact h

theorem ownedEpisodeRefs_usable (owner : OwnerScope) (indexed : List ScopedIndexCandidate) :
    ownedEpisodeRefs owner (laneRefs owner .episode (indexed.filter (ScopedIndexCandidate.usable d))) d =
      ownedEpisodeRefs owner (laneRefs owner .episode indexed) d := by
  unfold ownedEpisodeRefs
  congr 1
  refine List.filter_congr fun e he => ?_
  by_cases ho : e.group.scope.owner = owner
  · have hu : usableRef d owner .episode e.ref = true := by
      simp only [usableRef, List.any_eq_true, Bool.and_eq_true, decide_eq_true_eq, beq_iff_eq]
      exact ⟨e, he, by rw [ho]; exact List.mem_cons_self, rfl⟩
    rw [Bool.eq_iff_iff]
    simp [ho, mem_laneRefs_usable hu]
  · simp [ho]

theorem linkedRefs_usable (owner : OwnerScope) (indexed : List ScopedIndexCandidate) :
    loadEpisodeLinkedMemoryRefs owner
        (laneRefs owner .episode (indexed.filter (ScopedIndexCandidate.usable d))) d =
      loadEpisodeLinkedMemoryRefs owner (laneRefs owner .episode indexed) d := by
  unfold loadEpisodeLinkedMemoryRefs
  rw [ownedEpisodeRefs_usable]

/-- Looking up no Episode finds nothing. -/
theorem linkedRefs_nil (owner : OwnerScope) : loadEpisodeLinkedMemoryRefs owner [] d = ([], []) := by
  simp [loadEpisodeLinkedMemoryRefs, ownedEpisodeRefs, linkedVersions, sortedKeys, sortRefs]

/-- The refs of a lane, with what its Episodes are a basis of. -/
theorem laneMemoryRefs_eq (owner : OwnerScope) (indexed : List ScopedIndexCandidate) :
    laneMemoryRefs owner indexed d =
      (uniqueRefs (laneRefs owner .recollection indexed ++
          (loadEpisodeLinkedMemoryRefs owner (laneRefs owner .episode indexed) d).1),
        uniqueRefs (laneRefs owner .disposition indexed ++
          (loadEpisodeLinkedMemoryRefs owner (laneRefs owner .episode indexed) d).2)) := by
  unfold laneMemoryRefs
  simp only
  split
  · rename_i hempty
    rw [List.isEmpty_iff.mp hempty, linkedRefs_nil]
  · rfl

/-! ## Catalogues -/

/-- A bound that the matching refs cannot reach is none. -/
theorem boundedCatalogue_all {α : Type} {ref : α → String} {refs : List String} {catalogue : List α}
    (hnodup : (catalogue.map ref).Nodup) :
    boundedCatalogue ref refs.length (some refs) catalogue =
      (catalogue.filter fun a => refs.contains (ref a)).insertionSort fun a b => ref a ≤ ref b := by
  unfold boundedCatalogue
  refine List.take_of_length_le ?_
  rw [List.length_insertionSort]
  have hsub : ((catalogue.filter fun a => refs.contains (ref a)).map ref) ⊆ refs := by
    intro x hx
    obtain ⟨a, ha, rfl⟩ := List.mem_map.mp hx
    simpa using (List.mem_filter.mp ha).2
  have hnd : ((catalogue.filter fun a => refs.contains (ref a)).map ref).Nodup :=
    (List.filter_sublist.map ref).nodup hnodup
  have hlen := (List.subperm_of_subset hnd hsub).length_le
  rw [List.length_map] at hlen
  exact hlen

/-- Two lists of refs with the same members among a catalogue find the same of it. -/
theorem boundedCatalogue_congr {α : Type} {ref : α → String} {refs refs' : List String}
    {catalogue : List α} (hnodup : (catalogue.map ref).Nodup)
    (h : ∀ a ∈ catalogue, ref a ∈ refs ↔ ref a ∈ refs') :
    boundedCatalogue ref refs.length (some refs) catalogue =
      boundedCatalogue ref refs'.length (some refs') catalogue := by
  rw [boundedCatalogue_all hnodup, boundedCatalogue_all hnodup]
  congr 1
  refine List.filter_congr fun a ha => ?_
  rw [Bool.eq_iff_iff]
  simpa using h a ha

theorem mem_laneOwners {owner : OwnerScope} {o : OwnerScope × Nat}
    (h : o ∈ catalogueOwners owner.laneScope) : o.1 ∈ laneOwners owner :=
  List.mem_cons_of_mem _ (List.mem_map_of_mem h)

theorem loadRecollectionCandidates_congr (hd : UniqueMemory d) (owner : OwnerScope)
    (refs refs' : List String)
    (h : ∀ ref, usableRef d owner .recollection ref = true → (ref ∈ refs ↔ ref ∈ refs')) :
    loadRecollectionCandidates owner.laneScope refs.length (some refs) d =
      loadRecollectionCandidates owner.laneScope refs'.length (some refs') d := by
  unfold loadRecollectionCandidates
  refine List.flatMap_congr fun o ho => ?_
  rw [boundedCatalogue_congr (nodup_ownedRecollections hd o.1)]
  intro a ha
  refine h a.versionRef ?_
  simp only [usableRef, List.any_eq_true]
  exact ⟨o.1, mem_laneOwners ho, a, ha, by simp⟩

theorem loadDispositionCandidates_congr (hd : UniqueMemory d) (owner : OwnerScope)
    (refs refs' : List String)
    (h : ∀ ref, usableRef d owner .disposition ref = true → (ref ∈ refs ↔ ref ∈ refs')) :
    loadDispositionCandidates owner.laneScope refs.length (some refs) d =
      loadDispositionCandidates owner.laneScope refs'.length (some refs') d := by
  unfold loadDispositionCandidates
  refine List.flatMap_congr fun o ho => ?_
  rw [boundedCatalogue_congr (nodup_ownedDispositions hd o.1)]
  intro a ha
  refine h a.versionRef ?_
  simp only [usableRef, List.any_eq_true]
  exact ⟨o.1, mem_laneOwners ho, a, ha, by simp⟩

/-! ## Candidates -/

theorem mem_boundedCatalogue {α : Type} {ref : α → String} {limit : Nat} {refs : Option (List String)}
    {catalogue : List α} {a : α} (h : a ∈ boundedCatalogue ref limit refs catalogue) :
    a ∈ catalogue :=
  List.mem_of_mem_filter ((List.mem_insertionSort _).mp (List.mem_of_mem_take h))

/-- A Recollection candidate of the lane is an active version of one of its owners. -/
theorem recollection_usable {owner : OwnerScope} {limit : Nat} {refs : Option (List String)}
    {c : Candidate} (h : c ∈ loadRecollectionCandidates owner.laneScope limit refs d) :
    c.kind = .recollection ∧ usableRef d owner .recollection c.versionRef = true := by
  obtain ⟨o, ho, hc⟩ := List.mem_flatMap.mp h
  obtain ⟨r, hr, hc⟩ := List.mem_filterMap.mp hc
  unfold recollectionCandidate at hc
  simp only at hc
  split at hc
  · cases hc
  · obtain rfl := Option.some.inj hc
    refine ⟨rfl, ?_⟩
    simp only [usableRef, List.any_eq_true]
    exact ⟨o.1, mem_laneOwners ho, r, mem_boundedCatalogue hr, by simp⟩

/-- A Disposition candidate of the lane is an active version of one of its owners, and
so are the Episodes that support it. -/
theorem disposition_usable {owner : OwnerScope} {limit : Nat} {refs : Option (List String)}
    {c : Candidate} (h : c ∈ loadDispositionCandidates owner.laneScope limit refs d) :
    c.kind = .disposition ∧ usableRef d owner .disposition c.versionRef = true ∧
      ∀ a ∈ c.support, usableRef d owner .episode a.episodeRef = true := by
  obtain ⟨o, ho, hc⟩ := List.mem_flatMap.mp h
  obtain ⟨r, hr, hc⟩ := List.mem_filterMap.mp hc
  have hcatalogue := mem_boundedCatalogue hr
  have howner : r.owner = o.1 := by
    unfold ownedDispositions at hcatalogue
    obtain ⟨s, _, hv⟩ := List.mem_flatMap.mp hcatalogue
    obtain ⟨v, _, rfl⟩ := List.mem_map.mp hv
    rfl
  unfold dispositionCandidate at hc
  simp only at hc
  split at hc
  · cases hc
  obtain rfl := Option.some.inj hc
  refine ⟨rfl, ?_, ?_⟩
  · simp only [usableRef, List.any_eq_true]
    exact ⟨o.1, mem_laneOwners ho, r, hcatalogue, by simp⟩
  · intro a ha
    obtain ⟨b, _, ha⟩ := List.mem_flatMap.mp ha
    obtain ⟨e, he, ha⟩ := List.mem_flatMap.mp ha
    obtain ⟨s, _, rfl⟩ := List.mem_map.mp ha
    rw [List.mem_filter] at he
    simp only [Bool.and_eq_true, decide_eq_true_eq] at he
    simp only [usableRef, List.any_eq_true, Bool.and_eq_true, decide_eq_true_eq, beq_iff_eq]
    refine ⟨e, he.1, ?_, rfl⟩
    rw [he.2.1, howner]
    exact mem_laneOwners ho

theorem filter_usable_filter {q : ScopedIndexCandidate → Bool}
    (hq : ∀ c, q c = true → c.usable d = true) (indexed : List ScopedIndexCandidate) :
    (indexed.filter (ScopedIndexCandidate.usable d)).filter q = indexed.filter q := by
  rw [List.filter_filter]
  refine List.filter_congr fun c _ => ?_
  cases hc : q c with
  | false => rfl
  | true => rw [hq c hc]; rfl

theorem attachDirect_usable {owner : OwnerScope} {c : Candidate}
    (hc : usableRef d owner c.kind.document c.versionRef = true)
    (indexed : List ScopedIndexCandidate) :
    attachDirectIndexMatches (indexed.filter (ScopedIndexCandidate.usable d)) owner c =
      attachDirectIndexMatches indexed owner c := by
  unfold attachDirectIndexMatches
  rw [filter_usable_filter]
  intro s hs
  simp only [Bool.and_eq_true, decide_eq_true_eq, beq_iff_eq] at hs
  rw [ScopedIndexCandidate.usable, hs.1.1, hs.1.2, hs.2]
  exact hc

theorem attachSupport_usable {owner : OwnerScope} {c : Candidate}
    (hc : ∀ a ∈ c.support, usableRef d owner .episode a.episodeRef = true)
    (indexed : List ScopedIndexCandidate) :
    attachEpisodeSupportIndexMatches (indexed.filter (ScopedIndexCandidate.usable d)) owner c =
      attachEpisodeSupportIndexMatches indexed owner c := by
  unfold attachEpisodeSupportIndexMatches
  congr 1
  congr 1
  refine List.flatMap_congr fun ref href => ?_
  obtain ⟨a, ha, rfl⟩ := List.mem_map.mp (mem_firstPlaces.mp href)
  rw [filter_usable_filter]
  intro s hs
  simp only [Bool.and_eq_true, decide_eq_true_eq, beq_iff_eq] at hs
  rw [ScopedIndexCandidate.usable, hs.1.1, hs.1.2, hs.2]
  exact hc a ha

/-- Unusable answers add no candidate and no match. -/
theorem laneCandidates_usable (hd : UniqueMemory d) (owner : OwnerScope)
    (indexed : List ScopedIndexCandidate) :
    laneCandidates (indexed.filter (ScopedIndexCandidate.usable d)) d owner =
      laneCandidates indexed d owner := by
  unfold laneCandidates
  simp only [laneMemoryRefs_eq, linkedRefs_usable]
  have hrecollections := loadRecollectionCandidates_congr hd owner
    (uniqueRefs (laneRefs owner .recollection (indexed.filter (ScopedIndexCandidate.usable d)) ++
      (loadEpisodeLinkedMemoryRefs owner (laneRefs owner .episode indexed) d).1))
    (uniqueRefs (laneRefs owner .recollection indexed ++
      (loadEpisodeLinkedMemoryRefs owner (laneRefs owner .episode indexed) d).1))
    (fun ref href => by simp [mem_laneRefs_usable href])
  have hdispositions := loadDispositionCandidates_congr hd owner
    (uniqueRefs (laneRefs owner .disposition (indexed.filter (ScopedIndexCandidate.usable d)) ++
      (loadEpisodeLinkedMemoryRefs owner (laneRefs owner .episode indexed) d).2))
    (uniqueRefs (laneRefs owner .disposition indexed ++
      (loadEpisodeLinkedMemoryRefs owner (laneRefs owner .episode indexed) d).2))
    (fun ref href => by simp [mem_laneRefs_usable href])
  rw [hrecollections, hdispositions]
  congr 1
  · refine List.map_congr_left fun c hc => ?_
    obtain ⟨hkind, hu⟩ := recollection_usable hc
    refine attachDirect_usable ?_ indexed
    rw [hkind]
    exact hu
  · refine List.map_congr_left fun c hc => ?_
    obtain ⟨hkind, hu, hsupport⟩ := disposition_usable hc
    rw [attachDirect_usable (by rw [hkind]; exact hu)]
    refine attachSupport_usable ?_ indexed
    exact hsupport

theorem loadIndexedSelectionCandidates_usable (hd : UniqueMemory d) (scope : Scope)
    (indexed : List ScopedIndexCandidate) :
    loadIndexedSelectionCandidates scope (indexed.filter (ScopedIndexCandidate.usable d)) d =
      loadIndexedSelectionCandidates scope indexed d :=
  List.flatMap_congr fun owner _ => laneCandidates_usable hd owner indexed

/-! ## The selection -/

/-- The answers of two providers agree, at every position of every lane of the request,
on what is usable there. -/
def AgreeOnUsable (d : Db) (request : SelectRequest) (index index' : MemoryIndex) : Prop :=
  ∀ queries, loadSituationQueries request.scope request.situationSourceRefs d = .ok queries →
    ∀ lane ∈ selectionLanes request.scope queries, ∀ i < defaultPolicy.canonicalCandidatesPerOwnerKind,
      lane.usableAt d defaultPolicy.canonicalCandidatesPerOwnerKind index i =
        lane.usableAt d defaultPolicy.canonicalCandidatesPerOwnerKind index' i

/-- The rest of a selection, behind what it reads of its lanes. -/
theorem exec_assembleContext_congr {store : Store} {request : SelectRequest}
    {index index' : MemoryIndex} (hd : UniqueMemory d) (h : AgreeOnUsable d request index index') :
    Prog.exec d (store.assembleContext (some index) request) [] =
      Prog.exec d (store.assembleContext (some index') request) [] := by
  show Prog.exec d (selectOrFail _ >>= _) [] = Prog.exec d (selectOrFail _ >>= _) []
  rw [exec_selectOrFail, exec_selectOrFail, applyAll_nil]
  cases hq : loadSituationQueries request.scope request.situationSourceRefs d with
  | error e => rfl
  | ok queries =>
    have hsame := filter_searchSelectionIndex (h queries hq)
    have hevidence := loadEpisodeEvidence_usable (d := d) request
      (searchSelectionIndex (some index) request.scope queries
        defaultPolicy.canonicalCandidatesPerOwnerKind)
    have hcandidates := loadIndexedSelectionCandidates_usable hd request.scope
      (searchSelectionIndex (some index) request.scope queries
        defaultPolicy.canonicalCandidatesPerOwnerKind)
    rw [hsame, ← loadEpisodeEvidence_usable] at hevidence
    rw [hsame, loadIndexedSelectionCandidates_usable hd] at hcandidates
    simp only [Prog.bind_def, Prog.select_bind, Prog.exec, applyAll_nil, hevidence, hcandidates]

/-- In every state that any transactions reach, what `SelectMemory` answers and freezes
is the same for two providers that agree on the usable answers and their positions: the
refs that are not usable in their lane choose nothing. -/
theorem selectMemory_unusable (store : Store) {ε α : Type} {iso : Isolation}
    {starts : Prog Db Write String ε α → Prop}
    {cond : Sys Db Write String ε α → Act Db Write String ε α → Prop} {s : Sys Db Write String ε α}
    (hs : ReachIf iso starts cond ⟨{}, []⟩ s) (request : SelectRequest) {index index' : MemoryIndex}
    (h : AgreeOnUsable s.db request index index') :
    Prog.run (store.selectMemory (some index) request) s.db =
      Prog.run (store.selectMemory (some index') request) s.db := by
  have hexec : Prog.exec s.db (store.selectMemory (some index) request) [] =
      Prog.exec s.db (store.selectMemory (some index') request) [] := by
    unfold Store.selectMemory
    split
    · rfl
    show Prog.exec s.db (selectOrFail _ >>= _) [] = Prog.exec s.db (selectOrFail _ >>= _) []
    rw [exec_selectOrFail, exec_selectOrFail, applyAll_nil]
    cases loadMemoryContext request (store.memoryRequestHash request) s.db with
    | error e => rfl
    | ok found =>
      cases found with
      | some context => rfl
      | none => exact exec_assembleContext_congr (uniqueMemory_reach hs) h
  unfold Prog.run
  rw [hexec]

end

/-! ## Positions are ranks -/

/-- The ref names a record of the exact owner. -/
def resolves (d : Db) (owner : OwnerScope) (c : IndexCandidate) : Bool :=
  c.kind.any fun kind =>
    match kind with
    | .episode => d.episodes.any fun e => decide (e.group.scope.owner = owner) && e.ref == c.ref
    | .recollection => (ownedRecollections owner d).any (·.versionRef == c.ref)
    | .disposition => (ownedDispositions owner d).any (·.versionRef == c.ref)

/-- A list with elements of `bad` inserted anywhere. -/
inductive Inserts {α : Type} (bad : α → Prop) : List α → List α → Prop
  | done : Inserts bad [] []
  | keep {a : α} {l l' : List α} (h : Inserts bad l l') : Inserts bad (a :: l) (a :: l')
  | insert {a : α} {l l' : List α} (ha : bad a) (h : Inserts bad l l') : Inserts bad l (a :: l')

theorem Inserts.refl {α : Type} {bad : α → Prop} (l : List α) : Inserts bad l l := by
  induction l with
  | nil => exact .done
  | cons a rest ih => exact .keep ih

/-- The second provider answers as the first does, with refs inserted into the lanes of
owners that have no record of them. -/
def InsertsForeign (d : Db) (index index' : MemoryIndex) : Prop :=
  ∀ q : IndexQuery, ∃ l l', index q = some l ∧ index' q = some l' ∧
    Inserts (fun c => ∀ owner : OwnerScope, owner.index = q.scope → resolves d owner c = false) l l'

def sampleTurn (n : Nat) (ref text : String) (binding : EpisodeBinding) : Tx ObserveReceipt :=
  (plainStore .postgres).observe (plainAmbient n) ref
    { ref := ref, scope := sampleScope, actorRef := "a", text := text, constitution := {},
      actorKind := if binding.role = .agentAct then .agent else .user } binding

/-- Two complete Episodes, and the two Situations of a question. -/
def sampleTurns : List (Tx ObserveReceipt) :=
  [sampleTurn 1 "s1" "1" ⟨"r", "1", .situation⟩, sampleTurn 2 "a1" "1" ⟨"r", "1", .agentAct⟩,
    sampleTurn 3 "s2" "2" ⟨"r", "2", .situation⟩, sampleTurn 4 "a2" "2" ⟨"r", "2", .agentAct⟩,
    sampleTurn 5 "x" "x" ⟨"", "", .situation⟩, sampleTurn 6 "y" "y" ⟨"", "", .situation⟩]

def sampleObserved : Sys Db Write String Fault ObserveReceipt :=
  sampleTurns.foldl Sys.turn ⟨{}, []⟩

def sampleQuestion : SelectRequest :=
  { scope := sampleScope, runRef := "now", situationSourceRefs := ["x", "y"], constitution := {},
    episodeEvidenceMaxBytes := 1000 }

def sampleEpisodeCandidate (group : String) : IndexCandidate :=
  ⟨some .episode, (plainStore .postgres).episodeRef ⟨sampleScope, "r", group⟩⟩

/-- Each Situation finds one Episode; `extra` comes first in the first lane. -/
def sampleIndex (extra : List IndexCandidate) : MemoryIndex := fun q =>
  if q.scope.relationshipRef = "" then some []
  else if q.text = "x" then some (extra ++ [sampleEpisodeCandidate "1"])
  else some [sampleEpisodeCandidate "2"]

theorem sampleObserved_reach : Reach .readCommitted (fun _ => True) ⟨{}, []⟩ sampleObserved := by
  unfold sampleObserved
  exact (reach_turns (fun _ ht => absurd ht List.not_mem_nil) .start fun _ _ => trivial).1

def sampleStray : IndexCandidate := ⟨some .recollection, "none"⟩

/-- What the concrete runs come to. -/
theorem sampleObserved_facts :
    sampleObserved.db.recollections = [] ∧
    Prog.run ((plainStore .postgres).selectMemory (some (sampleIndex [])) sampleQuestion)
        sampleObserved.db ≠
      Prog.run ((plainStore .postgres).selectMemory (some (sampleIndex [sampleStray])) sampleQuestion)
        sampleObserved.db ∧
    loadSituationQueries sampleQuestion.scope sampleQuestion.situationSourceRefs sampleObserved.db =
      .ok [⟨"x", "x"⟩, ⟨"y", "y"⟩] ∧
    ∀ lane ∈ selectionLanes sampleScope [⟨"x", "x"⟩, ⟨"y", "y"⟩], ∀ i < 40,
      lane.usableAt sampleObserved.db 40 (sampleIndex []) i =
        lane.usableAt sampleObserved.db 40 (fun q => (sampleIndex [] q).map (· ++ [sampleStray])) i := by
  decide +kernel

/-- A ref of no record moves the evidence behind it to a later rank, so it changes the
order of a context. -/
theorem selectMemory_insertion_moves :
    ¬∀ (store : Store) (s : Sys Db Write String Fault ObserveReceipt),
      Reach .readCommitted (fun _ => True) ⟨{}, []⟩ s →
      ∀ (request : SelectRequest) (index index' : MemoryIndex), InsertsForeign s.db index index' →
        Prog.run (store.selectMemory (some index) request) s.db =
          Prog.run (store.selectMemory (some index') request) s.db := by
  intro hall
  obtain ⟨hnone, hmoved, _⟩ := sampleObserved_facts
  refine hmoved (hall (plainStore .postgres) sampleObserved sampleObserved_reach sampleQuestion
    (sampleIndex []) (sampleIndex [sampleStray]) ?_)
  intro q
  unfold sampleIndex
  split
  · exact ⟨[], [], rfl, rfl, .done⟩
  split
  · refine ⟨_, _, rfl, rfl, .insert (fun owner _ => ?_) (.refl _)⟩
    simp [resolves, sampleStray, ownedRecollections, hnone]
  · exact ⟨_, _, rfl, rfl, .refl _⟩

/-- A ref of no record behind the usable answers changes nothing. -/
theorem selectMemory_unusable_sample :
    Prog.run ((plainStore .postgres).selectMemory (some (sampleIndex [])) sampleQuestion)
        sampleObserved.db =
      Prog.run ((plainStore .postgres).selectMemory
        (some fun q => (sampleIndex [] q).map (· ++ [sampleStray])) sampleQuestion)
        sampleObserved.db := by
  obtain ⟨_, _, hload, husable⟩ := sampleObserved_facts
  refine selectMemory_unusable (plainStore .postgres) sampleObserved_reach sampleQuestion ?_
  intro queries hq
  obtain rfl := Except.ok.inj (hload.symm.trans hq)
  exact husable

end ChoraMem
