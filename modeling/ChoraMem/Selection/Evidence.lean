/-
The Episode evidence of a context.

The indexed candidates of all lanes are scanned by rank and lane.  The first one that an
Episode of its lane's owner answers to stands for the Episode, and a second scan takes the
texts that fit.  So what is returned is bounded, each Episode is attributed to its best
place, and an Episode that is left out had no room beside those before it.
-/
import Mathlib.Data.Prod.Lex
import ChoraMem.Order.Best
import ChoraMem.Order.Greedy
import ChoraMem.Storage.MemoryContext

namespace ChoraMem

/-! ## Places -/

/-- The candidate's Episode is one of its lane's owner and not part of the question. -/
structure EvidenceOf (request : SelectRequest) (d : Db) (c : ScopedIndexCandidate)
    (x : FrozenEpisodeEvidence) : Prop where
  kind : c.kind = .episode
  ref : x.memoryRef = c.ref
  query : x.querySourceRef = c.querySourceRef
  episode : ∃ e, loadEpisode c.ref d = some e ∧ e.owner = c.scope ∧ x.text = renderEpisodeEvidence e ∧
    ¬(e.scope = request.scope ∧ ∃ s ∈ e.sources, s.ref ∈ request.situationSourceRefs)

def ScopedIndexCandidate.position (c : ScopedIndexCandidate) : ℕ ×ₗ ℕ := toLex (c.rank, c.laneOrder)

/-- The candidate has the best place of its Episode's. -/
structure Attributed (request : SelectRequest) (d : Db) (indexed : List ScopedIndexCandidate)
    (c : ScopedIndexCandidate) (x : FrozenEpisodeEvidence) : Prop extends
    EvidenceOf request d c x where
  found : c ∈ indexed
  best : ∀ c' ∈ indexed, c'.ref = c.ref → (∃ y, EvidenceOf request d c' y) → c.position ≤ c'.position

/-- The place of an Episode is no worse than that of another. -/
def Before (request : SelectRequest) (d : Db) (indexed : List ScopedIndexCandidate)
    (x y : FrozenEpisodeEvidence) : Prop :=
  ∃ c c', Attributed request d indexed c x ∧ Attributed request d indexed c' y ∧
    c.position ≤ c'.position

section

variable {request : SelectRequest} {d : Db} {indexed : List ScopedIndexCandidate}

theorem indexedEvidence_eq_some {c : ScopedIndexCandidate} {x : FrozenEpisodeEvidence} :
    indexedEvidence request d c = some x ↔ EvidenceOf request d c x := by
  unfold indexedEvidence
  by_cases hkind : c.kind = .episode
  · rw [if_neg (by simp [hkind])]
    cases hload : loadEpisode c.ref d with
    | none =>
      constructor
      · intro h
        cases h
      · rintro ⟨_, _, _, e, he, _⟩
        rw [hload] at he
        cases he
    | some e =>
      have hcurrent : episodeContainsCurrentSituation e request = true ↔
          e.scope = request.scope ∧ ∃ s ∈ e.sources, s.ref ∈ request.situationSourceRefs := by
        simp [episodeContainsCurrentSituation]
      dsimp only
      by_cases hno : e.owner ≠ c.scope ∨ episodeContainsCurrentSituation e request = true
      · rw [if_pos (by simpa using hno)]
        constructor
        · intro h
          cases h
        · rintro ⟨_, _, _, e', he', howner, _, hnot⟩
          rw [hload] at he'
          obtain rfl := Option.some.inj he'
          rcases hno with hno | hno
          · exact absurd howner hno
          · exact absurd (hcurrent.mp hno) hnot
      · rw [if_neg (by simpa using hno)]
        rw [not_or, not_not, hcurrent] at hno
        constructor
        · intro h
          obtain rfl := Option.some.inj h
          exact ⟨hkind, rfl, rfl, e, hload, hno.1, rfl, hno.2⟩
        · rintro ⟨_, href, hquery, e', he', _, htext, _⟩
          rw [hload] at he'
          obtain rfl := Option.some.inj he'
          obtain ⟨memoryRef, querySourceRef, text⟩ := x
          obtain rfl : memoryRef = c.ref := href
          obtain rfl : querySourceRef = c.querySourceRef := hquery
          obtain rfl : text = renderEpisodeEvidence e := htext
          rfl
  · rw [if_pos (by simpa using hkind)]
    constructor
    · intro h
      cases h
    · exact fun h => absurd h.kind hkind

/-- An Episode that is shown has a text. -/
theorem EvidenceOf.text_pos {c : ScopedIndexCandidate} {x : FrozenEpisodeEvidence}
    (h : EvidenceOf request d c x) : 0 < x.text.utf8ByteSize := by
  obtain ⟨e, hload, _, htext, _⟩ := h.episode
  have hroles : episodeHasFormationRoles e = true := by
    unfold loadEpisode at hload
    split at hload
    · cases hload
    split at hload
    · cases hload
    rename_i hvalid
    obtain rfl := Option.some.inj hload
    by_contra hnot
    exact hvalid (by simp [hnot])
  obtain ⟨source, hsource, _⟩ := List.any_eq_true.mp hroles
  have hjoin : ∀ sorted : List SourceEvidence, source ∈ sorted →
      String.intercalate "\n" (sorted.map fun s =>
        upperText s.role.text ++ " [" ++ s.actorKind.text ++ "]\n" ++ s.text) ≠ "" := by
    intro sorted hmem hempty
    have hnil := congrArg String.toList hempty
    obtain ⟨first, rest, rfl⟩ := List.exists_cons_of_ne_nil (List.ne_nil_of_mem hmem)
    rw [String.toList_intercalate, List.map_cons, List.map_cons] at hnil
    cases rest with
    | nil => simp at hnil
    | cons next rest => simp [List.intercalate_cons_cons] at hnil
  rw [htext, Nat.pos_iff_ne_zero]
  intro hzero
  exact hjoin _ ((List.mem_insertionSort _).mpr hsource) (String.utf8ByteSize_eq_zero_iff.mp hzero)

/-! ## The first scan -/

/-- What the first scan knows after some candidates. -/
structure Gathered (request : SelectRequest) (d : Db) (seen : List ScopedIndexCandidate)
    (found : List FrozenEpisodeEvidence) : Prop where
  nodup : (found.map (·.memoryRef)).Nodup
  attributed : ∀ x ∈ found, ∃ c, Attributed request d seen c x
  all : ∀ c ∈ seen, (∃ y, EvidenceOf request d c y) → ∃ x ∈ found, x.memoryRef = c.ref
  ordered : found.Pairwise (Before request d seen)

theorem attributed_append {seen : List ScopedIndexCandidate} {c c' : ScopedIndexCandidate}
    {x : FrozenEpisodeEvidence} (h : Attributed request d seen c x)
    (hlast : ∀ a ∈ seen, a.position ≤ c'.position) : Attributed request d (seen ++ [c']) c x := by
  refine ⟨h.toEvidenceOf, List.mem_append_left _ h.found, fun a ha href hev => ?_⟩
  rcases List.mem_append.mp ha with ha | ha
  · exact h.best a ha href hev
  · rw [List.mem_singleton.mp ha]
    exact hlast c h.found

theorem gathered_step {seen : List ScopedIndexCandidate} {found : List FrozenEpisodeEvidence}
    {c : ScopedIndexCandidate} (h : Gathered request d seen found)
    (hlast : ∀ a ∈ seen, a.position ≤ c.position) :
    Gathered request d (seen ++ [c]) (addEvidence request d found c) := by
  have hkept : Gathered request d seen found → (∀ y, EvidenceOf request d c y →
      ∃ x ∈ found, x.memoryRef = c.ref) → Gathered request d (seen ++ [c]) found := by
    intro h hc
    refine ⟨h.nodup, fun x hx => ?_, fun a ha hev => ?_, h.ordered.imp fun hxy => ?_⟩
    · obtain ⟨a, ha⟩ := h.attributed x hx
      exact ⟨a, attributed_append ha hlast⟩
    · rcases List.mem_append.mp ha with ha | ha
      · exact h.all a ha hev
      · rw [List.mem_singleton.mp ha] at hev ⊢
        obtain ⟨y, hy⟩ := hev
        exact hc y hy
    · obtain ⟨a, b, ha, hb, hle⟩ := hxy
      exact ⟨a, b, attributed_append ha hlast, attributed_append hb hlast, hle⟩
  unfold addEvidence
  by_cases hdup : found.any (fun x => x.memoryRef == c.ref) = true
  · rw [if_pos hdup]
    refine hkept h fun y _ => ?_
    obtain ⟨x, hx, href⟩ := List.any_eq_true.mp hdup
    exact ⟨x, hx, by simpa using href⟩
  · rw [if_neg hdup]
    have hnew : ∀ x ∈ found, x.memoryRef ≠ c.ref := by
      intro x hx href
      exact hdup (List.any_eq_true.mpr ⟨x, hx, by simpa using href⟩)
    cases hev : indexedEvidence request d c with
    | none =>
      rw [Option.toList_none, List.append_nil]
      refine hkept h fun y hy => ?_
      rw [indexedEvidence_eq_some.mpr hy] at hev
      cases hev
    | some y =>
      have hy := indexedEvidence_eq_some.mp hev
      have hattr : Attributed request d (seen ++ [c]) c y := by
        refine ⟨hy, List.mem_append_right _ List.mem_cons_self, fun a ha href hev => ?_⟩
        rcases List.mem_append.mp ha with ha | ha
        · obtain ⟨x, hx, hxref⟩ := h.all a ha hev
          exact absurd (hxref.trans href) (hnew x hx)
        · rw [List.mem_singleton.mp ha]
      rw [Option.toList_some]
      refine ⟨?_, fun x hx => ?_, fun a ha hev => ?_, ?_⟩
      · rw [List.map_append, List.map_singleton, List.nodup_append]
        refine ⟨h.nodup, List.nodup_singleton _, fun a ha b hb => ?_⟩
        obtain ⟨x, hx, rfl⟩ := List.mem_map.mp ha
        rw [List.mem_singleton.mp hb, hy.ref]
        exact hnew x hx
      · rcases List.mem_append.mp hx with hx | hx
        · obtain ⟨a, ha⟩ := h.attributed x hx
          exact ⟨a, attributed_append ha hlast⟩
        · rw [List.mem_singleton.mp hx]
          exact ⟨c, hattr⟩
      · rcases List.mem_append.mp ha with ha | ha
        · obtain ⟨x, hx, href⟩ := h.all a ha hev
          exact ⟨x, List.mem_append_left _ hx, href⟩
        · rw [List.mem_singleton.mp ha]
          exact ⟨y, List.mem_append_right _ List.mem_cons_self, hy.ref⟩
      · rw [List.pairwise_append]
        refine ⟨h.ordered.imp fun hxy => ?_, List.pairwise_singleton _ _, fun x hx z hz => ?_⟩
        · obtain ⟨a, b, ha, hb, hle⟩ := hxy
          exact ⟨a, b, attributed_append ha hlast, attributed_append hb hlast, hle⟩
        · rw [List.mem_singleton.mp hz]
          obtain ⟨a, ha⟩ := h.attributed x hx
          exact ⟨a, c, attributed_append ha hlast, hattr, hlast a ha.found⟩

theorem gathered_run {ordered : List ScopedIndexCandidate}
    (h : ordered.Pairwise fun a b => a.position ≤ b.position) :
    Gathered request d ordered (ordered.foldl (addEvidence request d) []) := by
  induction ordered using List.reverseRecOn with
  | nil =>
    exact ⟨List.nodup_nil, fun _ hx => absurd hx List.not_mem_nil,
      fun _ hc => absurd hc List.not_mem_nil, List.Pairwise.nil⟩
  | append_singleton ordered c ih =>
    rw [List.pairwise_append] at h
    rw [List.foldl_append]
    exact gathered_step (ih h.1) fun a ha => h.2.2 a ha c List.mem_cons_self

/-- It does not matter in which order the candidates come. -/
theorem attributed_congr {seen : List ScopedIndexCandidate} (h : ∀ c, c ∈ seen ↔ c ∈ indexed)
    {c : ScopedIndexCandidate} {x : FrozenEpisodeEvidence} (hx : Attributed request d seen c x) :
    Attributed request d indexed c x :=
  ⟨hx.toEvidenceOf, (h c).mp hx.found, fun c' hc' => hx.best c' ((h c').mpr hc')⟩

def orderedCandidates (indexed : List ScopedIndexCandidate) : List ScopedIndexCandidate :=
  indexed.insertionSort fun a b => a.rank < b.rank ∨ (a.rank = b.rank ∧ a.laneOrder ≤ b.laneOrder)

/-- The candidates of the second scan. -/
def gatheredEvidence (request : SelectRequest) (d : Db) (indexed : List ScopedIndexCandidate) :
    List FrozenEpisodeEvidence :=
  (orderedCandidates indexed).foldl (addEvidence request d) []

theorem gathered_evidence : Gathered request d indexed (gatheredEvidence request d indexed) := by
  have hsorted : (orderedCandidates indexed).Pairwise fun a b => a.position ≤ b.position := by
    refine Best.insertionSort_sorted _ (fun a b => ?_) indexed
    rw [ScopedIndexCandidate.position, ScopedIndexCandidate.position, Prod.Lex.toLex_le_toLex]
  have hmem : ∀ c, c ∈ orderedCandidates indexed ↔ c ∈ indexed := fun c => List.mem_insertionSort _
  have h := @gathered_run request d _ hsorted
  refine ⟨h.nodup, fun x hx => ?_, fun c hc => h.all c ((hmem c).mpr hc), h.ordered.imp fun hxy => ?_⟩
  · obtain ⟨c, hc⟩ := h.attributed x hx
    exact ⟨c, attributed_congr hmem hc⟩
  · obtain ⟨c, c', hc, hc', hle⟩ := hxy
    exact ⟨c, c', attributed_congr hmem hc, attributed_congr hmem hc', hle⟩

/-! ## The second scan -/

def evidenceBytes (x : FrozenEpisodeEvidence) : Nat := x.text.utf8ByteSize

/-- Without room for a byte nothing is taken, for every Episode has a text. -/
theorem choose_noRoom {items : List FrozenEpisodeEvidence} (htexts : ∀ x ∈ items, 0 < evidenceBytes x) :
    Greedy.choose maxEpisodeEvidenceEntries 0 evidenceBytes items = [] := by
  rw [List.eq_nil_iff_forall_not_mem]
  intro x hx
  have hpos := htexts x ((Greedy.choose_sublist _).subset hx)
  have htotal := @Greedy.choose_total_le _ maxEpisodeEvidenceEntries 0 evidenceBytes items
  have hbytes := (Greedy.weight_le_total hx).trans htotal
  exact absurd hbytes (Nat.not_le.mpr hpos)

theorem boundEpisodeEvidence_eq {items : List FrozenEpisodeEvidence} {maxBytes : Int}
    (htexts : ∀ x ∈ items, 0 < evidenceBytes x) :
    boundEpisodeEvidence FrozenEpisodeEvidence.text maxBytes items =
      Greedy.choose maxEpisodeEvidenceEntries maxBytes.toNat evidenceBytes items := by
  rw [boundEpisodeEvidence]
  split
  · next hnone => rw [Int.toNat_of_nonpos hnone, choose_noRoom htexts]
  · next hroom =>
    rw [Greedy.choose, Greedy.scan]
    congr 2
    funext taken x
    have hover : maxBytes - taken.2 < (x.text.utf8ByteSize : Int) ↔
        maxBytes.toNat < taken.2 + evidenceBytes x := by
      rw [evidenceBytes]
      omega
    simp only [Greedy.step, hover]
    rfl

theorem loadEpisodeEvidence_eq :
    loadEpisodeEvidence request indexed d = Greedy.choose maxEpisodeEvidenceEntries
      request.episodeEvidenceMaxBytes.toNat evidenceBytes (gatheredEvidence request d indexed) := by
  have htexts : ∀ x ∈ gatheredEvidence request d indexed, 0 < evidenceBytes x := by
    intro x hx
    obtain ⟨c, hc⟩ := gathered_evidence.attributed x hx
    exact hc.text_pos
  unfold loadEpisodeEvidence
  split
  · next hzero => rw [hzero, Int.toNat_zero, choose_noRoom htexts]
  · exact boundEpisodeEvidence_eq htexts

/-- An Episode that was gathered and left out had no room beside those before it. -/
theorem left_out {x : FrozenEpisodeEvidence} (hx : x ∈ gatheredEvidence request d indexed)
    (hout : x ∉ loadEpisodeEvidence request indexed d) :
    ∃ chosen, chosen <+: loadEpisodeEvidence request indexed d ∧
      (∀ y ∈ chosen, Before request d indexed y x) ∧
      (∀ y ∈ loadEpisodeEvidence request indexed d, ¬Before request d indexed x y → y ∈ chosen) ∧
      (chosen.length = maxEpisodeEvidenceEntries ∨
        request.episodeEvidenceMaxBytes.toNat < (chosen.map evidenceBytes).sum + evidenceBytes x) := by
  have hgathered := @gathered_evidence request d indexed
  rw [loadEpisodeEvidence_eq] at hout ⊢
  obtain ⟨head, rest, heq⟩ := List.append_of_mem hx
  rw [heq] at hout ⊢
  have hordered := hgathered.ordered
  rw [heq, List.pairwise_append, List.pairwise_cons] at hordered
  obtain ⟨more, hmore, hsub⟩ := @Greedy.choose_head _ maxEpisodeEvidenceEntries
    request.episodeEvidenceMaxBytes.toNat evidenceBytes head (x :: rest)
  refine ⟨_, ⟨more, hmore.symm⟩, fun y hy => ?_, fun y hy hbefore => ?_, Greedy.no_room hout⟩
  · exact hordered.2.2 y ((Greedy.choose_sublist _).subset hy) x List.mem_cons_self
  · rw [hmore] at hy
    rcases List.mem_append.mp hy with hy | hy
    · exact hy
    · rcases List.mem_cons.mp (hsub.subset hy) with rfl | hrest
      · refine absurd ?_ hout
        rw [hmore]
        exact List.mem_append_right _ hy
      · exact absurd (hordered.2.1.1 y hrest) hbefore

end

/-- The evidence is within both bounds, shows each Episode once and by its best place, and leaves
out only what has no room beside what is before it. -/
theorem episode_evidence_bounded (request : SelectRequest) (indexed : List ScopedIndexCandidate)
    (d : Db) :
    (loadEpisodeEvidence request indexed d).length ≤ maxEpisodeEvidenceEntries ∧
    ((loadEpisodeEvidence request indexed d).map fun x => x.text.utf8ByteSize).sum ≤
      request.episodeEvidenceMaxBytes.toNat ∧
    ((loadEpisodeEvidence request indexed d).map (·.memoryRef)).Nodup ∧
    (∀ x ∈ loadEpisodeEvidence request indexed d, ∃ c, Attributed request d indexed c x) ∧
    (loadEpisodeEvidence request indexed d).Pairwise (Before request d indexed) ∧
    ∀ c ∈ indexed, (∃ y, EvidenceOf request d c y) →
      c.ref ∉ (loadEpisodeEvidence request indexed d).map (·.memoryRef) →
      ∃ best x, Attributed request d indexed best x ∧ x.memoryRef = c.ref ∧
        ∃ chosen, chosen <+: loadEpisodeEvidence request indexed d ∧
          (∀ y ∈ chosen, Before request d indexed y x) ∧
          (∀ y ∈ loadEpisodeEvidence request indexed d, ¬Before request d indexed x y → y ∈ chosen) ∧
          (chosen.length = maxEpisodeEvidenceEntries ∨ request.episodeEvidenceMaxBytes.toNat <
            (chosen.map fun y => y.text.utf8ByteSize).sum + x.text.utf8ByteSize) := by
  have hgathered := @gathered_evidence request d indexed
  have hsub : (loadEpisodeEvidence request indexed d).Sublist (gatheredEvidence request d indexed) := by
    rw [loadEpisodeEvidence_eq]
    exact Greedy.choose_sublist _
  refine ⟨?_, ?_, hgathered.nodup.sublist (hsub.map _), fun x hx => hgathered.attributed x (hsub.subset hx),
    hgathered.ordered.sublist hsub, fun c hc hev hout => ?_⟩
  · rw [loadEpisodeEvidence_eq]
    exact Greedy.choose_length_le _
  · rw [loadEpisodeEvidence_eq]
    exact Greedy.choose_total_le _
  · obtain ⟨x, hx, href⟩ := hgathered.all c hc hev
    obtain ⟨best, hbest⟩ := hgathered.attributed x hx
    refine ⟨best, x, hbest, href, left_out hx fun hin => hout ?_⟩
    rw [← href]
    exact List.mem_map_of_mem hin

end ChoraMem
