/-
The repair passes of the worker on what Core offers.

The refs that Core offers as a basis are those of Episodes and of Outcomes.  Core makes
them itself, with a word in front that no marker has, so none of the three passes changes
a text that the parser of Core accepts.
-/
import ChoraMem.Worker.Repairs
import ChoraMem.World.Sizes

namespace ChoraMem

open Text

section

variable {store : Store} {d : Db}

/-! ## The refs of Core -/

theorem coreRef_episodeRef (g : StableGroupRef) : coreRef (store.episodeRef g) = true := by
  rw [coreRef, Bool.or_eq_true, List.isPrefixOf_iff_prefix]
  left
  show _ <+: ("episode_" ++ _ : String).toList
  rw [String.toList_append]
  exact List.prefix_append _ _

theorem coreRef_outcomeEventRef (report : OutcomeReport) :
    coreRef (store.outcomeEventRef report) = true := by
  rw [coreRef, Bool.or_eq_true, List.isPrefixOf_iff_prefix, List.isPrefixOf_iff_prefix]
  right
  show _ <+: ("outcome_" ++ _ : String).toList
  rw [String.toList_append]
  exact List.prefix_append _ _

theorem coreRef_loaded (hd : WorldLaw store d) {ref : String} {e : EpisodeEvidence}
    (h : loadEpisode ref d = some e) : coreRef e.ref = true := by
  obtain ⟨row, hrow, _, rfl, _⟩ := loadEpisode_row h
  show coreRef row.ref = true
  rw [(hd.episodes row hrow).1]
  exact coreRef_episodeRef row.group

theorem coreRef_row (hr : store.Reported d) {o : OutcomeRow} (h : o ∈ d.outcomes) :
    coreRef o.ref = true := by
  obtain ⟨report, _, hreport⟩ := hr o h
  rw [hreport]
  exact coreRef_outcomeEventRef report

namespace WindowState.Loaded

variable {window : Window} {w : WindowState}

theorem coreRef_outcome (h : w.Loaded store window d) (hr : store.Reported d) (o : FeedbackOutcome)
    (ho : o ∈ w.outcomes) : coreRef o.ref = true := by
  rcases h.outcomes o ho with ⟨ref, _, hfound⟩ | ⟨pair, hpair, rfl⟩
  · obtain ⟨_, _, row, hrow, s, _, rfl, _⟩ := loadFeedbackOutcome_ok hfound
    exact coreRef_row hr hrow
  · obtain ⟨_, row, hrow, _, _, heq, _⟩ :=
      loadUniqueNonAgentFormationOutcome_row (h.unique pair hpair)
    rw [heq]
    exact coreRef_row hr hrow

/-- What a target offers are Episodes and Outcomes. -/
theorem coreRef_offeredBasis (h : w.Loaded store window d) (hd : WorldLaw store d)
    (hr : store.Reported d) (t : FeedbackTarget) (ht : t ∈ w.targets) :
    ∀ ref ∈ t.offeredBasis, coreRef ref = true := by
  obtain ⟨outcomes, houtcomes, hstate⟩ := h.targets
  have hloaded := (loadFeedbackState_ok hstate).1 t ht
  intro ref href
  rw [FeedbackTarget.offeredBasis, List.mem_append, List.mem_append, mem_sortedKeys,
    mem_sortedKeys] at href
  rcases href with (href | href) | href
  · obtain ⟨e, he, rfl, _⟩ := hloaded.delivered ref href
    exact coreRef_loaded hd (h.episodes.loaded e he)
  · obtain ⟨r, hmem, rfl⟩ := List.mem_map.mp href
    obtain ⟨o, ho, hor, _⟩ := hloaded.attributed r hmem
    obtain ⟨o', ho', href'⟩ := houtcomes o ho
    rw [← hor, ← href']
    exact h.coreRef_outcome hr o' ho'
  · have hanchor : ref ∈ t.anchors := by
      unfold FeedbackTarget.offeredAnchors at href
      split at href
      · exact absurd href List.not_mem_nil
      · exact mem_sortedKeys.mp href
    obtain ⟨e, he, _⟩ := hloaded.owned ref hanchor
    rw [← loadEpisode_ref he]
    exact coreRef_loaded hd he

theorem coreRef_allowed (h : w.Loaded store window d) (hd : WorldLaw store d)
    (hr : store.Reported d) : ∀ ref ∈ w.allowedBasisRefs, coreRef ref = true := by
  intro ref href
  unfold allowedBasisRefs at href
  rw [mem_firstPlaces] at href
  simp only [List.mem_append, List.mem_map, List.mem_flatMap] at href
  rcases href with ((⟨e, he, rfl⟩ | ⟨e, he, rfl⟩) | href) | ⟨t, ht, href⟩
  · exact coreRef_loaded hd (h.episodes.loaded e he)
  · exact coreRef_loaded hd (h.related e he).2
  · rw [formationOutcomes, mem_sortedKeys, List.mem_append] at href
    rcases href with href | href
    · unfold eligibleFormationOutcomes at href
      split at href
      · exact absurd href List.not_mem_nil
      · obtain ⟨o, ho, rfl⟩ := List.mem_map.mp href
        exact h.coreRef_outcome hr o (List.mem_filter.mp ho).1
    · obtain ⟨pair, hpair, rfl⟩ := List.mem_map.mp href
      obtain ⟨o, ho, href⟩ := h.paired pair hpair
      rw [← href]
      exact h.coreRef_outcome hr o ho
  · obtain ⟨versionRef, _, ht⟩ := List.mem_filterMap.mp ht
    exact h.coreRef_offeredBasis hd hr t (List.mem_of_find?_eq_some ht) ref href

end WindowState.Loaded

end

/-- On a text that the parser accepts each of the passes leaves what the parser reads. -/
theorem repairs_harmless (store : Store) (hhash : Collisionless store) {s : MemorySys}
    (h : MemoryReach store s) {index : Option MemoryIndex} {window : Window} {p : Proposal} (hp : store.snapshotWindow index window s.db = .ok (.proposed p)) {text : String}
    {changes : List Change} (htext : parseTaggedText text = .ok changes) :
    parseTaggedText (splitCopiedInlineApplication text p.request.allowedTargetRefs) = .ok changes ∧
      parseTaggedText (restoreInitialNewTarget text p.request.allowedTargetRefs) = .ok changes ∧
      parseTaggedText (deduplicateBasis text p.request.allowedBasisRefs) = .ok changes := by
  obtain ⟨w, hw, hrequest⟩ := loaded_snapshot hp
  have hrefs : ∀ ref ∈ p.request.allowedBasisRefs, coreRef ref = true := by
    rw [hrequest]
    exact hw.coreRef_allowed (worldLaw_reach hhash h) (reported_reach h)
  rw [splitCopiedInlineApplication_accepted htext, restoreInitialNewTarget_accepted htext,
    deduplicateBasis_accepted hrefs htext]
  exact ⟨htext, htext, htext⟩

/-! A block of which the text is a marker. -/

def basisText : String :=
  "TARGET\nNEW_RECOLLECTION\nAPPLICATION\nRELATION\nCHANGE\nTEXT\nBASIS\nBASIS\nepisode_1"

def basisChange : Change := ⟨targetNewRecollection, .relation, .text, "BASIS", ["episode_1"]⟩

theorem repairs_harmless_met :
    ∃ p, wideStore.snapshotWindow none wideWindow wideMet.db = .ok (.proposed p) ∧
      parseTaggedText (splitCopiedInlineApplication basisText p.request.allowedTargetRefs) =
        .ok [basisChange] ∧
      parseTaggedText (restoreInitialNewTarget basisText p.request.allowedTargetRefs) =
        .ok [basisChange] ∧
      parseTaggedText (deduplicateBasis basisText p.request.allowedBasisRefs) =
        .ok [basisChange] := by
  obtain ⟨p, hp, _⟩ := fittingRequest_wide
  have hreach : MemoryReach wideStore wideMet :=
    (reach_calls (fun _ ht => absurd ht List.not_mem_nil) .start _).1
  exact ⟨p, hp, repairs_harmless wideStore wideStore_collisionless hreach hp rfl⟩

end ChoraMem
