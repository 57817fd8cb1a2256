/-
When evidence has a formation basis.

Assembled evidence holds each Episode once, from the first list that has it.
`dispositionFormationBasis` reads the marked Episodes and then the Outcomes of these.  On
Episodes with one anchor, of which no two share a ref or a session, the first reading fails
on nothing but a blank name.  The second fails on a blank Outcome of a marked Episode, or on
two Outcomes of one.
-/
import Mathlib.Data.List.Pairwise
import ChoraMem.Core.WindowEvidence

namespace ChoraMem

/-! ## Assembling -/

section

variable {origin : EvidenceOrigin} {episodes seen : List EvidenceEpisode}

theorem mem_appendEvidence {e : EvidenceEpisode} (he : e ∈ appendEvidence origin episodes seen) :
    e ∈ seen ∨ (∃ r ∈ episodes, e = { r with origin := origin }) ∧
      ∀ x ∈ seen, x.episodeRef ≠ e.episodeRef := by
  induction episodes generalizing seen with
  | nil => exact Or.inl he
  | cons r rest ih =>
    rw [appendEvidence, List.foldl_cons, ← appendEvidence] at he
    rcases ih he with hseen | ⟨⟨r', hr', heq⟩, hnew⟩
    · by_cases h : seen.any (·.episodeRef == r.episodeRef) = true
      · rw [if_pos h] at hseen
        exact Or.inl hseen
      · rw [if_neg h, List.mem_append, List.mem_singleton] at hseen
        rcases hseen with hseen | rfl
        · exact Or.inl hseen
        · refine Or.inr ⟨⟨r, List.mem_cons_self, rfl⟩, fun x hx href => h ?_⟩
          exact List.any_eq_true.mpr ⟨x, hx, by simpa using href⟩
    · refine Or.inr ⟨⟨r', List.mem_cons_of_mem _ hr', heq⟩, fun x hx => hnew x ?_⟩
      split
      · exact hx
      · exact List.mem_append_left _ hx

/-- An Episode of the list is there then, and what was there stays. -/
theorem refs_appendEvidence {ref : String} :
    (∃ e ∈ appendEvidence origin episodes seen, e.episodeRef = ref) ↔
      (∃ e ∈ seen, e.episodeRef = ref) ∨ ∃ e ∈ episodes, e.episodeRef = ref := by
  induction episodes generalizing seen with
  | nil => simp [appendEvidence]
  | cons r rest ih =>
    rw [appendEvidence, List.foldl_cons, ← appendEvidence, ih]
    by_cases h : seen.any (·.episodeRef == r.episodeRef) = true
    · rw [if_pos h]
      obtain ⟨x, hx, href⟩ := List.any_eq_true.mp h
      have href : x.episodeRef = r.episodeRef := by simpa using href
      simp only [List.mem_cons, exists_eq_or_imp]
      refine ⟨fun hex => hex.imp id Or.inr, fun hex => ?_⟩
      rcases hex with hex | rfl | hex
      · exact Or.inl hex
      · exact Or.inl ⟨x, hx, href⟩
      · exact Or.inr hex
    · rw [if_neg h]
      simp only [List.mem_append, List.mem_cons, List.not_mem_nil, or_false, or_and_right, exists_or,
        exists_eq_left, or_assoc]

theorem nodup_appendEvidence (h : (seen.map (·.episodeRef)).Nodup) :
    ((appendEvidence origin episodes seen).map (·.episodeRef)).Nodup := by
  induction episodes generalizing seen with
  | nil => exact h
  | cons r rest ih =>
    rw [appendEvidence, List.foldl_cons, ← appendEvidence]
    apply ih
    split
    · exact h
    · rename_i hnew
      rw [List.map_append, List.map_singleton]
      refine List.nodup_append.mpr ⟨h, List.nodup_singleton _, fun a ha b hb => ?_⟩
      obtain ⟨x, hx, rfl⟩ := List.mem_map.mp ha
      rw [List.mem_singleton.mp hb]
      exact fun href => hnew (List.any_eq_true.mpr ⟨x, hx, by simpa using href⟩)

end

section

variable {current related anchors : List EvidenceEpisode} {outcomes : List EvidenceOutcome}

/-- An Episode comes from the first list that has its ref. -/
theorem mem_assembled {e : EvidenceEpisode}
    (he : e ∈ (assembleWindowEvidence current related anchors outcomes).episodes) :
    (∃ r ∈ current, e = { r with origin := .current }) ∨
    (∃ r ∈ related, e = { r with origin := .related } ∧ ∀ x ∈ current, x.episodeRef ≠ r.episodeRef) ∨
    ∃ r ∈ anchors, e = { r with origin := .revisionAnchor } ∧
      (∀ x ∈ current, x.episodeRef ≠ r.episodeRef) ∧ ∀ x ∈ related, x.episodeRef ≠ r.episodeRef := by
  have hfirst : ∀ ref, (∃ x ∈ current, x.episodeRef = ref) →
      ∃ x ∈ appendEvidence .current current [], x.episodeRef = ref :=
    fun ref h => refs_appendEvidence.mpr (Or.inr h)
  have hsecond : ∀ ref, ((∃ x ∈ current, x.episodeRef = ref) ∨ ∃ x ∈ related, x.episodeRef = ref) →
      ∃ x ∈ appendEvidence .related related (appendEvidence .current current []), x.episodeRef = ref :=
    fun ref h => refs_appendEvidence.mpr (h.imp (hfirst ref) id)
  rcases mem_appendEvidence he with he | ⟨⟨r, hr, rfl⟩, hnew⟩
  · rcases mem_appendEvidence he with he | ⟨⟨r, hr, rfl⟩, hnew⟩
    · rcases mem_appendEvidence he with he | ⟨⟨r, hr, rfl⟩, _⟩
      · exact absurd he List.not_mem_nil
      · exact Or.inl ⟨r, hr, rfl⟩
    · refine Or.inr (Or.inl ⟨r, hr, rfl, fun x hx href => ?_⟩)
      obtain ⟨y, hy, hyref⟩ := hfirst _ ⟨x, hx, href⟩
      exact hnew y hy hyref
  · refine Or.inr (Or.inr ⟨r, hr, rfl, fun x hx href => ?_, fun x hx href => ?_⟩)
    · obtain ⟨y, hy, hyref⟩ := hsecond _ (Or.inl ⟨x, hx, href⟩)
      exact hnew y hy hyref
    · obtain ⟨y, hy, hyref⟩ := hsecond _ (Or.inr ⟨x, hx, href⟩)
      exact hnew y hy hyref

theorem assembled_has {ref : String}
    (h : (∃ e ∈ current, e.episodeRef = ref) ∨ ∃ e ∈ related, e.episodeRef = ref) :
    ∃ e ∈ (assembleWindowEvidence current related anchors outcomes).episodes, e.episodeRef = ref := by
  refine refs_appendEvidence.mpr (Or.inl (refs_appendEvidence.mpr ?_))
  exact h.imp (fun h => refs_appendEvidence.mpr (Or.inr h)) id

theorem nodup_assembled :
    ((assembleWindowEvidence current related anchors outcomes).episodes.map (·.episodeRef)).Nodup :=
  nodup_appendEvidence (nodup_appendEvidence (nodup_appendEvidence List.nodup_nil))

end

/-! ## Episodes -/

def EvidenceEpisode.marked (e : EvidenceEpisode) : Bool := e.formationRole.isSome

def EvidenceEpisode.isAnchor (e : EvidenceEpisode) : Bool := e.formationRole == some .anchor

def EvidenceEpisode.isCandidate (e : EvidenceEpisode) : Bool := e.formationRole == some .candidate

/-- The Episode comes from where one of its role may come from. -/
def EvidenceEpisode.Placed (e : EvidenceEpisode) : Prop :=
  (e.isAnchor = true → e.origin = .current) ∧
    (e.isCandidate = true → e.origin = .current ∨ e.origin = .related)

/-- What a scan has seen when it has read these Episodes too. -/
def FormationScan.after (scan : FormationScan) (episodes : List EvidenceEpisode) : FormationScan :=
  { anchor := (scan.anchor.toList ++ episodes.filter (·.isAnchor)).head?,
    candidates := scan.candidates ++ episodes.filter (·.isCandidate),
    seenEpisodes := scan.seenEpisodes ++ (episodes.filter (·.marked)).map (·.episodeRef),
    seenSessions := scan.seenSessions ++ (episodes.filter (·.marked)).map (·.sessionRef) }

/-- The Episodes that a scan still has to read clash with nothing. -/
structure FormationScan.Takes (scan : FormationScan) (episodes : List EvidenceEpisode) : Prop where
  placed : ∀ e ∈ episodes, e.Placed
  named : ∀ e ∈ episodes, e.marked = true → trimSpace e.episodeRef ≠ "" ∧ trimSpace e.sessionRef ≠ ""
  refs : (scan.seenEpisodes ++ (episodes.filter (·.marked)).map (·.episodeRef)).Nodup
  sessions : (scan.seenSessions ++ (episodes.filter (·.marked)).map (·.sessionRef)).Nodup
  anchors : (scan.anchor.toList ++ episodes.filter (·.isAnchor)).length ≤ 1

section

variable {scan : FormationScan} {e : EvidenceEpisode} {rest : List EvidenceEpisode}

theorem FormationScan.Takes.skip (h : scan.Takes (e :: rest)) (he : e.formationRole = none) :
    scan.Takes rest ∧ scan.after (e :: rest) = scan.after rest := by
  have hm : e.marked = false := by simp [EvidenceEpisode.marked, he]
  have ha : e.isAnchor = false := by simp [EvidenceEpisode.isAnchor, he]
  have hc : e.isCandidate = false := by simp [EvidenceEpisode.isCandidate, he]
  refine ⟨⟨fun x hx => h.placed x (List.mem_cons_of_mem _ hx),
    fun x hx => h.named x (List.mem_cons_of_mem _ hx), ?_, ?_, ?_⟩, ?_⟩
  · simpa [hm] using h.refs
  · simpa [hm] using h.sessions
  · simpa [ha] using h.anchors
  · simp [after, hm, ha, hc]

/-- A marked Episode is read, and leaves the rest to be read. -/
theorem FormationScan.Takes.read (h : scan.Takes (e :: rest)) {role : FormationRole}
    (he : e.formationRole = some role) : ∃ next, scanFormationEpisode scan e = some next ∧
      next.Takes rest ∧ next.after rest = scan.after (e :: rest) := by
  have hm : e.marked = true := by simp [EvidenceEpisode.marked, he]
  obtain ⟨href, hsession⟩ := h.named e List.mem_cons_self hm
  have hepisodes := h.refs
  have hsessions := h.sessions
  simp only [List.filter_cons_of_pos hm, List.map_cons] at hepisodes hsessions
  have hnew : scan.seenEpisodes.contains e.episodeRef = false := by
    have hdisjoint := (List.nodup_append.mp hepisodes).2.2
    simpa using fun hin => hdisjoint _ hin _ List.mem_cons_self rfl
  have hnew' : scan.seenSessions.contains e.sessionRef = false := by
    have hdisjoint := (List.nodup_append.mp hsessions).2.2
    simpa using fun hin => hdisjoint _ hin _ List.mem_cons_self rfl
  have hplaced := h.placed e List.mem_cons_self
  have hrest : ∀ x ∈ rest, x.Placed := fun x hx => h.placed x (List.mem_cons_of_mem _ hx)
  have hnamed := fun x (hx : x ∈ rest) => h.named x (List.mem_cons_of_mem _ hx)
  have hanchors := h.anchors
  unfold scanFormationEpisode
  rw [he]
  simp only [beq_iff_eq, Bool.or_eq_true, href, hsession, hnew, hnew', or_self, if_false,
    Bool.false_eq_true]
  cases role with
  | anchor =>
    have ha : e.isAnchor = true := by simp [EvidenceEpisode.isAnchor, he]
    have hc : e.isCandidate = false := by simp [EvidenceEpisode.isCandidate, he]
    rw [List.filter_cons_of_pos (by simpa using ha), List.length_append, List.length_cons] at hanchors
    have hnone : scan.anchor = none := by
      cases hs : scan.anchor with
      | none => rfl
      | some a =>
        rw [hs] at hanchors
        simp at hanchors
    have hlast : rest.filter (·.isAnchor) = [] := List.eq_nil_of_length_eq_zero (by omega)
    refine ⟨_, by simp [hnone, hplaced.1 ha]; rfl, ⟨hrest, hnamed, ?_, ?_, ?_⟩, ?_⟩
    · simpa using hepisodes
    · simpa using hsessions
    · simp [hlast]
    · simp [after, hm, ha, hc, hnone]
  | candidate =>
    have ha : e.isAnchor = false := by simp [EvidenceEpisode.isAnchor, he]
    have hc : e.isCandidate = true := by simp [EvidenceEpisode.isCandidate, he]
    have horigin : (e.origin != .current && e.origin != .related) = false := by
      rcases hplaced.2 hc with ho | ho <;> simp [ho]
    refine ⟨_, by simp [horigin]; rfl, ⟨hrest, hnamed, ?_, ?_, ?_⟩, ?_⟩
    · simpa using hepisodes
    · simpa using hsessions
    · simpa [ha] using hanchors
    · simp [after, hm, ha, hc]

/-- Episodes that clash with nothing are read. -/
theorem FormationScan.Takes.scanned {episodes : List EvidenceEpisode} (h : scan.Takes episodes) :
    episodes.foldlM scanFormationEpisode scan = some (scan.after episodes) := by
  induction episodes generalizing scan with
  | nil =>
    cases scan with
    | mk anchor candidates seen sessions => cases anchor <;> simp [after]
  | cons e rest ih =>
    rw [List.foldlM_cons]
    cases he : e.formationRole with
    | none =>
      obtain ⟨hrest, hafter⟩ := h.skip he
      have hskip : scanFormationEpisode scan e = some scan := by
        unfold scanFormationEpisode
        rw [he]
      rw [hskip, hafter]
      exact ih hrest
    | some role =>
      obtain ⟨next, hread, hrest, hafter⟩ := h.read he
      rw [hread, ← hafter]
      exact ih hrest

/-- A marked Episode that was read has a session with a name. -/
theorem scanFormationEpisode_named {next : FormationScan}
    (h : scanFormationEpisode scan e = some next) (he : e.marked = true) :
    trimSpace e.sessionRef ≠ "" := by
  intro hblank
  unfold scanFormationEpisode at h
  cases hrole : e.formationRole with
  | none => simp [EvidenceEpisode.marked, hrole] at he
  | some role => simp [hrole, hblank] at h

theorem foldlM_cons_some {α β : Type} {f : β → α → Option β} {b c : β} {a : α} {l : List α}
    (h : (a :: l).foldlM f b = some c) : ∃ next, f b a = some next ∧ l.foldlM f next = some c := by
  rw [List.foldlM_cons] at h
  exact Option.bind_eq_some_iff.mp h

theorem scan_named {episodes : List EvidenceEpisode} {result : FormationScan}
    (h : episodes.foldlM scanFormationEpisode scan = some result) :
    ∀ e ∈ episodes, e.marked = true → trimSpace e.sessionRef ≠ "" := by
  induction episodes generalizing scan with
  | nil => exact fun e he => absurd he List.not_mem_nil
  | cons a rest ih =>
    obtain ⟨next, hread, hrest⟩ := foldlM_cons_some h
    intro e he hm
    rcases List.mem_cons.mp he with rfl | he
    · exact scanFormationEpisode_named hread hm
    · exact ih hrest e he hm

end

/-! ## Outcomes -/

/-- An Outcome that counts for these Episodes. -/
def EvidenceOutcome.counts (episodeRefs : List String) (o : EvidenceOutcome) : Bool :=
  episodeRefs.contains o.episodeRef && o.actorKind != .agent

/-- Outcomes of different Episodes, under different refs. -/
def EvidenceOutcome.Apart (a b : EvidenceOutcome) : Prop :=
  a.episodeRef ≠ b.episodeRef ∧ a.outcomeRef ≠ b.outcomeRef

instance : Std.Symm EvidenceOutcome.Apart where
  symm _ _ h := ⟨h.1.symm, h.2.symm⟩

/-- The Outcome has what it is read by. -/
structure EvidenceOutcome.Named (o : EvidenceOutcome) : Prop where
  ref : trimSpace o.outcomeRef ≠ ""
  actor : trimSpace o.actorKind.text ≠ ""
  text : trimSpace o.text ≠ ""

section

variable {episodeRefs : List String} {found outcomes : List EvidenceOutcome}

/-- Named Outcomes of different Episodes are all read. -/
theorem scan_outcomes (hnamed : ∀ o ∈ outcomes, o.counts episodeRefs = true → o.Named)
    (hapart : (found ++ outcomes.filter (·.counts episodeRefs)).Pairwise EvidenceOutcome.Apart) :
    outcomes.foldlM (scanFormationOutcome episodeRefs) found =
      some (found ++ outcomes.filter (·.counts episodeRefs)) := by
  induction outcomes generalizing found with
  | nil => simp
  | cons o rest ih =>
    have hrest := fun x (hx : x ∈ rest) => hnamed x (List.mem_cons_of_mem _ hx)
    rw [List.foldlM_cons]
    cases hcounts : o.counts episodeRefs with
    | false =>
      have hskip : scanFormationOutcome episodeRefs found o = some found := by
        unfold scanFormationOutcome
        rw [if_pos]
        simpa [EvidenceOutcome.counts, imp_iff_not_or] using hcounts
      rw [List.filter_cons_of_neg (by simp [hcounts])] at hapart ⊢
      rw [hskip]
      exact ih hrest hapart
    | true =>
      rw [List.filter_cons_of_pos hcounts] at hapart ⊢
      have hread : scanFormationOutcome episodeRefs found o = some (found ++ [o]) := by
        have hcounts' : o.episodeRef ∈ episodeRefs ∧ o.actorKind ≠ .agent := by
          simpa [EvidenceOutcome.counts] using hcounts
        obtain ⟨href, hactor, htext⟩ := hnamed o List.mem_cons_self hcounts
        have hnew : (found.any fun x =>
            x.episodeRef == o.episodeRef || x.outcomeRef == o.outcomeRef) = false := by
          rw [List.any_eq_false]
          intro x hx
          have hne := (List.pairwise_append.mp hapart).2.2 x hx o List.mem_cons_self
          simp [hne.1, hne.2]
        unfold scanFormationOutcome
        simp [hcounts'.1, hcounts'.2, href, hactor, htext, hnew]
      rw [hread]
      have hmore := @ih (found ++ [o]) hrest (by simpa using hapart)
      simpa using hmore

/-- An Outcome that was read has a text. -/
theorem scan_outcomes_text {result : List EvidenceOutcome}
    (h : outcomes.foldlM (scanFormationOutcome episodeRefs) found = some result) :
    ∀ o ∈ outcomes, o.counts episodeRefs = true → trimSpace o.text ≠ "" := by
  induction outcomes generalizing found with
  | nil => exact fun o ho => absurd ho List.not_mem_nil
  | cons a rest ih =>
    obtain ⟨next, hread, hrest⟩ := foldlM_cons_some h
    intro o ho hcounts hblank
    rcases List.mem_cons.mp ho with rfl | ho
    · have hcounts' : o.episodeRef ∈ episodeRefs ∧ o.actorKind ≠ .agent := by
        simpa [EvidenceOutcome.counts] using hcounts
      simp [scanFormationOutcome, hcounts'.1, hcounts'.2, hblank] at hread
    · exact ih hrest o ho hcounts hblank

end

/-! ## The basis -/

section

variable {evidence : WindowEvidence} {basis : List String}

/-- The Episodes of the focused formation, the anchor first. -/
def WindowEvidence.formation (evidence : WindowEvidence) : List EvidenceEpisode :=
  evidence.episodes.filter (·.isAnchor) ++ evidence.episodes.filter (·.isCandidate)

/-- The refs of the marked Episodes. -/
def WindowEvidence.markedRefs (evidence : WindowEvidence) : List String :=
  (evidence.episodes.filter (·.marked)).map (·.episodeRef)

theorem mapM_some_map {α β : Type} {f : α → Option β} {g : α → β} {l : List α}
    (h : ∀ a ∈ l, f a = some (g a)) : l.mapM f = some (l.map g) := by
  induction l with
  | nil => rfl
  | cons a rest ih =>
    rw [List.mapM_cons, h a List.mem_cons_self, ih fun b hb => h b (List.mem_cons_of_mem _ hb)]
    rfl

/-- The basis of evidence that can be read is what it pairs. -/
theorem formationBasis_of_takes {outcomeRef : EvidenceEpisode → String}
    (htakes : FormationScan.Takes {} evidence.episodes)
    (hanchor : ∃ e ∈ evidence.episodes, e.isAnchor = true)
    (hcandidate : ∃ e ∈ evidence.episodes, e.isCandidate = true)
    (hnamed : ∀ o ∈ evidence.outcomes, o.counts evidence.markedRefs = true → o.Named)
    (hapart : (evidence.outcomes.filter (·.counts evidence.markedRefs)).Pairwise
      EvidenceOutcome.Apart)
    (hpaired : ∀ e ∈ evidence.formation, ∃ o ∈ evidence.outcomes,
      o.counts evidence.markedRefs = true ∧ o.episodeRef = e.episodeRef ∧
        o.outcomeRef = outcomeRef e) :
    dispositionFormationBasis evidence =
      some (evidence.formation.flatMap fun e => [e.episodeRef, outcomeRef e]) := by
  obtain ⟨a, ha, hisAnchor⟩ := hanchor
  have hone : evidence.episodes.filter (·.isAnchor) = [a] := by
    have hmem : a ∈ evidence.episodes.filter (·.isAnchor) := List.mem_filter.mpr ⟨ha, hisAnchor⟩
    have hlen : (evidence.episodes.filter (·.isAnchor)).length ≤ 1 := by simpa using htakes.anchors
    obtain ⟨b, hb⟩ := List.length_eq_one_iff.mp (Nat.le_antisymm hlen (List.length_pos_of_mem hmem))
    rw [hb] at hmem ⊢
    rw [List.mem_singleton.mp hmem]
  have hsome : (evidence.episodes.filter (·.isCandidate)).isEmpty = false := by
    obtain ⟨c, hc, hisCandidate⟩ := hcandidate
    rw [List.isEmpty_eq_false_iff_exists_mem]
    exact ⟨c, List.mem_filter.mpr ⟨hc, hisCandidate⟩⟩
  have hscan := htakes.scanned
  have houtcomes := @scan_outcomes evidence.markedRefs [] _ hnamed (by simpa using hapart)
  have hmapM : (a :: evidence.episodes.filter (·.isCandidate)).mapM
      (pairedRefs (evidence.outcomes.filter (·.counts evidence.markedRefs))) =
        some ((a :: evidence.episodes.filter (·.isCandidate)).map fun e =>
          [e.episodeRef, outcomeRef e]) := by
    refine mapM_some_map fun e he => ?_
    obtain ⟨o, ho, hcounts, href, hout⟩ := hpaired e (by
      rw [WindowEvidence.formation, hone]
      exact he)
    have hmem := List.mem_filter.mpr ⟨ho, hcounts⟩
    unfold pairedRefs
    cases hfind : (evidence.outcomes.filter (·.counts evidence.markedRefs)).find?
        (·.episodeRef == e.episodeRef) with
    | none => exact absurd (by simpa using href) (List.find?_eq_none.mp hfind o hmem)
    | some o' =>
      -- No second Outcome of the Episode counts.
      have hmem' := List.mem_of_find?_eq_some hfind
      have href' : o'.episodeRef = e.episodeRef := by simpa using List.find?_some hfind
      have heq : o' = o := by
        by_contra hne
        exact (hapart.forall hmem' hmem hne).1 (href'.trans href.symm)
      rw [heq, ← hout]
      rfl
  unfold dispositionFormationBasis
  rw [hscan]
  simp only [FormationScan.after, List.nil_append, Option.toList_none, hone, List.head?_cons,
    Option.bind_eq_bind, Option.bind_some, hsome, Bool.false_eq_true, if_false]
  rw [show (evidence.episodes.filter (·.marked)).map (·.episodeRef) = evidence.markedRefs from rfl,
    houtcomes]
  simp only [List.nil_append, Option.bind_some]
  rw [hmapM, WindowEvidence.formation, hone]
  simp [List.flatMap]

/-- Evidence with a basis was read. -/
theorem named_of_formationBasis (h : dispositionFormationBasis evidence = some basis) :
    ∀ e ∈ evidence.episodes, e.marked = true → trimSpace e.sessionRef ≠ "" := by
  obtain ⟨scan, hscan, _⟩ := Option.bind_eq_some_iff.mp h
  exact scan_named hscan

theorem texts_of_formationBasis (h : dispositionFormationBasis evidence = some basis)
    (htakes : FormationScan.Takes {} evidence.episodes) :
    ∀ o ∈ evidence.outcomes, o.counts evidence.markedRefs = true → trimSpace o.text ≠ "" := by
  obtain ⟨scan, hscan, hrest⟩ := Option.bind_eq_some_iff.mp h
  rw [htakes.scanned] at hscan
  obtain rfl := Option.some.inj hscan
  obtain ⟨anchor, _, hrest⟩ := Option.bind_eq_some_iff.mp hrest
  split at hrest
  · cases hrest
  · obtain ⟨outcomes, houtcomes, _⟩ := Option.bind_eq_some_iff.mp hrest
    exact scan_outcomes_text houtcomes

end

end ChoraMem
