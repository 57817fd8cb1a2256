/-
The pairs of a focused formation, and the basis that evidence offers for it.

The loader chooses an anchor and its candidates from rows.  The basis is read from the
assembled evidence, and with it a formation is accepted or not.  Both judge an Episode by
its session and its one external Outcome, but the loader takes a session for named when its
ref is not empty, and it passes over an Outcome without a text where the evidence may not
have one.
-/
import ChoraMem.Core.Formation
import ChoraMem.World.Outcomes
import ChoraMem.World.Repairs

namespace ChoraMem

open Txn Text

/-! ## The pairs -/

def DispositionFormationPair.refs (pair : DispositionFormationPair) : List String :=
  [pair.episode.ref, pair.outcome.ref]

/-- One anchor, and candidates of other sessions. -/
structure FormationPairs.Sound (current : List EpisodeEvidence) (found : FormationPairs) :
    Prop where
  refs : (found.pairs.map (·.episode.ref)).Nodup
  sessions : (found.pairs.map (·.episode.sessionRef)).Nodup
  anchor : ∃ a ∈ found.pairs, a.role = .anchor ∧ a.episode ∈ current ∧
    ∀ pair ∈ found.pairs, pair.role = .anchor → pair = a
  supports : ∀ pair ∈ found.pairs, supportsFormation pair.episode = true
  placed : ∀ pair ∈ found.pairs, pair.episode ∈ current ∨ pair.episode ∈ found.related

section

variable {owner : OwnerScope} {current : List EpisodeEvidence} {d : Db}
variable {outcomes : List FeedbackOutcome}

theorem formationCandidate_ref {ref : String} {e : EpisodeEvidence}
    (h : formationCandidate owner current d ref = some e) : e.ref = ref := by
  unfold formationCandidate at h
  split at h
  · rename_i e' he
    obtain rfl := Option.some.inj h
    exact (episodeByRef_some he).2
  · split at h
    · cases h
    · rename_i e' he
      split at h
      · obtain rfl := Option.some.inj h
        exact loadEpisode_ref he
      · cases h

theorem sound_addFormationCandidate {found : FormationPairs} {ref : String}
    (h : found.Sound current) : (addFormationCandidate owner current d found ref).Sound current := by
  unfold addFormationCandidate
  split
  · exact h
  rename_i hnew
  split
  · exact h
  rename_i e hcandidate
  split
  · exact h
  rename_i hfits
  split
  · exact h
  rename_i o _
  have href := formationCandidate_ref hcandidate
  simp only [Bool.or_eq_true, decide_eq_true_eq, List.any_eq_true, beq_iff_eq, not_or, not_exists,
    not_and, Bool.not_eq_true', Bool.not_eq_false] at hnew hfits
  have hmem : ∀ {pair : DispositionFormationPair}, pair ∈ found.pairs ++ [⟨e, o, .candidate⟩] →
      pair ∈ found.pairs ∨ pair = ⟨e, o, .candidate⟩ := by
    intro pair hpair
    exact (List.mem_append.mp hpair).imp id List.mem_singleton.mp
  refine ⟨?_, ?_, ?_, ?_, ?_⟩
  · rw [List.map_append, List.map_singleton]
    refine List.nodup_append.mpr ⟨h.refs, List.nodup_singleton _, fun a ha b hb => ?_⟩
    obtain ⟨pair, hpair, rfl⟩ := List.mem_map.mp ha
    rw [List.mem_singleton.mp hb]
    exact fun heq => hnew.2 pair hpair (heq.trans href)
  · rw [List.map_append, List.map_singleton]
    refine List.nodup_append.mpr ⟨h.sessions, List.nodup_singleton _, fun a ha b hb => ?_⟩
    obtain ⟨pair, hpair, rfl⟩ := List.mem_map.mp ha
    rw [List.mem_singleton.mp hb]
    exact hfits.2 pair hpair
  · obtain ⟨a, ha, hrole, hcurrent, honly⟩ := h.anchor
    refine ⟨a, List.mem_append_left _ ha, hrole, hcurrent, fun pair hpair hanchor => ?_⟩
    rcases hmem hpair with hpair | rfl
    · exact honly pair hpair hanchor
    · cases hanchor
  · intro pair hpair
    rcases hmem hpair with hpair | rfl
    · exact h.supports pair hpair
    · exact hfits.1.2
  · intro pair hpair
    dsimp only
    rcases hmem hpair with hpair | rfl
    · refine (h.placed pair hpair).imp id fun hin => ?_
      split
      · exact hin
      · exact List.mem_append_left _ hin
    · by_cases hcurrent : (episodeByRef current ref).isSome = true
      · left
        obtain ⟨e', he'⟩ := Option.isSome_iff_exists.mp hcurrent
        unfold formationCandidate at hcandidate
        rw [he'] at hcandidate
        obtain rfl := Option.some.inj hcandidate
        exact (episodeByRef_some he').1
      · right
        rw [if_neg hcurrent]
        exact List.mem_append_right _ (List.mem_singleton.mpr rfl)

/-- The loader finds nothing, or one anchor with its candidates. -/
theorem sound_loadDispositionFormationPairs {refs : List String}
    (h : (loadDispositionFormationPairs owner current outcomes refs d).pairs ≠ []) :
    (loadDispositionFormationPairs owner current outcomes refs d).Sound current := by
  have hfold : ∀ (l : List String) (found : FormationPairs), found.Sound current →
      (l.foldl (addFormationCandidate owner current d) found).Sound current := by
    intro l
    induction l with
    | nil => exact fun found h => h
    | cons ref rest ih => exact fun found h => ih _ (sound_addFormationCandidate h)
  unfold loadDispositionFormationPairs at h ⊢
  split at h
  · exact absurd rfl h
  rename_i anchor hanchor
  split at h
  · exact absurd rfl h
  rename_i canonical hcanonical
  split at h
  · exact absurd rfl h
  rename_i hsame
  rw [if_neg hsame]
  have hcurrent := anchor_current hanchor
  obtain ⟨e, _, hpair⟩ := List.exists_of_findSome?_eq_some hanchor
  unfold anchorPair at hpair
  split at hpair
  · cases hpair
  split at hpair
  · cases hpair
  rename_i hfits
  simp only [Bool.or_eq_true, beq_iff_eq, Bool.not_eq_true', not_or, Bool.not_eq_false] at hfits
  obtain rfl := Option.some.inj hpair
  refine hfold refs _ ⟨List.nodup_singleton _, List.nodup_singleton _, ⟨_, List.mem_singleton.mpr rfl,
    rfl, hcurrent, fun pair hpair _ => List.mem_singleton.mp hpair⟩, fun pair hpair => ?_,
    fun pair hpair => ?_⟩
  · rw [List.mem_singleton.mp hpair]
    exact hfits.2
  · rw [List.mem_singleton.mp hpair]
    exact Or.inl hcurrent

theorem mergeRelated_has {formation related : List EpisodeEvidence} {e : EpisodeEvidence}
    (h : e ∈ formation) : ∃ e' ∈ mergeRelated formation related, e'.ref = e.ref := by
  have hfold : ∀ (l acc : List EpisodeEvidence),
      ((∃ e' ∈ acc, e'.ref = e.ref) ∨ ∃ e' ∈ l, e'.ref = e.ref) →
        ∃ e' ∈ l.foldl (fun acc e => if acc.any (·.ref == e.ref) then acc else acc ++ [e]) acc,
          e'.ref = e.ref := by
    intro l
    induction l with
    | nil => exact fun acc h => h.elim id fun ⟨_, hin, _⟩ => absurd hin List.not_mem_nil
    | cons a rest ih =>
      intro acc h
      refine ih _ ?_
      rcases h with ⟨x, hx, href⟩ | ⟨x, hx, href⟩
      · left
        refine ⟨x, ?_, href⟩
        dsimp only
        split
        · exact hx
        · exact List.mem_append_left _ hx
      · rcases List.mem_cons.mp hx with rfl | hx
        · left
          dsimp only
          split
          · rename_i hany
            obtain ⟨y, hy, hyref⟩ := List.any_eq_true.mp hany
            exact ⟨y, hy, (by simpa using hyref : y.ref = x.ref).trans href⟩
          · exact ⟨x, List.mem_append_right _ (List.mem_singleton.mpr rfl), href⟩
        · exact Or.inr ⟨x, hx, href⟩
  exact hfold _ [] (Or.inr ⟨e, List.mem_append_left _ h, rfl⟩)

end

/-! ## Loaded windows -/

/-- A window with a focused formation. -/
structure WindowState.Focused (w : WindowState) : Prop where
  refs : (w.pairs.map (·.episode.ref)).Nodup
  sessions : (w.pairs.map (·.episode.sessionRef)).Nodup
  anchor : ∃ a ∈ w.pairs, a.role = .anchor ∧ a.episode ∈ w.episodes ∧
    ∀ pair ∈ w.pairs, pair.role = .anchor → pair = a
  supports : ∀ pair ∈ w.pairs, supportsFormation pair.episode = true
  placed : ∀ pair ∈ w.pairs, ∃ e ∈ w.episodes ++ w.related, e.ref = pair.episode.ref

theorem focused_reloaded {store : Store} {d : Db} {p : Proposal} {w : WindowState}
    (h : store.reloaded p d = .ok w) (hpairs : w.pairs ≠ []) : w.Focused := by
  unfold Store.reloaded at h
  split at h
  · cases h
  split at h
  · cases h
  split at h
  · cases h
  obtain rfl := Except.ok.inj h
  unfold Store.windowState at hpairs ⊢
  cases hf : p.formation with
  | none =>
    rw [hf] at hpairs
    exact absurd rfl hpairs
  | some refs =>
    rw [hf] at hpairs
    have hsound := sound_loadDispositionFormationPairs hpairs
    refine ⟨hsound.refs, hsound.sessions, hsound.anchor, hsound.supports, fun pair hpair => ?_⟩
    rcases hsound.placed pair hpair with hin | hin
    · exact ⟨_, List.mem_append_left _ hin, rfl⟩
    · obtain ⟨e, he, href⟩ := mergeRelated_has hin
      exact ⟨e, List.mem_append_right _ he, href⟩

/-! ## What the evidence holds -/

theorem formationRoleOf_pair {pairs : List DispositionFormationPair}
    (h : (pairs.map (·.episode.ref)).Nodup) {pair : DispositionFormationPair} (hpair : pair ∈ pairs) :
    formationRoleOf pairs pair.episode.ref = some pair.role := by
  unfold formationRoleOf
  cases hfind : pairs.reverse.find? (·.episode.ref == pair.episode.ref) with
  | none =>
    have hno := List.find?_eq_none.mp hfind pair (List.mem_reverse.mpr hpair)
    simp at hno
  | some pair' =>
    have href : pair'.episode.ref = pair.episode.ref := by simpa using List.find?_some hfind
    have hpair' := List.mem_reverse.mp (List.mem_of_find?_eq_some hfind)
    rw [List.inj_on_of_nodup_map h hpair' hpair href]
    rfl

theorem pair_of_formationRole {pairs : List DispositionFormationPair} {ref : String}
    {role : FormationRole} (h : formationRoleOf pairs ref = some role) :
    ∃ pair ∈ pairs, pair.role = role ∧ pair.episode.ref = ref := by
  obtain ⟨pair, hfind, hrole⟩ := Option.map_eq_some_iff.mp h
  exact ⟨pair, List.mem_reverse.mp (List.mem_of_find?_eq_some hfind), hrole,
    by simpa using List.find?_some hfind⟩

/-- The pairs of a window, the anchor's first and then the candidates' in evidence order. -/
def WindowState.focusedPairs (w : WindowState) : List DispositionFormationPair :=
  w.pairs.filter (·.role == .anchor) ++ w.evidence.episodes.flatMap fun e =>
    w.pairs.filter fun pair => pair.role == .candidate && pair.episode.ref == e.episodeRef

/-- The basis that the evidence of the request offers is that of exactly the loader's
pairs. -/
def WindowState.FormationAgrees (w : WindowState) (jobRef : String) : Prop :=
  w.focusedPairs.Perm w.pairs ∧
    dispositionFormationBasis (w.workerRequest jobRef).evidence =
      some (w.focusedPairs.flatMap DispositionFormationPair.refs)

/-- The window puts an external Outcome of a paired Episode into evidence. -/
def WindowState.offersOutcome (w : WindowState) (o : FeedbackOutcome) : Bool :=
  w.canForm || w.targets.any (·.outcomeRefs.contains o.ref)

/-- No session of a pair, and no Outcome beside a pair's own, is white space only. -/
structure WindowState.FormationClear (w : WindowState) : Prop where
  sessions : ∀ pair ∈ w.pairs, trimSpace pair.episode.sessionRef ≠ ""
  texts : ∀ o ∈ w.outcomes, o.external = true → w.offersOutcome o = true →
    (∃ pair ∈ w.pairs, pair.episode.ref = o.episodeRef) → trimSpace o.text ≠ ""

section

variable {store : Store} {d : Db} {window : Window} {w : WindowState}

theorem evidence_refs_nodup (w : WindowState) : (w.evidence.episodes.map (·.episodeRef)).Nodup := by
  have hsame : w.evidence.episodes.map (·.episodeRef) =
      (assembleWindowEvidence (w.episodes.map workerEvidenceEpisode)
        (w.related.map workerEvidenceEpisode) (w.anchors.map workerEvidenceEpisode)
        ((w.eligibleOutcomes.filterMap (outcomeByRef w.outcomes)).map
          workerEvidenceOutcome)).episodes.map (·.episodeRef) := by
    show ((List.map _ _).map _ : List String) = _
    rw [List.map_map]
    rfl
  rw [hsame]
  exact nodup_assembled

namespace WindowState.Loaded

/-- The Episode of a marked place of the evidence is that of a pair. -/
theorem marked_pair (h : w.Loaded store window d) (hf : w.Focused) {x : EvidenceEpisode}
    (hx : x ∈ w.evidence.episodes) {role : FormationRole} (hrole : x.formationRole = some role) :
    ∃ pair ∈ w.pairs, pair.role = role ∧ x.episodeRef = pair.episode.ref ∧
      x.sessionRef = pair.episode.sessionRef ∧ x.Placed := by
  obtain ⟨y, hy, rfl⟩ := List.mem_map.mp hx
  obtain ⟨pair, hpair, hpairRole, href⟩ := pair_of_formationRole hrole
  have hload : loadEpisode pair.episode.ref d = some pair.episode := by
    rcases h.pairs pair hpair with hin | hown
    · exact h.episodes.loaded _ hin
    · exact hown.2
  have hsame : ∀ {e : EpisodeEvidence}, loadEpisode e.ref d = some e →
      e.ref = pair.episode.ref → e = pair.episode := by
    intro e he heq
    rw [heq, hload] at he
    exact (Option.some.inj he).symm
  have hanchor : role = .anchor → pair.episode ∈ w.episodes := by
    intro hr
    obtain ⟨a, _, _, hcurrent, honly⟩ := hf.anchor
    rw [honly pair hpair (hpairRole.trans hr)]
    exact hcurrent
  have hisAnchor : ∀ z : EvidenceEpisode, z.formationRole = some role → z.isAnchor = true →
      role = .anchor := by
    intro z hz hza
    simpa [EvidenceEpisode.isAnchor, hz] using hza
  rcases mem_assembled hy with ⟨r, hr, rfl⟩ | ⟨r, hr, rfl, hnew⟩ | ⟨r, hr, rfl, hnew, hnew'⟩
  · obtain ⟨e, he, rfl⟩ := List.mem_map.mp hr
    obtain rfl := hsame (h.episodes.loaded e he) href.symm
    exact ⟨pair, hpair, hpairRole, rfl, rfl, fun _ => rfl, fun _ => Or.inl rfl⟩
  · obtain ⟨e, he, rfl⟩ := List.mem_map.mp hr
    obtain rfl := hsame (h.related e he).2 href.symm
    refine ⟨pair, hpair, hpairRole, rfl, rfl, fun hza => ?_, fun _ => Or.inr rfl⟩
    exact absurd rfl (hnew _ (List.mem_map_of_mem (hanchor (hisAnchor _ hrole hza))))
  · obtain ⟨e, he, rfl⟩ := List.mem_map.mp hr
    obtain ⟨e', he', heq⟩ := hf.placed pair hpair
    exfalso
    rcases List.mem_append.mp he' with he' | he'
    · exact hnew _ (List.mem_map_of_mem he') (heq.trans href)
    · exact hnew' _ (List.mem_map_of_mem he') (heq.trans href)

end WindowState.Loaded

/-- Every pair has its place in the evidence. -/
theorem WindowState.Focused.pair_marked (hf : w.Focused) {pair : DispositionFormationPair} (hpair : pair ∈ w.pairs) :
    ∃ x ∈ w.evidence.episodes, x.episodeRef = pair.episode.ref ∧
      x.formationRole = some pair.role := by
  obtain ⟨e, he, href⟩ := hf.placed pair hpair
  have hin : (∃ x ∈ w.episodes.map workerEvidenceEpisode, x.episodeRef = pair.episode.ref) ∨
      ∃ x ∈ w.related.map workerEvidenceEpisode, x.episodeRef = pair.episode.ref := by
    rcases List.mem_append.mp he with he | he
    · exact Or.inl ⟨_, List.mem_map_of_mem he, href⟩
    · exact Or.inr ⟨_, List.mem_map_of_mem he, href⟩
  obtain ⟨y, hy, hyref⟩ := assembled_has hin
  refine ⟨_, List.mem_map_of_mem hy, hyref, ?_⟩
  show formationRoleOf w.pairs y.episodeRef = some pair.role
  rw [hyref]
  exact formationRoleOf_pair hf.refs hpair

/-! ## Reading the Episodes -/

/-- Different Episodes of the evidence have different refs. -/
theorem evidence_eq {x y : EvidenceEpisode} (hx : x ∈ w.evidence.episodes)
    (hy : y ∈ w.evidence.episodes) (href : x.episodeRef = y.episodeRef) : x = y :=
  List.inj_on_of_nodup_map (evidence_refs_nodup w) hx hy href

theorem evidence_nodup (w : WindowState) : w.evidence.episodes.Nodup :=
  (evidence_refs_nodup w).of_map _

/-- A list without duplicates of which all elements are one has at most one. -/
theorem length_le_one {α : Type} {l : List α} (hl : l.Nodup) (h : ∀ a ∈ l, ∀ b ∈ l, a = b) :
    l.length ≤ 1 := by
  match l, hl, h with
  | [], _, _ => exact Nat.zero_le 1
  | [a], _, _ => exact Nat.le_refl 1
  | a :: b :: rest, hl, h =>
    have hne := (List.nodup_cons.mp hl).1
    exact absurd (h a List.mem_cons_self b (List.mem_cons_of_mem _ List.mem_cons_self) ▸
      List.mem_cons_self) hne

theorem marked_role {x : EvidenceEpisode} (h : x.marked = true) :
    ∃ role, x.formationRole = some role :=
  Option.isSome_iff_exists.mp h

theorem role_of_isAnchor {x : EvidenceEpisode} (h : x.isAnchor = true) :
    x.formationRole = some .anchor := by
  simpa [EvidenceEpisode.isAnchor] using h

theorem role_of_isCandidate {x : EvidenceEpisode} (h : x.isCandidate = true) :
    x.formationRole = some .candidate := by
  simpa [EvidenceEpisode.isCandidate] using h

theorem named_of_coreRef {ref : String} (h : coreRef ref = true) : trimSpace ref ≠ "" := by
  intro hblank
  have hstrip : strip isSpace ref.toList = [] := by
    rw [← toList_trimSpace, hblank]
    rfl
  have hspace := strip_eq_nil.mp hstrip
  unfold coreRef at h
  rw [Bool.or_eq_true, List.isPrefixOf_iff_prefix, List.isPrefixOf_iff_prefix] at h
  rcases h with ⟨rest, hrest⟩ | ⟨rest, hrest⟩
  · have hfirst := hspace 'e' (by rw [← hrest]; exact List.mem_append_left _ (by decide))
    revert hfirst
    decide
  · have hfirst := hspace 'o' (by rw [← hrest]; exact List.mem_append_left _ (by decide))
    revert hfirst
    decide

/-- The Episodes of a focused formation can be read when their sessions have names. -/
theorem takes_evidence (h : w.Loaded store window d) (hd : WorldLaw store d) (hf : w.Focused)
    (hsessions : ∀ pair ∈ w.pairs, trimSpace pair.episode.sessionRef ≠ "") :
    FormationScan.Takes {} w.evidence.episodes where
  placed := by
    intro x hx
    cases hrole : x.formationRole with
    | none =>
      exact ⟨fun ha => by simp [EvidenceEpisode.isAnchor, hrole] at ha,
        fun hc => by simp [EvidenceEpisode.isCandidate, hrole] at hc⟩
    | some role =>
      obtain ⟨_, _, _, _, _, hplaced⟩ := h.marked_pair hf hx hrole
      exact hplaced
  named := by
    intro x hx hm
    obtain ⟨role, hrole⟩ := marked_role hm
    obtain ⟨pair, hpair, _, href, hsession, _⟩ := h.marked_pair hf hx hrole
    rw [href, hsession]
    refine ⟨named_of_coreRef ?_, hsessions pair hpair⟩
    rcases h.pairs pair hpair with hin | hown
    · exact coreRef_loaded hd (h.episodes.loaded _ hin)
    · exact coreRef_loaded hd hown.2
  refs := by
    rw [List.nil_append]
    exact (evidence_refs_nodup w).sublist (List.filter_sublist.map _)
  sessions := by
    rw [List.nil_append]
    refine List.Nodup.map_on (fun x hx y hy heq => ?_) ((evidence_nodup w).filter _)
    obtain ⟨hx, hmx⟩ := List.mem_filter.mp hx
    obtain ⟨hy, hmy⟩ := List.mem_filter.mp hy
    obtain ⟨_, hrx⟩ := marked_role hmx
    obtain ⟨_, hry⟩ := marked_role hmy
    obtain ⟨px, hpx, _, hrefx, hsx, _⟩ := h.marked_pair hf hx hrx
    obtain ⟨py, hpy, _, hrefy, hsy, _⟩ := h.marked_pair hf hy hry
    have hsame := List.inj_on_of_nodup_map hf.sessions hpx hpy (hsx.symm.trans (heq.trans hsy))
    exact evidence_eq hx hy (by rw [hrefx, hrefy, hsame])
  anchors := by
    refine length_le_one ((evidence_nodup w).filter _) fun x hx y hy => ?_
    obtain ⟨hx, hax⟩ := List.mem_filter.mp hx
    obtain ⟨hy, hay⟩ := List.mem_filter.mp hy
    obtain ⟨px, hpx, hrolex, hrefx, _⟩ := h.marked_pair hf hx (role_of_isAnchor hax)
    obtain ⟨py, hpy, hroley, hrefy, _⟩ := h.marked_pair hf hy (role_of_isAnchor hay)
    obtain ⟨a, _, _, _, honly⟩ := hf.anchor
    exact evidence_eq hx hy (by rw [hrefx, hrefy, honly px hpx hrolex, honly py hpy hroley])

/-! ## The order of the pairs -/

/-- The Outcome that a marked Episode is paired with. -/
def WindowState.pairedOutcome (w : WindowState) (x : EvidenceEpisode) : String :=
  ((w.pairs.find? (·.episode.ref == x.episodeRef)).map (·.outcome.ref)).getD ""

theorem pairedOutcome_eq (hf : w.Focused) {pair : DispositionFormationPair} (hpair : pair ∈ w.pairs)
    {x : EvidenceEpisode} (href : x.episodeRef = pair.episode.ref) :
    w.pairedOutcome x = pair.outcome.ref := by
  unfold WindowState.pairedOutcome
  cases hfind : w.pairs.find? (·.episode.ref == x.episodeRef) with
  | none =>
    have hno := List.find?_eq_none.mp hfind pair hpair
    simp [href] at hno
  | some pair' =>
    have href' : pair'.episode.ref = x.episodeRef := by simpa using List.find?_some hfind
    rw [List.inj_on_of_nodup_map hf.refs (List.mem_of_find?_eq_some hfind) hpair
      (href'.trans href)]
    rfl

/-- The one element with a property. -/
theorem filter_eq_singleton {α : Type} {l : List α} {q : α → Bool} {a : α} (hl : l.Nodup)
    (ha : a ∈ l) (hq : q a = true) (honly : ∀ b ∈ l, q b = true → b = a) : l.filter q = [a] := by
  have hmem : a ∈ l.filter q := List.mem_filter.mpr ⟨ha, hq⟩
  have hall : ∀ b ∈ l.filter q, b = a := fun b hb =>
    honly b (List.mem_filter.mp hb).1 (List.mem_filter.mp hb).2
  have hlen := length_le_one (hl.filter q) fun b hb c hc => (hall b hb).trans (hall c hc).symm
  obtain ⟨b, hb⟩ := List.length_eq_one_iff.mp (Nat.le_antisymm hlen (List.length_pos_of_mem hmem))
  rw [hb, hall b (hb ▸ List.mem_singleton.mpr rfl)]

theorem pairs_nodup (hf : w.Focused) : w.pairs.Nodup := hf.refs.of_map _

/-- The candidates of one place of the evidence. -/
theorem candidates_at (h : w.Loaded store window d) (hf : w.Focused) {x : EvidenceEpisode}
    (hx : x ∈ w.evidence.episodes) :
    (w.pairs.filter fun pair => pair.role == .candidate && pair.episode.ref == x.episodeRef).flatMap
      DispositionFormationPair.refs =
        if x.isCandidate then [x.episodeRef, w.pairedOutcome x] else [] := by
  have hrole : ∀ pair ∈ w.pairs, pair.role = .candidate → pair.episode.ref = x.episodeRef →
      x.isCandidate = true := by
    intro pair hpair hcandidate href
    obtain ⟨y, hy, hyref, hyrole⟩ := hf.pair_marked hpair
    rw [← evidence_eq hy hx (hyref.trans href), EvidenceEpisode.isCandidate, hyrole, hcandidate]
    rfl
  cases hc : x.isCandidate with
  | false =>
    have hnone : (w.pairs.filter fun pair =>
        pair.role == .candidate && pair.episode.ref == x.episodeRef) = [] := by
      refine List.filter_eq_nil_iff.mpr fun pair hpair hq => ?_
      simp only [Bool.and_eq_true, beq_iff_eq] at hq
      rw [hrole pair hpair hq.1 hq.2] at hc
      cases hc
    rw [hnone]
    rfl
  | true =>
    obtain ⟨pair, hpair, hpairRole, href, _⟩ := h.marked_pair hf hx (role_of_isCandidate hc)
    rw [filter_eq_singleton (pairs_nodup hf) hpair (by simp [hpairRole, href]) fun b hb hq => ?_]
    · simp [DispositionFormationPair.refs, href, pairedOutcome_eq hf hpair href]
    · simp only [Bool.and_eq_true, beq_iff_eq] at hq
      exact List.inj_on_of_nodup_map hf.refs hb hpair (hq.2.trans href)

/-- The refs of the pairs are those of the marked Episodes with their Outcomes. -/
theorem refs_focusedPairs (h : w.Loaded store window d) (hf : w.Focused) :
    w.focusedPairs.flatMap DispositionFormationPair.refs =
      w.evidence.formation.flatMap fun x => [x.episodeRef, w.pairedOutcome x] := by
  obtain ⟨a, ha, hrole, _, honly⟩ := hf.anchor
  have hanchors : w.pairs.filter (·.role == .anchor) = [a] := by
    refine filter_eq_singleton (pairs_nodup hf) ha (by simp [hrole]) fun b hb hq => ?_
    exact honly b hb (by simpa using hq)
  obtain ⟨x, hx, hxref, hxrole⟩ := hf.pair_marked ha
  have hmarked : w.evidence.episodes.filter (·.isAnchor) = [x] := by
    refine filter_eq_singleton (evidence_nodup w) hx ?_ fun y hy hay => ?_
    · rw [EvidenceEpisode.isAnchor, hxrole, hrole]
      rfl
    · obtain ⟨pair, hpair, hpairRole, href, _⟩ := h.marked_pair hf hy (role_of_isAnchor hay)
      exact evidence_eq hy hx (by rw [href, honly pair hpair hpairRole, hxref])
  have hcandidates : ∀ l : List EvidenceEpisode, (∀ y ∈ l, y ∈ w.evidence.episodes) →
      (l.flatMap fun e => w.pairs.filter fun pair =>
        pair.role == .candidate && pair.episode.ref == e.episodeRef).flatMap
          DispositionFormationPair.refs =
        (l.filter (·.isCandidate)).flatMap fun y => [y.episodeRef, w.pairedOutcome y] := by
    intro l
    induction l with
    | nil => exact fun _ => rfl
    | cons y rest ih =>
      intro hl
      rw [List.flatMap_cons, List.flatMap_append, candidates_at h hf (hl y List.mem_cons_self),
        ih fun z hz => hl z (List.mem_cons_of_mem _ hz), List.filter_cons]
      cases y.isCandidate <;> rfl
  rw [WindowState.focusedPairs, WindowEvidence.formation, List.flatMap_append, List.flatMap_append,
    hanchors, hmarked, hcandidates _ fun y hy => hy]
  simp [DispositionFormationPair.refs, hxref, pairedOutcome_eq hf ha hxref]

/-- The ordered pairs are the loader's. -/
theorem perm_focusedPairs (hf : w.Focused) : w.focusedPairs.Perm w.pairs := by
  have hrest : (w.evidence.episodes.flatMap fun e => w.pairs.filter fun pair =>
      pair.role == .candidate && pair.episode.ref == e.episodeRef).Perm
        (w.pairs.filter fun pair => !(pair.role == .anchor)) := by
    refine (List.perm_ext_iff_of_nodup (List.nodup_flatMap.mpr ⟨fun _ _ => (pairs_nodup hf).filter _,
      ?_⟩) ((pairs_nodup hf).filter _)).mpr fun pair => ?_
    · have hpairwise := List.pairwise_map.mp (evidence_refs_nodup w)
      refine hpairwise.imp fun hne pair hpair hpair' => hne ?_
      simp only [List.mem_filter, Bool.and_eq_true, beq_iff_eq] at hpair hpair'
      exact hpair.2.2.symm.trans hpair'.2.2
    · simp only [List.mem_flatMap, List.mem_filter, Bool.and_eq_true, beq_iff_eq,
        Bool.not_eq_true', beq_eq_false_iff_ne]
      constructor
      · rintro ⟨_, _, hpair, hrole, _⟩
        exact ⟨hpair, by rw [hrole]; decide⟩
      · rintro ⟨hpair, hrole⟩
        obtain ⟨x, hx, hxref, _⟩ := hf.pair_marked hpair
        refine ⟨x, hx, hpair, ?_, hxref.symm⟩
        cases hr : pair.role with
        | anchor => exact absurd hr hrole
        | candidate => rfl
  exact (hrest.append_left _).trans (List.filter_append_perm (fun pair => pair.role == .anchor) w.pairs)

/-! ## Outcomes -/

/-- What evidence shows of an Outcome. -/
def FeedbackOutcome.shown (o : FeedbackOutcome) : FeedbackOutcome := { o with deliveryRefs := [] }

/-- The row that an Outcome of the window was read from. -/
theorem WindowState.Loaded.outcomeRow (h : w.Loaded store window d) {o : FeedbackOutcome}
    (ho : o ∈ w.outcomes ∨ ∃ pair ∈ w.pairs, o = pair.outcome) :
    ∃ row ∈ d.outcomes, ∃ s, outcomeSource row d = some s ∧ o.shown = (row.feedback s).shown ∧
      row.group.scope.owner = windowOwner w.episodes := by
  have hpair : ∀ pair ∈ w.pairs, ∃ row ∈ d.outcomes, ∃ s, outcomeSource row d = some s ∧
      pair.outcome.shown = (row.feedback s).shown ∧
        row.group.scope.owner = windowOwner w.episodes := by
    intro pair hpair
    obtain ⟨_, row, hrow, s, hs, heq, howner, _⟩ :=
      loadUniqueNonAgentFormationOutcome_row (h.unique pair hpair)
    exact ⟨row, hrow, s, hs, by rw [heq]; rfl, howner⟩
  rcases ho with ho | ⟨pair, hin, rfl⟩
  · rcases h.outcomes o ho with ⟨ref, _, hfound⟩ | ⟨pair, hin, rfl⟩
    · obtain ⟨_, _, row, hrow, s, hs, rfl, _, howner⟩ := loadFeedbackOutcome_ok hfound
      exact ⟨row, hrow, s, hs, rfl, howner⟩
    · exact hpair pair hin
  · exact hpair pair hin

/-- One ref shows one Outcome. -/
theorem WindowState.Loaded.shown_eq (h : w.Loaded store window d) (hu : OutcomesByRef d)
    {o o' : FeedbackOutcome} (ho : o ∈ w.outcomes ∨ ∃ pair ∈ w.pairs, o = pair.outcome)
    (ho' : o' ∈ w.outcomes ∨ ∃ pair ∈ w.pairs, o' = pair.outcome) (href : o.ref = o'.ref) :
    o.shown = o'.shown := by
  obtain ⟨row, hrow, s, hs, heq, _⟩ := h.outcomeRow ho
  obtain ⟨row', hrow', s', hs', heq', _⟩ := h.outcomeRow ho'
  have hr : o.ref = row.ref := congrArg FeedbackOutcome.ref heq
  have hr' : o'.ref = row'.ref := congrArg FeedbackOutcome.ref heq'
  obtain rfl := hu row hrow row' hrow' (hr.symm.trans (href.trans hr'))
  obtain rfl := Option.some.inj (hs.symm.trans hs')
  rw [heq, heq']

theorem same_of_shown {o o' : FeedbackOutcome} (h : o.shown = o'.shown) :
    o.episodeRef = o'.episodeRef ∧ o.text = o'.text ∧ o.actorKind = o'.actorKind := by
  obtain ⟨_, hepisode, htext, hactor, _⟩ := FeedbackOutcome.mk.inj h
  exact ⟨hepisode, htext, hactor⟩

theorem eq_of_onlyElement {α : Type} {l : List α} {a b : α} (h : onlyElement l = some a)
    (hb : b ∈ l) : b = a := by
  match l, h with
  | [_], rfl => exact List.mem_singleton.mp hb

/-- Of a paired Episode just the pair's Outcome founds. -/
theorem WindowState.Loaded.founding_paired (h : w.Loaded store window d) {o : FeedbackOutcome}
    (ho : o ∈ w.outcomes) (hfounding : o.founding = true) {pair : DispositionFormationPair}
    (hpair : pair ∈ w.pairs) (href : o.episodeRef = pair.episode.ref) : o.ref = pair.outcome.ref := by
  obtain ⟨row, hrow, s, hs, heq, howner⟩ := h.outcomeRow (Or.inl ho)
  have hepisode : row.episodeRef = pair.episode.ref := by
    rw [← href]
    exact (congrArg FeedbackOutcome.episodeRef heq).symm
  have honly := eq_of_onlyElement (h.unique pair hpair) (b := o.shown) ?_
  · have hshown : o.shown.ref = pair.outcome.ref := by rw [honly]
    exact hshown
  · refine List.mem_filter.mpr ⟨List.mem_filterMap.mpr ⟨row, ?_, ?_⟩, hfounding⟩
    · exact List.mem_filter.mpr ⟨hrow, by simp [howner, hepisode]⟩
    · rw [hs, heq]
      rfl

/-- The kind of an Outcome's actor is known. -/
theorem WindowState.Loaded.actorKind (h : w.Loaded store window d) (hs : SourcesSigned d)
    {o : FeedbackOutcome} (ho : o ∈ w.outcomes) : validActorKind o.actorKind = true := by
  obtain ⟨row, _, s, hsource, heq, _⟩ := h.outcomeRow (Or.inl ho)
  have hkind : o.actorKind = s.event.actorKind := congrArg FeedbackOutcome.actorKind heq
  rw [hkind]
  exact (hs s (List.mem_of_find?_eq_some hsource)).2.2

theorem named_of_validActorKind {kind : ActorKind} (h : validActorKind kind = true) :
    kind.isEmpty = false ∧ trimSpace kind.text ≠ "" := by
  cases kind with
  | other raw hraw => cases h
  | _ => exact ⟨by decide, by decide +kernel⟩

/-- The Outcomes of the evidence are those of the window with an eligible ref. -/
theorem mem_evidence_outcomes {x : EvidenceOutcome} :
    x ∈ w.evidence.outcomes ↔ ∃ o, o.ref ∈ w.eligibleOutcomes ∧
      outcomeByRef w.outcomes o.ref = some o ∧ x = workerEvidenceOutcome o := by
  have hdef : w.evidence.outcomes =
      (w.eligibleOutcomes.filterMap (outcomeByRef w.outcomes)).map workerEvidenceOutcome := rfl
  rw [hdef, List.mem_map]
  constructor
  · rintro ⟨o, ho, rfl⟩
    obtain ⟨ref, href, hfind⟩ := List.mem_filterMap.mp ho
    obtain ⟨_, rfl⟩ := outcomeByRef_some hfind
    exact ⟨o, href, hfind, rfl⟩
  · rintro ⟨o, href, hfind, rfl⟩
    exact ⟨o, List.mem_filterMap.mpr ⟨o.ref, href, hfind⟩, rfl⟩

theorem nodup_sortedKeys (refs : List String) : (sortedKeys refs).Nodup :=
  (List.perm_insertionSort _ _).nodup_iff.mpr (List.nodup_dedup refs)

/-- No two Outcomes of the evidence have one ref. -/
theorem evidence_outcomes_pairwise (w : WindowState) :
    w.evidence.outcomes.Pairwise fun a b => a.outcomeRef ≠ b.outcomeRef := by
  have hdef : w.evidence.outcomes =
      (w.eligibleOutcomes.filterMap (outcomeByRef w.outcomes)).map workerEvidenceOutcome := rfl
  rw [hdef, List.pairwise_map]
  refine List.Pairwise.filterMap _ (fun ref ref' hne o ho o' ho' => ?_)
    (nodup_sortedKeys (w.formationOutcomes ++ w.targets.flatMap FeedbackTarget.outcomeRefs))
  show o.ref ≠ o'.ref
  rw [(outcomeByRef_some ho).2, (outcomeByRef_some ho').2]
  exact hne

/-- The Episode of a pair is the one that its ref finds. -/
theorem episodeByRef_paired (h : w.Loaded store window d) (hf : w.Focused)
    {pair : DispositionFormationPair} (hpair : pair ∈ w.pairs) :
    episodeByRef (w.episodes ++ w.related) pair.episode.ref = some pair.episode := by
  have hload : loadEpisode pair.episode.ref d = some pair.episode := by
    rcases h.pairs pair hpair with hin | hown
    · exact h.episodes.loaded _ hin
    · exact hown.2
  obtain ⟨e, he, href⟩ := hf.placed pair hpair
  obtain ⟨e', he'⟩ := Option.isSome_iff_exists.mp (episodeByRef_isSome he)
  rw [href] at he'
  obtain ⟨hmem, href'⟩ := episodeByRef_some he'
  have hload' : loadEpisode e'.ref d = some e' := by
    rcases List.mem_append.mp hmem with hmem | hmem
    · exact h.episodes.loaded e' hmem
    · exact (h.related e' hmem).2
  rw [href', hload] at hload'
  rw [he', ← Option.some.inj hload']

/-- An external Outcome of a paired Episode that the window offers is eligible. -/
theorem eligible_of_offers (h : w.Loaded store window d) (hf : w.Focused) {o : FeedbackOutcome}
    (ho : o ∈ w.outcomes) (hexternal : o.external = true) (hoffers : w.offersOutcome o = true)
    {pair : DispositionFormationPair} (hpair : pair ∈ w.pairs)
    (href : pair.episode.ref = o.episodeRef) : o.ref ∈ w.eligibleOutcomes := by
  rw [WindowState.eligibleOutcomes, mem_sortedKeys, List.mem_append]
  rcases Bool.or_eq_true _ _ |>.mp hoffers with hform | htarget
  · left
    rw [WindowState.formationOutcomes, mem_sortedKeys, List.mem_append]
    left
    have hform' : hasFormationEvidence w.episodes w.related = true := hform
    unfold WindowState.eligibleFormationOutcomes
    rw [hform']
    refine List.mem_map_of_mem (List.mem_filter.mpr ⟨ho, ?_⟩)
    rw [← href, episodeByRef_paired h hf hpair, hexternal]
    exact hf.supports pair hpair
  · right
    obtain ⟨t, ht, hcontains⟩ := List.any_eq_true.mp htarget
    exact List.mem_flatMap.mpr ⟨t, ht, by simpa using hcontains⟩

/-- What is eligible is a pair's, or the window offers it. -/
theorem offers_of_eligible {o : FeedbackOutcome} (ho : o.ref ∈ w.eligibleOutcomes) :
    w.offersOutcome o = true ∨ ∃ pair ∈ w.pairs, pair.outcome.ref = o.ref := by
  rw [WindowState.eligibleOutcomes, mem_sortedKeys, List.mem_append] at ho
  rcases ho with ho | ho
  · rw [WindowState.formationOutcomes, mem_sortedKeys, List.mem_append] at ho
    rcases ho with ho | ho
    · left
      unfold WindowState.eligibleFormationOutcomes at ho
      split at ho
      · exact absurd ho List.not_mem_nil
      · rename_i hform
        have hform' : hasFormationEvidence w.episodes w.related = true := by simpa using hform
        rw [WindowState.offersOutcome, WindowState.canForm, hform', Bool.true_or]
    · exact Or.inr (List.mem_map.mp ho)
  · left
    obtain ⟨t, ht, href⟩ := List.mem_flatMap.mp ho
    rw [WindowState.offersOutcome, Bool.or_eq_true]
    exact Or.inr (List.any_eq_true.mpr ⟨t, ht, by simpa using href⟩)

/-- The Episode of a counted Outcome is that of a pair. -/
theorem counted_pair (h : w.Loaded store window d) (hf : w.Focused) {x : EvidenceOutcome}
    (hcounts : x.counts w.evidence.markedRefs = true) :
    x.actorKind ≠ .agent ∧ ∃ pair ∈ w.pairs, pair.episode.ref = x.episodeRef := by
  simp only [EvidenceOutcome.counts, Bool.and_eq_true, List.contains_eq_mem, decide_eq_true_eq,
    bne_iff_ne] at hcounts
  obtain ⟨hmarked, hagent⟩ := hcounts
  obtain ⟨e, he, href⟩ := List.mem_map.mp hmarked
  obtain ⟨he, hm⟩ := List.mem_filter.mp he
  obtain ⟨role, hrole⟩ := marked_role hm
  obtain ⟨pair, hpair, _, hpairRef, _⟩ := h.marked_pair hf he hrole
  exact ⟨hagent, pair, hpair, hpairRef.symm.trans href⟩

theorem mem_markedRefs (hf : w.Focused) {pair : DispositionFormationPair} (hpair : pair ∈ w.pairs) :
    pair.episode.ref ∈ w.evidence.markedRefs := by
  obtain ⟨x, hx, href, hrole⟩ := hf.pair_marked hpair
  refine List.mem_map.mpr ⟨x, List.mem_filter.mpr ⟨hx, ?_⟩, href⟩
  rw [EvidenceEpisode.marked, hrole]
  rfl

/-- In a clear window each counted Outcome founds, so it is that of its Episode's pair. -/
theorem counted_founding (h : w.Loaded store window d) (hs : SourcesSigned d) (hu : OutcomesByRef d)
    (hclear : w.FormationClear) {o : FeedbackOutcome}
    (heligible : o.ref ∈ w.eligibleOutcomes) (ho : o ∈ w.outcomes) (hagent : o.actorKind ≠ .agent)
    (hpaired : ∃ pair ∈ w.pairs, pair.episode.ref = o.episodeRef) : o.founding = true := by
  have hexternal : o.external = true := by
    have hknown := (named_of_validActorKind (h.actorKind hs ho)).1
    simp [FeedbackOutcome.external, hknown, hagent]
  have htext : trimSpace o.text ≠ "" := by
    rcases offers_of_eligible heligible with hoffers | ⟨pair, hpair, href⟩
    · exact hclear.texts o ho hexternal hoffers hpaired
    · have hshown := h.shown_eq hu (Or.inr ⟨pair, hpair, rfl⟩) (Or.inl ho) href
      have hfounding := (loadUniqueNonAgentFormationOutcome_row (h.unique pair hpair)).1
      obtain ⟨_, htext, _⟩ := same_of_shown hshown
      simp only [FeedbackOutcome.founding, Bool.and_eq_true, bne_iff_ne] at hfounding
      rw [← htext]
      exact hfounding.2
  simp [FeedbackOutcome.founding, hexternal, htext]

/-- A clear window offers the basis of its pairs. -/
theorem agrees_of_clear (h : w.Loaded store window d) (hd : WorldLaw store d) (hs : SourcesSigned d)
    (hr : store.Reported d) (hu : OutcomesByRef d) (hf : w.Focused)
    (hcandidate : ∃ pair ∈ w.pairs, pair.role = .candidate) (hclear : w.FormationClear)
    (jobRef : String) : w.FormationAgrees jobRef := by
  -- A counted Outcome is the one its Episode is paired with.
  have hcounted : ∀ x ∈ w.evidence.outcomes, x.counts w.evidence.markedRefs = true →
      x.Named ∧ ∃ pair ∈ w.pairs, pair.episode.ref = x.episodeRef ∧
        x.outcomeRef = pair.outcome.ref := by
    intro x hx hcounts
    obtain ⟨hagent, pair, hpair, href⟩ := counted_pair h hf hcounts
    obtain ⟨o, heligible, hfind, rfl⟩ := mem_evidence_outcomes.mp hx
    have ho := (outcomeByRef_some hfind).1
    have hfounding := counted_founding h hs hu hclear heligible ho hagent ⟨pair, hpair, href⟩
    refine ⟨⟨named_of_coreRef (h.coreRef_outcome hr o ho),
      (named_of_validActorKind (h.actorKind hs ho)).2, ?_⟩, pair, hpair, href,
      h.founding_paired ho hfounding hpair href.symm⟩
    simp only [FeedbackOutcome.founding, Bool.and_eq_true, bne_iff_ne] at hfounding
    exact hfounding.2
  refine ⟨perm_focusedPairs hf, ?_⟩
  show dispositionFormationBasis w.evidence = _
  rw [refs_focusedPairs h hf]
  refine formationBasis_of_takes (takes_evidence h hd hf hclear.sessions) ?_ ?_
    (fun x hx hcounts => (hcounted x hx hcounts).1) ?_ fun x hx => ?_
  · obtain ⟨a, ha, hrole, _⟩ := hf.anchor
    obtain ⟨x, hx, _, hxrole⟩ := hf.pair_marked ha
    exact ⟨x, hx, by rw [EvidenceEpisode.isAnchor, hxrole, hrole]; rfl⟩
  · obtain ⟨c, hc, hrole⟩ := hcandidate
    obtain ⟨x, hx, _, hxrole⟩ := hf.pair_marked hc
    exact ⟨x, hx, by rw [EvidenceEpisode.isCandidate, hxrole, hrole]; rfl⟩
  · refine ((evidence_outcomes_pairwise w).filter _).imp_of_mem fun {x y} hx hy hne => ⟨?_, hne⟩
    obtain ⟨hx, hcx⟩ := List.mem_filter.mp hx
    obtain ⟨hy, hcy⟩ := List.mem_filter.mp hy
    obtain ⟨_, px, hpx, hrefx, houtx⟩ := hcounted x hx hcx
    obtain ⟨_, py, hpy, hrefy, houty⟩ := hcounted y hy hcy
    intro heq
    have hsame := List.inj_on_of_nodup_map hf.refs hpx hpy (hrefx.trans (heq.trans hrefy.symm))
    exact hne (by rw [houtx, houty, hsame])
  · have hmarked : x ∈ w.evidence.episodes ∧ ∃ role, x.formationRole = some role := by
      rcases List.mem_append.mp hx with hx | hx
      · exact ⟨(List.mem_filter.mp hx).1, _, role_of_isAnchor (List.mem_filter.mp hx).2⟩
      · exact ⟨(List.mem_filter.mp hx).1, _, role_of_isCandidate (List.mem_filter.mp hx).2⟩
    obtain ⟨hx, role, hrole⟩ := hmarked
    obtain ⟨pair, hpair, _, href, _⟩ := h.marked_pair hf hx hrole
    obtain ⟨o, ho, horef⟩ := h.paired pair hpair
    obtain ⟨o', hfind⟩ := Option.isSome_iff_exists.mp
      (List.find?_isSome.mpr ⟨o, ho, by simpa using horef⟩ :
        (outcomeByRef w.outcomes pair.outcome.ref).isSome)
    obtain ⟨ho', horef'⟩ := outcomeByRef_some hfind
    have hshown := h.shown_eq hu (Or.inl ho') (Or.inr ⟨pair, hpair, rfl⟩) horef'
    obtain ⟨hepisode, _, hactor⟩ := same_of_shown hshown
    obtain ⟨hfounding, row, _, _, _, heq, _, hrowRef⟩ :=
      loadUniqueNonAgentFormationOutcome_row (h.unique pair hpair)
    have howner : pair.outcome.episodeRef = pair.episode.ref := by
      rw [heq]
      exact hrowRef
    refine ⟨workerEvidenceOutcome o', mem_evidence_outcomes.mpr ⟨o', ?_, ?_, rfl⟩, ?_, ?_, ?_⟩
    · rw [WindowState.eligibleOutcomes, mem_sortedKeys, List.mem_append]
      left
      rw [WindowState.formationOutcomes, mem_sortedKeys, List.mem_append, horef']
      exact Or.inr (List.mem_map_of_mem hpair)
    · rw [horef']
      exact hfind
    · have hmem : o'.episodeRef ∈ w.evidence.markedRefs := by
        rw [hepisode, howner]
        exact mem_markedRefs hf hpair
      have hagent : o'.actorKind ≠ .agent := by
        rw [hactor]
        simp only [FeedbackOutcome.founding, FeedbackOutcome.external, Bool.and_eq_true,
          bne_iff_ne] at hfounding
        exact hfounding.1.2
      simp [EvidenceOutcome.counts, workerEvidenceOutcome, hmem, hagent]
    · exact (hepisode.trans howner).trans href.symm
    · rw [pairedOutcome_eq hf hpair href]
      exact horef'

/-- A window that offers the basis of its pairs is clear. -/
theorem clear_of_agrees (h : w.Loaded store window d) (hd : WorldLaw store d)
    (hu : OutcomesByRef d) (hf : w.Focused) {jobRef : String} (hagrees : w.FormationAgrees jobRef) :
    w.FormationClear := by
  have hbasis : dispositionFormationBasis w.evidence =
      some (w.focusedPairs.flatMap DispositionFormationPair.refs) := hagrees.2
  have hsessions : ∀ pair ∈ w.pairs, trimSpace pair.episode.sessionRef ≠ "" := by
    intro pair hpair
    obtain ⟨x, hx, href, hrole⟩ := hf.pair_marked hpair
    obtain ⟨pair', hpair', _, href', hsession, _⟩ := h.marked_pair hf hx hrole
    rw [← List.inj_on_of_nodup_map hf.refs hpair' hpair (href'.symm.trans href), ← hsession]
    refine named_of_formationBasis hbasis x hx ?_
    rw [EvidenceEpisode.marked, hrole]
    rfl
  refine ⟨hsessions, fun o ho hexternal hoffers hpaired => ?_⟩
  obtain ⟨pair, hpair, href⟩ := hpaired
  have heligible := eligible_of_offers h hf ho hexternal hoffers hpair href
  obtain ⟨o', hfind⟩ := Option.isSome_iff_exists.mp
    (List.find?_isSome.mpr ⟨o, ho, by simp⟩ : (outcomeByRef w.outcomes o.ref).isSome)
  obtain ⟨ho', horef⟩ := outcomeByRef_some hfind
  obtain ⟨hepisode, htext, hactor⟩ := same_of_shown
    (h.shown_eq hu (Or.inl ho') (Or.inl ho) horef)
  rw [← htext]
  refine texts_of_formationBasis hbasis (takes_evidence h hd hf hsessions) (workerEvidenceOutcome o')
    (mem_evidence_outcomes.mpr ⟨o', horef ▸ heligible, horef ▸ hfind, rfl⟩) ?_
  have hmem : o'.episodeRef ∈ w.evidence.markedRefs := by
    rw [hepisode, ← href]
    exact mem_markedRefs hf hpair
  have hagent : o'.actorKind ≠ .agent := by
    rw [hactor]
    simp only [FeedbackOutcome.external, Bool.and_eq_true, bne_iff_ne] at hexternal
    exact hexternal.2
  simp [EvidenceOutcome.counts, workerEvidenceOutcome, hmem, hagent]

end

/-- In every reached state a window for which the loader found an anchor and a candidate
offers the basis of these pairs if and only if it is clear. -/
theorem formation_agrees_iff (store : Store) (hhash : Collisionless store) {s : MemorySys} (h : MemoryReach store s) {p : Proposal}
    (hvalid : p.window.valid = true) {w : WindowState} (hw : store.reloaded p s.db = .ok w)
    (hanchor : ∃ pair ∈ w.pairs, pair.role = .anchor)
    (hcandidate : ∃ pair ∈ w.pairs, pair.role = .candidate) :
    w.FormationAgrees p.window.jobRef ↔ w.FormationClear := by
  have hloaded := loaded_reloaded hvalid hw
  have hlaw := worldLaw_reach hhash h
  have hunique := outcomeRefs_reach h
  have hfocused : w.Focused := by
    obtain ⟨pair, hpair, _⟩ := hanchor
    exact focused_reloaded hw (List.ne_nil_of_mem hpair)
  constructor
  · exact clear_of_agrees hloaded hlaw hunique hfocused
  · intro hclear
    exact agrees_of_clear hloaded hlaw (signed_reach h) (reported_reach h) hunique
      hfocused hcandidate hclear p.window.jobRef

/-! A user who answers in two sessions. -/

def answerNames : List (List String × String) :=
  [(["episode.v1", "agent", "t", "a", "", " ", "1", "g"], "e"),
    (["episode.v1", "agent", "t", "a", "", "r", "1", "g"], "e'"),
    (["episode.v1", "agent", "t", "a", "", "s", "2", "g"], "f"),
    (["outcome-event-identity.v1", "agent", "t", "a", "", " ", "1", "g", "o1", "o1"], "o"),
    (["outcome-event-identity.v1", "agent", "t", "a", "", "r", "1", "g", "o1", "o1"], "o'"),
    (["outcome-event-identity.v1", "agent", "t", "a", "", "s", "2", "g", "o2", "o2"], "p")]

def answerStore : Store := { sampleStore with hashFields := namedDigest answerNames }

theorem answerStore_collisionless : Collisionless answerStore :=
  fun _ _ h => namedDigest_injective (by decide +kernel) (by decide +kernel) h

def answerReport (session run : String) : OutcomeReport :=
  { idempotencyKey := "o" ++ run,
    event := { ref := "o" ++ run, scope := { agentScope with sessionRef := session }, actorRef := "u",
               text := "o", constitution := {}, actorKind := .user },
    runRef := run, sourceGroupRef := "g", deliveryReceiptRefs := [], relatedSourceEventRefs := [] }

/-- The agent is asked and answers, and the user says what came of it. -/
def answerCalls (n : Nat) (session run : String) : List MemoryCommand :=
  [observeCall n { agentScope with sessionRef := session } ("a" ++ run) .user run .situation,
    observeCall (n + 1) { agentScope with sessionRef := session } ("b" ++ run) .agent run .agentAct,
    .intake (.reportOutcome (plainAmbient (n + 2)) (answerReport session run))]

def answered (session : String) : MemorySys :=
  answerStore.calls (answerCalls 1 session "1" ++ answerCalls 4 "s" "2") ⟨{}, []⟩

theorem answered_reach (session : String) : MemoryReach answerStore (answered session) :=
  (reach_calls (fun _ ht => absurd ht List.not_mem_nil) .start _).1

/-- The first Episode's window, when the index finds the second Episode. -/
def answerProposal (session : String) : Proposal :=
  { window :=
      { jobRef := "j",
        episodeRefs := [answerStore.episodeRef ⟨{ agentScope with sessionRef := session }, "1", "g"⟩],
        outcomeEventRefs := [answerStore.outcomeEventRef (answerReport session "1")] },
    owner := agentScope.owner, requestHash := "", found := {},
    formation := some [answerStore.episodeRef ⟨agentScope, "2", "g"⟩], lockOwners := [],
    stateHash := "", recollectionStateHash := "", workerRequestHash := "", baseline := {},
    request := { jobRef := "j", windowText := "", allowedTargetRefs := [], allowedBasisRefs := [],
                 evidence := { episodes := [], outcomes := [], recollections := [] } } }

def answerWindow (session : String) : Option WindowState :=
  (answerStore.reloaded (answerProposal session) (answered session).db).toOption

/-- The window of an answer has an anchor and a candidate. -/
def WindowState.answers (w : WindowState) : Bool :=
  w.pairs.any (·.role == .anchor) && w.pairs.any (·.role == .candidate)

theorem roles_of_answers {w : WindowState} (h : w.answers = true) :
    (∃ pair ∈ w.pairs, pair.role = .anchor) ∧ ∃ pair ∈ w.pairs, pair.role = .candidate := by
  rw [WindowState.answers, Bool.and_eq_true, List.any_eq_true, List.any_eq_true] at h
  obtain ⟨⟨a, ha, hanchor⟩, c, hc, hcandidate⟩ := h
  exact ⟨⟨a, ha, by simpa using hanchor⟩, c, hc, by simpa using hcandidate⟩

theorem reloaded_of_answerWindow {session : String} {w : WindowState}
    (h : answerWindow session = some w) :
    answerStore.reloaded (answerProposal session) (answered session).db = .ok w := by
  unfold answerWindow at h
  cases hw : answerStore.reloaded (answerProposal session) (answered session).db with
  | error e =>
    rw [hw] at h
    cases h
  | ok w' =>
    rw [hw] at h
    rw [Option.some.inj h]

theorem formation_agrees_iff_answered :
    ∃ w, answerStore.reloaded (answerProposal "r") (answered "r").db = .ok w ∧
      (w.FormationAgrees "j" ↔ w.FormationClear) := by
  have hsome : (answerWindow "r").any WindowState.answers = true := by decide +kernel
  obtain ⟨w, hw, hanswers⟩ := Option.any_eq_true _ _ |>.mp hsome
  obtain ⟨hanchor, hcandidate⟩ := roles_of_answers hanswers
  exact ⟨w, reloaded_of_answerWindow hw, formation_agrees_iff answerStore answerStore_collisionless
    (answered_reach "r") (by decide +kernel) (reloaded_of_answerWindow hw) hanchor
    hcandidate⟩

/-- In a session whose ref is a blank the loader finds an anchor and a candidate, and the
evidence has no basis. -/
theorem formation_disagrees_blank :
    ∃ (s : MemorySys) (p : Proposal) (w : WindowState), MemoryReach answerStore s ∧
      p.window.valid = true ∧ answerStore.reloaded p s.db = .ok w ∧
      (∃ pair ∈ w.pairs, pair.role = .anchor) ∧ (∃ pair ∈ w.pairs, pair.role = .candidate) ∧
      dispositionFormationBasis (w.workerRequest p.window.jobRef).evidence = none ∧
      ¬w.FormationAgrees p.window.jobRef := by
  have hsome : (answerWindow " ").any
      (fun w => w.answers && (dispositionFormationBasis w.evidence).isNone) = true := by
    decide +kernel
  obtain ⟨w, hw, hboth⟩ := Option.any_eq_true _ _ |>.mp hsome
  obtain ⟨hanswers, hnone⟩ := Bool.and_eq_true _ _ |>.mp hboth
  obtain ⟨hanchor, hcandidate⟩ := roles_of_answers hanswers
  have hbasis : dispositionFormationBasis w.evidence = none := Option.isNone_iff_eq_none.mp hnone
  refine ⟨answered " ", answerProposal " ", w, answered_reach " ", by decide +kernel,
    reloaded_of_answerWindow hw, hanchor, hcandidate, hbasis, fun hagrees => ?_⟩
  have hsomeBasis : dispositionFormationBasis w.evidence = _ := hagrees.2
  rw [hbasis] at hsomeBasis
  cases hsomeBasis

end ChoraMem
