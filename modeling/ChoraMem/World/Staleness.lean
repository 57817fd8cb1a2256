/-
What an unchanged digest says of a window.

A commit applies a proposal that was computed of an older store, and only digests are
compared.  The fields of a digest can be read back, since a ref of Core is named after its
kind and is no marker: where the digests of two loaded windows are the same, so are their
targets, their Recollections and what is put to the worker, whatever the texts are.
-/
import ChoraMem.World.Chains
import ChoraMem.World.Framing
import ChoraMem.World.Grounds

namespace ChoraMem

open Txn Text

/-! ## What is the same -/

/-- Two targets that validation and application cannot tell apart. -/
structure FeedbackTarget.Agrees (t t' : FeedbackTarget) : Prop where
  owner : t.owner = t'.owner
  seedRef : t.seedRef = t'.seedRef
  versionRef : t.versionRef = t'.versionRef
  versionNumber : t.versionNumber = t'.versionNumber
  tendency : t.tendency = t'.tendency
  episodes : ∀ ref, ref ∈ t.episodes ↔ ref ∈ t'.episodes
  directEpisodes : ∀ ref, ref ∈ t.directEpisodes ↔ ref ∈ t'.directEpisodes
  outcomes : ∀ ref, ref ∈ t.outcomeRefs ↔ ref ∈ t'.outcomeRefs
  outcomeEpisode : ∀ ref, t.outcomeEpisode ref = t'.outcomeEpisode ref
  receipts : ∀ r, r ∈ t.receipts ↔ r ∈ t'.receipts
  anchors : ∀ ref, ref ∈ t.anchors ↔ ref ∈ t'.anchors
  basisState : ∀ key, key ∈ t.basisState ↔ key ∈ t'.basisState

/-- Of the same version, for every version. -/
def TargetsAgree (targets targets' : List FeedbackTarget) : Prop :=
  ∀ ref, Option.Rel FeedbackTarget.Agrees (targetByRef targets ref) (targetByRef targets' ref)

/-- When a version was created only orders the catalogue. -/
structure ActiveRecollection.Agrees (r r' : ActiveRecollection) : Prop where
  owner : r.owner = r'.owner
  recollection : r.recollection = r'.recollection
  versionRef : r.versionRef = r'.versionRef
  versionNumber : r.versionNumber = r'.versionNumber
  text : r.text = r'.text
  application : r.application = r'.application
  basisState : ∀ key, key ∈ r.basisState ↔ key ∈ r'.basisState

/-! ## Fields of Core -/

def OwnerKind (owner : OwnerScope) : Prop := owner.kind = .agent ∨ owner.kind = .relationship

def KindWord (word : String) : Prop := word = "agent" ∨ word = "relationship"

/-- Refs are named after their kind; a text is any text. -/
structure FeedbackTarget.Formatted (t : FeedbackTarget) : Prop where
  owner : OwnerKind t.owner
  episodes : ∀ ref ∈ t.episodes, NamedAs "episode_" ref
  directEpisodes : ∀ ref ∈ t.directEpisodes, NamedAs "episode_" ref
  outcomes : ∀ ref ∈ t.outcomeRefs, NamedAs "outcome_" ref
  receipts : ∀ r ∈ t.receipts, NamedAs "delivery_" r.2
  anchors : ∀ ref ∈ t.anchors, NamedAs "episode_" ref
  basisState : ∀ key ∈ t.basisState, '\x00' ∈ key.toList

structure ActiveRecollection.Formatted (r : ActiveRecollection) : Prop where
  owner : OwnerKind r.owner
  basisState : ∀ key ∈ r.basisState, '\x00' ∈ key.toList

structure WorkerRequest.Formatted (r : WorkerRequest) : Prop where
  targets : ∀ ref ∈ r.allowedTargetRefs, ref ≠ "basis"
  basis : ∀ ref ∈ r.allowedBasisRefs, NamedAs "episode_" ref ∨ NamedAs "outcome_" ref

/-- What a digest tells. -/
structure DigestsTell (store : Store) : Prop where
  feedback : ∀ targets targets', (∀ t ∈ targets, t.Formatted) → (∀ t ∈ targets', t.Formatted) →
    store.hashFeedbackState targets = store.hashFeedbackState targets' →
      TargetsAgree targets targets'
  recollections : ∀ l l' : List ActiveRecollection, (∀ r ∈ l, r.Formatted) →
    (∀ r ∈ l', r.Formatted) → store.hashRecollectionState l = store.hashRecollectionState l' →
      List.Forall₂ ActiveRecollection.Agrees l l'
  request : ∀ r r' : WorkerRequest, r.Formatted → r'.Formatted →
    store.hashConsolidationWorkerRequest r = store.hashConsolidationWorkerRequest r' → r = r'
  evidence : ∀ fields e e', appendWorkerEvidenceHashFields fields e =
    appendWorkerEvidenceHashFields fields e' → e = e'

/-- The windows are the same to the worker, to validation and to application. -/
structure WindowState.Agrees (jobRef : String) (w w' : WindowState) : Prop where
  request : w.workerRequest jobRef = w'.workerRequest jobRef
  targets : TargetsAgree w.targets w'.targets
  recollections : List.Forall₂ ActiveRecollection.Agrees w.recollections w'.recollections

section

variable {store : Store} {d : Db} {t t' : FeedbackTarget}

theorem kindWord_of_owner {owner : OwnerScope} (h : OwnerKind owner) : KindWord owner.kind.text := by
  rcases h with h | h <;> rw [h]
  · exact Or.inl rfl
  · exact Or.inr rfl

theorem KindWord.not_named {word kind : String} (h : KindWord word)
    (hkind : ¬(kind.toList <+: "agent".toList ∨ kind.toList <+: "relationship".toList)) :
    ¬NamedAs kind word := by
  intro hnamed
  rcases h with rfl | rfl
  · exact hkind (Or.inl hnamed.starts)
  · exact hkind (Or.inr hnamed.starts)

theorem KindWord.no_nul {word : String} (h : KindWord word) : '\x00' ∉ word.toList := by
  rcases h with rfl | rfl <;> decide

theorem mem_of_sortedKeys {l l' : List String} (h : sortedKeys l = sortedKeys l') (ref : String) :
    ref ∈ l ↔ ref ∈ l' := by
  rw [← mem_sortedKeys, h, mem_sortedKeys]

/-! ## The fields of a target -/

/-- The receipts of a target, by Episode. -/
def FeedbackTarget.receiptGroups (t : FeedbackTarget) : List (String × List String) :=
  (sortedKeys (t.receipts.map (·.1))).map fun ref =>
    (ref, sortedKeys ((t.receipts.filter (·.1 == ref)).map (·.2)))

def FeedbackTarget.outcomePairs (t : FeedbackTarget) : List (String × String) :=
  (sortedKeys t.outcomeRefs).map fun ref => (ref, t.outcomeEpisode ref)

theorem mem_receipts {r : String × String} :
    r ∈ t.receipts ↔ ∃ g ∈ t.receiptGroups, g.1 = r.1 ∧ r.2 ∈ g.2 := by
  constructor
  · intro h
    refine ⟨_, List.mem_map.mpr ⟨r.1, mem_sortedKeys.mpr (List.mem_map_of_mem h), rfl⟩, rfl, ?_⟩
    exact mem_sortedKeys.mpr
      (List.mem_map.mpr ⟨r, List.mem_filter.mpr ⟨h, beq_self_eq_true _⟩, rfl⟩)
  · rintro ⟨g, hg, href, hmem⟩
    obtain ⟨ref, _, rfl⟩ := List.mem_map.mp hg
    obtain ⟨r', hr', hsame⟩ := List.mem_map.mp (mem_sortedKeys.mp hmem)
    obtain ⟨hr', hkey⟩ := List.mem_filter.mp hr'
    obtain rfl : r' = r := Prod.ext ((beq_iff_eq.mp hkey).trans href) hsame
    exact hr'

theorem mem_outcomeRefs {ref : String} :
    ref ∈ t.outcomeRefs ↔ ∃ pair ∈ t.outcomePairs, pair.1 = ref := by
  simp [FeedbackTarget.outcomePairs]

theorem outcomeEpisode_of_pairs (h : t.outcomePairs = t'.outcomePairs) (ref : String) :
    t.outcomeEpisode ref = t'.outcomeEpisode ref := by
  have hout : ∀ t : FeedbackTarget, ref ∉ t.outcomeRefs → t.outcomeEpisode ref = "" := by
    intro t hno
    have hnone : t.outcomes.find? (·.1 == ref) = none :=
      List.find?_eq_none.mpr fun pair hpair heq =>
        hno (List.mem_map.mpr ⟨pair, hpair, beq_iff_eq.mp heq⟩)
    unfold FeedbackTarget.outcomeEpisode
    rw [hnone]
    rfl
  by_cases href : ref ∈ t.outcomeRefs
  · have hpair : (ref, t.outcomeEpisode ref) ∈ t.outcomePairs :=
      List.mem_map.mpr ⟨ref, mem_sortedKeys.mpr href, rfl⟩
    rw [h] at hpair
    obtain ⟨ref', _, heq⟩ := List.mem_map.mp hpair
    obtain ⟨rfl, hepisode⟩ := Prod.mk.inj heq
    exact hepisode.symm
  · have href' : ref ∉ t'.outcomeRefs := by
      rw [mem_outcomeRefs, ← h, ← mem_outcomeRefs]
      exact href
    rw [hout t href, hout t' href']

/-- The digest's fields with their lists one after the other. -/
theorem hashFields_lists (t : FeedbackTarget) (u : List String) : t.hashFields ++ u =
    [t.owner.kind.text, t.owner.tenantRef, t.owner.agentRef, t.owner.relationshipRef, t.seedRef,
      t.versionRef, toString t.versionNumber, t.tendency] ++ (sortedKeys t.episodes ++
    ("direct-episodes" :: (sortedKeys t.directEpisodes ++ ("outcomes" ::
      (t.outcomePairs.flatMap (fun pair => [pair.1, pair.2]) ++ ("anchors" ::
        (sortedKeys t.anchors ++ ("basis-state" :: (sortedKeys t.basisState ++
          (t.receiptGroups.flatMap (fun g => "receipts" :: g.1 :: g.2) ++ u)))))))))) := by
  simp only [FeedbackTarget.hashFields, FeedbackTarget.outcomePairs, FeedbackTarget.receiptGroups,
    List.flatMap_map, List.append_assoc, List.cons_append, List.nil_append]

theorem owner_of_fields {owner owner' : OwnerScope} (hkind : owner.kind.text = owner'.kind.text)
    (htenant : owner.tenantRef = owner'.tenantRef) (hagent : owner.agentRef = owner'.agentRef)
    (hrelationship : owner.relationshipRef = owner'.relationshipRef) : owner = owner' := by
  obtain ⟨kind, tenant, agent, relationship⟩ := owner
  obtain ⟨kind', tenant', agent', relationship'⟩ := owner'
  obtain rfl := ScopeKind.text_injective hkind
  obtain rfl : tenant = tenant' := htenant
  obtain rfl : agent = agent' := hagent
  obtain rfl : relationship = relationship' := hrelationship
  rfl

/-- Groups of receipts, up to another target. -/
theorem readable_receipts : ReadableBefore
    (fun g : String × List String => ∀ r ∈ g.2, NamedAs "delivery_" r)
    (fun word => word = "receipts" ∨ KindWord word) Eq fun g => "receipts" :: g.1 :: g.2 := by
  intro g g' u v hg hg' hu hv heq
  have hstop : ∀ word, (word = "receipts" ∨ KindWord word) → ¬NamedAs "delivery_" word := by
    rintro word (rfl | hword)
    · exact fun hnamed => absurd hnamed.starts (by decide)
    · exact hword.not_named (by decide)
  simp only [List.cons_append, List.cons.injEq, true_and] at heq
  obtain ⟨href, heq⟩ := heq
  obtain ⟨hrefs, huv⟩ := run_ends hg hg' (hu.mono hstop) (hv.mono hstop) heq
  exact ⟨Prod.ext href hrefs, huv⟩

/-- Outcomes with their Episodes, up to the anchors. -/
theorem readable_pairs : ReadableBefore (fun pair : String × String => NamedAs "outcome_" pair.1)
    (fun _ => True) Eq fun pair => [pair.1, pair.2] := by
  intro pair pair' u v _ _ _ _ heq
  simp only [List.cons_append, List.nil_append, List.cons.injEq] at heq
  exact ⟨Prod.ext heq.1 heq.2.1, heq.2.2⟩

theorem named_receiptGroups (h : t.Formatted) :
    ∀ g ∈ t.receiptGroups, ∀ r ∈ g.2, NamedAs "delivery_" r := by
  intro g hg r hr
  obtain ⟨ref, _, rfl⟩ := List.mem_map.mp hg
  obtain ⟨r', hr', rfl⟩ := List.mem_map.mp (mem_sortedKeys.mp hr)
  exact h.receipts r' (List.mem_filter.mp hr').1

theorem named_outcomePairs (h : t.Formatted) :
    ∀ pair ∈ t.outcomePairs, NamedAs "outcome_" pair.1 := by
  intro pair hpair
  obtain ⟨ref, href, rfl⟩ := List.mem_map.mp hpair
  exact h.outcomes ref (mem_sortedKeys.mp href)

theorem not_named {kind word : String} (h : ¬kind.toList <+: word.toList) : ¬NamedAs kind word :=
  fun hnamed => h hnamed.starts

/-- A target, up to another target. -/
theorem readable_target : ReadableBefore FeedbackTarget.Formatted KindWord FeedbackTarget.Agrees
    FeedbackTarget.hashFields := by
  intro t t' u v ht ht' hu hv heq
  rw [hashFields_lists, hashFields_lists] at heq
  simp only [List.cons_append, List.nil_append, List.cons.injEq] at heq
  obtain ⟨hkind, htenant, hagent, hrelationship, hseed, hversion, hnumber, htendency, heq⟩ := heq
  have hsorted : ∀ {kind : String} {l : List String}, (∀ ref ∈ l, NamedAs kind ref) →
      ∀ ref ∈ sortedKeys l, NamedAs kind ref := fun h ref href => h ref (mem_sortedKeys.mp href)
  obtain ⟨hepisodes, heq⟩ := run_mark (hsorted ht.episodes) (hsorted ht'.episodes)
    (not_named (by decide)) heq
  obtain ⟨hdirect, heq⟩ := run_mark (hsorted ht.directEpisodes) (hsorted ht'.directEpisodes)
    (not_named (by decide)) heq
  have hmark : ∀ (pair : String × String) (w : List String), NamedAs "outcome_" pair.1 →
      ¬Starts (· = "anchors") ([pair.1, pair.2] ++ w) := by
    intro pair w hpair hstarts
    have heq : pair.1 = "anchors" := hstarts pair.1 rfl
    exact hpair.ne (by decide) heq
  obtain ⟨hpairs, heq⟩ := readable_pairs.flatMap (fun _ _ _ => by simp [Starts]) hmark
    (fun _ _ => trivial) (named_outcomePairs ht) (named_outcomePairs ht') (starts_cons.mpr rfl)
    (starts_cons.mpr rfl) heq
  obtain ⟨hanchors, heq⟩ := run_mark (hsorted ht.anchors) (hsorted ht'.anchors)
    (not_named (by decide)) (List.cons.inj heq).2
  have hreceipts : ∀ {t : FeedbackTarget} {w : List String}, Starts KindWord w →
      Starts (fun word => '\x00' ∉ word.toList)
        (t.receiptGroups.flatMap (fun g => "receipts" :: g.1 :: g.2) ++ w) := by
    intro t w hw
    cases t.receiptGroups with
    | nil => exact hw.mono fun _ hword => hword.no_nul
    | cons g rest => exact starts_cons.mpr (by decide)
  obtain ⟨hstate, heq⟩ := run_ends (S := fun word : String => '\x00' ∈ word.toList)
    (fun key hkey => ht.basisState key (mem_sortedKeys.mp hkey))
    (fun key hkey => ht'.basisState key (mem_sortedKeys.mp hkey)) (hreceipts hu) (hreceipts hv) heq
  have hword : ∀ (g : String × List String) (w : List String), (∀ r ∈ g.2, NamedAs "delivery_" r) →
      ¬Starts KindWord (("receipts" :: g.1 :: g.2) ++ w) := by
    intro g w _ hstarts
    rcases starts_cons.mp hstarts with h | h <;> exact absurd h (by decide)
  obtain ⟨hgroups, huv⟩ := readable_receipts.flatMap (fun _ _ _ => starts_cons.mpr (Or.inl rfl))
    hword (fun _ => Or.inr) (named_receiptGroups ht) (named_receiptGroups ht') hu hv heq
  rw [List.forall₂_eq_eq_eq] at hpairs hgroups
  refine ⟨⟨?_, hseed, hversion, toString_injective hnumber, htendency, mem_of_sortedKeys hepisodes,
    mem_of_sortedKeys hdirect, fun ref => ?_, outcomeEpisode_of_pairs hpairs, fun r => ?_,
    mem_of_sortedKeys hanchors, mem_of_sortedKeys hstate⟩, huv⟩
  · exact owner_of_fields hkind htenant hagent hrelationship
  · rw [mem_outcomeRefs, hpairs, ← mem_outcomeRefs]
  · rw [mem_receipts, hgroups, ← mem_receipts]

theorem sortedTargets_formatted {targets : List FeedbackTarget} (h : ∀ t ∈ targets, t.Formatted) :
    ∀ t ∈ sortedTargets targets, t.Formatted := by
  intro t ht
  obtain ⟨ref, _, hfind⟩ := List.mem_filterMap.mp ht
  exact h t (targetByRef_some hfind).1

theorem targetByRef_sorted {targets : List FeedbackTarget} (h : t ∈ sortedTargets targets) :
    targetByRef targets t.versionRef = some t := by
  obtain ⟨ref, _, hfind⟩ := List.mem_filterMap.mp h
  rw [(targetByRef_some hfind).2]
  exact hfind

theorem exists_of_forall₂ {α : Type} {R : α → α → Prop} {l l' : List α} (h : List.Forall₂ R l l')
    {a : α} (ha : a ∈ l) : ∃ b ∈ l', R a b := by
  induction h with
  | nil => cases ha
  | cons hab _ ih =>
    rcases List.mem_cons.mp ha with rfl | ha
    · exact ⟨_, List.mem_cons_self, hab⟩
    · obtain ⟨b, hb, hr⟩ := ih ha
      exact ⟨b, List.mem_cons_of_mem _ hb, hr⟩

/-- Targets that agree in order are of the same versions. -/
theorem targetsAgree_of_sorted {targets targets' : List FeedbackTarget}
    (h : List.Forall₂ FeedbackTarget.Agrees (sortedTargets targets) (sortedTargets targets')) :
    TargetsAgree targets targets' := by
  intro ref
  cases hfind : targetByRef targets ref with
  | some t =>
    obtain ⟨t', ht', hagrees⟩ := exists_of_forall₂ h (mem_sortedTargets hfind)
    have hfind' := targetByRef_sorted ht'
    rw [← hagrees.versionRef, (targetByRef_some hfind).2] at hfind'
    rw [hfind']
    exact .some hagrees
  | none =>
    cases hfind' : targetByRef targets' ref with
    | none => exact .none
    | some t' =>
      have hflip : List.Forall₂ (flip FeedbackTarget.Agrees) (sortedTargets targets')
          (sortedTargets targets) := List.Forall₂.flip h
      obtain ⟨t, ht, hagrees⟩ := exists_of_forall₂ hflip (mem_sortedTargets hfind')
      have hsame := targetByRef_sorted ht
      rw [show t.versionRef = t'.versionRef from hagrees.versionRef, (targetByRef_some hfind').2,
        hfind] at hsame
      cases hsame

/-! ## The digests -/

theorem readable_recollectionState : ReadableBefore ActiveRecollection.Formatted KindWord
    ActiveRecollection.Agrees ActiveRecollection.hashFields := by
  intro r r' u v hr hr' hu hv heq
  simp only [ActiveRecollection.hashFields, List.cons_append, List.nil_append,
    List.cons.injEq] at heq
  obtain ⟨hkind, htenant, hagent, hrelationship, hrecollection, hversion, hnumber, htext,
    happlication, heq⟩ := heq
  obtain ⟨hstate, huv⟩ := run_ends (S := fun word : String => '\x00' ∈ word.toList)
    (fun key hkey => hr.basisState key (mem_sortedKeys.mp hkey))
    (fun key hkey => hr'.basisState key (mem_sortedKeys.mp hkey))
    (hu.mono fun _ hword => hword.no_nul) (hv.mono fun _ hword => hword.no_nul) heq
  exact ⟨⟨owner_of_fields hkind htenant hagent hrelationship, hrecollection, hversion,
    toString_injective hnumber, htext, happlication, mem_of_sortedKeys hstate⟩, huv⟩

theorem evidence_fields (fields : List String) (e : WindowEvidence) :
    appendWorkerEvidenceHashFields fields e = fields ++ appendWorkerEvidenceHashFields [] e := by
  simp only [appendWorkerEvidenceHashFields, List.append_assoc, List.nil_append]

theorem digests_tell (hhash : Collisionless store) : DigestsTell store where
  feedback targets targets' ht ht' h := by
    have heq := hashFeedbackState_fields hhash h
    rw [← List.append_nil (List.flatMap _ (sortedTargets targets)),
      ← List.append_nil (List.flatMap _ (sortedTargets targets'))] at heq
    refine targetsAgree_of_sorted (readable_target.flatMap (E := fun _ => False) ?_ ?_
      (fun _ h => h.elim) (sortedTargets_formatted ht) (sortedTargets_formatted ht') starts_nil
      starts_nil heq).1
    · exact fun t u ht => starts_cons.mpr (kindWord_of_owner ht.owner)
    · exact fun t u _ hstarts => starts_cons.mp hstarts
  recollections l l' hl hl' h := by
    have heq := (List.cons.inj (hhash _ _ h)).2
    rw [← List.append_nil (List.flatMap _ l), ← List.append_nil (List.flatMap _ l')] at heq
    refine (readable_recollectionState.flatMap (E := fun _ => False) ?_ ?_ (fun _ h => h.elim)
      hl hl' starts_nil starts_nil heq).1
    · exact fun r u hr => starts_cons.mpr (kindWord_of_owner hr.owner)
    · exact fun r u _ hstarts => starts_cons.mp hstarts
  request r r' hr hr' h := by
    have heq := hhash _ _ h
    rw [evidence_fields _ r.evidence, evidence_fields _ r'.evidence] at heq
    simp only [List.append_assoc, List.cons_append, List.nil_append] at heq
    obtain ⟨hjob, heq⟩ := List.cons.inj (List.cons.inj heq).2
    obtain ⟨hwindow, heq⟩ := List.cons.inj heq
    have heq := (List.cons.inj heq).2
    obtain ⟨htargets, heq⟩ := run_mark (S := (· ≠ "basis")) hr.targets hr'.targets (by simp) heq
    have hend : ∀ e : WindowEvidence, Starts
        (fun word => ¬(NamedAs "episode_" word ∨ NamedAs "outcome_" word))
        (appendWorkerEvidenceHashFields [] e) := by
      intro e
      refine starts_cons.mpr ?_
      rintro (h | h) <;> exact absurd h.starts (by decide)
    obtain ⟨hbasis, heq⟩ := run_ends hr.basis hr'.basis (hend _) (hend _) heq
    have hevidence := appendWorkerEvidenceHashFields_injective heq
    obtain ⟨job, window, targets, basis, evidence⟩ := r
    obtain ⟨job', window', targets', basis', evidence'⟩ := r'
    obtain rfl : job = job' := hjob
    obtain rfl : window = window' := hwindow
    obtain rfl : targets = targets' := htargets
    obtain rfl : basis = basis' := hbasis
    obtain rfl : evidence = evidence' := hevidence
    rfl
  evidence _ _ _ h := appendWorkerEvidenceHashFields_injective h

/-! ## What is loaded is formatted -/

theorem named_of_load (hd : WorldLaw store d) {ref : String} {e : EpisodeEvidence}
    (h : loadEpisode ref d = some e) : NamedAs "episode_" ref := by
  obtain ⟨row, hrow, rfl, _⟩ := loadEpisode_row h
  rw [(hd.episodes row hrow).1]
  exact ⟨_, rfl⟩

theorem ownerKind_of_whole {scope : Scope} (h : scope.Whole) : OwnerKind scope.owner := by
  rcases h.relationship with ⟨hkind, _⟩ | ⟨hkind, _⟩
  · exact Or.inl hkind
  · exact Or.inr hkind

theorem ownerKind_of_load (hd : WorldLaw store d) {ref : String} {e : EpisodeEvidence}
    (h : loadEpisode ref d = some e) : OwnerKind e.owner := by
  obtain ⟨row, hrow, _, rfl, _⟩ := loadEpisode_row h
  exact ownerKind_of_whole (hd.episodes row hrow).2

theorem ne_basis_of_version {ref root : String} {number : Nat} (h : ref = versionRefOf root number) :
    ref ≠ "basis" := by
  have hat : '@' ∈ ref.toList := by
    rw [h]
    simp [versionRefOf]
  exact fun heq => absurd (heq ▸ hat) (by decide)

theorem named_of_reported {o : OutcomeRow} (h : store.ReportedRow o) : NamedAs "outcome_" o.ref := by
  obtain ⟨report, _, heq⟩ := h
  rw [heq]
  exact ⟨_, rfl⟩

namespace WindowState.Loaded

variable {window : Window} {w : WindowState}

theorem episode_named (h : w.Loaded store window d) (hd : WorldLaw store d) :
    ∀ e ∈ w.episodes, NamedAs "episode_" e.ref :=
  fun e he => named_of_load hd (h.episodes.loaded e he)

theorem outcome_named (h : w.Loaded store window d) (hreported : store.Reported d) :
    ∀ o ∈ w.outcomes, NamedAs "outcome_" o.ref := by
  intro o ho
  rcases h.outcomes o ho with ⟨ref, _, hload⟩ | ⟨pair, hpair, rfl⟩
  · obtain ⟨_, _, row, hrow, source, _, rfl, _⟩ := loadFeedbackOutcome_ok hload
    exact named_of_reported (hreported row hrow)
  · obtain ⟨_, row, hrow, source, _, heq, _⟩ :=
      loadUniqueNonAgentFormationOutcome_row (h.unique pair hpair)
    rw [heq]
    exact named_of_reported (hreported row hrow)

theorem target_formatted (h : w.Loaded store window d) (hd : WorldLaw store d) (hnamed : d.Named)
    (hreported : store.Reported d) (hne : w.episodes ≠ []) : ∀ t ∈ w.targets, t.Formatted := by
  intro t ht
  obtain ⟨outcomes, hin, hstate⟩ := h.targets
  obtain ⟨refs, hdispositions⟩ := h.dispositions
  rw [hdispositions] at hstate
  have hloaded := (loadFeedbackState_ok hstate).1 t ht
  refine ⟨?_, fun ref href => ?_, fun ref href => ?_, fun ref href => ?_, fun r hr => ?_,
    fun ref href => ?_, ?_⟩
  · obtain ⟨e, he⟩ := List.exists_mem_of_ne_nil _ hne
    have hwindow := ownerKind_of_load hd (h.episodes.loaded e he)
    rw [h.episodes.owned e he] at hwindow
    have hshown := owner_of_loaded hd h.episodes.owned hloaded
    simp only [shownOwners, List.mem_cons, List.not_mem_nil, or_false] at hshown
    rcases hshown with howner | howner <;> rw [howner]
    · exact hwindow
    · exact Or.inl rfl
  · obtain ⟨e, he, rfl, _⟩ := hloaded.delivered ref href
    exact h.episode_named hd e he
  · obtain ⟨e, he, rfl⟩ := List.mem_map.mp (hloaded.direct ref href).2
    exact h.episode_named hd e (List.mem_filter.mp he).1
  · obtain ⟨r, hr, rfl⟩ := List.mem_map.mp href
    obtain ⟨o, ho, href, _⟩ := hloaded.attributed r hr
    obtain ⟨o', ho', href'⟩ := hin o ho
    rw [← href, ← href']
    exact h.outcome_named hreported o' ho'
  · obtain ⟨e, he, _, row, hrow, _, href⟩ := hloaded.receipted r hr
    obtain ⟨c, i, delivery, v, owner, hshows⟩ := mem_feedbackRows hrow
    rw [← href, hshows.joined]
    exact hnamed.deliveries delivery hshows.delivery.1
  · obtain ⟨e, hload, _⟩ := hloaded.owned ref href
    exact named_of_load hd hload
  · exact hloaded.state

theorem recollection_formatted (h : w.Loaded store window d) (hd : WorldLaw store d)
    (hne : w.episodes ≠ []) : ∀ r ∈ w.recollections, r.Formatted ∧ r.versionRef ≠ "basis" := by
  intro r hr
  obtain ⟨refs, heq⟩ := h.recollections
  rw [heq] at hr
  obtain ⟨a, ha, rfl⟩ := mem_loadActiveRecollections hr
  obtain ⟨root, hroot, howner, v, hv, _, href, _, rfl⟩ := mem_ownedRecollections.mp ha
  refine ⟨⟨?_, fun key hkey => ?_⟩, ?_⟩
  · obtain ⟨e, he⟩ := List.exists_mem_of_ne_nil _ hne
    have hwindow := ownerKind_of_load hd (h.episodes.loaded e he)
    rw [h.episodes.owned e he] at hwindow
    exact hwindow
  · obtain ⟨b, _, rfl⟩ := List.mem_map.mp hkey
    simp
  · exact ne_basis_of_version (hd.memory.recollectionName hv)

theorem request_formatted (h : w.Loaded store window d) (hd : WorldLaw store d) (hnamed : d.Named)
    (hreported : store.Reported d) (hne : w.episodes ≠ []) (jobRef : String) :
    (w.workerRequest jobRef).Formatted := by
  have hbasis : ∀ ref ∈ w.formationOutcomes, NamedAs "outcome_" ref := by
    intro ref href
    rcases List.mem_append.mp (mem_sortedKeys.mp href) with href | href
    · unfold WindowState.eligibleFormationOutcomes at href
      split at href
      · cases href
      · obtain ⟨o, ho, rfl⟩ := List.mem_map.mp href
        exact h.outcome_named hreported o (List.mem_filter.mp ho).1
    · obtain ⟨pair, hpair, rfl⟩ := List.mem_map.mp href
      obtain ⟨o, ho, heq⟩ := h.paired pair hpair
      rw [← heq]
      exact h.outcome_named hreported o ho
  constructor
  · intro ref href
    rcases List.mem_append.mp (show ref ∈ w.allowedTargetRefs from href) with href | href
    · rcases List.mem_append.mp href with href | href
      · rcases List.mem_append.mp href with href | href
        · split at href
          · cases href
          · rw [List.mem_singleton.mp href]
            decide
        · split at href
          · rw [List.mem_singleton.mp href]
            decide
          · cases href
      · obtain ⟨r, hr, rfl⟩ := List.mem_map.mp href
        exact (h.recollection_formatted hd hne r hr).2
    · obtain ⟨t, ht, rfl⟩ := List.mem_map.mp (mem_sortedKeys.mp href)
      exact ne_basis_of_version ((h.rooted t ht).name hd.memory)
  · intro ref href
    have href := mem_firstPlaces.mp (show ref ∈ w.allowedBasisRefs from href)
    simp only [List.mem_append, List.mem_map, List.mem_flatMap] at href
    rcases href with ((⟨e, he, rfl⟩ | ⟨e, he, rfl⟩) | href) | ⟨t, ht, href⟩
    · exact Or.inl (h.episode_named hd e he)
    · exact Or.inl (named_of_load hd (h.related e he).2)
    · exact Or.inr (hbasis ref href)
    · have hformatted := sortedTargets_formatted (h.target_formatted hd hnamed hreported hne) t ht
      simp only [FeedbackTarget.offeredBasis, FeedbackTarget.offeredAnchors, List.mem_append,
        mem_sortedKeys] at href
      rcases href with (href | href) | href
      · exact Or.inl (hformatted.episodes ref href)
      · exact Or.inr (hformatted.outcomes ref href)
      · split at href
        · cases href
        · exact Or.inl (hformatted.anchors ref (mem_sortedKeys.mp href))

end WindowState.Loaded

/-! ## Over all runs -/

/-- The three digests that a commit compares. -/
structure SameDigests (store : Store) (jobRef : String) (w w' : WindowState) : Prop where
  state : store.hashFeedbackState w.targets = store.hashFeedbackState w'.targets
  recollections : store.hashRecollectionState w.recollections =
    store.hashRecollectionState w'.recollections
  request : store.hashConsolidationWorkerRequest (w.workerRequest jobRef) =
    store.hashConsolidationWorkerRequest (w'.workerRequest jobRef)

/-- What the same window is loaded to in two stores. -/
structure StalenessSound (store : Store) (d d' : Db) : Prop where
  /-- The digests of two reads tell whether they are the same. -/
  reads : ∀ p w w', p.window.valid = true → store.reloaded p d = .ok w →
    store.reloaded p d' = .ok w' → SameDigests store p.window.jobRef w w' →
      w.Agrees p.window.jobRef w'
  /-- A commit that finds a proposal unchanged finds what the worker was asked about. -/
  commits : ∀ index window p w', store.snapshotWindow index window d = .ok (.proposed p) →
    store.reloaded p d' = .ok w' → store.unchanged p w' = true →
      ∃ w, store.reloaded p d = .ok w ∧ p.request = w.workerRequest p.window.jobRef ∧
        w.Agrees p.window.jobRef w'

theorem agrees_reach (hhash : Collisionless store) {s s' : MemorySys} (h : MemoryReach store s)
    (h' : MemoryReach store s') {p : Proposal} {w w' : WindowState} (hvalid : p.window.valid = true)
    (hw : store.reloaded p s.db = .ok w) (hw' : store.reloaded p s'.db = .ok w')
    (hsame : SameDigests store p.window.jobRef w w') : w.Agrees p.window.jobRef w' := by
  have hloaded := loaded_reloaded hvalid hw
  have hloaded' := loaded_reloaded hvalid hw'
  have hne := episodes_ne_nil hvalid hloaded.episodes
  have hne' := episodes_ne_nil hvalid hloaded'.episodes
  have hd := worldLaw_reach hhash h
  have hd' := worldLaw_reach hhash h'
  have htell := digests_tell hhash
  refine ⟨htell.request _ _ ?_ ?_ hsame.request, htell.feedback _ _ ?_ ?_ hsame.state,
    htell.recollections _ _ ?_ ?_ hsame.recollections⟩
  · exact hloaded.request_formatted hd (named_reach h) (reported_reach h) hne _
  · exact hloaded'.request_formatted hd' (named_reach h') (reported_reach h') hne' _
  · exact hloaded.target_formatted hd (named_reach h) (reported_reach h) hne
  · exact hloaded'.target_formatted hd' (named_reach h') (reported_reach h') hne'
  · exact fun r hr => (hloaded.recollection_formatted hd hne r hr).1
  · exact fun r hr => (hloaded'.recollection_formatted hd' hne' r hr).1

/-- The digests of a commit can be read back, and in any two reached states the same digests of
one window are of the same request, targets and Recollections. -/
theorem staleness_sound (store : Store) (hhash : Collisionless store) {s s' : MemorySys}
    (h : MemoryReach store s) (h' : MemoryReach store s') :
    DigestsTell store ∧ StalenessSound store s.db s'.db := by
  refine ⟨digests_tell hhash, fun p w w' hvalid hw hw' hsame =>
    agrees_reach hhash h h' hvalid hw hw' hsame, fun index window p w' hp hw' hunchanged => ?_⟩
  obtain ⟨rfl, hproposed⟩ := snapshot_proposed hp
  obtain ⟨_, w, hw, hsame, hrequest⟩ := snapshot_reloaded hp
  simp only [Store.unchanged, Bool.and_eq_true, beq_iff_eq] at hsame hunchanged
  refine ⟨w, hw, hrequest, agrees_reach hhash h h' hproposed.valid hw hw' ⟨?_, ?_, ?_⟩⟩
  · exact hsame.1.1.trans hunchanged.1.1.symm
  · exact hsame.1.2.trans hunchanged.1.2.symm
  · exact hsame.2.trans hunchanged.2.symm

end

/-! A window with feedback, and one with a Recollection, while another session goes on. -/

/-- How many targets, receipts, Outcomes and Recollections a window has. -/
def WindowState.sizes (w : WindowState) : List Nat :=
  [w.targets.length, (w.targets.flatMap (·.receipts)).length,
    (w.targets.flatMap (·.outcomes)).length, w.recollections.length]

/-- What the task's window is loaded to, before and after. -/
def reloadedBoth (t : Task) (d d' : Db) : Option (WindowState × WindowState) :=
  match sampleStore.snapshotWindow none t.window d with
  | .ok (.proposed p) =>
    match sampleStore.reloaded p d, sampleStore.reloaded p d' with
    | .ok w, .ok w' => some (w, w')
    | _, _ => none
  | _ => none

def SameLater (t : Task) (d d' : Db) (sizes : List Nat) : Prop :=
  d.episodes.length ≠ d'.episodes.length ∧
    (reloadedBoth t d d').map (fun r => (decide (r.1 = r.2), r.1.sizes)) = some (true, sizes)

instance (t : Task) (d d' : Db) (sizes : List Nat) : Decidable (SameLater t d d' sizes) :=
  inferInstanceAs (Decidable (_ ∧ _))

theorem reloadedBoth_some {t : Task} {d d' : Db} {w w' : WindowState}
    (h : reloadedBoth t d d' = some (w, w')) : ∃ p,
      sampleStore.snapshotWindow none t.window d = .ok (.proposed p) ∧
        sampleStore.reloaded p d = .ok w ∧ sampleStore.reloaded p d' = .ok w' := by
  unfold reloadedBoth at h
  split at h
  · rename_i p hp
    split at h
    · rename_i w₁ w₂ hw hw'
      obtain ⟨rfl, rfl⟩ := Prod.mk.inj (Option.some.inj h)
      exact ⟨p, hp, hw, hw'⟩
    · cases h
  · cases h

def reenactedLater : MemorySys := sampleStore.calls otherCalls sampleReenacted

def recastLater : MemorySys := sampleStore.calls otherCalls sampleRecast

def reenactedLaterDb : Db := (played (otherCalls.map .call) reenactedDb).getD {}

def recastLaterDb : Db := (played (otherCalls.map .call) recastDb).getD {}

theorem later_runs :
    (played (otherCalls.map .call) reenactedDb).isSome ∧
    (played (otherCalls.map .call) recastDb).isSome ∧
    SameLater selfInhibit reenactedDb reenactedLaterDb [1, 1, 1, 0] ∧
    SameLater laterTask recastDb recastLaterDb [2, 0, 0, 2] := by
  decide +kernel

theorem reenactedLater_db : reenactedLater.db = reenactedLaterDb := by
  have h := play_db sampleReenacted_db (@written_calls otherCalls) (some_getD later_runs.1 {})
  rw [play_calls] at h
  exact h

theorem recastLater_db : recastLater.db = recastLaterDb := by
  have h := play_db sampleRecast_db (@written_calls otherCalls) (some_getD later_runs.2.1 {})
  rw [play_calls] at h
  exact h

/-- A commit in the later state finds the window that the worker was asked about. -/
def AgreesLater (t : Task) (s s' : MemorySys) (sizes : List Nat) : Prop :=
  s.db.episodes.length ≠ s'.db.episodes.length ∧
    ∃ p w w', sampleStore.snapshotWindow none t.window s.db = .ok (.proposed p) ∧
      sampleStore.reloaded p s.db = .ok w ∧ sampleStore.reloaded p s'.db = .ok w' ∧
      w.sizes = sizes ∧ w.Agrees p.window.jobRef w'

theorem staleness_sound_sample :
    AgreesLater selfInhibit sampleReenacted reenactedLater [1, 1, 1, 0] ∧
    AgreesLater laterTask sampleRecast recastLater [2, 0, 0, 2] := by
  have hagrees : ∀ t s s' sizes, MemoryReach sampleStore s → MemoryReach sampleStore s' →
      SameLater t s.db s'.db sizes → AgreesLater t s s' sizes := by
    intro t s s' sizes h h' ⟨hlength, hsame⟩
    obtain ⟨⟨w, w'⟩, hboth, heq⟩ := Option.map_eq_some_iff.mp hsame
    obtain ⟨hw, hsizes⟩ := Prod.mk.inj heq
    obtain rfl : w = w' := of_decide_eq_true hw
    obtain ⟨p, hp, hw, hw'⟩ := reloadedBoth_some hboth
    obtain ⟨_, w₁, hw₁, hunchanged, _⟩ := snapshot_reloaded hp
    obtain rfl := Except.ok.inj (hw₁.symm.trans hw)
    obtain ⟨w₂, hw₂, _, hagrees⟩ := (staleness_sound sampleStore sampleStore_collisionless h
      h').2.commits none t.window p w₁ hp hw' hunchanged
    obtain rfl := Except.ok.inj (hw₂.symm.trans hw)
    exact ⟨hlength, p, w₂, w₂, hp, hw, hw', hsizes, hagrees⟩
  constructor
  · refine hagrees _ _ _ _ sampleReenacted_reach.1
      (reach_calls sampleReenacted_reach.2 sampleReenacted_reach.1 _).1 ?_
    rw [sampleReenacted_db, reenactedLater_db]
    exact later_runs.2.2.1
  · refine hagrees _ _ _ _ sampleRecast_reach.1
      (reach_calls sampleRecast_reach.2 sampleRecast_reach.1 _).1 ?_
    rw [sampleRecast_db, recastLater_db]
    exact later_runs.2.2.2

end ChoraMem
