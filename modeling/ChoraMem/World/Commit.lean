/-
The commit of a consolidation among other transactions.

A commit that goes through either answered a job that had its receipt, and wrote
nothing, or carried out the accepted batch on the store it commits in and froze the
receipt of a job that had none.
-/
import ChoraMem.World.Proposals

namespace ChoraMem

open Txn Versions

/-- What the commit of a proposal did to the store it commits in. -/
inductive Concluded (store : Store) (env : Ambient) (p : Proposal) (text : String) (d : Db)
    (receipt : Receipt) (d' : Db) : Prop
  | frozen {x : Db} (hx : WorldLaw store x) (hgains : Gains x d) (hgrown : Grown x d)
      (hfound : loadConsolidationReceipt p.owner.tenantRef p.window.jobRef p.requestHash x =
        .ok (some receipt)) (hsame : d' = d)
  | committed {e y : Db} {effects : List (Change × Applied)} (sight : Sight store p e d)
      (hgains : Gains e d) (hlinks : KeepsLinks store e d)
      (hlocked : ∀ t ∈ sight.targets, p.locks t.owner)
      (hunchanged : store.unchanged p sight.window = true)
      (hbatch : Batch store env p.window.jobRef sight.window (sight.window.accepted text) d effects y)
      (hreceipt : receipt = sight.window.receipt effects)
      (hfree : ∀ r ∈ y.receipts, r.key ≠ (p.owner.tenantRef, p.window.jobRef))
      (hsame : d' = y.apply (.insertReceipt ⟨p.owner, p.window.jobRef, p.requestHash⟩))

section

variable {store : Store} {d e : Db} {l : Local Write String}

theorem ends_selectOrFail {r : Pact Db Write String} {α β : Type} {q : Db → Except Fault α}
    {f : α → Tx β} {Q : β → Local Write String → Db → Prop}
    (h : ∀ e', r.Between l e e' d → ∀ a, q (applyAll e' l.log) = .ok a →
      r.Ends d (f a) Q l e') :
    r.Ends d (selectOrFail q >>= f) Q l e := by
  intro e' hb
  dsimp only
  cases hq : q (applyAll e' l.log) with
  | error err => exact trivial
  | ok a => exact h e' hb a hq

/-- The locks of owners, one after the other. -/
theorem ends_lockOwners (owners : List OwnerScope) (l : Local Write String) (e : Db) :
    (memoryPact store).Ends d
      (Prog.forEach (fun o => (Prog.acquire (store.consolidationOwnerLockKey o) : Tx Unit)) owners)
      (fun _ l' e' => l'.log = l.log ∧ (∀ o ∈ owners, store.Locked l'.held o) ∧
        (∀ k ∈ l.held, k ∈ l'.held) ∧ Gains e e' ∧ KeepsLinks store e e') l e := by
  induction owners generalizing l e with
  | nil =>
    exact ⟨rfl, fun o ho => absurd ho List.not_mem_nil, fun _ hk => hk, Gains.refl e, KeepsLinks.refl e⟩
  | cons o rest ih =>
    refine Pact.Ends.bind ?_
    intro e' hb _
    show (memoryPact store).Ends d (Prog.forEach _ rest) _ _ e'
    refine Pact.Ends.conseq (ih _ e') fun _ l' e'' h => ?_
    obtain ⟨hlog, hrest, hheld, hgains, hlinks⟩ := h
    refine ⟨hlog, fun o' ho' => ?_, fun k hk => hheld k (List.mem_cons_of_mem _ hk),
      hb.since.gains.trans hgains, hb.since.links.trans hlinks⟩
    rcases List.mem_cons.mp ho' with rfl | ho'
    · exact hheld _ List.mem_cons_self
    · exact hrest o' ho'

theorem seen_now {o : OwnerScope → Prop} (hinv : (memoryPact store).inv e)
    (hrel : (memoryPact store).rel l e d) (ho : ∀ owner, o owner → store.Locked l.held owner) :
    Seen store o e d e :=
  ⟨hinv, Gains.refl e, KeepsLinks.refl e, hrel.same.mono ho⟩

theorem Seen.later {o : OwnerScope → Prop} {e' x : Db} (h : Seen store o e d x) (hg : Gains e e')
    (hl : KeepsLinks store e e') : Seen store o e' d x :=
  ⟨h.law, h.gains.trans hg, h.links.trans hl, h.same⟩

/-- The window is loaded again under the locks of its owners. -/
theorem ends_reloadWindow {p : Proposal} {episodes : List EpisodeEvidence} {x₁ x₂ : Db}
    (hlocked : ∀ o, p.locks o → store.Locked l.held o) (hlog : l.log = [])
    (h₁ : Seen store (fun _ => False) e d x₁) (h₂ : Seen store (fun _ => False) e d x₂)
    (hload : loadConsolidationEpisodes p.window.episodeRefs x₁ = .ok (episodes, p.owner)) :
    (memoryPact store).Ends d
      (store.reloadWindow p episodes
        (loadIndexedConsolidationEpisodes p.owner p.found.episodeRefs episodes x₂))
      (fun w l' e' => l' = l ∧ (memoryPact store).Between l e e' d ∧
        ∃ s : Sight store p e' d, s.window = w) l e := by
  refine Pact.Ends.select fun e₃ hb₃ => ?_
  refine ends_selectOrFail fun e₄ hb₄ state hstate => ?_
  obtain ⟨targets, outcomes⟩ := state
  refine Pact.Ends.select fun e₅ hb₅ => ?_
  refine Pact.Ends.select fun e₆ hb₆ => ?_
  rw [hlog, applyAll_nil] at *
  have hnow : ∀ {x y}, (memoryPact store).Between l x y d → Seen store p.locks y d y := fun hb =>
    seen_now hb.inv hb.before hlocked
  have g₄ := hb₄.since.gains
  have g₅ := hb₅.since.gains
  have g₆ := hb₆.since.gains
  have g₃ := hb₃.since.gains
  have k₃ := hb₃.since.links
  have k₄ := hb₄.since.links
  have k₅ := hb₅.since.links
  have k₆ := hb₆.since.links
  refine ⟨rfl, ((hb₃.trans hb₄).trans hb₅).trans hb₆, ?_⟩
  refine ⟨{ forEpisodes := x₁, forRelated := x₂, forDispositions := e₃, forFeedback := e₄,
            forPairs := e₅, forRecollections := e₆, episodes := episodes, targets := targets,
            outcomes := outcomes,
            seenEpisodes := (((h₁.later g₃ k₃).later g₄ k₄).later g₅ k₅).later g₆ k₆,
            seenRelated := (((h₂.later g₃ k₃).later g₄ k₄).later g₅ k₅).later g₆ k₆,
            seenDispositions := (((hnow hb₃).later g₄ k₄).later g₅ k₅).later g₆ k₆,
            seenFeedback := ((hnow hb₄).later g₅ k₅).later g₆ k₆,
            seenPairs := (hnow hb₅).later g₆ k₆,
            seenRecollections := hnow hb₆,
            later := h₁.gains.trans (g₃.trans g₄),
            loadedEpisodes := hload, loadedFeedback := hstate }, rfl⟩

/-- A commit either finds the receipt of its job, or carries out the accepted changes of a
window that it has loaded under its locks. -/
theorem ends_commitWindow_with {r : Pact Db Write String} (hr : r.Implies (memoryPact store))
    {env : Ambient} {p : Proposal} {text : String} {x : Db}
    {Q : Receipt → Local Write String → Db → Prop} (hd : WorldLaw store d)
    (hhash : Collisionless store) (hx : WorldLaw store x) (hp : Proposed store p x)
    (hlog : l.log = [])
    (hfrozen : ∀ receipt x l' e', WorldLaw store x → Gains x d → Grown x d →
      loadConsolidationReceipt p.owner.tenantRef p.window.jobRef p.requestHash x = .ok (some receipt) →
      l'.log = [] → Q receipt l' e')
    (hcommit : ∀ e' (sight : Sight store p e' d) l', Gains e' d → KeepsLinks store e' d →
      (∀ t ∈ sight.targets, p.locks t.owner) → store.unchanged p sight.window = true →
      sight.window.Held p.locks d (fun tenantRef ref => Known tenantRef ref e') →
      Ready store p.locks d (fun tenantRef ref => Known tenantRef ref e') l' e' → l'.log = [] →
      r.Ends d (store.commitChanges env p sight.window text) Q l' e') :
    r.Ends d (store.commitWindow env p text) Q l e := by
  refine Pact.Ends.acquire fun e₀ _ _ => ?_
  refine ends_selectOrFail fun e₁ hb₁ found hfound => ?_
  have hb₁ := hb₁.implies hr
  dsimp only at hfound
  rw [hlog, applyAll_nil] at hfound
  cases found with
  | some receipt =>
    exact hfrozen receipt e₁ _ _ hb₁.inv hb₁.before.gains hb₁.before.grown hfound hlog
  | none =>
    refine ends_selectOrFail fun e₂ hb₂ loaded hload => ?_
    have hb₂ := hb₂.implies hr
    obtain ⟨episodes, owner⟩ := loaded
    dsimp only at hload ⊢
    rw [hlog, applyAll_nil] at hload
    split
    · exact trivial
    rename_i howner
    obtain rfl := not_not.mp howner
    refine Pact.Ends.select fun e₃ hb₃ => ?_
    have hb₃ := hb₃.implies hr
    dsimp only
    rw [hlog, applyAll_nil]
    refine Pact.Ends.bind (Pact.Ends.conseq ((ends_lockOwners p.lockOwners _ e₃).implies hr)
      fun _ l₄ e₄ h₄ => ?_)
    obtain ⟨hlog₄, hlocks, _, hgains, hlinks⟩ := h₄
    have hlog₄' : l₄.log = [] := hlog₄
    have hs₂ : Seen store (fun _ => False) e₂ d e₂ := seen_now hb₂.inv hb₂.before fun _ h => h.elim
    have hs₃ : Seen store (fun _ => False) e₃ d e₃ := seen_now hb₃.inv hb₃.before fun _ h => h.elim
    refine Pact.Ends.bind (Pact.Ends.conseq ((ends_reloadWindow hlocks hlog₄'
      ((hs₂.later hb₃.since.gains hb₃.since.links).later hgains hlinks) (hs₃.later hgains hlinks)
      hload).implies hr) fun w l₅ e₅ h₅ => ?_)
    obtain ⟨rfl, hb₅, sight, rfl⟩ := h₅
    split
    · exact trivial
    rename_i hunchanged
    have hunchanged' : store.unchanged p sight.window = true := by simpa using hunchanged
    have hge : Gains e₅ d := hb₅.before.gains
    have hstate : store.hashFeedbackState sight.targets = p.stateHash := by
      simp only [Store.unchanged, Sight.window_targets, Bool.and_eq_true, beq_iff_eq] at hunchanged'
      exact hunchanged'.1.1
    have hlocked := sight.locked hd hge hhash hx hp hstate
    have hheld := sight.held hge hp.valid hp.owner_locked hlocked
    have hready : Ready store p.locks d (fun tenantRef ref => Known tenantRef ref e₅) l₅ e₅ := by
      refine ⟨hlocks, fun w hw => ?_, fun b hb => ?_, fun _ _ h => h⟩
      · rw [hlog₄'] at hw
        cases hw
      · rw [hlog₄'] at hb
        cases hb
    exact hcommit e₅ sight l₅ hge hb₅.before.links hlocked hunchanged' hheld hready hlog₄'

theorem ends_commitWindow {env : Ambient} {p : Proposal} {text : String} {x : Db}
    (hd : WorldLaw store d) (hhash : Collisionless store) (hx : WorldLaw store x)
    (hp : Proposed store p x) (hlog : l.log = []) :
    (memoryPact store).Ends d (store.commitWindow env p text)
      (fun receipt l' _ => Concluded store env p text d receipt (applyAll d l'.log) ∧
        (applyAll d l'.log = d ∨ ∀ o, p.locks o → store.Locked l'.held o)) l e := by
  refine ends_commitWindow_with (Pact.Implies.refl _) hd hhash hx hp hlog ?_ ?_
  · intro receipt x' l' _ hx' hgains hgrown hfound hlog'
    have hsame : applyAll d l'.log = d := by rw [hlog', applyAll_nil]
    exact ⟨.frozen hx' hgains hgrown hfound hsame, Or.inl hsame⟩
  · intro e' sight l' hge hlinks hlocked hunchanged hheld hready hlog'
    refine Pact.Ends.conseq (ends_commitChanges hready hd hhash hheld hlog') fun receipt l₆ _ h₆ => ?_
    obtain ⟨effects, y, hbatch, hreceipt, hfree, hsame, hheld₆⟩ := h₆
    exact ⟨.committed sight hge hlinks hlocked hunchanged hbatch hreceipt hfree hsame, Or.inr hheld₆⟩

end

/-! ## What it leaves -/

section

variable {store : Store} {env : Ambient} {p : Proposal} {text : String} {d e x y : Db}
variable {effects : List (Change × Applied)}

theorem orderly_accepted (w : WindowState) (text : String) : Orderly (w.accepted text) := by
  cases hc : w.accepted text with
  | nil => exact List.Pairwise.nil
  | cons change rest =>
    have hmem : change ∈ w.accepted text := by
      rw [hc]
      exact List.mem_cons_self
    obtain ⟨changes, _, heq, hvalid⟩ := mem_accepted hmem
    rw [← hc, heq]
    exact orderly_of_valid hvalid

/-- What each step of an accepted batch keeps, its commit keeps. -/
theorem Sight.keeps (s : Sight store p e d) (hd : WorldLaw store d) (hge : Gains e d)
    (hp : Proposed store p x) (hlocked : ∀ t ∈ s.targets, p.locks t.owner)
    (hbatch : Batch store env p.window.jobRef s.window (s.window.accepted text) d effects y)
    {P : Db → List (Change × Applied) → Prop} (h₀ : P d [])
    (hstep : ∀ x done change a deed z, change ∈ s.window.accepted text →
      BatchStep store env p.window.jobRef s.window d change x a deed z → P x done →
      P z (done ++ [(change, a)])) :
    P y effects ∧ MemoryLaw y ∧ Gains d y ∧ Beside d y := by
  exact hbatch.keeps hd.memory (s.held hge hp.valid hp.owner_locked hlocked) (orderly_accepted _ _)
    (fun change _ => s.finds hd hge hp.owner_locked hlocked change) h₀ hstep

/-- The Episodes a deed cites are known. -/
theorem Licensed.cites {o : OwnerScope → Prop} {known : String → String → Prop} {jobRef : String}
    {w : WindowState} {change : Change} {a : Applied} {deed : Deed}
    (h : Licensed store env jobRef w change x a deed) (hw : w.Held o d known) {b : BasisRow}
    (hb : .insertSeedBasis b ∈ deed.writes) : known b.tenantRef b.basisRef := by
  cases h with
  | nothing => cases hb
  | formRecollection | keep | reviseRecollection => simp [Deed.writes, basisRows] at hb
  | formSeed _ _ hbasis =>
    simp only [Deed.writes, basisRows, List.map_map, List.mem_append, List.mem_cons,
      List.not_mem_nil, List.mem_map, Function.comp_apply] at hb
    obtain ((hb | hb | hb) | ⟨ref, href, hb⟩) | ⟨ref, _, hb⟩ := hb
    · cases hb
    · cases hb
    · exact hb.elim
    · obtain rfl := Write.insertSeedBasis.inj hb
      exact hw.known ref (mem_formationBasis hbasis ref href)
    · cases hb
  | reenact _ ht _ hall hadded =>
    simp only [Deed.writes, basisRows, List.map_map, List.mem_append, List.mem_map,
      Function.comp_apply, List.map_nil, List.not_mem_nil, or_false] at hb
    obtain ⟨ref, href, hb⟩ := hb
    obtain rfl := Write.insertSeedBasis.inj hb
    have hmem := hall ref (mem_sortRefs.mp (hadded.subset href))
    exact (hw.targets _ (WindowState.target_addressee ht).1).known ref (Or.inl hmem.1)
  | inhibit _ ht _ hbasis =>
    simp only [Deed.writes, basisRows, List.map_map, List.mem_append, List.mem_map,
      Function.comp_apply] at hb
    obtain ⟨ref, href, hb⟩ | ⟨ref, _, hb⟩ := hb
    · obtain rfl := Write.insertSeedBasis.inj hb
      rcases (mem_feedbackBasis hbasis ref href).2 with he | ⟨hfalse, _⟩
      · exact (hw.targets _ (WindowState.target_addressee ht).1).known ref (Or.inl he)
      · cases hfalse
    · cases hb
  | reviseSeed ht _ hbasis =>
    simp only [Deed.writes, basisRows, List.map_map, List.mem_append, List.mem_cons,
      List.not_mem_nil, List.mem_map, Function.comp_apply] at hb
    obtain ((hb | hb | hb) | ⟨ref, href, hb⟩) | ⟨ref, _, hb⟩ := hb
    · cases hb
    · cases hb
    · exact hb.elim
    · obtain rfl := Write.insertSeedBasis.inj hb
      exact (hw.targets _ (WindowState.target_addressee ht).1).known ref
        (mem_revisionBasis hbasis ref href)
    · cases hb

theorem of_mem_seeds {ws : List Write} {s : SeedRow} (h : s ∈ (applyAll x ws).seeds) :
    s ∈ x.seeds ∨ .insertSeed s ∈ ws := by
  induction ws generalizing x with
  | nil => exact Or.inl h
  | cons w rest ih =>
    rcases ih h with hs | hs
    · cases w with
      | insertSeed r =>
        rcases mem_insertRow.mp (show s ∈ insertRow SeedRow.ref r x.seeds from hs) with hs | ⟨rfl, _⟩
        · exact Or.inl hs
        · exact Or.inr List.mem_cons_self
      | _ => exact Or.inl hs
    · exact Or.inr (List.mem_cons_of_mem _ hs)

theorem Licensed.seedRef {jobRef : String} {w : WindowState} {change : Change} {a : Applied}
    {deed : Deed} (h : Licensed store env jobRef w change x a deed) {s : SeedRow}
    (hs : .insertSeed s ∈ deed.writes) : s.ref ≠ "" := by
  cases h with
  | formSeed _ _ _ _ hrow =>
    subst hrow
    simp only [Deed.writes, basisRows, List.map_map, List.mem_append, List.mem_cons, List.mem_map,
      List.not_mem_nil, Function.comp_apply, Write.insertSeed.injEq, or_false] at hs
    obtain ((rfl | hs) | ⟨_, _, hs⟩) | ⟨_, _, hs⟩ := hs
    · intro hempty
      have hl := congrArg String.toList hempty
      simp [firstSeedVersion, Store.seedFormationRef] at hl
    · cases hs
    · cases hs
    · cases hs
  | _ => simp [Deed.writes, basisRows] at hs

/-- Memory after a batch: a later store of the same law, the same for every owner that is
not locked. -/
structure Progress (store : Store) (p : Proposal) (d y : Db) : Prop where
  law : WorldLaw store y
  grown : Grown d y
  links : y.links = d.links
  contexts : KeepsContexts d y
  same : ∀ o : OwnerScope → Prop, (∀ owner, o owner → ¬p.locks owner) → SameMemory o d y

theorem WorldLaw.of_batch (hd : WorldLaw store d) (hm : MemoryLaw y) (hg : Gains d y)
    (hb : Beside d y) (hrefs : ∀ s ∈ y.seeds, s.ref ≠ "")
    (hcited : ∀ b ∈ y.seedBasis, Known b.tenantRef b.basisRef y) : WorldLaw store y where
  memory := hm
  episodes := by
    rw [hb.episodes]
    exact hd.episodes
  seedRefs := hrefs
  deliveries := by
    rw [hb.deliveries]
    exact hd.deliveries
  cited := hcited
  contexts := by
    rw [hb.contexts]
    exact hd.contexts
  items := by
    intro i hi
    rw [hb.contextItems] at hi
    obtain ⟨c, hc, href, ht, hmem⟩ := hd.items i hi
    exact ⟨c, hg.contexts hc, href, ht, hmem.mono hg⟩
  evidence := by
    intro i hi
    rw [hb.contextEvidence] at hi
    obtain ⟨c, hc, href, ht, hmem⟩ := hd.evidence i hi
    exact ⟨c, hg.contexts hc, href, ht, hmem.mono hg⟩
  sources := by
    rw [hb.sources]
    exact hd.sources

theorem Sight.progress (s : Sight store p e d) (hd : WorldLaw store d) (hge : Gains e d)
    (hp : Proposed store p x) (hlocked : ∀ t ∈ s.targets, p.locks t.owner)
    (hbatch : Batch store env p.window.jobRef s.window (s.window.accepted text) d effects y) :
    Progress store p d y := by
  have hheld := s.held hge hp.valid hp.owner_locked hlocked
  have hkept := s.keeps hd hge hp hlocked hbatch
    (P := fun z _ => (∀ s ∈ z.seeds, s.ref ≠ "") ∧
      (∀ b ∈ z.seedBasis, Known b.tenantRef b.basisRef z) ∧ Grown d z ∧
      ∀ o : OwnerScope → Prop, (∀ owner, o owner → ¬p.locks owner) → SameMemory o d z)
    ⟨hd.seedRefs, hd.cited, Grown.refl d, fun o _ => SameMemory.refl o d⟩ ?_
  · obtain ⟨⟨hrefs, hcited, hgrown, hsame⟩, hm, hg, hb⟩ := hkept
    exact ⟨hd.of_batch hm hg hb hrefs hcited, hgrown, hb.links,
      .of_eq hb.contextItems hb.contextEvidence, hsame⟩
  intro x' _ change a deed z _ hstep hP
  obtain ⟨hrefs, hcited, hgrown, hsame⟩ := hP
  obtain ⟨hlicensed, hfits, hdid⟩ := hstep.carried
  have hgains := hdid.gains
  refine ⟨?_, ?_, hgrown.trans (hdid.grown hstep.law hfits hstep.regular), fun o ho => ?_⟩
  · obtain ⟨operations, rfl⟩ := hdid
    intro s' hs'
    rcases of_mem_seeds (show s' ∈ (applyAll x' deed.writes).seeds from hs') with hs' | hs'
    · exact hrefs s' hs'
    · exact hlicensed.seedRef hs'
  · intro b hb
    have hcases : b ∈ x'.seedBasis ∨ .insertSeedBasis b ∈ deed.writes := by
      obtain ⟨operations, rfl⟩ := hdid
      exact of_mem_seedBasis hb
    rcases hcases with hb | hb
    · exact (hcited b hb).mono hgains
    · exact (hlicensed.cites hheld hb).mono (hge.trans (hstep.gains.trans hgains))
  · refine (hsame o ho).trans (hdid.sameMemory hstep.law hfits hstep.regular fun owner howner hown => ?_)
    exact ho owner hown (hlicensed.owner_held hheld howner)

/-- The receipt is beside Memory. -/
theorem Progress.receipt (h : Progress store p d y) (r : ConsolidationReceiptRow) :
    Progress store p d (y.apply (.insertReceipt r)) := by
  obtain ⟨hlaw, hgrown, hlinks, hcontexts, hsame⟩ := h
  refine ⟨⟨hlaw.memory.congr rfl rfl rfl rfl rfl rfl rfl, hlaw.2, hlaw.3, hlaw.4, hlaw.5, hlaw.6,
    hlaw.7, hlaw.8, hlaw.9⟩, ⟨hgrown.1, hgrown.2⟩, hlinks, hcontexts, fun o ho => ?_⟩
  have hs := hsame o ho
  exact ⟨hs.1, hs.2⟩

theorem Progress.refl (hd : WorldLaw store d) : Progress store p d d :=
  ⟨hd, Grown.refl d, rfl, KeepsContexts.refl d, fun o _ => SameMemory.refl o d⟩

theorem Concluded.progress {receipt : Receipt} (h : Concluded store env p text d receipt y)
    (hd : WorldLaw store d) (hp : Proposed store p x) : Progress store p d y := by
  cases h with
  | frozen _ _ _ _ hsame =>
    subst hsame
    exact Progress.refl hd
  | committed sight hge _ hlocked _ hbatch _ _ hsame =>
    subst hsame
    exact (sight.progress hd hge hp hlocked hbatch).receipt _

/-- A consolidation may commit. -/
theorem commits_of_concluded {receipt : Receipt} {l : Local Write String} (hd : WorldLaw store d)
    (hp : Proposed store p x) (h : Concluded store env p text d receipt (applyAll d l.log))
    (hheld : applyAll d l.log = d ∨ ∀ o, p.locks o → store.Locked l.held o) :
    (memoryPact store).Commits l d := by
  have hprogress := h.progress hd hp
  refine ⟨hprogress.law, fun l' hapart => permitted_of_apart hapart hprogress.grown
    (KeepsLinks.of_eq hprogress.links) hprogress.contexts fun o ho => ?_⟩
  rcases hheld with hsame | hheld
  · rw [hsame]
    exact SameMemory.refl o d
  · exact hprogress.same o fun owner hown hl => ho owner hown (hheld owner hl)

end

end ChoraMem
