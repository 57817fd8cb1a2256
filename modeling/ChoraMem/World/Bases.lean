/-
Whose Episodes a Seed cites.

A window of one owner may give feedback to a Seed of another, its agent's.  What the
roles of such feedback are decides what goes wrong later: an anchor of another owner
makes the Seed's windows unloadable, and feedback of another owner is not read back.
As long as no change of a role crosses owners, every row of that role cites an Episode
of its Seed's owner.
-/
import ChoraMem.World.Serial

namespace ChoraMem

open Txn Versions

/-- The owner has the Episode, and it is complete. -/
def OwnedEpisode (owner : OwnerScope) (ref : String) (d : Db) : Prop :=
  ∃ e, loadEpisode ref d = some e ∧ e.owner = owner

/-- The row cites an Episode of its Seed's owner. -/
def OwnRow (b : BasisRow) (d : Db) : Prop :=
  ∃ owner root n, b.versionRef = versionRefOf root n ∧ (⟨owner, root⟩ : SeedRow) ∈ d.seeds ∧
    OwnedEpisode owner b.basisRef d

/-- The rows of some roles cite Episodes of their Seed's owner. -/
def OwnBasis (roles : BasisRole → Bool) (d : Db) : Prop :=
  ∀ b ∈ d.seedBasis, roles b.role = true → OwnRow b d

/-- The role of the rows that a change of an existing Disposition adds for feedback. -/
def Operation.feedbackRole : Operation → Option BasisRole
  | text => some .revision
  | reenact => some .reenactment
  | inhibit => some .inhibition
  | adapt | keep => none

/-- What a commit carries out: nothing when it leaves the store as it is, and else the changes
that the window it loaded accepts of the answer. -/
inductive CarriedOut (store : Store) (env : Ambient) (p : Proposal) (text : String) (d d' : Db) :
    List Change → Prop
  | nothing (hsame : d' = d) : CarriedOut store env p text d d' []
  | accepted {e y : Db} {effects : List (Change × Applied)} (sight : Sight store p e d)
      (hgains : Gains e d) (hlinks : KeepsLinks store e d)
      (hlocked : ∀ t ∈ sight.targets, p.locks t.owner)
      (hunchanged : store.unchanged p sight.window = true)
      (hbatch : Batch store env p.window.jobRef sight.window (sight.window.accepted text) d effects y)
      (hsame : d' = y.apply (.insertReceipt ⟨p.owner, p.window.jobRef, p.requestHash⟩)) :
      CarriedOut store env p text d d' (sight.window.accepted text)

/-- No change that adds rows of these roles is about a Seed of another owner than the
window's. -/
def OwnFeedback (roles : BasisRole → Bool) (d : Db) (p : Proposal) (changes : List Change) : Prop :=
  ∀ change ∈ changes, ∀ v ∈ d.seedVersions, v.ref = change.target →
    ∀ r ∈ d.seeds, r.ref = v.seedRef → r.owner ≠ p.owner →
      ∀ role, change.operation.feedbackRole = some role → roles role = false

/-- The commits whose accepted feedback stays with its owner. -/
def OwnCommits (store : Store) (roles : BasisRole → Bool) :
    MemoryReply → Local Write String → Db → Prop
  | .consolidated env p text _, l, d =>
    ∃ changes, CarriedOut store env p text d (applyAll d l.log) changes ∧ OwnFeedback roles d p changes
  | _, _, _ => True

/-- The answers of which every change, accepted or not, stays with its owner. -/
def OwnAnswers (roles : BasisRole → Bool) : MemoryReply → Local Write String → Db → Prop
  | .consolidated _ p text _, _, d =>
    ∀ changes, parseTaggedText text = .ok changes → OwnFeedback roles d p changes
  | _, _, _ => True

section

variable {store : Store} {d d' x y e : Db} {owner : OwnerScope} {ref : String}
variable {roles : BasisRole → Bool} {p : Proposal} {text jobRef : String} {env : Ambient}

/-! ## Owned Episodes -/

theorem ownedEpisode_of_load {r : EpisodeEvidence} (h : loadEpisode ref d = some r) (howner : r.owner = owner) :
    OwnedEpisode owner r.ref d := by
  rw [← loadEpisode_ref h] at h
  exact ⟨r, h, howner⟩

theorem OwnedEpisode.later (h : OwnedEpisode owner ref x) (hx : WorldLaw store x)
    (hd : WorldLaw store d) (hhash : Collisionless store) (hg : Gains x d)
    (hl : KeepsLinks store x d) : OwnedEpisode owner ref d := by
  obtain ⟨r, hr, howner⟩ := h
  obtain ⟨r', hr', hwithin⟩ := loadEpisode_later hx hd hhash hg hl hr
  exact ⟨r', hr', hwithin.owner.trans howner⟩

theorem linkedSource_congr (h : y.sources = x.sources) : linkedSource y = linkedSource x := by
  funext l
  unfold linkedSource
  rw [h]

/-- Memory has no part in what is loaded of an Episode. -/
theorem loadEpisode_congr (he : y.episodes = x.episodes) (hl : y.links = x.links)
    (hs : y.sources = x.sources) : loadEpisode ref y = loadEpisode ref x := by
  unfold loadEpisode episodeEvidence episodeSources
  rw [he, hl, linkedSource_congr hs]

theorem OwnedEpisode.congr (h : OwnedEpisode owner ref x) (he : y.episodes = x.episodes)
    (hl : y.links = x.links) (hs : y.sources = x.sources) : OwnedEpisode owner ref y := by
  obtain ⟨r, hr, howner⟩ := h
  exact ⟨r, (loadEpisode_congr he hl hs).trans hr, howner⟩

theorem OwnRow.later {b : BasisRow} (h : OwnRow b x) (hx : WorldLaw store x)
    (hd : WorldLaw store d) (hhash : Collisionless store) (hg : Gains x d)
    (hl : KeepsLinks store x d) : OwnRow b d := by
  obtain ⟨owner, root, n, hname, hroot, howned⟩ := h
  exact ⟨owner, root, n, hname, hg.seeds hroot, howned.later hx hd hhash hg hl⟩

theorem OwnRow.beside {b : BasisRow} (h : OwnRow b x) (hg : Gains x y) (hb : Beside x y) :
    OwnRow b y := by
  obtain ⟨owner, root, n, hname, hroot, howned⟩ := h
  exact ⟨owner, root, n, hname, hg.seeds hroot, howned.congr hb.episodes hb.links hb.sources⟩

theorem ownBasis_empty (roles : BasisRole → Bool) : OwnBasis roles {} :=
  fun _ hb => absurd hb List.not_mem_nil

/-! ## What a window cites -/

namespace Sight

variable (s : Sight store p e d)

/-- What was loaded before is there when the commit comes. -/
theorem owned {x : Db} {o : OwnerScope → Prop} (hseen : Seen store o e d x) (hd : WorldLaw store d)
    (hhash : Collisionless store) (hge : Gains e d) (hle : KeepsLinks store e d)
    (h : OwnedEpisode owner ref x) : OwnedEpisode owner ref d :=
  h.later hseen.law hd hhash (hseen.gains.trans hge) (hseen.links.trans hle)

theorem owned_current (hd : WorldLaw store d) (hhash : Collisionless store) (hge : Gains e d)
    (hle : KeepsLinks store e d) {r : EpisodeEvidence} (hr : r ∈ s.episodes) :
    OwnedEpisode p.owner r.ref d :=
  owned s.seenEpisodes hd hhash hge hle
    (ownedEpisode_of_load (s.loaded.loaded r hr) (s.loaded.owned r hr))

theorem owned_episode (hd : WorldLaw store d) (hhash : Collisionless store) (hge : Gains e d)
    (hle : KeepsLinks store e d) {ref : String} (h : (s.window.episodeOf ref).isSome) :
    OwnedEpisode p.owner ref d := by
  obtain ⟨r, hr⟩ := Option.isSome_iff_exists.mp h
  obtain ⟨hmem, rfl⟩ := episodeByRef_some hr
  rcases List.mem_append.mp hmem with hmem | hmem
  · rw [window_episodes] at hmem
    exact s.owned_current hd hhash hge hle hmem
  · rcases s.related hmem with ho | ho
    · exact owned s.seenRelated hd hhash hge hle (ownedEpisode_of_load ho.2 ho.1)
    · exact owned s.seenPairs hd hhash hge hle (ownedEpisode_of_load ho.2 ho.1)

/-- Feedback Episodes are the window's. -/
theorem owned_feedback (hd : WorldLaw store d) (hhash : Collisionless store) (hge : Gains e d)
    (hle : KeepsLinks store e d) {t : FeedbackTarget} (ht : t ∈ s.targets) {ref : String}
    (href : ref ∈ t.episodes) : OwnedEpisode p.owner ref d := by
  obtain ⟨r, hr, rfl, _⟩ := (s.loadedTarget ht).delivered ref href
  exact s.owned_current hd hhash hge hle hr

theorem owned_anchor (hd : WorldLaw store d) (hhash : Collisionless store) (hge : Gains e d)
    (hle : KeepsLinks store e d) {t : FeedbackTarget} (ht : t ∈ s.targets) {ref : String}
    (href : ref ∈ t.anchors) : OwnedEpisode t.owner ref d :=
  owned s.seenFeedback hd hhash hge hle ((s.loadedTarget ht).owned ref href)

theorem owned_direct (hvalid : p.window.valid = true) (hd : WorldLaw store d)
    (hhash : Collisionless store) (hge : Gains e d) (hle : KeepsLinks store e d)
    {t : FeedbackTarget} (ht : t ∈ s.targets) {ref : String} (href : ref ∈ t.directEpisodes) :
    OwnedEpisode t.owner ref d := by
  obtain ⟨howner, hmem⟩ := (s.loadedTarget ht).direct ref href
  obtain ⟨r, hr, rfl⟩ := List.mem_map.mp hmem
  rw [howner, s.owner hvalid]
  exact s.owned_current hd hhash hge hle (List.mem_filter.mp hr).1

/-- A revision of a Seed of the window's owner, and every ADAPT, cites Episodes of the
Seed's owner. -/
theorem owned_revision (hvalid : p.window.valid = true) (hd : WorldLaw store d)
    (hhash : Collisionless store) (hge : Gains e d) (hle : KeepsLinks store e d)
    {t : FeedbackTarget} (ht : t ∈ s.targets) {change : Change} {episodes outcomes : List String}
    (hbasis : revisionBasis t change = some (episodes, outcomes))
    (hown : change.operation = .text → t.owner = p.owner) :
    ∀ ref ∈ episodes, OwnedEpisode t.owner ref d := by
  intro ref href
  unfold revisionBasis at hbasis
  split at hbasis
  · split at hbasis
    · cases hbasis
    rename_i hno
    obtain ⟨rfl, rfl⟩ := Prod.mk.inj (Option.some.inj hbasis)
    simp only [Bool.or_eq_true, bne_iff_ne, not_or, not_not, Bool.not_eq_true',
      Bool.not_eq_false] at hno
    obtain ⟨only, hrefs⟩ := List.length_eq_one_iff.mp hno.1
    have hdirect := hno.2
    rw [hrefs] at hdirect href
    obtain rfl : ref = only := by simpa [sortRefs] using href
    exact s.owned_direct hvalid hd hhash hge hle ht
      (by simpa [basisIncludesCurrentEpisode] using hdirect)
  · rename_i hop
    rcases (mem_feedbackBasis hbasis ref href).2 with he | ⟨_, ha⟩
    · rw [hown hop]
      exact s.owned_feedback hd hhash hge hle ht he
    · exact s.owned_anchor hd hhash hge hle ht ha
  · cases hbasis

/-- The root and the name of a target, in the store of the commit. -/
theorem target_named (hge : Gains e d) {t : FeedbackTarget} (ht : t ∈ s.targets) :
    (⟨t.owner, t.seedRef⟩ : SeedRow) ∈ d.seeds ∧
      t.versionRef = versionRefOf t.seedRef t.versionNumber := by
  obtain ⟨x, hx, hr⟩ := s.target_rooted ht
  exact ⟨hge.seeds (hx.gains.seeds hr.2), hr.name hx.law.memory⟩

/-- Feedback that adds rows of these roles is about a Seed of the window's owner. -/
theorem owner_of_feedback (hd : WorldLaw store d) (hge : Gains e d) (howner : p.locks p.owner)
    (hlocked : ∀ t ∈ s.targets, p.locks t.owner) {changes : List Change}
    (hown : OwnFeedback roles d p changes) {change : Change} (hmem : change ∈ changes)
    {t : FeedbackTarget} (ht : s.window.addressee change.target = .disposition t) {role : BasisRole}
    (hrole : change.operation.feedbackRole = some role) (hroles : roles role = true) :
    t.owner = p.owner := by
  by_contra hne
  obtain ⟨htmem, hversion⟩ := WindowState.target_addressee ht
  rw [window_targets] at htmem
  have hfinds := s.finds hd hge howner hlocked change
  unfold WindowState.Finds at hfinds
  rw [ht] at hfinds
  obtain ⟨v, hv, href, _⟩ := hfinds
  obtain ⟨hroot, hname⟩ := s.target_named hge htmem
  have hseed : t.seedRef = v.seedRef := by
    have hn := hd.memory.seedName hv
    exact (versionRefOf_inj (hname.symm.trans (href.symm.trans hn))).1
  have hno := hown change hmem v hv (href.trans hversion) _ hroot hseed hne role hrole
  rw [hroles] at hno
  cases hno

end Sight

/-! ## What a change adds -/

theorem mem_seeds_applyAll {s : SeedRow} {ws : List Write}
    (hfresh : (x.seeds.any fun r => r.ref = s.ref) = false) :
    s ∈ (applyAll x (.insertSeed s :: ws)).seeds := by
  have hnew : s ∈ (x.apply (.insertSeed s)).seeds := by
    refine mem_insertRow.mpr (Or.inr ⟨rfl, fun r hr => ?_⟩)
    simpa using List.any_eq_false.mp hfresh r hr
  exact (gains_applyAll _ ws).seeds hnew

/-- A row that a licensed deed adds, when its role stays with its owner. -/
theorem Sight.ownRow (s : Sight store p e d) (hvalid : p.window.valid = true)
    (hd : WorldLaw store d) (hhash : Collisionless store) (hge : Gains e d)
    (hle : KeepsLinks store e d) (howner : p.locks p.owner)
    (hlocked : ∀ t ∈ s.targets, p.locks t.owner) {changes : List Change}
    (hown : OwnFeedback roles d p changes) {change : Change} (hmem : change ∈ changes)
    {a : Applied} {deed : Deed}
    (hstep : BatchStep store env jobRef s.window d change x a deed y) {b : BasisRow}
    (hb : .insertSeedBasis b ∈ deed.writes) (hrole : roles b.role = true) : OwnRow b y := by
  obtain ⟨hlicensed, hfits, hdid⟩ := hstep.carried
  have hgains : Gains d y := hstep.gains.trans hdid.gains
  have hbeside : Beside d y := hstep.beside.trans hdid.beside
  have hlift : ∀ {owner ref}, OwnedEpisode owner ref d → OwnedEpisode owner ref y := fun h =>
    h.congr hbeside.episodes hbeside.links hbeside.sources
  have hwindow : windowOwner s.window.episodes = p.owner := by
    rw [window_episodes]
    exact s.owner hvalid
  have htarget : ∀ {t}, s.window.addressee change.target = .disposition t →
      t ∈ s.targets ∧ (⟨t.owner, t.seedRef⟩ : SeedRow) ∈ y.seeds ∧
        t.versionRef = versionRefOf t.seedRef t.versionNumber := by
    intro t ht
    have htmem := (WindowState.target_addressee ht).1
    rw [window_targets] at htmem
    obtain ⟨hroot, hname⟩ := s.target_named hge htmem
    exact ⟨htmem, hgains.seeds hroot, hname⟩
  cases hlicensed with
  | nothing => cases hb
  | formRecollection | keep | reviseRecollection => simp [Deed.writes, basisRows] at hb
  | formSeed _ _ hbasis _ hrow =>
    subst hrow
    simp only [Deed.writes, basisRows, List.map_map, List.mem_append, List.mem_cons,
      List.not_mem_nil, List.mem_map, Function.comp_apply] at hb
    obtain ((hb | hb | hb) | ⟨ref, href, hb⟩) | ⟨ref, _, hb⟩ := hb
    · cases hb
    · cases hb
    · exact hb.elim
    · obtain rfl := Write.insertSeedBasis.inj hb
      refine ⟨p.owner, _, 1, rfl, ?_,
        hlift (s.owned_episode hd hhash hge hle (mem_formationBasis hbasis ref href))⟩
      obtain ⟨operations, rfl⟩ := hdid
      rw [← hwindow]
      exact mem_seeds_applyAll (s := ⟨windowOwner s.window.episodes, _⟩) hfits.2
    · cases hb
  | reenact _ ht hop hall hadded =>
    simp only [Deed.writes, basisRows, List.map_map, List.mem_append, List.mem_map,
      Function.comp_apply, List.map_nil, List.not_mem_nil, or_false] at hb
    obtain ⟨ref, href, hb⟩ := hb
    obtain rfl := Write.insertSeedBasis.inj hb
    obtain ⟨htmem, hroot, hname⟩ := htarget ht
    have hsame := s.owner_of_feedback hd hge howner hlocked hown hmem ht (by rw [hop]; rfl) hrole
    have hfeedback := (hall ref (mem_sortRefs.mp (hadded.subset href))).1
    refine ⟨_, _, _, hname, hroot, hlift ?_⟩
    rw [hsame]
    exact s.owned_feedback hd hhash hge hle htmem hfeedback
  | inhibit _ ht hop hbasis =>
    simp only [Deed.writes, basisRows, List.map_map, List.mem_append, List.mem_map,
      Function.comp_apply] at hb
    obtain ⟨ref, href, hb⟩ | ⟨ref, _, hb⟩ := hb
    · obtain rfl := Write.insertSeedBasis.inj hb
      obtain ⟨htmem, hroot, hname⟩ := htarget ht
      have hsame := s.owner_of_feedback hd hge howner hlocked hown hmem ht (by rw [hop]; rfl) hrole
      rcases (mem_feedbackBasis hbasis ref href).2 with hfeedback | ⟨hfalse, _⟩
      · refine ⟨_, _, _, hname, hroot, hlift ?_⟩
        rw [hsame]
        exact s.owned_feedback hd hhash hge hle htmem hfeedback
      · cases hfalse
    · cases hb
  | reviseSeed ht hop hbasis =>
    simp only [Deed.writes, basisRows, List.map_map, List.mem_append, List.mem_cons,
      List.not_mem_nil, List.mem_map, Function.comp_apply] at hb
    obtain ((hb | hb | hb) | ⟨ref, href, hb⟩) | ⟨ref, _, hb⟩ := hb
    · cases hb
    · cases hb
    · exact hb.elim
    · obtain rfl := Write.insertSeedBasis.inj hb
      obtain ⟨htmem, hroot, _⟩ := htarget ht
      refine ⟨_, _, _, rfl, hroot, hlift ?_⟩
      refine s.owned_revision hvalid hd hhash hge hle htmem hbasis (fun htext => ?_) ref href
      exact s.owner_of_feedback hd hge howner hlocked hown hmem ht (by rw [htext]; rfl) hrole
    · cases hb

/-- A batch whose feedback stays with its owner keeps the bases. -/
theorem Sight.ownBasis (s : Sight store p e d) (hd : WorldLaw store d) (hhash : Collisionless store)
    (hge : Gains e d) (hle : KeepsLinks store e d) {x₀ : Db} (hp : Proposed store p x₀)
    (hlocked : ∀ t ∈ s.targets, p.locks t.owner)
    (hown : OwnFeedback roles d p (s.window.accepted text)) {effects : List (Change × Applied)}
    (hbatch : Batch store env p.window.jobRef s.window (s.window.accepted text) d effects y)
    (h : OwnBasis roles d) : OwnBasis roles y := by
  refine (s.keeps hd hge hp hlocked hbatch (P := fun z _ => OwnBasis roles z) h ?_).1
  intro x _ change a deed z hmem hstep hx b hb hrole
  have hdid := hstep.carried.did
  have hcases : b ∈ x.seedBasis ∨ .insertSeedBasis b ∈ deed.writes := by
    obtain ⟨operations, rfl⟩ := hdid
    exact of_mem_seedBasis hb
  rcases hcases with hb | hb
  · exact (hx b hb hrole).beside hdid.gains hdid.beside
  · exact s.ownRow hp.valid hd hhash hge hle hp.owner_locked hlocked hown hmem hstep hb hrole

/-! ## Over all runs -/

/-- A commit that leaves Memory alone. -/
theorem OwnBasis.of_sameShelves (h : OwnBasis roles d) (hs : SameShelves d d')
    (hd : WorldLaw store d) (hd' : WorldLaw store d') (hhash : Collisionless store)
    (hg : Gains d d') (hl : KeepsLinks store d d') : OwnBasis roles d' := by
  intro b hb hrole
  rw [hs.seedBasis] at hb
  exact (h b hb hrole).later hd hd' hhash hg hl

/-- What an answer proposes to other owners may be dropped. -/
theorem OwnFeedback.accepted {w : WindowState}
    (h : ∀ changes, parseTaggedText text = .ok changes → OwnFeedback roles d p changes) :
    OwnFeedback roles d p (w.accepted text) := by
  intro change hmem
  obtain ⟨changes, hparse, heq, _⟩ := mem_accepted hmem
  rw [heq] at hmem
  exact h changes hparse change hmem

/-- Every commit carries out what its window accepts. -/
theorem Concluded.carriedOut {receipt : Receipt} (h : Concluded store env p text d receipt y) :
    ∃ changes, CarriedOut store env p text d y changes ∧
      (changes = [] ∨ ∃ w : WindowState, changes = w.accepted text) := by
  cases h with
  | frozen _ _ _ _ hsame => exact ⟨[], .nothing hsame, Or.inl rfl⟩
  | committed sight hge hle hlocked hunchanged hbatch _ _ hsame =>
    exact ⟨_, .accepted sight hge hle hlocked hunchanged hbatch hsame, Or.inr ⟨_, rfl⟩⟩

/-- A run whose answers stay with their owners has such commits. -/
theorem ownCommits_of_answers (hhash : Collisionless store) {s : MemorySys}
    (h : MemoryReachIf store (OwnAnswers roles) s) : MemoryReachIf store (OwnCommits store roles) s := by
  refine reachIf_of_done hhash (fun a l d _ hdone hown => ?_) h
  cases a with
  | consolidated env p text receipt =>
    obtain ⟨changes, hcarried, rfl | ⟨w, rfl⟩⟩ := hdone.2.1.carriedOut
    · exact ⟨[], hcarried, fun change hmem => absurd hmem List.not_mem_nil⟩
    · exact ⟨_, hcarried, .accepted hown⟩
  | _ => exact trivial

/-- What a commit carries out keeps the bases when its feedback stays with its owner. -/
theorem CarriedOut.ownBasis {changes : List Change} (h : CarriedOut store env p text d y changes)
    (hd : WorldLaw store d) (hhash : Collisionless store) {x₀ : Db} (hp : Proposed store p x₀)
    (hown : OwnFeedback roles d p changes) (hbasis : OwnBasis roles d) : OwnBasis roles y := by
  cases h with
  | nothing hsame =>
    rw [hsame]
    exact hbasis
  | accepted sight hge hle hlocked _ hbatch hsame =>
    have hy := sight.ownBasis hd hhash hge hle hp hlocked hown hbatch hbasis
    rw [hsame]
    intro b hb hrole
    obtain ⟨owner, root, n, hname, hroot, howned⟩ := hy b hb hrole
    exact ⟨owner, root, n, hname, hroot, howned.congr rfl rfl rfl⟩

/-- In every state of such a run the rows of the roles cite their Seed's owner's Episodes. -/
theorem ownBasis_reach (hhash : Collisionless store) {s : MemorySys}
    (h : MemoryReachIf store (OwnCommits store roles) s) : OwnBasis roles s.db := by
  refine memory_keeps hhash (ownBasis_empty roles) ?_ h
  intro d a l hd hcond hdone hbasis
  have hplain : ∀ (hl : ∀ w ∈ l.log, store.Plain w), OwnBasis roles (applyAll d l.log) := by
    intro hl
    obtain ⟨hlaw, hsame⟩ := worldLaw_plains hd hl
    exact hbasis.of_sameShelves hsame hd hlaw hhash (gains_applyAll d l.log)
      (keepsLinks_applyAll fun w hw => bindsLinks_plain (hl w hw))
  cases a with
  | selected request context =>
    obtain ⟨hlaw, hsame⟩ := Selected.keeps hdone hd
    exact hbasis.of_sameShelves hsame hd hlaw hhash (gains_applyAll d l.log)
      (keepsLinks_applyAll (Selected.bindsLinks hdone))
  | frozen window receipt =>
    rw [hdone.1, applyAll_nil]
    exact hbasis
  | consolidated env p text receipt =>
    obtain ⟨changes, hcarried, hown⟩ := hcond
    obtain ⟨⟨index, window, x, _, hsnapshot⟩, _⟩ := hdone
    exact hcarried.ownBasis hd hhash (snapshot_proposed hsnapshot).2 hown hbasis
  | intake reply => exact hplain hdone
  | leased job => exact hplain hdone
  | acknowledged => exact hplain hdone

/-- A Seed's root has the owner of the rows' Episodes. -/
theorem OwnBasis.owned (h : OwnBasis roles d) (hd : MemoryLaw d) {b : BasisRow}
    (hb : b ∈ d.seedBasis) (hrole : roles b.role = true) {r : SeedRow} (hr : r ∈ d.seeds) {n : Nat}
    (hn : b.versionRef = versionRefOf r.ref n) : OwnedEpisode r.owner b.basisRef d := by
  obtain ⟨owner, root, m, hname, hroot, howned⟩ := h b hb hrole
  obtain ⟨rfl, _⟩ := versionRefOf_inj (hn.symm.trans hname)
  rw [hd.keys.seeds.eq hr hroot rfl]
  exact howned

/-! ## Runs that stay with their owners -/

/-- Changes that add no rows of feedback. -/
theorem ownFeedback_of_roles {changes : List Change}
    (hroles : ∀ change ∈ changes, change.operation.feedbackRole = none) :
    OwnFeedback roles d p changes := by
  intro change hmem v _ _ r _ _ _ role hrole
  rw [hroles change hmem] at hrole
  cases hrole

/-- Changes in a store whose Seeds are all the window's owner's. -/
theorem ownFeedback_of_owners {changes : List Change} (h : ∀ r ∈ d.seeds, r.owner = p.owner) :
    OwnFeedback roles d p changes :=
  fun _ _ _ _ _ r hr _ hne => absurd (h r hr) hne

/-- What a task proposes is what its answer says, or nothing. -/
theorem ownAnswers_of_task {t : Task} (ht : t.Written) {a : MemoryReply}
    (h : Prog.run (sampleStore.perform t.command) d = .ok (a, d'))
    (hown : ∀ p, Proposed sampleStore p d → p.window = t.window → OwnFeedback roles d p t.changes)
    (l : Local Write String) : OwnAnswers roles a l d := by
  rcases run_consolidateWindow h with ⟨receipt, rfl⟩ | ⟨p, text, receipt, hsnapshot, htext, rfl⟩
  · exact trivial
  obtain ⟨hwindow, hproposed⟩ := snapshot_proposed hsnapshot
  intro changes hparse
  unfold Proposal.answer at htext
  split at htext
  · obtain rfl := Option.some.inj htext
    obtain rfl := Except.ok.inj (ht.parsed.symm.trans hparse)
    exact hown p hproposed hwindow
  · obtain rfl := Option.some.inj htext
    have hnil : parseTaggedText "" = .ok [] := rfl
    obtain rfl := Except.ok.inj (hnil.symm.trans hparse)
    exact fun _ hmem => absurd hmem List.not_mem_nil

/-- A call other than a consolidation has no answer. -/
theorem ownAnswers_of_replies {c : MemoryCommand} {a : MemoryReply} {l : Local Write String}
    (h : c.Replies a) (hc : ∀ index env window worker, c ≠ .consolidate index env window worker) :
    OwnAnswers roles a l d := by
  cases a with
  | consolidated env p text receipt =>
    cases c with
    | consolidate index env' window worker => exact absurd rfl (hc index env' window worker)
    | _ => exact absurd rfl (h env p text receipt)
  | _ => exact trivial

end

end ChoraMem
