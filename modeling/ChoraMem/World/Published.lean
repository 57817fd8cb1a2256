/-
What a commit changes of the documents, and what it puts into the outbox for it.

The text of a version is shown while the version is live and never changes, so it appears
with its version and goes with the next one.  The text of an Episode changes when links are
bound to it.  Either way the commit leaves an operation about the document that was not there
before, and that adds it when there is a text and takes it away when there is none.
-/
import Mathlib.Data.Prod.Lex
import ChoraMem.Order.Best
import ChoraMem.Storage.Projection
import ChoraMem.World.Identity

namespace ChoraMem

open Txn Versions

/-- The document that a cause is about. -/
def Cause.document (c : Cause) : DocumentRef := ⟨c.kind, c.documentRef, c.owner.index⟩

section

variable {store : Store} {d y : Db} {ref text : String} {scope : IndexScope}

/-! ## Texts of versions -/

theorem documentText_recollection (hd : MemoryLaw d) :
    documentText ⟨.recollection, ref, scope⟩ d = some text ↔
      ∃ v, d.recollectionShelf.Shows recollectionFormat ref (·.index = scope) v ∧ v.text = text := by
  unfold documentText
  dsimp only
  constructor
  · intro h
    obtain ⟨v, hv, rfl⟩ := Option.map_eq_some_iff.mp h
    have hp := List.find?_some hv
    simp only [Bool.and_eq_true, decide_eq_true_eq, beq_iff_eq, List.any_eq_true] at hp
    obtain ⟨⟨href, hlive⟩, root, hroot, ⟨_, hrootRef⟩, hscope⟩ := hp
    exact ⟨v, ⟨List.mem_of_find?_eq_some hv, hlive, href,
      Db.recollectionShelf_owns.mpr ⟨root, hroot, hrootRef, hscope⟩⟩, rfl⟩
  · intro h
    obtain ⟨v, hs, rfl⟩ := h
    obtain ⟨root, hroot, hrootRef, hscope⟩ := Db.recollectionShelf_owns.mp hs.owned
    have hlive : v.status = .active := hs.live
    have href : v.ref = ref := hs.ref
    have hp : (decide (v.ref = ref) && v.status == .active && d.recollections.any fun root =>
        decide (root.owner.tenantRef = v.tenantRef) && decide (root.ref = v.recollectionRef) &&
          decide (root.owner.index = scope)) = true := by
      simp only [Bool.and_eq_true, decide_eq_true_eq, beq_iff_eq, List.any_eq_true]
      exact ⟨⟨href, hlive⟩, root, hroot,
        ⟨(hd.recollectionTenant hs.mem hroot hrootRef).symm, hrootRef⟩, hscope⟩
    refine Option.map_eq_some_iff.mpr ⟨v, ?_, rfl⟩
    refine find_only hs.mem hp fun u hmem hu => ?_
    simp only [Bool.and_eq_true, decide_eq_true_eq] at hu
    exact hd.keys.recollectionVersions.eq hmem hs.mem (hu.1.1.trans href.symm)

theorem documentText_disposition (hd : MemoryLaw d) :
    documentText ⟨.disposition, ref, scope⟩ d = some text ↔
      ∃ v, d.seedShelf.Shows seedFormat ref (·.index = scope) v ∧ v.tendency = text := by
  unfold documentText
  dsimp only
  constructor
  · intro h
    obtain ⟨v, hv, rfl⟩ := Option.map_eq_some_iff.mp h
    have hp := List.find?_some hv
    simp only [Bool.and_eq_true, decide_eq_true_eq, beq_iff_eq, List.any_eq_true] at hp
    obtain ⟨⟨href, hlive⟩, root, hroot, ⟨_, hrootRef⟩, hscope⟩ := hp
    exact ⟨v, ⟨List.mem_of_find?_eq_some hv, hlive, href,
      Db.seedShelf_owns.mpr ⟨root, hroot, hrootRef, hscope⟩⟩, rfl⟩
  · intro h
    obtain ⟨v, hs, rfl⟩ := h
    obtain ⟨root, hroot, hrootRef, hscope⟩ := Db.seedShelf_owns.mp hs.owned
    have hlive : v.status = .active := hs.live
    have href : v.ref = ref := hs.ref
    have hp : (decide (v.ref = ref) && v.status == .active && d.seeds.any fun root =>
        decide (root.owner.tenantRef = v.tenantRef) && decide (root.ref = v.seedRef) &&
          decide (root.owner.index = scope)) = true := by
      simp only [Bool.and_eq_true, decide_eq_true_eq, beq_iff_eq, List.any_eq_true]
      exact ⟨⟨href, hlive⟩, root, hroot,
        ⟨(hd.seedTenant hs.mem hroot hrootRef).symm, hrootRef⟩, hscope⟩
    refine Option.map_eq_some_iff.mpr ⟨v, ?_, rfl⟩
    refine find_only hs.mem hp fun u hmem hu => ?_
    simp only [Bool.and_eq_true, decide_eq_true_eq] at hu
    exact hd.keys.seedVersions.eq hmem hs.mem (hu.1.1.trans href.symm)

/-- A cause that a commit brought about, and that is about a document as it is now. -/
structure Turns (d y : Db) (r : DocumentRef) (c : Cause) : Prop where
  mem : c ∈ causes y
  new : c ∉ causes d
  document : c.document = r
  adds : (c.action == .upsert) = (documentText r y).isSome

/-- How the documents of a kind are read off a shelf of each store. -/
structure Shelved (kind : DocumentKind) {ν γ σ : Type} (F : Format String String ν γ σ)
    (words : ν → String) (t : Shelf OwnerScope String ν γ) (d : Db) : Prop where
  law : t.Lawful F
  text : ∀ ref scope text, documentText ⟨kind, ref, scope⟩ d = some text ↔
    ∃ v, t.Shows F ref (·.index = scope) v ∧ words v = text
  name : F.name = versionRefOf
  caused : ∀ owner root n, ∀ c ∈ versionCauses kind owner root n,
    c ∈ memoryCauses d ↔ t.Has F owner root n
  /-- No other cause is one of a version. -/
  only : ∀ owner root n, ∀ c ∈ versionCauses kind owner root n, c ∈ causes d → t.Has F owner root n

theorem shelved_recollections (hd : MemoryLaw d) :
    Shelved .recollection recollectionFormat RecollectionVersionRow.text d.recollectionShelf d where
  law := hd.recollections
  text := fun _ _ _ => documentText_recollection hd
  name := rfl
  caused := fun _ _ _ _ hc => ⟨fun h => recollection_of_cause hc (List.mem_append_right _ h),
    fun h => mem_memoryCauses_shelves.mpr (Or.inl ⟨_, _, _, h, hc⟩)⟩
  only := fun _ _ _ _ hc h => recollection_of_cause hc h

theorem shelved_seeds (hd : MemoryLaw d) :
    Shelved .disposition seedFormat SeedVersionRow.tendency d.seedShelf d where
  law := hd.seeds
  text := fun _ _ _ => documentText_disposition hd
  name := rfl
  caused := fun _ _ _ _ hc => ⟨fun h => seed_of_cause hc (List.mem_append_right _ h),
    fun h => mem_memoryCauses_shelves.mpr (Or.inr ⟨_, _, _, h, hc⟩)⟩
  only := fun _ _ _ _ hc h => seed_of_cause hc h

section

variable {kind : DocumentKind} {ν γ σ : Type} {F : Format String String ν γ σ} {words : ν → String}
variable {t t' : Shelf OwnerScope String ν γ}

/-- A version that is new, or the next one of what was shown. -/
theorem Shelved.turns (h : Shelved kind F words t d) (h' : Shelved kind F words t' y)
    (he : Shelf.Evolves F t t')
    (hne : documentText ⟨kind, ref, scope⟩ y ≠ documentText ⟨kind, ref, scope⟩ d) :
    ∃ c ∈ memoryCauses y, Turns d y ⟨kind, ref, scope⟩ c := by
  cases htext : documentText ⟨kind, ref, scope⟩ y with
  | some text =>
    obtain ⟨v, hs, hv⟩ := (h'.text _ _ _).mp htext
    rcases he.shown h'.law hs with hold | ⟨owner, hscope, hhas, hnot⟩
    · refine absurd ?_ hne
      rw [htext, (h.text _ _ _).mpr ⟨v, hold, hv⟩]
    · have hname : ref = versionRefOf (F.root v) (F.number v) := by
        rw [← hs.ref, h'.law.named v hs.mem, h'.name]
      have hc : (⟨.upsert, kind, ref, owner, F.root v, [ref]⟩ : Cause) ∈
          versionCauses kind owner (F.root v) (F.number v) := by
        rw [hname]
        exact mem_versionCauses.mpr (Or.inl rfl)
      have hmem := (h'.caused _ _ _ _ hc).mpr hhas
      refine ⟨_, hmem, List.mem_append_right _ hmem, fun hold => hnot (h.only _ _ _ _ hc hold), ?_, ?_⟩
      · rw [← hscope]
        rfl
      · rw [htext]
        rfl
  | none =>
    cases hbefore : documentText ⟨kind, ref, scope⟩ d with
    | none => exact absurd (htext.trans hbefore.symm) hne
    | some text =>
      obtain ⟨v, hs, hv⟩ := (h.text _ _ _).mp hbefore
      rcases he.shows h.law h'.law hs with hstays | ⟨owner, hscope, hhas, hnot⟩
      · rw [(h'.text _ _ _).mpr ⟨v, hstays, hv⟩] at htext
        cases htext
      · have hname : ref = versionRefOf (F.root v) (F.number v) := by
          rw [← hs.ref, h.law.named v hs.mem, h.name]
        have hcount := h.law.counted v hs.mem
        have hc : (⟨.delete, kind, ref, owner, F.root v, [versionRefOf (F.root v) (F.number v + 1)]⟩ :
            Cause) ∈ versionCauses kind owner (F.root v) (F.number v + 1) := by
          rw [hname]
          exact mem_versionCauses.mpr (Or.inr ⟨by omega, rfl⟩)
        have hmem := (h'.caused _ _ _ _ hc).mpr hhas
        refine ⟨_, hmem, List.mem_append_right _ hmem, fun hold => hnot (h.only _ _ _ _ hc hold), ?_, ?_⟩
        · rw [← hscope]
          rfl
        · rw [htext]
          rfl

/-- What a cause takes away is not shown. -/
theorem Shelved.gone (h : Shelved kind F words t d) {owner : OwnerScope} {root : String} {n : Nat}
    {c : Cause} (hc : c ∈ versionCauses kind owner root n) (hdelete : c.action = .delete)
    (hmem : c ∈ memoryCauses d) : documentText c.document d = none := by
  have hhas := (h.caused _ _ _ _ hc).mp hmem
  rcases mem_versionCauses.mp hc with rfl | ⟨hlt, rfl⟩
  · cases hdelete
  · cases htext : documentText (Cause.document _) d with
    | none => rfl
    | some text =>
      obtain ⟨v, hs, _⟩ := (h.text _ _ _).mp htext
      have hn : n - 1 + 1 = n := by omega
      rw [← hn] at hhas
      refine absurd hhas (h.law.not_shows hs ?_)
      rw [h.name]

end

/-! ## Texts of Episodes -/

theorem documentText_episode (hd : WorldLaw store d) (hhash : Collisionless store) {e : EpisodeRow}
    (he : e ∈ d.episodes) :
    documentText ⟨.episode, e.ref, e.group.scope.owner.index⟩ d =
      if (documentSources e.ref e.group.scope.tenantRef d).isEmpty then none
      else some (renderDocument e.ref e.group.scope.sessionRef
        (documentSources e.ref e.group.scope.tenantRef d)) := by
  unfold documentText
  dsimp only
  have honly : ∀ e' ∈ d.episodes, (decide (e'.ref = e.ref) &&
      decide (e'.group.scope.owner.index = e.group.scope.owner.index)) = true → e' = e := by
    intro e' hmem hp
    simp only [Bool.and_eq_true, decide_eq_true_eq] at hp
    exact hd.episode_eq hhash hmem he hp.1
  rw [find_only he (by simp) honly]
  rfl

theorem documentText_noEpisode (h : ∀ e ∈ d.episodes, e.ref = ref → e.group.scope.owner.index ≠ scope) :
    documentText ⟨.episode, ref, scope⟩ d = none := by
  unfold documentText
  dsimp only
  cases hfind : d.episodes.find? _ with
  | none => rfl
  | some e =>
    have hp := List.find?_some hfind
    simp only [Bool.and_eq_true, decide_eq_true_eq] at hp
    exact absurd hp.2 (h e (List.mem_of_find?_eq_some hfind) hp.1)

/-! ## Links in order -/

/-- What links are sorted by. -/
def LinkRow.place (l : LinkRow) : String ×ₗ String := toLex (l.role.text, l.sourceEventRef)

theorem linkOrder_iff (a b : LinkRow) : linkOrder a b ↔ a.place ≤ b.place := by
  rw [linkOrder, LinkRow.place, LinkRow.place, Prod.Lex.toLex_le_toLex]

/-- Links of one Episode are of one group, where role and source tell them apart. -/
theorem faithful_links (ho : OutboxLaw store d) (hhash : Collisionless store)
    (hkeys : KeysUnique LinkRow.key d.links) (hne : ref ≠ "") {links : List LinkRow}
    (hlinks : ∀ l ∈ links, l ∈ d.links ∧ l.episodeRef = ref) : Best.Faithful LinkRow.place links := by
  intro a ha b hb hplace
  obtain ⟨ha, hrefa⟩ := hlinks a ha
  obtain ⟨hb, hrefb⟩ := hlinks b hb
  have hgroup : a.group = b.group := by
    apply episodeRef_injective hhash
    rw [← (ho.bound a ha (by rw [hrefa]; exact hne)).1, ← (ho.bound b hb (by rw [hrefb]; exact hne)).1,
      hrefa, hrefb]
  have hrole : a.role = b.role :=
    SourceRole.text_injective (congrArg (fun k => (ofLex k).1) hplace)
  have hsource : a.sourceEventRef = b.sourceEventRef := congrArg (fun k => (ofLex k).2) hplace
  refine hkeys.eq ha hb ?_
  rw [LinkRow.key, LinkRow.key, hgroup, hsource, hrole]

/-- The same links of an Episode are rendered from the same sources. -/
theorem documentSources_congr (hy : WorldLaw store y) (ho : OutboxLaw store d)
    (hhash : Collisionless store) (hg : Gains d y) (hkd : KeysUnique LinkRow.key d.links)
    (hky : KeysUnique LinkRow.key y.links) (hne : ref ≠ "") {tenantRef : String}
    (hsame : ∀ l : LinkRow, l.episodeRef = ref → (l ∈ y.links ↔ l ∈ d.links)) :
    documentSources ref tenantRef y = documentSources ref tenantRef d := by
  let p : LinkRow → Bool := fun l =>
    decide (l.episodeRef = ref) && decide (l.group.scope.tenantRef = tenantRef)
  have hof : ∀ {l : LinkRow}, p l = true → l.episodeRef = ref := fun hl => by
    simp only [p, Bool.and_eq_true, decide_eq_true_eq] at hl
    exact hl.1
  have hnodup : ∀ {links : List LinkRow}, KeysUnique LinkRow.key links → (links.filter p).Nodup :=
    fun h => (List.Nodup.of_map LinkRow.key h).filter p
  have hperm : (y.links.filter p).Perm (d.links.filter p) := by
    refine (List.perm_ext_iff_of_nodup (hnodup hky) (hnodup hkd)).mpr fun l => ?_
    rw [List.mem_filter, List.mem_filter]
    exact and_congr_left fun hl => hsame l (hof hl)
  have hmem : ∀ l ∈ (y.links.filter p).insertionSort linkOrder, l ∈ d.links ∧ l.episodeRef = ref := by
    intro l hl
    have hl := List.mem_filter.mp (hperm.mem_iff.mp ((List.mem_insertionSort _).mp hl))
    exact ⟨hl.1, hof hl.2⟩
  have hsorted : (y.links.filter p).insertionSort linkOrder =
      (d.links.filter p).insertionSort linkOrder := by
    refine Best.sorted_unique ?_ (faithful_links ho hhash hkd hne hmem)
      (Best.insertionSort_sorted _ linkOrder_iff _) (Best.insertionSort_sorted _ linkOrder_iff _)
    exact (List.perm_insertionSort _ _).trans (hperm.trans (List.perm_insertionSort _ _).symm)
  unfold documentSources
  show ((y.links.filter p).insertionSort linkOrder).filterMap (linkedSource y) =
    ((d.links.filter p).insertionSort linkOrder).filterMap (linkedSource d)
  rw [hsorted]
  rw [hsorted] at hmem
  refine List.filterMap_congr fun l hl => ?_
  obtain ⟨s, hs, hkey⟩ := ho.sourced l (hmem l hl).1
  cases hsource : linkedSource d l with
  | some source => exact linkedSource_later hy hg hsource
  | none =>
    have hnone := List.find?_eq_none.mp (Option.map_eq_none_iff.mp hsource) s hs
    exact absurd (decide_eq_true hkey) hnone

/-! ## Commits -/

/-- A commit as the outbox sees it. -/
structure Commit (store : Store) (d y : Db) : Prop where
  posting : Posting store d y
  advances : Advances store d y
  before : WorldLaw store d
  outboxBefore : OutboxLaw store d
  outbox : OutboxLaw store y
  linksBefore : KeysUnique LinkRow.key d.links
  linksAfter : KeysUnique LinkRow.key y.links

theorem Commit.causes (h : Commit store d y) : ∀ c ∈ causes d, c ∈ causes y :=
  fun _ hc => causes_later h.outboxBefore h.advances.links h.advances.grown hc

/-- A link that a commit bound and posted is a new cause. -/
theorem Posts.new_cause {g : StableGroupRef} {t : LinkRow} (h : Posts store d y g t)
    (ho : OutboxLaw store d) (hhash : Collisionless store) :
    typedLink t ∈ causes y ∧ typedLink t ∉ causes d := by
  have hne : t.episodeRef ≠ "" := by
    rw [h.bound]
    exact store.episodeRef_ne g
  refine ⟨List.mem_append_left _ (mem_linkCauses.mpr ⟨t, h.mem, hne, rfl⟩), fun hold => ?_⟩
  rcases List.mem_append.mp hold with hold | hold
  · obtain ⟨k, hk, hkne, heq⟩ := mem_linkCauses.mp hold
    have href : k.episodeRef = t.episodeRef := congrArg Cause.documentRef heq
    have hfields : [k.role.text, k.sourceEventRef] = [t.role.text, t.sourceEventRef] :=
      (List.cons.inj (congrArg Cause.fields heq)).2
    have hrole : k.role = t.role := SourceRole.text_injective (List.cons.inj hfields).1
    have hsource : k.sourceEventRef = t.sourceEventRef :=
      List.singleton_inj.mp (List.cons.inj hfields).2
    have hgroup : k.group = t.group := by
      apply episodeRef_injective hhash
      rw [← (ho.bound k hk hkne).1, href, h.bound, h.group]
    refine hkne (h.new k hk ?_)
    rw [LinkRow.key, LinkRow.key, hgroup, hrole, hsource]
  · rcases memoryCause_cases hold with ⟨_, _, _, _, hc⟩ | ⟨_, _, _, _, hc⟩
    · cases (of_versionCauses hc).1
    · cases (of_versionCauses hc).1

/-- An Episode of which a link is bound has a text. -/
theorem documentText_bound (hd : WorldLaw store d) (ho : OutboxLaw store d) (hhash : Collisionless store)
    {l : LinkRow} (hl : l ∈ d.links) (hne : l.episodeRef ≠ "") :
    (documentText (typedLink l).document d).isSome := by
  obtain ⟨href, e, he, hgroup⟩ := ho.bound l hl hne
  have heref : e.ref = l.episodeRef := by rw [(hd.episodes e he).1, hgroup, href]
  have hdocument : (typedLink l).document = ⟨.episode, e.ref, e.group.scope.owner.index⟩ := by
    rw [heref, hgroup]
    rfl
  have hsources : (documentSources e.ref e.group.scope.tenantRef d).isEmpty = false := by
    obtain ⟨s, hs, hkey⟩ := ho.sourced l hl
    rw [List.isEmpty_eq_false_iff_exists_mem]
    have hsome : (linkedSource d l).isSome := by
      rw [linkedSource, Option.isSome_map, List.find?_isSome]
      exact ⟨s, hs, decide_eq_true hkey⟩
    obtain ⟨source, hsource⟩ := Option.isSome_iff_exists.mp hsome
    refine ⟨source, List.mem_filterMap.mpr ⟨l, (List.mem_insertionSort _).mpr ?_, hsource⟩⟩
    refine List.mem_filter.mpr ⟨hl, ?_⟩
    rw [heref, hgroup]
    simp
  rw [hdocument, documentText_episode hd hhash he, hsources]
  rfl

theorem Commit.episode_turns (h : Commit store d y) (hhash : Collisionless store)
    (hne : documentText ⟨.episode, ref, scope⟩ y ≠ documentText ⟨.episode, ref, scope⟩ d) :
    ∃ c, y.Posts (store.operationRef c) ∧ Turns d y ⟨.episode, ref, scope⟩ c := by
  have hturns : ∀ {g t}, Posts store d y g t → (typedLink t).document = ⟨.episode, ref, scope⟩ →
      ∃ c, y.Posts (store.operationRef c) ∧ Turns d y ⟨.episode, ref, scope⟩ c := by
    intro g t ht hdocument
    obtain ⟨hmem, hnew⟩ := ht.new_cause h.outboxBefore hhash
    refine ⟨typedLink t, ht.posted, hmem, hnew, hdocument, ?_⟩
    rw [← hdocument, documentText_bound h.advances.law h.outbox hhash ht.mem (by
      rw [ht.bound]
      exact store.episodeRef_ne g)]
    rfl
  by_cases hex : ∃ e ∈ y.episodes, e.ref = ref ∧ e.group.scope.owner.index = scope
  · obtain ⟨e, he, rfl, rfl⟩ := hex
    have heref := (h.advances.law.episodes e he).1
    have hdocument : ∀ {t : LinkRow}, Posts store d y e.group t →
        (typedLink t).document = ⟨.episode, e.ref, e.group.scope.owner.index⟩ := by
      intro t ht
      rw [Cause.document]
      show (⟨.episode, t.episodeRef, t.group.scope.owner.index⟩ : DocumentRef) = _
      rw [ht.bound, ht.group, heref]
    rcases h.posting.episodes e he with hold | ⟨t, ht⟩
    · by_contra hno
      -- No link was bound, so the text is what it was.
      refine hne ?_
      rw [documentText_episode h.advances.law hhash he, documentText_episode h.before hhash hold]
      have href : e.ref ≠ "" := by
        rw [heref]
        exact store.episodeRef_ne _
      have hsame : ∀ l : LinkRow, l.episodeRef = e.ref → (l ∈ y.links ↔ l ∈ d.links) := by
        intro l hl
        have hlne : l.episodeRef ≠ "" := by
          rw [hl]
          exact href
        constructor
        · intro hmem
          rcases h.posting.links l hmem hlne with hold | ⟨hbound, _, t, ht⟩
          · exact hold
          · have hgroup : l.group = e.group := by
              apply episodeRef_injective hhash
              rw [← hbound, hl, heref]
            rw [hgroup] at ht
            exact absurd (hturns ht (hdocument ht)) hno
        · exact fun hmem => h.advances.links l hmem (h.outboxBefore.bound l hmem hlne).1
      rw [documentSources_congr h.advances.law h.outboxBefore hhash h.advances.gains h.linksBefore
        h.linksAfter href hsame]
    · exact hturns ht (hdocument ht)
  · have hnone : ∀ {x : Db}, (∀ e ∈ x.episodes, e ∈ y.episodes) →
        documentText ⟨.episode, ref, scope⟩ x = none := fun hsub =>
      documentText_noEpisode fun e he href hscope => hex ⟨e, hsub e he, href, hscope⟩
    refine absurd ?_ hne
    rw [hnone fun _ he => he, hnone fun _ he => h.advances.gains.episodes he]

/-- A document that changes has a new operation, which says whether it has a text. -/
theorem Commit.turns (h : Commit store d y) (hhash : Collisionless store) {r : DocumentRef}
    (hne : documentText r y ≠ documentText r d) :
    ∃ c, y.Posts (store.operationRef c) ∧ Turns d y r c := by
  have hposted : ∀ {c}, c ∈ memoryCauses y → Turns d y r c →
      ∃ c, y.Posts (store.operationRef c) ∧ Turns d y r c :=
    fun hc hturns => ⟨_, h.outbox.posted _ hc, hturns⟩
  obtain ⟨kind, ref, scope⟩ := r
  cases kind with
  | episode => exact h.episode_turns hhash hne
  | recollection =>
    obtain ⟨c, hc, hturns⟩ := (shelved_recollections h.before.memory).turns
      (shelved_recollections h.advances.law.memory) h.advances.grown.recollections hne
    exact hposted hc hturns
  | disposition =>
    obtain ⟨c, hc, hturns⟩ := (shelved_seeds h.before.memory).turns
      (shelved_seeds h.advances.law.memory) h.advances.grown.seeds hne
    exact hposted hc hturns

/-- A deletion is about a document without a text. -/
theorem deleted_document (hd : WorldLaw store d) (ho : OutboxLaw store d) {o : IndexOperationRow}
    (hmem : o ∈ d.indexOperations) (hdelete : o.action = .delete) : documentText o.document d = none := by
  obtain ⟨c, hc, n, rfl⟩ := ho.founded o hmem
  have haction : c.action = .delete := hdelete
  show documentText c.document d = none
  rcases List.mem_append.mp hc with hc | hc
  · obtain ⟨l, _, _, rfl⟩ := mem_linkCauses.mp hc
    cases haction
  · rcases memoryCause_cases hc with ⟨owner, root, m, _, hcause⟩ | ⟨owner, root, m, _, hcause⟩
    · exact (shelved_recollections hd.memory).gone hcause haction hc
    · exact (shelved_seeds hd.memory).gone hcause haction hc

/-- What an operation of the outbox says of its document. -/
theorem Commit.published (h : Commit store d y) (hhash : Collisionless store)
    (hclash : store.Unclashing y) {r : DocumentRef} (hne : documentText r y ≠ documentText r d) :
    ∃ o ∈ y.indexOperations, o ∉ d.indexOperations ∧ o.document = r ∧
      (o.action == .upsert) = (documentText r y).isSome := by
  obtain ⟨c, hposts, hturns⟩ := h.turns hhash hne
  obtain ⟨o, hmem, hnew, n, rfl⟩ := fresh_operation h.outboxBefore h.advances.law h.outbox hhash hclash
    h.causes hturns.mem hturns.new hposts
  exact ⟨_, hmem, hnew, hturns.document, hturns.adds⟩

end

end ChoraMem
