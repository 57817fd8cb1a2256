/-
What the documents of the index are made from.

A call that reads a store of printed rows writes printed rows: the refs of Episodes and
versions come from digests and numbers, an active version has a text, and every owner has a
tenant and an agent.  The queue of the index names such refs and owners only.
-/
import ChoraMem.Storage.Projection
import ChoraMem.World.Sizes

namespace ChoraMem

open Txn

/-! ## Refs -/

/-- A digest as it is printed. -/
abbrev PlainDigest (store : Store) : Prop :=
  ∀ fields, containsSpace (store.hashFields fields) = false

/-- A ref that the projector accepts. -/
abbrev PlainRef (ref : String) : Prop := validProjectionRef ref false = true

theorem plainRef_iff {ref : String} : PlainRef ref ↔ ref ≠ "" ∧ containsSpace ref = false := by
  unfold PlainRef validProjectionRef
  simp

theorem containsSpace_append (a b : String) :
    containsSpace (a ++ b) = (containsSpace a || containsSpace b) := by
  rw [containsSpace, String.toList_append, List.any_append]
  rfl

theorem PlainRef.append {a b : String} (ha : PlainRef a) (hb : containsSpace b = false) :
    PlainRef (a ++ b) := by
  obtain ⟨hne, hspace⟩ := plainRef_iff.mp ha
  refine plainRef_iff.mpr ⟨fun h => hne (String.append_eq_empty_iff.mp h).1, ?_⟩
  rw [containsSpace_append, hspace, hb]
  rfl

theorem not_isSpace_of_isDigit {c : Char} (h : c.isDigit) : isSpace c = false := by
  have hle : 48 ≤ c.toNat ∧ c.toNat ≤ 57 := by
    simp only [Char.isDigit, Bool.and_eq_true, decide_eq_true_eq] at h
    exact ⟨h.1, h.2⟩
  unfold isSpace
  simp only [Bool.or_eq_false_iff, Bool.and_eq_false_iff, decide_eq_false_iff_not]
  omega

theorem containsSpace_toString (n : Nat) : containsSpace (toString n) = false := by
  rw [containsSpace, Nat.toString_eq_ofList_toDigits, String.toList_ofList, List.any_eq_false]
  intro c hc
  rw [not_isSpace_of_isDigit (Nat.isDigit_of_mem_toDigits (by decide) (by decide) hc)]
  decide

theorem PlainRef.version {root : String} (h : PlainRef root) (n : Nat) :
    PlainRef (versionRefOf root n) :=
  (h.append (by decide)).append (containsSpace_toString n)

section

variable {store : Store}

theorem containsSpace_shortHash (hdigest : PlainDigest store) (fields : List String) :
    containsSpace (store.shortHash fields) = false := by
  have h := hdigest fields
  rw [containsSpace, List.any_eq_false] at h
  rw [Store.shortHash, textPrefix, containsSpace, String.toList_ofList, List.any_eq_false]
  exact fun c hc => h c (List.mem_of_mem_take hc)

theorem plainRef_episodeRef (hdigest : PlainDigest store) (g : StableGroupRef) :
    PlainRef (store.episodeRef g) :=
  PlainRef.append (by decide) (hdigest _)

theorem plainRef_seedFormationRef (hdigest : PlainDigest store) (owner : OwnerScope)
    (jobRef tendency : String) (episodes outcomes : List String) :
    PlainRef (store.seedFormationRef owner jobRef tendency episodes outcomes) :=
  PlainRef.append (by decide) (containsSpace_shortHash hdigest _)

theorem plainRef_recollectionFormationRef (hdigest : PlainDigest store) (owner : OwnerScope)
    (jobRef application text : String) (basis : List String) :
    PlainRef (store.recollectionFormationRef owner jobRef application text basis) :=
  PlainRef.append (by decide) (containsSpace_shortHash hdigest _)

end

/-! ## Rows -/

def OwnerScope.Named (owner : OwnerScope) : Prop := owner.tenantRef ≠ "" ∧ owner.agentRef ≠ ""

def SeedVersionRow.Printed (v : SeedVersionRow) : Prop :=
  PlainRef v.ref ∧ (v.status = .active → trimSpace v.tendency ≠ "")

def RecollectionVersionRow.Printed (v : RecollectionVersionRow) : Prop :=
  PlainRef v.ref ∧ (v.status = .active → trimSpace v.text ≠ "")

structure Store.Printed (store : Store) (d : Db) : Prop where
  groups : KeysUnique EpisodeRow.group d.episodes
  episodes : ∀ e ∈ d.episodes, e.ref = store.episodeRef e.group ∧ e.group.scope.owner.Named
  seeds : ∀ s ∈ d.seeds, PlainRef s.ref ∧ s.owner.Named
  seedVersions : ∀ v ∈ d.seedVersions, v.Printed
  recollections : ∀ r ∈ d.recollections, PlainRef r.ref ∧ r.owner.Named
  recollectionVersions : ∀ v ∈ d.recollectionVersions, v.Printed
  operations : ∀ o ∈ d.indexOperations, PlainRef o.documentRef ∧ o.tenantRef ≠ "" ∧ o.agentRef ≠ ""

def Store.Prints (store : Store) : Write → Prop
  | .insertEpisode r => r.ref = store.episodeRef r.group ∧ r.group.scope.owner.Named
  | .insertSeed r => PlainRef r.ref ∧ r.owner.Named
  | .insertSeedVersion r | .updateSeedVersion r => r.Printed
  | .insertRecollection r => PlainRef r.ref ∧ r.owner.Named
  | .insertRecollectionVersion r | .updateRecollectionVersion r => r.Printed
  | .insertIndexOperation r => PlainRef r.documentRef ∧ r.tenantRef ≠ "" ∧ r.agentRef ≠ ""
  | _ => True

/-- A row that is inserted joins the others. -/
theorem forall_insertRow {ρ κ : Type} [DecidableEq κ] {key : ρ → κ} {r : ρ} {t : List ρ}
    {P : ρ → Prop} (h : ∀ x ∈ t, P x) (hr : P r) : ∀ x ∈ insertRow key r t, P x := by
  intro x hx
  rcases mem_insertRow.mp hx with hx | ⟨rfl, _⟩
  · exact h x hx
  · exact hr

theorem forall_updateRow {ρ κ : Type} [DecidableEq κ] {key : ρ → κ} {r : ρ} {t : List ρ}
    {P : ρ → Prop} (h : ∀ x ∈ t, P x) (hr : P r) : ∀ x ∈ updateRow key r t, P x := by
  intro x hx
  rcases mem_updateRow.mp hx with ⟨hx, _⟩ | rfl
  · exact h x hx
  · exact hr

theorem printed_empty (store : Store) : store.Printed {} where
  groups := List.nodup_nil
  episodes := fun _ h => absurd h List.not_mem_nil
  seeds := fun _ h => absurd h List.not_mem_nil
  seedVersions := fun _ h => absurd h List.not_mem_nil
  recollections := fun _ h => absurd h List.not_mem_nil
  recollectionVersions := fun _ h => absurd h List.not_mem_nil
  operations := fun _ h => absurd h List.not_mem_nil

theorem printed_apply {store : Store} (d : Db) (w : Write) (h : store.Printed d)
    (hw : store.Prints w) : store.Printed (d.apply w) := by
  cases w with
  | insertEpisode r =>
    exact { h with
      groups := h.groups.insertRow r, episodes := forall_insertRow h.episodes hw }
  | insertSeed r => exact { h with seeds := forall_insertRow h.seeds hw }
  | insertSeedVersion r => exact { h with seedVersions := forall_insertRow h.seedVersions hw }
  | updateSeedVersion r => exact { h with seedVersions := forall_updateRow h.seedVersions hw }
  | insertRecollection r => exact { h with recollections := forall_insertRow h.recollections hw }
  | insertRecollectionVersion r =>
    exact { h with recollectionVersions := forall_insertRow h.recollectionVersions hw }
  | updateRecollectionVersion r =>
    exact { h with recollectionVersions := forall_updateRow h.recollectionVersions hw }
  | insertIndexOperation r => exact { h with operations := forall_insertRow h.operations hw }
  | _ => exact ⟨h.1, h.2, h.3, h.4, h.5, h.6, h.7⟩

abbrev KeepsPrinted {α : Type} (store : Store) (p : Tx α) : Prop :=
  p.Keeps store.Printed store.Prints

abbrev ReturnsPrinted {α : Type} (store : Store) (Q : α → Prop) (p : Tx α) : Prop :=
  p.Returns store.Printed store.Prints Q

section

variable {store : Store}

theorem returns_selectOrFail {α : Type} {q : Db → Except Fault α} {Q : α → Prop}
    (h : ∀ d a, store.Printed d → q d = .ok a → Q a) : ReturnsPrinted store Q (selectOrFail q) := by
  unfold selectOrFail
  intro d hd
  cases hq : q d with
  | error e =>
    simp only [hq]
    trivial
  | ok a =>
    simp only [hq]
    exact h d a hd hq

/-- An operation of the queue, for a ref and an owner that can be projected. -/
theorem keeps_enqueue (action : IndexAction) (kind : DocumentKind) {documentRef : String}
    {owner : OwnerScope} (root : String) (fields : List String) (href : PlainRef documentRef)
    (howner : owner.Named) : KeepsPrinted store
      (store.enqueueMemoryIndexOperation action kind documentRef owner root fields) := by
  simp only [Store.enqueueMemoryIndexOperation]
  split
  · exact trivial
  split
  · exact trivial
  refine Prog.Keeps.of_emits (Prog.Emits.acquire (Prog.Emits.select fun exist => ?_))
  split
  · exact trivial
  · exact Prog.Emits.select fun sequence => emits_insertFresh ⟨href, howner⟩

/-! ## Intake -/

theorem named_of_whole {s : Scope} (h : s.Whole) : s.owner.Named := ⟨h.tenant, h.agent⟩

theorem emits_insertEpisode_printed {g : StableGroupRef} (hg : g.scope.owner.Named) :
    (store.insertEpisode g).Emits store.Prints := by
  refine ⟨fun d w hw => ?_, fun d => ?_⟩
  · dsimp only at hw
    split at hw
    · cases hw
    · rw [List.mem_singleton.mp hw]
      exact ⟨rfl, hg⟩
  · dsimp only
    split <;> exact trivial

theorem emits_bindEpisode_printed (g : StableGroupRef) :
    (store.bindEpisode g).Emits store.Prints := by
  refine Prog.Emits.statement (fun d w hw => ?_) fun _ => ⟨fun d w hw => ?_, fun _ => trivial⟩
  · obtain ⟨l, _, rfl⟩ := List.mem_map.mp hw
    exact trivial
  · obtain ⟨o, _, rfl⟩ := List.mem_map.mp hw
    exact trivial

/-- The ref of an Episode that a link changed. -/
theorem returns_appendLinkAndMaterialize (hdigest : PlainDigest store) {event : SourceEvent}
    (binding : EpisodeBinding) (hscope : event.scope.Whole) :
    ReturnsPrinted store (fun r => r.1 ≠ "" → PlainRef r.1)
      (store.appendLinkAndMaterialize event binding) := by
  intro d hd
  have hfound : findEpisode (binding.group event.scope) d ≠ "" →
      PlainRef (findEpisode (binding.group event.scope) d) := by
    unfold findEpisode findEpisodeRow
    cases hrow : d.episodes.find? fun e => decide (e.group = binding.group event.scope) with
    | none => exact fun hne => absurd rfl hne
    | some row =>
      intro _
      show PlainRef row.ref
      rw [(hd.episodes row (List.mem_of_find?_eq_some hrow)).1]
      exact plainRef_episodeRef hdigest _
  have hlinked : ∀ ref, KeepsPrinted store
      (alreadyLinked (binding.group event.scope) event.ref binding.role ref) := by
    intro ref
    unfold alreadyLinked
    split
    · exact fun _ _ => trivial
    · exact trivial
  refine (Prog.Returns.of_keeps (hlinked _)).bind fun linked _ => ?_
  split
  · exact hfound
  split
  · exact trivial
  refine fun d hd => ⟨fun w hw => ?_, ?_⟩
  · unfold newLink at hw
    split at hw
    · cases hw
    · rw [List.mem_singleton.mp hw]
      exact trivial
  · dsimp only
    split
    · exact hfound
    · refine Prog.Returns.select fun d hd => ?_
      split
      · exact fun hne => absurd rfl hne
      · refine (Prog.Returns.of_keeps (Prog.Keeps.of_emits
          (emits_insertEpisode_printed (named_of_whole hscope)))).bind fun _ _ => ?_
        refine (Prog.Returns.of_keeps (Prog.Keeps.of_emits
          (emits_bindEpisode_printed _))).bind fun _ _ => ?_
        exact fun _ => plainRef_episodeRef hdigest _

theorem keeps_printed_observe (hdigest : PlainDigest store) (env : Ambient) (key : String)
    (event : SourceEvent) (binding : EpisodeBinding) :
    KeepsPrinted store (store.observe env key event binding) := by
  unfold Store.observe
  split
  · exact trivial
  split
  · exact trivial
  rename_i hvalid
  have hscope := whole_of_validateSourceEvent (source_of_validate hvalid)
  refine (Prog.Keeps.of_emits (emits_claimRequest store key event binding fun _ => trivial)).bind
    fun claim => ?_
  obtain ⟨receipt, claimed⟩ := claim
  dsimp only
  split
  · exact trivial
  refine (Prog.Keeps.of_emits (emits_lockActedRun store event.scope binding)).bind fun _ => ?_
  refine (Prog.Keeps.of_emits (emits_admitSource env event fun _ => trivial)).bind fun _ => ?_
  have hbind : KeepsPrinted store (store.bindObserved env event binding) := by
    unfold Store.bindObserved
    split
    · refine Prog.Returns.after (returns_appendLinkAndMaterialize hdigest binding hscope)
        fun r hr => ?_
      obtain ⟨ref, changed⟩ := r
      dsimp only
      split
      · rename_i hchanged
        have href : ref ≠ "" := by
          intro hempty
          simp [hempty] at hchanged
        refine (Prog.Keeps.of_emits (emits_enqueueEpisodeState store env event.scope _
          (fun _ => trivial) fun _ => trivial)).bind fun _ => ?_
        exact (keeps_enqueue _ _ _ _ (hr href) (named_of_whole hscope)).bind fun _ => trivial
      · exact trivial
    · exact trivial
  exact hbind.bind fun ref => (Prog.Keeps.of_emits
    (emits_freezeObserveReceipt _ _ _ fun _ => trivial)).bind fun _ => trivial

theorem keeps_printed_reportOutcome (hdigest : PlainDigest store) (env : Ambient)
    (report : OutcomeReport) : KeepsPrinted store (store.reportOutcome env report) := by
  unfold Store.reportOutcome
  split
  · exact trivial
  rename_i hvalid
  have hscope := whole_of_validateSourceEvent (source_of_validateOutcomeReport hvalid)
  refine (Prog.Keeps.of_emits (emits_loadOutcomeReceipt report _)).bind fun found => ?_
  split
  · exact trivial
  refine (Prog.Keeps.of_emits (emits_validateOutcomeBindings report _ _)).bind fun _ => ?_
  refine (Prog.Keeps.of_emits (emits_admitSource env report.event fun _ => trivial)).bind fun _ => ?_
  refine Prog.Returns.after (returns_appendLinkAndMaterialize hdigest report.binding hscope)
    fun r hr => ?_
  refine (Prog.Keeps.of_emits (emits_insertFresh trivial)).bind fun _ => ?_
  refine (Prog.Keeps.of_emits (emits_enqueueEpisodeState store env report.event.scope r.1
    (fun _ => trivial) fun _ => trivial)).bind fun _ => ?_
  split
  · rename_i hchanged
    have href : r.1 ≠ "" := by
      intro hempty
      simp [hempty] at hchanged
    exact (keeps_enqueue _ _ _ _ (hr href) (named_of_whole hscope)).bind fun _ => trivial
  · exact trivial

theorem keeps_printed_intake (hdigest : PlainDigest store) (c : IntakeCommand) :
    KeepsPrinted store (store.intake c) := by
  cases c with
  | observe env key event binding =>
    exact (keeps_printed_observe hdigest env key event binding).bind fun _ => trivial
  | reportOutcome env report =>
    exact (keeps_printed_reportOutcome hdigest env report).bind fun _ => trivial
  | recordMemoryDelivery env delivery =>
    have hemits : (store.recordMemoryDelivery env delivery).Emits store.Prints := by
      unfold Store.recordMemoryDelivery
      split
      · exact trivial
      refine Prog.Emits.acquire (Prog.Emits.bind (emits_loadMemoryDeliveryReceipt _ _ _)
        fun found => ?_)
      split
      · exact trivial
      refine Prog.Emits.acquire ?_
      refine Prog.Emits.bind (emits_rejectRetroactiveMemoryDelivery delivery) fun _ => ?_
      refine Prog.Emits.bind (emits_loadDeliverableMemoryRefs delivery) fun allowed => ?_
      split
      · exact trivial
      refine Prog.Emits.bind (emits_insertFresh trivial) fun _ => ?_
      exact Prog.Emits.bind (emits_enqueueRunEpisodes store env _ _ (fun _ => trivial)
        fun _ => trivial) fun _ => trivial
    exact (Prog.Keeps.of_emits hemits).bind fun _ => trivial

/-! ## What is loaded -/

/-- Refs and owners of a window from printed rows. -/
structure WindowState.Printed (w : WindowState) : Prop where
  owner : (windowOwner w.episodes).Named
  recollections : ∀ r ∈ w.recollections,
    PlainRef r.recollection ∧ PlainRef r.versionRef ∧ r.owner.Named
  targets : ∀ t ∈ w.targets, PlainRef t.seedRef ∧ PlainRef t.versionRef ∧ t.owner.Named

theorem printed_of_rooted {d : Db} (hd : store.Printed d) {t : FeedbackTarget} (h : t.Rooted d) :
    PlainRef t.seedRef ∧ PlainRef t.versionRef ∧ t.owner.Named := by
  obtain ⟨⟨v, hv, href, _⟩, hseed⟩ := h
  obtain ⟨hroot, howner⟩ := hd.seeds _ hseed
  exact ⟨hroot, href ▸ (hd.seedVersions v hv).1, howner⟩

theorem printed_of_owned {d : Db} (hd : store.Printed d) {owner : OwnerScope}
    {r : ActiveRecollection} (h : r ∈ ownedRecollections owner d) :
    PlainRef r.recollection ∧ PlainRef r.versionRef ∧ r.owner.Named := by
  obtain ⟨root, hroot, howner, v, hv, _, href, _, rfl⟩ := mem_ownedRecollections.mp h
  obtain ⟨hplain, hnamed⟩ := hd.recollections root hroot
  exact ⟨href ▸ hplain, (hd.recollectionVersions v hv).1, howner ▸ hnamed⟩

theorem returns_reloadWindow {p : Proposal} {episodes related : List EpisodeEvidence}
    (howner : (windowOwner episodes).Named) :
    ReturnsPrinted store WindowState.Printed (store.reloadWindow p episodes related) := by
  unfold Store.reloadWindow
  refine Prog.Returns.select fun x hx => ?_
  refine (returns_selectOrFail (Q := fun state => ∀ t ∈ state.1,
    PlainRef t.seedRef ∧ PlainRef t.versionRef ∧ t.owner.Named) fun y state hy hstate t ht => ?_).bind
      fun state htargets => ?_
  · rcases rooted_of_loaded ((loadFeedbackState_ok hstate).1 t ht) with hrooted | hrooted
    · exact printed_of_rooted hx hrooted
    · exact printed_of_rooted hy hrooted
  · obtain ⟨targets, outcomes⟩ := state
    refine Prog.Returns.select fun _ _ => Prog.Returns.select fun z hz => ?_
    have hrecollections : ∀ r ∈ store.loadActiveRecollections p.owner episodes
        p.found.recollectionRefs z, PlainRef r.recollection ∧ PlainRef r.versionRef ∧ r.owner.Named := by
      intro r hr
      obtain ⟨a, ha, rfl⟩ := mem_loadActiveRecollections hr
      have ha := printed_of_owned hz ha
      exact ha
    show WindowState.Printed (WindowState.withPairs _ _)
    unfold WindowState.withPairs
    split
    · exact ⟨howner, hrecollections, htargets⟩
    · exact ⟨howner, hrecollections, htargets⟩

/-! ## Changes -/

/-- The version that was made, if one was. -/
def Applied.Printed (a : Applied) : Prop := a.applied = true → PlainRef a.versionRef

theorem keeps_insertFresh {taken : Db → Bool} {w : Write} {operation : String}
    (hw : store.Prints w) : KeepsPrinted store (insertFresh taken w operation) :=
  .of_emits (emits_insertFresh hw)

theorem keeps_insertRecollectionBasis (tenantRef versionRef : String) (refs : List String)
    (role : BasisRole) : KeepsPrinted store (insertRecollectionBasis tenantRef versionRef refs role) :=
  .of_emits (emits_insertBases (w := .insertRecollectionBasis) (fun _ => trivial) _ _ _ _ _)

theorem keeps_insertEpisodeBasis (tenantRef versionRef : String) (refs : List String)
    (role : BasisRole) : KeepsPrinted store (insertEpisodeBasis tenantRef versionRef refs role) :=
  .of_emits (emits_insertBases (w := .insertSeedBasis) (fun _ => trivial) _ _ _ _ _)

theorem keeps_insertOutcomeBasis (tenantRef versionRef : String) (refs : List String)
    (role : BasisRole) : KeepsPrinted store (insertOutcomeBasis tenantRef versionRef refs role) :=
  .of_emits (emits_insertBases (w := .insertSeedOutcomeBasis) (fun _ => trivial) _ _ _ _ _)

theorem keeps_supersedeRecollectionVersion (tenantRef versionRef : String) :
    KeepsPrinted store (supersedeRecollectionVersion tenantRef versionRef) := by
  refine Prog.Keeps.statement (fun d hd x hx => ?_) fun d _ => ?_
  · obtain ⟨v, hv, rfl⟩ := List.mem_map.mp hx
    exact ⟨(hd.recollectionVersions v (List.mem_of_mem_filter hv)).1, fun h => by cases h⟩
  · split <;> exact trivial

theorem keeps_supersedeSeedVersion (tenantRef versionRef : String) :
    KeepsPrinted store (supersedeSeedVersion tenantRef versionRef) := by
  refine Prog.Keeps.statement (fun d hd x hx => ?_) fun d _ => ?_
  · obtain ⟨v, hv, rfl⟩ := List.mem_map.mp hx
    exact ⟨(hd.seedVersions v (List.mem_of_mem_filter hv)).1, fun h => by cases h⟩
  · split <;> exact trivial

theorem keeps_insertRecollection (env : Ambient) {owner : OwnerScope} (howner : owner.Named)
    (jobRef application : String) {text ref : String} (htext : trimSpace text ≠ "")
    (href : PlainRef ref) :
    KeepsPrinted store (Store.insertRecollection env owner jobRef application text ref) :=
  Prog.Keeps.bind (keeps_insertFresh ⟨href, howner⟩) fun _ =>
    keeps_insertFresh ⟨href.version 1, fun _ => htext⟩

theorem keeps_insertRevisedRecollection (env : Ambient) (jobRef : String) {text : String}
    (htext : trimSpace text ≠ "") {r : ActiveRecollection} (hroot : PlainRef r.recollection) :
    KeepsPrinted store (Store.insertRevisedRecollection env jobRef text r) :=
  (keeps_supersedeRecollectionVersion _ _).bind fun _ =>
    keeps_insertFresh ⟨hroot.version _, fun _ => htext⟩

theorem keeps_insertSeed {owner : OwnerScope} (howner : owner.Named) (jobRef : String)
    {tendency ref : String} (htext : trimSpace tendency ≠ "") (href : PlainRef ref) :
    KeepsPrinted store (Store.insertSeed owner jobRef tendency ref) :=
  Prog.Keeps.bind (keeps_insertFresh ⟨href, howner⟩) fun _ =>
    keeps_insertFresh ⟨href.version 1, fun _ => htext⟩

theorem keeps_insertRevisedSeed (jobRef : String) {text : String} (htext : trimSpace text ≠ "")
    {t : FeedbackTarget} (hroot : PlainRef t.seedRef) :
    KeepsPrinted store (insertRevisedSeed jobRef text t) :=
  (keeps_supersedeSeedVersion _ _).bind fun _ =>
    keeps_insertFresh ⟨hroot.version _, fun _ => htext⟩

theorem keeps_insertFormationBasis (tenantRef versionRef : String) (refs : List String) :
    KeepsPrinted store (insertFormationBasis tenantRef versionRef refs) :=
  .of_emits (Prog.emits_forEach (fun _ => emits_insertFresh trivial) _)

theorem keeps_projectFormation (kind : DocumentKind) {owner : OwnerScope} (howner : owner.Named)
    {a : Applied} (ha : a.Printed) : KeepsPrinted store (store.projectFormation kind owner a) := by
  unfold Store.projectFormation
  split
  · rename_i happlied
    exact (keeps_enqueue _ _ _ _ (ha happlied) howner).bind fun _ => trivial
  · exact trivial

theorem keeps_projectRevision (kind : DocumentKind) (rootRef : String) {oldRef : String}
    (hold : PlainRef oldRef) {owner : OwnerScope} (howner : owner.Named) {a : Applied}
    (ha : a.Printed) : KeepsPrinted store (store.projectRevision kind rootRef oldRef owner a) := by
  unfold Store.projectRevision
  split
  · rename_i happlied
    have hnew : PlainRef a.versionRef := by
      rw [Bool.and_eq_true] at happlied
      exact ha happlied.1
    exact ((keeps_enqueue _ _ _ _ hold howner).bind fun _ =>
      keeps_enqueue _ _ _ _ hnew howner).bind fun _ => trivial
  · exact trivial

theorem trimSpace_trimSpace (text : String) : trimSpace (trimSpace text) = trimSpace text := by
  rw [← String.toList_inj, toList_trimSpace, toList_trimSpace, Text.strip_strip]

theorem returns_recollectionFormation (hdigest : PlainDigest store) (env : Ambient)
    {w : WindowState} (hw : w.Printed) (jobRef : String) (change : Change) :
    ReturnsPrinted store Applied.Printed
      (store.applyRecollectionFormation env w jobRef change) := by
  have hnone : Applied.Printed {} := fun h => by cases h
  unfold Store.applyRecollectionFormation
  split
  · exact hnone
  split
  · exact hnone
  rename_i hcheck
  have htext : trimSpace change.text ≠ "" := by
    intro hempty
    exact hcheck (by simp [Change.blank, hempty])
  unfold Store.formRecollection
  refine Prog.Returns.select fun d _ => ?_
  split
  · exact hnone
  have href := plainRef_recollectionFormationRef hdigest (windowOwner w.episodes) jobRef
    change.application.lower (trimSpace change.text)
  have htrimmed : trimSpace (trimSpace change.text) ≠ "" := by rwa [trimSpace_trimSpace]
  refine (Prog.Returns.of_keeps (keeps_insertRecollection env hw.owner _ _ htrimmed
    (href _))).bind fun _ _ => ?_
  refine (Prog.Returns.of_keeps (keeps_insertRecollectionBasis _ _ _ _)).bind fun _ _ => ?_
  exact fun _ => (href _).version 1

theorem keeps_recollectionChange (env : Ambient) (jobRef : String) {r : ActiveRecollection}
    (hr : PlainRef r.recollection ∧ PlainRef r.versionRef ∧ r.owner.Named) (change : Change) :
    KeepsPrinted store (store.applyRecollectionChange env jobRef r change) := by
  obtain ⟨hroot, hversion, howner⟩ := hr
  have hnone : Applied.Printed {} := fun h => by cases h
  unfold Store.applyRecollectionChange
  split
  · exact (keeps_insertRecollectionBasis _ _ _ _).bind fun _ => trivial
  · refine Prog.Returns.after (Q := Applied.Printed) ?_
      fun a ha => keeps_projectRevision _ _ hversion howner ha
    unfold Store.applyRecollectionRevision
    dsimp only
    split
    · exact hnone
    rename_i htext
    refine Prog.Returns.select fun d _ => ?_
    split
    · exact hnone
    have htrimmed : trimSpace (trimSpace change.text) ≠ "" := by
      rw [trimSpace_trimSpace]
      intro hempty
      exact htext (by simp [hempty])
    refine (Prog.Returns.of_keeps
      (keeps_insertRevisedRecollection env jobRef htrimmed hroot)).bind fun _ _ => ?_
    refine (Prog.Returns.of_keeps (keeps_insertRecollectionBasis _ _ _ _)).bind fun _ _ => ?_
    exact fun _ => hroot.version _
  · exact trivial

theorem returns_dispositionFormation (hdigest : PlainDigest store) {w : WindowState}
    (hw : w.Printed) (jobRef : String) (change : Change) :
    ReturnsPrinted store Applied.Printed (store.applyDispositionFormation w jobRef change) := by
  have hnone : Applied.Printed {} := fun h => by cases h
  unfold Store.applyDispositionFormation
  dsimp only
  split
  · exact hnone
  rename_i hcheck
  have htext : trimSpace change.text ≠ "" := by
    intro hempty
    exact hcheck (by simp [Change.blank, hempty])
  split
  · exact hnone
  rename_i episodes outcomes hbasis
  unfold Store.formSeed
  refine Prog.Returns.select fun d _ => ?_
  split
  · exact hnone
  have href := plainRef_seedFormationRef hdigest (windowOwner w.episodes) jobRef
    (trimSpace change.text) episodes outcomes
  have htrimmed : trimSpace (trimSpace change.text) ≠ "" := by rwa [trimSpace_trimSpace]
  refine (Prog.Returns.of_keeps (keeps_insertSeed hw.owner _ htrimmed href)).bind fun _ _ => ?_
  refine (Prog.Returns.of_keeps (keeps_insertFormationBasis _ _ _)).bind fun _ _ => ?_
  refine (Prog.Returns.of_keeps (keeps_insertOutcomeBasis _ _ _ _)).bind fun _ _ => ?_
  exact fun _ => href.version 1

/-- A revision writes the text of its change as it is, so the batch's check that it is not
blank is what counts. -/
theorem returns_revision (jobRef : String) {t : FeedbackTarget} (hroot : PlainRef t.seedRef)
    {change : Change} (htext : trimSpace change.text ≠ "") :
    ReturnsPrinted store Applied.Printed (applyRevision jobRef t change) := by
  have hnone : Applied.Printed {} := fun h => by cases h
  unfold applyRevision
  split
  · exact hnone
  split
  · exact hnone
  refine Prog.Returns.select fun d _ => ?_
  split
  · exact hnone
  refine (Prog.Returns.of_keeps (keeps_insertRevisedSeed jobRef htext hroot)).bind fun _ _ => ?_
  refine (Prog.Returns.of_keeps (keeps_insertEpisodeBasis _ _ _ _)).bind fun _ _ => ?_
  refine (Prog.Returns.of_keeps (keeps_insertOutcomeBasis _ _ _ _)).bind fun _ _ => ?_
  exact fun _ => hroot.version _

theorem keeps_dispositionChange (jobRef : String) {t : FeedbackTarget}
    (ht : PlainRef t.seedRef ∧ PlainRef t.versionRef ∧ t.owner.Named) {change : Change}
    (htext : change.operation = .text ∨ change.operation = .adapt → trimSpace change.text ≠ "") :
    KeepsPrinted store (store.applyDispositionChange jobRef t change) := by
  obtain ⟨hroot, hversion, howner⟩ := ht
  unfold Store.applyDispositionChange
  split
  · refine (Prog.Keeps.of_emits (emits_reenactable t _)).bind fun allowed => ?_
    split
    · exact trivial
    · exact (Prog.Keeps.of_emits (emits_appendReenactments (fun _ => trivial) t _ _)).bind
        fun _ => trivial
  · unfold applyInhibition
    split
    · exact trivial
    · exact (keeps_insertEpisodeBasis _ _ _ _).bind fun _ =>
        (keeps_insertOutcomeBasis _ _ _ _).bind fun _ => trivial
  · rename_i hop
    exact Prog.Returns.after (returns_revision jobRef hroot (htext (.inl hop)))
      fun a ha => keeps_projectRevision _ _ hversion howner ha
  · rename_i hop
    exact Prog.Returns.after (returns_revision jobRef hroot (htext (.inr hop)))
      fun a ha => keeps_projectRevision _ _ hversion howner ha
  · exact trivial

theorem keeps_applyChange (hdigest : PlainDigest store) (env : Ambient) (jobRef : String)
    {w : WindowState} (hw : w.Printed) {change : Change} (hvalid : w.validChange change = true) :
    KeepsPrinted store (store.applyChange env jobRef w change) := by
  unfold WindowState.validChange at hvalid
  unfold Store.applyChange
  split
  · exact Prog.Returns.after (returns_recollectionFormation hdigest env hw jobRef change)
      fun a ha => keeps_projectFormation _ hw.owner ha
  split
  · exact Prog.Returns.after (returns_dispositionFormation hdigest hw jobRef change)
      fun a ha => keeps_projectFormation _ hw.owner ha
  rename_i hrecollection hdisposition
  rw [if_neg hrecollection, if_neg hdisposition] at hvalid
  cases hr : w.recollectionOf change.target with
  | some r =>
    exact keeps_recollectionChange env jobRef
      (hw.recollections r (List.mem_of_find?_eq_some hr)) change
  | none =>
    rw [hr] at hvalid
    cases ht : targetByRef w.targets change.target with
    | none => exact trivial
    | some t =>
      rw [ht] at hvalid
      refine keeps_dispositionChange jobRef (hw.targets t (List.mem_of_find?_eq_some ht)) fun hop => ?_
      have hvalid : w.validDispositionChange change t = true := hvalid
      unfold WindowState.validDispositionChange at hvalid
      rw [Bool.and_eq_true] at hvalid
      have hblank : change.blank = false := by
        rcases hop with hop | hop
        · have h := hvalid.2
          rw [hop] at h
          simp only [Bool.and_eq_true, Bool.not_eq_true'] at h
          exact h.2
        · have h := hvalid.2
          rw [hop] at h
          simp only [WindowState.validAdaptation, Bool.and_eq_true, Bool.not_eq_true'] at h
          exact h.1.1.2
      simpa [Change.blank] using hblank

theorem keeps_applyChanges (hdigest : PlainDigest store) (env : Ambient) (jobRef : String)
    {w : WindowState} (hw : w.Printed) {changes : List Change}
    (hvalid : ∀ change ∈ changes, w.validChange change = true) :
    KeepsPrinted store (store.applyChanges env jobRef w changes) := by
  induction changes with
  | nil => exact trivial
  | cons change rest ih =>
    refine (keeps_applyChange hdigest env jobRef hw (hvalid change List.mem_cons_self)).bind
      fun a => ?_
    exact (ih fun c hc => hvalid c (List.mem_cons_of_mem _ hc)).bind fun effects => trivial

theorem valid_of_accepted {w : WindowState} {text : String} {change : Change}
    (h : change ∈ w.accepted text) : w.validChange change = true := by
  unfold WindowState.accepted at h
  split at h
  · cases h
  split at h
  · rename_i hvalid
    have hall := List.all_eq_true.mp hvalid change h
    rw [Bool.and_eq_true] at hall
    exact hall.2
  · cases h

theorem keeps_commitChanges (hdigest : PlainDigest store) (env : Ambient) (p : Proposal)
    {w : WindowState} (hw : w.Printed) (text : String) :
    KeepsPrinted store (store.commitChanges env p w text) := by
  unfold Store.commitChanges
  refine (keeps_applyChanges hdigest env p.window.jobRef hw fun _ hc => valid_of_accepted hc).bind
    fun effects => ?_
  exact Prog.Keeps.bind (Prog.Keeps.of_emits (emits_insertFresh trivial)) fun _ => trivial

theorem windowOwner_of_load {refs : List String} {d : Db} {episodes : List EpisodeEvidence}
    {owner : OwnerScope} (h : loadConsolidationEpisodes refs d = .ok (episodes, owner))
    (howner : owner.Named) : windowOwner episodes = owner := by
  obtain ⟨_, heq⟩ := loadConsolidationEpisodes_ok h
  refine heq fun hnil => howner.1 ?_
  subst hnil
  unfold loadConsolidationEpisodes at h
  split at h
  · cases h
  · obtain ⟨_, rfl⟩ := Prod.mk.inj (Except.ok.inj h)
    rfl
  · split at h
    · cases (Prod.mk.inj (Except.ok.inj h)).1
    · cases h

theorem keeps_commitWindow (hdigest : PlainDigest store) (env : Ambient) {p : Proposal}
    (howner : p.owner.Named) (text : String) : KeepsPrinted store (store.commitWindow env p text) := by
  unfold Store.commitWindow
  have hreceipt : ReturnsPrinted store (fun _ => True) (selectOrFail
      (loadConsolidationReceipt p.owner.tenantRef p.window.jobRef p.requestHash)) :=
    returns_selectOrFail fun _ _ _ _ => trivial
  refine hreceipt.keeps.bind fun found => ?_
  dsimp only
  split
  · exact trivial
  have hload : ReturnsPrinted store
      (fun loaded : List EpisodeEvidence × OwnerScope => loaded.2 = p.owner →
        (windowOwner loaded.1).Named)
      (selectOrFail (loadConsolidationEpisodes p.window.episodeRefs)) := by
    refine returns_selectOrFail fun d loaded hd hload heq => ?_
    rw [windowOwner_of_load hload (heq ▸ howner), heq]
    exact howner
  refine hload.after fun loaded hloaded => ?_
  obtain ⟨episodes, owner⟩ := loaded
  dsimp only
  split
  · exact trivial
  rename_i hsame
  refine Prog.Keeps.select fun d _ => ?_
  have hlock : ∀ o, (Prog.acquire (store.consolidationOwnerLockKey o) : Tx Unit).Emits store.Prints :=
    fun o => trivial
  refine (Prog.Keeps.of_emits (Prog.emits_forEach hlock _)).bind fun _ => ?_
  refine (returns_reloadWindow (hloaded (by simpa using hsame))).after fun w hw => ?_
  split
  · exact trivial
  · exact keeps_commitChanges hdigest env p hw text

/-- Every call keeps rows printed. -/
theorem keeps_printed (hdigest : PlainDigest store) (c : MemoryCommand) :
    KeepsPrinted store (store.perform c) := by
  cases c with
  | intake i => exact (keeps_printed_intake hdigest i).bind fun _ => trivial
  | lease env request =>
    exact (Prog.Keeps.of_emits (emits_leaseConsolidationJob env request (fun _ => trivial)
      fun _ => trivial)).bind fun _ => trivial
  | complete env jobRef leaseToken =>
    exact (Prog.Keeps.of_emits (emits_endLease jobRef leaseToken _ fun _ => trivial)).bind
      fun _ => trivial
  | retry env jobRef leaseToken notBefore =>
    exact (Prog.Keeps.of_emits (emits_endLease jobRef leaseToken _ fun _ => trivial)).bind
      fun _ => trivial
  | select index request =>
    exact (Prog.Keeps.of_emits (emits_selectMemory (fun _ => trivial) (fun _ => trivial)
      (fun _ => trivial) index request)).bind fun _ => trivial
  | consolidate index env window worker =>
    have hsnapshot : ReturnsPrinted store (fun snapshot => ∀ p, snapshot = .proposed p → p.owner.Named)
        (selectOrFail (store.snapshotWindow index window)) := by
      refine returns_selectOrFail fun d snapshot hd hsnapshot p hp => ?_
      subst hp
      obtain ⟨_, episodes, targets, outcomes, horigin⟩ := snapshot_proposed hsnapshot
      obtain ⟨hloaded, _⟩ := loadConsolidationEpisodes_ok horigin.window
      obtain ⟨e, he⟩ := List.exists_mem_of_ne_nil _ (episodes_ne_nil horigin.valid hloaded)
      obtain ⟨row, hrow, _, hev, _⟩ := loadEpisode_row (hloaded.loaded e he)
      have howner : row.group.scope.owner = p.owner := by
        rw [← hloaded.owned e he, hev]
        rfl
      exact howner ▸ (hd.episodes row hrow).2
    refine hsnapshot.after fun snapshot howner => ?_
    split
    · exact trivial
    rename_i p
    split
    · exact trivial
    · exact (keeps_commitWindow hdigest env (howner p rfl) _).bind fun receipt => trivial

theorem printed_reach (hdigest : PlainDigest store) {s : MemorySys} (h : MemoryReach store s) :
    store.Printed s.db := by
  refine (reach_lawful printed_apply (fun p hp => ?_) (printed_empty store) h).db
  obtain ⟨c, rfl⟩ := hp
  exact keeps_printed hdigest c

end

end ChoraMem
