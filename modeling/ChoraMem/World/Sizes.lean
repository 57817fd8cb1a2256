/-
How short a loaded window can be.

The refs of Episodes and versions are made from digests, and a source is validated before
it is admitted, so in every reached store these have a length.  What a window is loaded to
has it too, and a request that Core lets through is not too long for the transport.  A ref
begins with its kind, too: none names a Seed and a Recollection.
-/
import ChoraMem.Intake.OutcomeHash
import ChoraMem.Worker.Transport
import ChoraMem.World.Applies
import ChoraMem.World.Loaded

namespace ChoraMem

open Txn

/-! ## Rows -/

/-- A source or a Seed as the calls write it. -/
def Write.Sized : Write → Prop
  | .insertSource r => r.event.Signed
  | .insertSeed r => VersionRefLong r.ref
  | _ => True

/-- A row of a call that takes nothing in, of which a root has a certain ref. -/
def Write.Formed (seed recollection : String → Prop) : Write → Prop
  | .insertSeed r => seed r.ref
  | .insertRecollection r => recollection r.ref
  | .insertSource _ | .insertOutcome _ | .updateOutcome _ | .insertDelivery _ => False
  | _ => True

theorem sized_of_formed {w : Write} (h : w.Formed VersionRefLong fun _ => True) : w.Sized := by
  cases w <;> first | exact h | exact h.elim

theorem reported_of_formed {store : Store} {seed recollection : String → Prop} {w : Write}
    (h : w.Formed seed recollection) : store.WritesReported w := by
  cases w <;> first | exact h.elim | exact trivial

/-- The source of a row, when it is one, is valid. -/
def Write.Signed : Write → Prop
  | .insertSource r => r.event.Signed
  | _ => True

theorem signed_of_formed {seed recollection : String → Prop} {w : Write}
    (h : w.Formed seed recollection) : w.Signed := by
  cases w <;> first | exact h.elim | exact trivial

def SourcesSigned (d : Db) : Prop := ∀ r ∈ d.sources, r.event.Signed

theorem signed_apply (d : Db) (w : Write) (h : SourcesSigned d) (hw : w.Signed) :
    SourcesSigned (d.apply w) := by
  cases w with
  | insertSource r =>
    intro x hx
    rcases mem_insertRow.mp hx with hx | ⟨rfl, _⟩
    · exact h x hx
    · exact hw
  | _ => exact h

structure Db.Sized (d : Db) : Prop where
  sources : ∀ r ∈ d.sources, r.event.Signed
  seeds : ∀ s ∈ d.seeds, VersionRefLong s.ref

theorem sized_apply (d : Db) (w : Write) (h : d.Sized) (hw : w.Sized) : (d.apply w).Sized := by
  cases w with
  | insertSource r =>
    refine ⟨fun x hx => ?_, h.seeds⟩
    rcases mem_insertRow.mp hx with hx | ⟨rfl, _⟩
    · exact h.sources x hx
    · exact hw
  | insertSeed r =>
    refine ⟨h.sources, fun x hx => ?_⟩
    rcases mem_insertRow.mp hx with hx | ⟨rfl, _⟩
    · exact h.seeds x hx
    · exact hw
  | _ => exact ⟨h.sources, h.seeds⟩

/-- A character takes a byte at least. -/
theorem length_le_utf8ByteSize (s : String) : s.length ≤ s.utf8ByteSize := by
  have hlist : ∀ l : List Char, l.length ≤ (String.ofList l).utf8ByteSize := by
    intro l
    induction l with
    | nil => exact Nat.zero_le _
    | cons c rest ih =>
      have hc := c.utf8Size_pos
      rw [String.ofList_cons, String.utf8ByteSize_append, String.utf8ByteSize_singleton,
        List.length_cons]
      omega
  have h := hlist s.toList
  rw [String.ofList_toList, String.length_toList] at h
  exact h

/-- A ref is named after its kind. -/
def Write.Named : Write → Prop
  | .insertSeed r => NamedAs "seed_" r.ref
  | .insertRecollection r => NamedAs "recollection_" r.ref
  | .insertDelivery r => NamedAs "delivery_" r.ref
  | _ => True

structure Db.Named (d : Db) : Prop where
  seeds : ∀ s ∈ d.seeds, NamedAs "seed_" s.ref
  recollections : ∀ r ∈ d.recollections, NamedAs "recollection_" r.ref
  deliveries : ∀ r ∈ d.deliveries, NamedAs "delivery_" r.ref

theorem named_apply (d : Db) (w : Write) (h : d.Named) (hw : w.Named) : (d.apply w).Named := by
  cases w with
  | insertSeed r =>
    refine ⟨fun x hx => ?_, h.recollections, h.deliveries⟩
    rcases mem_insertRow.mp hx with hx | ⟨rfl, _⟩
    · exact h.seeds x hx
    · exact hw
  | insertRecollection r =>
    refine ⟨h.seeds, fun x hx => ?_, h.deliveries⟩
    rcases mem_insertRow.mp hx with hx | ⟨rfl, _⟩
    · exact h.recollections x hx
    · exact hw
  | insertDelivery r =>
    refine ⟨h.seeds, h.recollections, fun x hx => ?_⟩
    rcases mem_insertRow.mp hx with hx | ⟨rfl, _⟩
    · exact h.deliveries x hx
    · exact hw
  | _ => exact ⟨h.seeds, h.recollections, h.deliveries⟩

theorem Db.Named.seedVersion {d : Db} (h : d.Named) (hd : MemoryLaw d) {v : SeedVersionRow}
    (hv : v ∈ d.seedVersions) : NamedAs "seed_" v.seedRef := by
  obtain ⟨r, hr, hroot⟩ := hd.seeds.rooted v hv
  have hnamed := h.seeds _ (Db.mem_seedShelf_roots.mp hr)
  rw [show v.seedRef = r.2 from hroot.symm]
  exact hnamed

theorem Db.Named.recollectionVersion {d : Db} (h : d.Named) (hd : MemoryLaw d)
    {v : RecollectionVersionRow} (hv : v ∈ d.recollectionVersions) :
    NamedAs "recollection_" v.recollectionRef := by
  obtain ⟨r, hr, hroot⟩ := hd.recollections.rooted v hv
  have hnamed := h.recollections _ (Db.mem_recollectionShelf_roots.mp hr)
  rw [show v.recollectionRef = r.2 from hroot.symm]
  exact hnamed

/-- No ref names a version of a Seed and a version of a Recollection. -/
theorem Db.Named.apart {d : Db} (h : d.Named) (hd : MemoryLaw d) {v : SeedVersionRow}
    (hv : v ∈ d.seedVersions) {u : RecollectionVersionRow} (hu : u ∈ d.recollectionVersions) :
    u.ref ≠ v.ref := by
  intro heq
  have hsame : u.recollectionRef = v.seedRef :=
    (versionRefOf_inj ((hd.recollectionName hu).symm.trans (heq.trans (hd.seedName hv)))).1
  have hrecollection := h.recollectionVersion hd hu
  rw [hsame] at hrecollection
  exact hrecollection.apart (h.seedVersion hd hv) (by decide)

/-- A digest as it is printed: 64 hex digits. -/
abbrev LongDigest (store : Store) : Prop := ∀ fields, 64 ≤ (store.hashFields fields).length

section

variable {store : Store}

theorem shortHash_long (hdigest : LongDigest store) (fields : List String) :
    32 ≤ (store.shortHash fields).utf8ByteSize := by
  have hlength : (store.shortHash fields).length = 32 := by
    have h := hdigest fields
    rw [← String.length_toList] at h
    rw [Store.shortHash, textPrefix, String.length_ofList, List.length_take]
    omega
  rw [← hlength]
  exact length_le_utf8ByteSize _

theorem seedFormationRef_long (hdigest : LongDigest store) (owner : OwnerScope)
    (jobRef tendency : String) (episodes outcomes : List String) :
    VersionRefLong (store.seedFormationRef owner jobRef tendency episodes outcomes) := by
  have h := shortHash_long hdigest (["seed-form.v1", owner.kind.text, owner.tenantRef, owner.agentRef,
    owner.relationshipRef, jobRef, tendency] ++ episodes ++
      if outcomes.isEmpty then [] else "OUTCOMES" :: outcomes)
  rw [VersionRefLong, Store.seedFormationRef, String.utf8ByteSize_append]
  exact Nat.le_trans h (Nat.le_add_left _ _)

theorem episodeRef_long (hdigest : LongDigest store) (g : StableGroupRef) :
    EpisodeRefLong (store.episodeRef g) := by
  have h := Nat.le_trans (hdigest ["episode.v1", g.scope.kind.text, g.scope.tenantRef,
    g.scope.agentRef, g.scope.relationshipRef, g.scope.sessionRef, g.runRef, g.sourceGroupRef])
    (length_le_utf8ByteSize _)
  rw [EpisodeRefLong, Store.episodeRef, String.utf8ByteSize_append]
  exact Nat.le_trans h (Nat.le_add_left _ _)

/-! ## What the calls write -/

/-- The refs of Seeds are of this kind. -/
abbrev Store.SeedsNamed (store : Store) (seed : String → Prop) : Prop :=
  ∀ owner jobRef tendency episodes outcomes,
    seed (store.seedFormationRef owner jobRef tendency episodes outcomes)

abbrev Store.RecollectionsNamed (store : Store) (recollection : String → Prop) : Prop :=
  ∀ owner jobRef application text basis,
    recollection (store.recollectionFormationRef owner jobRef application text basis)

variable {seed recollection : String → Prop}

theorem sized_of_tidy {w : Write} (h : store.Tidy w) : w.Sized := by
  cases w <;> first | exact h | exact h.elim | exact trivial

theorem signed_of_tidy {w : Write} (h : store.Tidy w) : w.Signed := by
  cases w <;> first | exact h | exact h.elim | exact trivial

theorem emits_freezeContext {P : Write → Prop} (hcontext : ∀ r, P (.insertContext r))
    (hitem : ∀ r, P (.insertContextItem r)) (hevidence : ∀ r, P (.insertContextEvidence r))
    (request : SelectRequest) (activations : List Activation)
    (evidence : List FrozenEpisodeEvidence) :
    (store.freezeContext request activations evidence).Emits P := by
  unfold Store.freezeContext
  refine (emits_insertFresh (hcontext _)).bind fun _ => ?_
  exact (Prog.emits_forEach (fun _ => emits_insertFresh (hitem _)) _).bind fun _ =>
    Prog.emits_forEach (fun _ => emits_insertFresh (hevidence _)) _

/-- A selection writes a context with its items and its evidence. -/
theorem emits_selectMemory {P : Write → Prop} (hcontext : ∀ r, P (.insertContext r))
    (hitem : ∀ r, P (.insertContextItem r)) (hevidence : ∀ r, P (.insertContextEvidence r))
    (index : Option MemoryIndex) (request : SelectRequest) :
    (store.selectMemory index request).Emits P := by
  unfold Store.selectMemory
  split
  · exact trivial
  refine Prog.Emits.acquire (emits_selectOrFail.bind fun found => ?_)
  split
  · exact trivial
  refine emits_selectOrFail.bind fun queries => ?_
  refine Prog.Emits.select fun evidence => Prog.Emits.select fun recollections => ?_
  refine Prog.Emits.select fun dispositions => Prog.Emits.select fun indexed => ?_
  dsimp only
  split
  · exact trivial
  split
  · exact trivial
  · exact (emits_freezeContext hcontext hitem hevidence _ _ _).bind fun _ => trivial

theorem formed_of_memory : OfMemory (Write.Formed seed recollection) := by
  intro w hw hroot
  cases w with
  | insertSeed | insertRecollection => cases hroot
  | _ => first | exact trivial | exact hw

theorem formed_of_commit (hseed : store.SeedsNamed seed)
    (hrecollection : store.RecollectionsNamed recollection) :
    OfCommit store (Write.Formed seed recollection) :=
  ⟨formed_of_memory, hseed, hrecollection, fun _ => trivial, fun _ => trivial⟩

/-- Every other call takes nothing in. -/
theorem formed_perform (hseed : store.SeedsNamed seed)
    (hrecollection : store.RecollectionsNamed recollection) (c : MemoryCommand) :
    (∃ i, c = .intake i) ∨ (store.perform c).Emits (Write.Formed seed recollection) := by
  cases c with
  | intake i => exact Or.inl ⟨i, rfl⟩
  | lease env request =>
    exact Or.inr ((emits_leaseConsolidationJob env request (fun _ => trivial) fun _ => trivial).bind
      fun _ => trivial)
  | complete env jobRef leaseToken =>
    exact Or.inr ((emits_endLease jobRef leaseToken _ fun _ => trivial).bind fun _ => trivial)
  | retry env jobRef leaseToken notBefore =>
    exact Or.inr ((emits_endLease jobRef leaseToken _ fun _ => trivial).bind fun _ => trivial)
  | select index request =>
    exact Or.inr ((emits_selectMemory (fun _ => trivial) (fun _ => trivial)
        (fun _ => trivial) index request).bind fun _ => trivial)
  | consolidate index env window worker =>
    refine Or.inr (emits_selectOrFail.bind fun snapshot => ?_)
    split
    · exact trivial
    split
    · exact trivial
    · exact (emits_commitWindow (formed_of_commit hseed hrecollection) _ _ _).bind fun receipt => trivial

theorem sized_reach (hdigest : LongDigest store) {s : MemorySys} (h : MemoryReach store s) :
    s.db.Sized := by
  have hlawful := reach_lawful (J := Db.Sized) (P := Write.Sized) sized_apply (fun p hp => ?_)
    ⟨fun _ hr => absurd hr List.not_mem_nil, fun _ hr => absurd hr List.not_mem_nil⟩ h
  · exact hlawful.db
  · obtain ⟨c, rfl⟩ := hp
    have hany : store.RecollectionsNamed fun _ => True := fun _ _ _ _ _ => trivial
    rcases formed_perform (seedFormationRef_long hdigest) hany c with ⟨i, rfl⟩ | hformed
    · exact Prog.Keeps.of_emits
        (((emits_intake i).mono fun _ => sized_of_tidy).bind fun _ => trivial)
    · exact Prog.Keeps.of_emits (hformed.mono fun _ => sized_of_formed)

theorem named_of_formed {w : Write} (h : w.Formed (NamedAs "seed_") (NamedAs "recollection_")) :
    w.Named := by
  cases w <;> first | exact h | exact h.elim

theorem named_of_tidy {w : Write} (h : store.Tidy w) : w.Named := by
  cases w <;> first | exact h | exact h.elim | exact trivial

theorem named_reach {s : MemorySys} (h : MemoryReach store s) : s.db.Named := by
  have hlawful := reach_lawful (J := Db.Named) (P := Write.Named) named_apply (fun p hp => ?_)
    ⟨fun _ hr => absurd hr List.not_mem_nil, fun _ hr => absurd hr List.not_mem_nil,
      fun _ hr => absurd hr List.not_mem_nil⟩ h
  · exact hlawful.db
  · obtain ⟨c, rfl⟩ := hp
    have hseed : store.SeedsNamed (NamedAs "seed_") := fun _ _ _ _ _ => ⟨_, rfl⟩
    have hrecollection : store.RecollectionsNamed (NamedAs "recollection_") :=
      fun _ _ _ _ _ => ⟨_, rfl⟩
    rcases formed_perform hseed hrecollection c with ⟨i, rfl⟩ | hformed
    · exact Prog.Keeps.of_emits
        (((emits_intake i).mono fun _ => named_of_tidy).bind fun _ => trivial)
    · exact Prog.Keeps.of_emits (hformed.mono fun _ => named_of_formed)

/-- A call takes something in, or writes neither a source nor an Outcome. -/
theorem takes_or_formed (store : Store) (c : MemoryCommand) :
    (∃ i, c = .intake i) ∨ (store.perform c).Emits (Write.Formed (fun _ => True) fun _ => True) :=
  formed_perform (fun _ _ _ _ _ => trivial) (fun _ _ _ _ _ => trivial) c

/-- Every source is valid. -/
theorem signed_reach {s : MemorySys} (h : MemoryReach store s) : SourcesSigned s.db := by
  have hlawful := reach_lawful (J := SourcesSigned) (P := Write.Signed) signed_apply
    (fun p hp => ?_) (fun _ hr => absurd hr List.not_mem_nil) h
  · exact hlawful.db
  · obtain ⟨c, rfl⟩ := hp
    rcases takes_or_formed store c with ⟨i, rfl⟩ | hformed
    · exact Prog.Keeps.of_emits
        (((emits_intake i).mono fun _ => signed_of_tidy).bind fun _ => trivial)
    · exact Prog.Keeps.of_emits (hformed.mono fun _ => signed_of_formed)

/-- Every Outcome is that of a report. -/
theorem reported_reach {s : MemorySys} (h : MemoryReach store s) :
    store.Reported s.db := by
  have hlawful := reach_lawful (J := store.Reported) (P := store.WritesReported) reported_apply
    (fun p hp => ?_) (fun _ ho => absurd ho List.not_mem_nil) h
  · exact hlawful.db
  · obtain ⟨c, rfl⟩ := hp
    rcases takes_or_formed store c with ⟨i, rfl⟩ | hformed
    · exact (keeps_intake i).bind fun _ => trivial
    · exact Prog.Keeps.of_emits (hformed.mono fun _ => reported_of_formed)

end

/-! ## What is loaded -/

/-- An Episode of which the ref and the sources have a length. -/
def EpisodeEvidence.Sized (e : EpisodeEvidence) : Prop :=
  EpisodeRefLong e.ref ∧ ∀ s ∈ e.sources, s.ref ≠ "" ∧ s.actorRef ≠ "" ∧ validActorKind s.actorKind

section

variable {store : Store} {d : Db} {owner : OwnerScope} {episodes : List EpisodeEvidence}
variable {dispositions : List ActiveDisposition} {outcomes : List FeedbackOutcome}

theorem sized_of_load (hdigest : LongDigest store) (hd : WorldLaw store d) (hs : d.Sized)
    {ref : String} {e : EpisodeEvidence} (h : loadEpisode ref d = some e) : e.Sized := by
  obtain ⟨row, hrow, _, rfl, _⟩ := loadEpisode_row h
  refine ⟨?_, fun s hsource => ?_⟩
  · show EpisodeRefLong row.ref
    rw [(hd.episodes row hrow).1]
    exact episodeRef_long hdigest row.group
  · obtain ⟨l, _, hlinked⟩ := List.mem_filterMap.mp hsource
    obtain ⟨r, hr, rfl⟩ := Option.map_eq_some_iff.mp hlinked
    have hkey : r.key = (l.group.scope, l.sourceEventRef) := by simpa using List.find?_some hr
    obtain ⟨href, hactor, hkind⟩ := hs.sources r (List.mem_of_find?_eq_some hr)
    refine ⟨?_, hactor, hkind⟩
    show l.sourceEventRef ≠ ""
    rw [← (Prod.mk.inj hkey).2]
    exact href

/-! ## What is put to the worker -/

/-- A loaded window is what the transport counts on. -/
theorem admitted_loaded (hdigest : LongDigest store) (hd : WorldLaw store d) (hs : d.Sized)
    {window : Window} {w : WindowState} (h : w.Loaded store window d) : w.Admitted := by
  have hload : ∀ {e : EpisodeEvidence}, loadEpisode e.ref d = some e → e.Sized :=
    sized_of_load hdigest hd hs
  have hanchor : ∀ e ∈ w.anchors, e.Sized := fun e he =>
    hload (h.loadAnchors e he)
  have hall : ∀ e ∈ w.rendered, e.Sized := by
    intro e he
    rcases List.mem_append.mp he with he | he
    · exact hload (h.episodes.loaded e he)
    · rcases List.mem_append.mp he with he | he
      · exact hload (h.related e he).2
      · exact hanchor e he
  refine ⟨fun e he => (hall e he).1, fun e he => (hall e he).2, fun o ho => ?_, fun t ht => ?_,
    fun pair hpair => ?_⟩
  · obtain ⟨e, hload', href⟩ := h.outcomeEpisode o ho
    rw [← href]
    exact (hload hload').1
  · have hrooted : t.Rooted d := h.rooted t ht
    have hseed := hs.seeds _ hrooted.2
    rw [VersionRefLong, hrooted.name hd.memory, versionRefOf, String.utf8ByteSize_append,
      String.utf8ByteSize_append]
    rw [Nat.add_assoc]
    exact Nat.le_trans hseed (Nat.le_add_right _ _)
  · obtain ⟨o, ho, href⟩ := h.paired pair hpair
    exact List.find?_isSome.mpr ⟨o, ho, by simpa using href⟩

end

/-- In every reached state a request that Core lets through is no longer than what the
transport carries. -/
theorem proposal_carried (store : Store) (hhash : Collisionless store) (hdigest : LongDigest store)
    {s : MemorySys} (h : MemoryReach store s) {index : Option MemoryIndex} {window : Window}
    {p : Proposal} (hp : store.snapshotWindow index window s.db = .ok (.proposed p))
    (hfits : fitsWorkerRequestLimit p.request = true) :
    p.request.encode.length ≤ maxMessageBytes := by
  obtain ⟨w, hw, hrequest⟩ := loaded_snapshot hp
  rw [hrequest] at hfits ⊢
  exact (admitted_loaded hdigest (worldLaw_reach hhash h) (sized_reach hdigest h)
    hw).encode_length_le hfits

/-! A store with long digests, and a window that it puts to a worker. -/

def wideStore : Store :=
  { sampleStore with hashFields := fun fields => String.ofList (List.replicate 64 '0') ++ sampleDigest fields }

theorem wideStore_collisionless : Collisionless wideStore :=
  fun _ _ h => sampleDigest_injective (String.append_right_inj _ |>.mp h)

theorem wideStore_long : LongDigest wideStore := by
  intro fields
  show 64 ≤ (String.ofList (List.replicate 64 '0') ++ sampleDigest fields).length
  rw [String.length_append, String.length_ofList, List.length_replicate]
  exact Nat.le_add_right _ _

def wideMet : MemorySys := wideStore.calls metCalls ⟨{}, []⟩

def wideWindow : Window := ⟨"j", [wideStore.episodeRef ⟨agentScope, "1", "g"⟩], []⟩

/-- The request of a window that fits. -/
def fittingRequest : Except Fault Snapshot → Option Proposal
  | .ok (.proposed p) => if fitsWorkerRequestLimit p.request then some p else none
  | _ => none

theorem fittingRequest_wide :
    ∃ p, wideStore.snapshotWindow none wideWindow wideMet.db = .ok (.proposed p) ∧
      fitsWorkerRequestLimit p.request = true := by
  have hsome : (fittingRequest (wideStore.snapshotWindow none wideWindow wideMet.db)).isSome := by
    decide +kernel
  cases hp : wideStore.snapshotWindow none wideWindow wideMet.db with
  | error e =>
    rw [hp] at hsome
    cases hsome
  | ok snapshot =>
    cases snapshot with
    | frozen receipt =>
      rw [hp] at hsome
      cases hsome
    | proposed p =>
      rw [hp] at hsome
      refine ⟨p, rfl, ?_⟩
      by_contra hfits
      simp [fittingRequest, hfits] at hsome

theorem proposal_carried_met :
    ∃ p, wideStore.snapshotWindow none wideWindow wideMet.db = .ok (.proposed p) ∧
      p.request.encode.length ≤ maxMessageBytes := by
  obtain ⟨p, hp, hfits⟩ := fittingRequest_wide
  exact ⟨p, hp, proposal_carried wideStore wideStore_collisionless wideStore_long
    (reach_calls (fun _ ht => absurd ht List.not_mem_nil) .start _).1 hp hfits⟩

end ChoraMem
