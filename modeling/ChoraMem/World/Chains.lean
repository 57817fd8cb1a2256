/-
The chains of a reached store.

Whatever calls ran and however they interleaved, the versions of each root number from
one without gaps, the last one is the active one, and a version that was superseded
keeps its row and its basis.  No two active versions of one owner have one text.
-/
import Mathlib.Data.List.Range
import ChoraMem.World.Serial

namespace ChoraMem

open Txn Versions

/-! ## Later states -/

/-- The commit of the `i`-th call, which replies `a`. -/
def Commits (s : MemorySys) (i : Nat) (a : MemoryReply) (s' : MemorySys) : Prop :=
  (∃ l v, s.threads[i]? = some (.running (.ret a) l v)) ∧
    s.step? .readCommitted (.commit i) = some s'

section

variable {store : Store} {d : Db} {s s' : MemorySys} {cond : MemorySys → MemoryAct → Prop}

/-- A call that runs alone commits at its end. -/
theorem commits_turn (hs : s.Quiet) (h : MemoryReach store s) {c : MemoryCommand} {a : MemoryReply}
    (hrun : Prog.run (store.perform c) s.db = .ok (a, d)) :
    ∃ s₁, MemoryReach store s₁ ∧ s₁.db = s.db ∧
      Commits s₁ s.threads.length a (store.calls [c] s) ∧ (store.calls [c] s).db = d := by
  obtain ⟨l, v, hdb, hreach⟩ := reach_before_commit hs h ⟨c, rfl⟩ hrun
  have hturn : store.calls [c] s = ⟨d, s.threads ++ [.committed a]⟩ := by
    show s.turn (store.perform c) = _
    unfold Sys.turn
    rw [hrun]
  refine ⟨_, hreach, rfl, ?_, by rw [hturn]⟩
  rw [hturn, ← hdb]
  exact ⟨⟨l, v, by simp⟩, by simp [Sys.step?]⟩

theorem Earlier.refl (hd : WorldLaw store d) : Earlier store d d :=
  ⟨hd, Gains.refl d, Grown.refl d, KeepsLinks.refl d, KeepsContexts.refl d⟩

/-- A commit only adds to the store. -/
theorem grown_done {a : MemoryReply} {l : Local Write String} (hd : WorldLaw store d)
    (h : store.Done d a l) : Gains d (applyAll d l.log) ∧ Grown d (applyAll d l.log) ∧
      KeepsLinks store d (applyAll d l.log) ∧ KeepsContexts d (applyAll d l.log) := by
  have hnone : Apart (D := Db) l (⟨[], []⟩ : Local Write String) :=
    ⟨fun _ _ hk => absurd hk List.not_mem_nil, fun _ _ hk => absurd hk List.not_mem_nil⟩
  have hrel := (commits_done hd h).2 ⟨[], []⟩ hnone
  exact ⟨hrel.gains, hrel.grown, hrel.links, hrel.contexts⟩

/-- A reached state is earlier than those reached from it. -/
theorem earlier_reach (hhash : Collisionless store) (h : MemoryReach store s)
    (h' : ReachIf .readCommitted store.Calls cond s s') : Earlier store s.db s'.db := by
  have hlaw := worldLaw_reach hhash h
  refine Pact.reach_keeps (starts_perform hhash) (fun _ _ _ hd hdone => commits_done hd hdone)
    (memory_sound hhash h) (J := Earlier store s.db) (Earlier.refl hlaw) ?_ h'
  intro s₁ i a l v _ _ hd hdone hearlier
  obtain ⟨hgains, hgrown, hlinks, hcontexts⟩ := grown_done hd hdone
  exact ⟨hlaw, hearlier.gains.trans hgains, hearlier.grown.trans hgrown,
    hearlier.links.trans hlinks, hearlier.contexts.trans hearlier.gains hcontexts⟩

/-- What a call that commits has done. -/
theorem commits_done_of {i : Nat} {a : MemoryReply} (hhash : Collisionless store)
    (h : MemoryReach store s) (hc : Commits s i a s') :
    ∃ l, s'.db = applyAll s.db l.log ∧ store.Done s.db a l := by
  obtain ⟨⟨l, v, hi⟩, hstep⟩ := hc
  simp only [Sys.step?, hi] at hstep
  obtain rfl := Option.some.inj hstep
  exact ⟨l, rfl, (memory_sound hhash h).ready hi⟩

end

/-! ## Chains -/

/-- The versions of a root are numbered from one, under refs made of root and number, and
the active one is the last. -/
structure Chain {ν : Type} (number : ν → Nat) (ref : ν → String) (active : ν → Prop) (root : String)
    (versions : List ν) : Prop where
  numbers : (versions.map number).Perm (List.range' 1 versions.length)
  refs : ∀ v ∈ versions, ref v = versionRefOf root (number v)
  active : ∃ v ∈ versions, active v ∧ number v = versions.length ∧
    ∀ u ∈ versions, active u → u = v

/-- The versions of a lawful shelf's root, listed. -/
theorem chain_of_lawful {ω ν γ σ : Type} {F : Format String String ν γ σ} {sh : Shelf ω String ν γ}
    (h : sh.Lawful F) (hname : F.name = versionRefOf) {r : ω × String} (hr : r ∈ sh.roots)
    {versions : List ν} (hnodup : (versions.map F.ref).Nodup)
    (hmem : ∀ v, v ∈ versions ↔ v ∈ sh.versions ∧ F.root v = r.2) :
    Chain F.number F.ref F.live r.2 versions := by
  obtain ⟨v, hv, hroot, hlive⟩ := h.current r hr
  have hnumbers : ∀ n, n ∈ versions.map F.number ↔ 1 ≤ n ∧ n ≤ F.number v := by
    intro n
    rw [List.mem_map]
    constructor
    · rintro ⟨u, hu, rfl⟩
      obtain ⟨hus, hur⟩ := (hmem u).mp hu
      exact ⟨h.counted u hus, h.last v hv hlive u hus (hur.trans hroot.symm)⟩
    · rintro ⟨h1, hn⟩
      obtain ⟨u, hu, hur, hun⟩ := h.gapless v hv n h1 hn
      exact ⟨u, (hmem u).mpr ⟨hu, hur.trans hroot⟩, hun⟩
  have hinj : (versions.map F.number).Nodup := by
    refine List.Nodup.map_on ?_ (List.Nodup.of_map _ hnodup)
    intro u hu u' hu' hn
    obtain ⟨hus, hur⟩ := (hmem u).mp hu
    obtain ⟨hus', hur'⟩ := (hmem u').mp hu'
    exact h.eq hus hus' (hur.trans hur'.symm) hn
  have hperm : (versions.map F.number).Perm (List.range' 1 (F.number v)) := by
    refine (List.perm_ext_iff_of_nodup hinj List.nodup_range').mpr fun n => ?_
    rw [hnumbers, List.mem_range'_1]
    omega
  have hlen : versions.length = F.number v := by
    have := hperm.length_eq
    simpa using this
  constructor
  · rw [hlen]
    exact hperm
  · intro u hu
    obtain ⟨hus, hur⟩ := (hmem u).mp hu
    rw [h.named u hus, hur, hname]
  · refine ⟨v, (hmem v).mpr ⟨hv, hroot⟩, hlive, hlen.symm, fun u hu hul => ?_⟩
    obtain ⟨hus, hur⟩ := (hmem u).mp hu
    exact h.live_eq hus hv hul hlive (hur.trans hroot.symm)

def SeedVersionRow.Active (v : SeedVersionRow) : Prop := v.status = .active

def RecollectionVersionRow.Active (v : RecollectionVersionRow) : Prop := v.status = .active

/-- The versions of a Seed root. -/
def seedChain (root : String) (d : Db) : List SeedVersionRow :=
  d.seedVersions.filter fun v => decide (v.seedRef = root)

def recollectionChain (root : String) (d : Db) : List RecollectionVersionRow :=
  d.recollectionVersions.filter fun v => decide (v.recollectionRef = root)

/-- A version that is no longer active has the row and the basis it had. -/
structure KeepsRetired (d d' : Db) : Prop where
  seeds : ∀ v ∈ d.seedVersions, ¬v.Active → v ∈ d'.seedVersions ∧
    ∀ b : BasisRow, b.versionRef = v.ref → (b ∈ d'.seedBasis ↔ b ∈ d.seedBasis) ∧
      (b ∈ d'.seedOutcomeBasis ↔ b ∈ d.seedOutcomeBasis)
  recollections : ∀ v ∈ d.recollectionVersions, ¬v.Active → v ∈ d'.recollectionVersions ∧
    ∀ b : BasisRow, b.versionRef = v.ref → (b ∈ d'.recollectionBasis ↔ b ∈ d.recollectionBasis)

theorem keepsRetired_of_grown {d d' : Db} (h : Grown d d') : KeepsRetired d d' := by
  constructor
  · intro v hv hl
    have hrow : v ∈ d'.seedVersions := by
      rcases h.seeds.versions v hv with hv' | ⟨hl', _⟩
      · exact hv'
      · exact absurd hl' hl
    refine ⟨hrow, fun b hb => ⟨⟨fun hb' => ?_, fun hb' => ?_⟩, fun hb' => ?_, fun hb' => ?_⟩⟩
    · exact h.seeds.frozen v hv hl (.episode b) hb hb'
    · exact h.seeds.cites (show SeedCite.episode b ∈ d.seedShelf.cites from hb')
    · exact h.seeds.frozen v hv hl (.outcome b) hb hb'
    · exact h.seeds.cites (show SeedCite.outcome b ∈ d.seedShelf.cites from hb')
  · intro v hv hl
    have hrow : v ∈ d'.recollectionVersions := by
      rcases h.recollections.versions v hv with hv' | ⟨hl', _⟩
      · exact hv'
      · exact absurd hl' hl
    refine ⟨hrow, fun b hb => ⟨fun hb' => ?_, fun hb' => ?_⟩⟩
    · exact h.recollections.frozen v hv hl b hb hb'
    · exact h.recollections.cites hb'

theorem nodup_filter_refs {ν κ : Type} {ref : ν → κ} {t : List ν} (h : KeysUnique ref t)
    (p : ν → Bool) : ((t.filter p).map ref).Nodup :=
  (List.filter_sublist.map ref).nodup h

/-- In every reached state the versions of a root are a chain whose last one is active,
and from then on a superseded version keeps its text and its basis. -/
theorem versions_chain (store : Store) (hhash : Collisionless store) {s s' : MemorySys}
    (h : MemoryReach store s) (h' : Reach .readCommitted store.Calls s s') :
    (∀ r ∈ s.db.seeds, Chain SeedVersionRow.number SeedVersionRow.ref SeedVersionRow.Active r.ref
      (seedChain r.ref s.db)) ∧
    (∀ r ∈ s.db.recollections, Chain RecollectionVersionRow.number RecollectionVersionRow.ref
      RecollectionVersionRow.Active r.ref (recollectionChain r.ref s.db)) ∧
    KeepsRetired s.db s'.db := by
  have hlaw := (worldLaw_reach hhash h).memory
  refine ⟨fun r hr => ?_, fun r hr => ?_, keepsRetired_of_grown (earlier_reach hhash h h').grown⟩
  · refine chain_of_lawful hlaw.seeds rfl (r := r.root) ⟨r, hr, rfl⟩
      (nodup_filter_refs hlaw.keys.seedVersions _) fun v => ?_
    simp [seedChain, seedFormat, SeedRow.root]
  · refine chain_of_lawful hlaw.recollections rfl (r := r.root) ⟨r, hr, rfl⟩
      (nodup_filter_refs hlaw.keys.recollectionVersions _) fun v => ?_
    simp [recollectionChain, recollectionFormat, RecollectionRow.root]

/-! An agent forms Dispositions and Recollections, and revises some of them. -/

/-- Two Dispositions and two Recollections of one Episode. -/
def formTask : Task :=
  { call := 3, jobRef := "l", episodes := [sampleEpisodeRef agentScope "1"],
    changes :=
      [⟨targetNewDisposition, .self, .adapt, "V", [sampleEpisodeRef agentScope "1"]⟩,
        ⟨targetNewDisposition, .self, .adapt, "W", [sampleEpisodeRef agentScope "1"]⟩,
        ⟨targetNewRecollection, .self, .text, "M", [sampleEpisodeRef agentScope "1"]⟩,
        ⟨targetNewRecollection, .self, .text, "N", [sampleEpisodeRef agentScope "1"]⟩] }

/-- The refs of the versions of the first Disposition, and of the first Recollection. -/
def formedSeedRef (n : Nat) : String :=
  versionRefOf (sampleStore.seedFormationRef agentScope.owner "l" "V"
    [sampleEpisodeRef agentScope "1"] []) n

def formedRecollectionRef (n : Nat) : String :=
  versionRefOf (sampleStore.recollectionFormationRef agentScope.owner "l" "self" "M"
    [sampleEpisodeRef agentScope "1"]) n

/-- Both get another text. -/
def recastTask : Task :=
  { call := 4, jobRef := "m", episodes := [sampleEpisodeRef agentScope "1"],
    changes :=
      [⟨formedSeedRef 1, .self, .adapt, "X", [sampleEpisodeRef agentScope "1"]⟩,
        ⟨formedRecollectionRef 1, .self, .text, "O", [sampleEpisodeRef agentScope "1"]⟩] }

/-- The Recollection gets another text again. -/
def laterTask : Task :=
  { call := 5, jobRef := "n", episodes := [sampleEpisodeRef agentScope "1"],
    changes := [⟨formedRecollectionRef 2, .self, .text, "P", [sampleEpisodeRef agentScope "1"]⟩] }

def sampleFormed : MemorySys := play [.task formTask] sampleMet

def sampleRecast : MemorySys := play [.task recastTask] sampleFormed

def sampleLater : MemorySys := play [.task laterTask] sampleRecast

def formedDb : Db := (formTask.after sampleMet.db).getD {}

def recastDb : Db := (recastTask.after formedDb).getD {}

def laterDb : Db := (laterTask.after recastDb).getD {}

theorem sampleFormed_reach : MemoryReach sampleStore sampleFormed ∧ sampleFormed.Quiet :=
  reach_calls sampleMet_reach.2 sampleMet_reach.1 _

theorem sampleRecast_reach : MemoryReach sampleStore sampleRecast ∧ sampleRecast.Quiet :=
  reach_calls sampleFormed_reach.2 sampleFormed_reach.1 _

theorem chainTasks_written : formTask.Written ∧ recastTask.Written ∧ laterTask.Written := by
  decide +kernel

/-- The texts of the Seeds' and the Recollections' versions, and which of them are active. -/
def chainTexts (d : Db) : List (String × Bool) × List (String × Bool) :=
  (d.seedVersions.map fun v => (v.tendency, decide (v.status = .active)),
    d.recollectionVersions.map fun v => (v.text, decide (v.status = .active)))

theorem chain_runs :
    (formTask.after sampleMet.db).isSome ∧ (recastTask.after formedDb).isSome ∧
    (laterTask.after recastDb).isSome ∧
    (∀ r ∈ formedDb.seeds, r.owner = agentScope.owner) ∧
    (∀ r ∈ formedDb.recollections, r.owner = agentScope.owner) ∧
    chainTexts formedDb = ([("V", true), ("W", true)], [("M", true), ("N", true)]) ∧
    chainTexts recastDb =
      ([("V", false), ("W", true), ("X", true)], [("M", false), ("N", true), ("O", true)]) ∧
    chainTexts laterDb = ([("V", false), ("W", true), ("X", true)],
      [("M", false), ("N", true), ("O", false), ("P", true)]) := by
  decide +kernel

theorem sampleFormed_db : sampleFormed.db = formedDb :=
  play_db rfl (written_task chainTasks_written.1) (played_task (some_getD chain_runs.1 _))

theorem sampleRecast_db : sampleRecast.db = recastDb :=
  play_db sampleFormed_db (written_task chainTasks_written.2.1)
    (played_task (some_getD chain_runs.2.1 _))

theorem sampleLater_db : sampleLater.db = laterDb :=
  play_db sampleRecast_db (written_task chainTasks_written.2.2)
    (played_task (some_getD chain_runs.2.2.1 _))

/-- A Disposition and a Recollection were revised, and later the Recollection again. -/
theorem versions_chain_sample :
    chainTexts sampleRecast.db =
      ([("V", false), ("W", true), ("X", true)], [("M", false), ("N", true), ("O", true)]) ∧
    chainTexts sampleLater.db = ([("V", false), ("W", true), ("X", true)],
      [("M", false), ("N", true), ("O", false), ("P", true)]) ∧
    (∀ r ∈ sampleRecast.db.seeds, Chain SeedVersionRow.number SeedVersionRow.ref
      SeedVersionRow.Active r.ref (seedChain r.ref sampleRecast.db)) ∧
    (∀ r ∈ sampleRecast.db.recollections, Chain RecollectionVersionRow.number
      RecollectionVersionRow.ref RecollectionVersionRow.Active r.ref
      (recollectionChain r.ref sampleRecast.db)) ∧
    KeepsRetired sampleRecast.db sampleLater.db := by
  obtain ⟨_, _, _, _, _, _, hrecast, hlater⟩ := chain_runs
  refine ⟨?_, ?_, versions_chain sampleStore sampleStore_collisionless sampleRecast_reach.1
    (reach_calls sampleRecast_reach.2 .start _).1⟩
  · rw [sampleRecast_db]
    exact hrecast
  · rw [sampleLater_db]
    exact hlater

/-! ## Texts -/

/-- Two active versions of one owner have different texts. -/
structure TextsUnique (d : Db) : Prop where
  seeds : ∀ r ∈ d.seeds, ∀ r' ∈ d.seeds, r.owner = r'.owner →
    ∀ v ∈ seedChain r.ref d, ∀ v' ∈ seedChain r'.ref d, v.Active → v'.Active →
      v.tendency = v'.tendency → v = v'
  recollections : ∀ r ∈ d.recollections, ∀ r' ∈ d.recollections, r.owner = r'.owner →
    ∀ v ∈ recollectionChain r.ref d, ∀ v' ∈ recollectionChain r'.ref d, v.Active → v'.Active →
      v.application = v'.application → v.text = v'.text → v = v'

/-- In every reached state no two active versions of one owner have one text. -/
theorem texts_unique (store : Store) (hhash : Collisionless store) {s : MemorySys}
    (h : MemoryReach store s) : TextsUnique s.db := by
  have hlaw := (worldLaw_reach hhash h).memory
  constructor
  · intro r hr r' hr' howner v hv v' hv' hl hl' htext
    simp only [seedChain, List.mem_filter, decide_eq_true_eq] at hv hv'
    by_contra hne
    refine hlaw.seeds.labels v' hv'.1 hl' r'.owner ?_ v hv.1 hl hne ?_ htext
    · exact Db.seedShelf_owns.mpr ⟨r', hr', hv'.2.symm, rfl⟩
    · exact Db.seedShelf_owns.mpr ⟨r, hr, hv.2.symm, howner⟩
  · intro r hr r' hr' howner v hv v' hv' hl hl' happlication htext
    simp only [recollectionChain, List.mem_filter, decide_eq_true_eq] at hv hv'
    by_contra hne
    refine hlaw.recollections.labels v' hv'.1 hl' r'.owner ?_ v hv.1 hl hne ?_
      (Prod.ext happlication htext)
    · exact Db.recollectionShelf_owns.mpr ⟨r', hr', hv'.2.symm, rfl⟩
    · exact Db.recollectionShelf_owns.mpr ⟨r, hr, hv.2.symm, howner⟩

/-- Two active Dispositions and two active Recollections, all of one owner. -/
theorem texts_unique_sample :
    (∀ r ∈ sampleFormed.db.seeds, r.owner = agentScope.owner) ∧
    (∀ r ∈ sampleFormed.db.recollections, r.owner = agentScope.owner) ∧
    chainTexts sampleFormed.db = ([("V", true), ("W", true)], [("M", true), ("N", true)]) ∧
    TextsUnique sampleFormed.db := by
  obtain ⟨_, _, _, hseeds, hrecollections, htexts, _⟩ := chain_runs
  refine ⟨?_, ?_, ?_, texts_unique sampleStore sampleStore_collisionless sampleFormed_reach.1⟩
  · rw [sampleFormed_db]
    exact hseeds
  · rw [sampleFormed_db]
    exact hrecollections
  · rw [sampleFormed_db]
    exact htexts

end ChoraMem
