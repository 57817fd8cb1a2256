/-
Source groups and their Episodes.

The rows of one group are its Episode, its links and its Outcomes.  `SameGroup`
says that two stores hold the same rows of a group, which writes elsewhere
preserve.  `GroupOk` is the law of a group between transactions: it has an Episode
exactly when its links pass the role gate, and then every link and Outcome of the
group carries the ref.
-/
import ChoraMem.Storage.Feedback

namespace ChoraMem

open Txn

/-- The gate of materialization, as a statement about the links. -/
def GateOpen (g : StableGroupRef) (d : Db) : Prop :=
  ∃ situation ∈ d.links, ∃ agentAct ∈ d.links, situation.group = g ∧ agentAct.group = g ∧
    situation.role = .situation ∧ agentAct.role = .agentAct ∧
    situation.sourceEventRef ≠ agentAct.sourceEventRef

theorem roleGate_iff {g : StableGroupRef} {d : Db} : roleGate g d = true ↔ GateOpen g d := by
  simp only [roleGate, GateOpen, List.any_eq_true, Bool.and_eq_true, decide_eq_true_eq, beq_iff_eq,
    bne_iff_ne, ne_eq]
  constructor
  · rintro ⟨l, hl, ⟨hg, hr⟩, l', hl', ⟨hg', hr'⟩, hne⟩
    exact ⟨l, hl, l', hl', hg, hg', hr, hr', hne⟩
  · rintro ⟨l, hl, l', hl', hg, hg', hr, hr', hne⟩
    exact ⟨l, hl, ⟨hg, hr⟩, l', hl', ⟨hg', hr'⟩, hne⟩

def Materialized (g : StableGroupRef) (d : Db) : Prop := ∃ e ∈ d.episodes, e.group = g

theorem hasEpisode_iff {g : StableGroupRef} {d : Db} : hasEpisode g d = true ↔ Materialized g d := by
  simp only [hasEpisode, Materialized, List.any_eq_true, decide_eq_true_eq]

theorem episodeRefTaken_iff {ref : String} {d : Db} :
    episodeRefTaken ref d = true ↔ ∃ e ∈ d.episodes, e.ref = ref := by
  simp only [episodeRefTaken, List.any_eq_true, decide_eq_true_eq]

/-! ## The rows of a group -/

/-- The group whose rows a write changes. -/
def Write.group : Write → Option StableGroupRef
  | .insertEpisode r => some r.group
  | .insertLink r | .updateLink r => some r.group
  | .insertOutcome r | .updateOutcome r => some r.group
  | _ => none

structure SameGroup (g : StableGroupRef) (d d' : Db) : Prop where
  episodes : SameRows (fun e : EpisodeRow => e.group = g) d.episodes d'.episodes
  links : SameRows (fun l : LinkRow => l.group = g) d.links d'.links
  outcomes : SameRows (fun o : OutcomeRow => o.group = g) d.outcomes d'.outcomes

namespace SameGroup

variable {g : StableGroupRef} {d d' d'' : Db}

theorem refl (g : StableGroupRef) (d : Db) : SameGroup g d d :=
  ⟨SameRows.refl _, SameRows.refl _, SameRows.refl _⟩

theorem symm (h : SameGroup g d d') : SameGroup g d' d :=
  ⟨h.episodes.symm, h.links.symm, h.outcomes.symm⟩

theorem trans (h : SameGroup g d d') (h' : SameGroup g d' d'') : SameGroup g d d'' :=
  ⟨h.episodes.trans h'.episodes, h.links.trans h'.links, h.outcomes.trans h'.outcomes⟩

end SameGroup

theorem group_of_linkKey {g : StableGroupRef} (x y : LinkRow) (h : x.key = y.key) :
    x.group = g ↔ y.group = g := by
  rw [show x.group = y.group from congrArg Prod.fst h]

theorem group_of_outcomeKey {g : StableGroupRef} (x y : OutcomeRow) (h : x.key = y.key) :
    x.group = g ↔ y.group = g := by
  rw [show x.group = y.group from congrArg Prod.fst h]

theorem group_of_episodeKey {g : StableGroupRef} (x y : EpisodeRow) (h : x.group = y.group) :
    x.group = g ↔ y.group = g := by
  rw [h]

/-- The same write on two stores that agree on a group. -/
theorem SameGroup.apply {g : StableGroupRef} {d d' : Db} (h : SameGroup g d d') (w : Write) :
    SameGroup g (d.apply w) (d'.apply w) := by
  obtain ⟨he, hl, ho⟩ := h
  cases w with
  | insertEpisode r => exact ⟨he.insertRow group_of_episodeKey r, hl, ho⟩
  | insertLink r => exact ⟨he, hl.insertRow group_of_linkKey r, ho⟩
  | updateLink r => exact ⟨he, hl.updateRow r, ho⟩
  | insertOutcome r => exact ⟨he, hl, ho.updateRow r⟩
  | updateOutcome r => exact ⟨he, hl, ho.updateRow r⟩
  | _ => exact ⟨he, hl, ho⟩

theorem SameGroup.applyAll {g : StableGroupRef} {d d' : Db} (h : SameGroup g d d')
    (log : List Write) : SameGroup g (applyAll d log) (applyAll d' log) := by
  induction log generalizing d d' with
  | nil => exact h
  | cons w rest ih => exact ih (h.apply w)

/-- A write of another group, or of none. -/
theorem sameGroup_apply {g : StableGroupRef} (d : Db) {w : Write} (h : w.group ≠ some g) :
    SameGroup g (d.apply w) d := by
  have hne : ∀ {x : StableGroupRef}, some x ≠ some g → ¬x = g := fun hx hg => hx (congrArg some hg)
  cases w with
  | insertEpisode r =>
    exact ⟨sameRows_insertRow (hne h), SameRows.refl _, SameRows.refl _⟩
  | insertLink r => exact ⟨SameRows.refl _, sameRows_insertRow (hne h), SameRows.refl _⟩
  | updateLink r =>
    exact ⟨SameRows.refl _, sameRows_updateRow group_of_linkKey (hne h), SameRows.refl _⟩
  | insertOutcome r =>
    exact ⟨SameRows.refl _, SameRows.refl _, sameRows_updateRow group_of_outcomeKey (hne h)⟩
  | updateOutcome r =>
    exact ⟨SameRows.refl _, SameRows.refl _, sameRows_updateRow group_of_outcomeKey (hne h)⟩
  | _ => exact ⟨SameRows.refl _, SameRows.refl _, SameRows.refl _⟩

theorem sameGroup_applyAll {g : StableGroupRef} (d : Db) {log : List Write}
    (h : ∀ w ∈ log, w.group ≠ some g) : SameGroup g (applyAll d log) d := by
  induction log generalizing d with
  | nil => exact SameGroup.refl g d
  | cons w rest ih =>
    exact (ih (d.apply w) fun w hw => h w (List.mem_cons_of_mem _ hw)).trans
      (sameGroup_apply d (h w List.mem_cons_self))

theorem SameGroup.gateOpen {g : StableGroupRef} {d d' : Db} (h : SameGroup g d d') :
    GateOpen g d → GateOpen g d' := by
  rintro ⟨l, hl, l', hl', hg, hg', hrest⟩
  exact ⟨l, (h.links l hg).mp hl, l', (h.links l' hg').mp hl', hg, hg', hrest⟩

theorem SameGroup.materialized {g : StableGroupRef} {d d' : Db} (h : SameGroup g d d') :
    Materialized g d → Materialized g d' := by
  rintro ⟨e, he, hg⟩
  exact ⟨e, (h.episodes e hg).mp he, hg⟩

theorem SameGroup.materialized_iff {g : StableGroupRef} {d d' : Db} (h : SameGroup g d d') :
    Materialized g d ↔ Materialized g d' :=
  ⟨h.materialized, h.symm.materialized⟩

/-! ## What a fixed view must show of a group -/

/-- Two stores hold the same Episode of a group, and the same situations and agent
acts. -/
structure SameGate (g : StableGroupRef) (v d : Db) : Prop where
  episodes : SameRows (fun e : EpisodeRow => e.group = g) v.episodes d.episodes
  links : SameRows
    (fun l : LinkRow => l.group = g ∧ (l.role = .situation ∨ l.role = .agentAct)) v.links d.links

theorem SameGroup.sameGate {g : StableGroupRef} {d d' : Db} (h : SameGroup g d d') :
    SameGate g d d' :=
  ⟨h.episodes, fun l hl => h.links l hl.1⟩

theorem SameGate.trans {g : StableGroupRef} {v d d' : Db} (h : SameGate g v d)
    (h' : SameGate g d d') : SameGate g v d' :=
  ⟨h.episodes.trans h'.episodes, h.links.trans h'.links⟩

theorem SameGate.apply {g : StableGroupRef} {v d : Db} (h : SameGate g v d) (w : Write) :
    SameGate g (v.apply w) (d.apply w) := by
  obtain ⟨he, hl⟩ := h
  have hkey : ∀ x y : LinkRow, x.key = y.key →
      ((x.group = g ∧ (x.role = .situation ∨ x.role = .agentAct)) ↔
        (y.group = g ∧ (y.role = .situation ∨ y.role = .agentAct))) := by
    intro x y hk
    rw [show x.group = y.group from congrArg Prod.fst hk,
      show x.role = y.role from congrArg (fun k => k.2.2) hk]
  cases w with
  | insertEpisode r => exact ⟨he.insertRow group_of_episodeKey r, hl⟩
  | insertLink r => exact ⟨he, hl.insertRow hkey r⟩
  | updateLink r => exact ⟨he, hl.updateRow r⟩
  | _ => exact ⟨he, hl⟩

theorem SameGate.applyAll {g : StableGroupRef} {v d : Db} (h : SameGate g v d)
    (log : List Write) : SameGate g (applyAll v log) (applyAll d log) := by
  induction log generalizing v d with
  | nil => exact h
  | cons w rest ih => exact ih (h.apply w)

theorem SameGate.gateOpen_iff {g : StableGroupRef} {v d : Db} (h : SameGate g v d) :
    GateOpen g v ↔ GateOpen g d := by
  constructor
  · rintro ⟨l, hl, l', hl', hg, hg', hr, hr', hne⟩
    exact ⟨l, (h.links l ⟨hg, Or.inl hr⟩).mp hl, l', (h.links l' ⟨hg', Or.inr hr'⟩).mp hl', hg, hg',
      hr, hr', hne⟩
  · rintro ⟨l, hl, l', hl', hg, hg', hr, hr', hne⟩
    exact ⟨l, (h.links l ⟨hg, Or.inl hr⟩).mpr hl, l', (h.links l' ⟨hg', Or.inr hr'⟩).mpr hl', hg,
      hg', hr, hr', hne⟩

theorem SameGate.materialized_iff {g : StableGroupRef} {v d : Db} (h : SameGate g v d) :
    Materialized g v ↔ Materialized g d := by
  constructor
  · rintro ⟨e, he, hg⟩
    exact ⟨e, (h.episodes e hg).mp he, hg⟩
  · rintro ⟨e, he, hg⟩
    exact ⟨e, (h.episodes e hg).mpr he, hg⟩

/-! ## The law of a group -/

structure GroupOk (store : Store) (g : StableGroupRef) (d : Db) : Prop where
  gate : Materialized g d ↔ GateOpen g d
  ref : ∀ e ∈ d.episodes, e.group = g → e.ref = store.episodeRef g
  bound : Materialized g d →
    (∀ l ∈ d.links, l.group = g → l.episodeRef = store.episodeRef g) ∧
    ∀ o ∈ d.outcomes, o.group = g → o.episodeRef = store.episodeRef g
  unbound : ¬Materialized g d →
    (∀ l ∈ d.links, l.group = g → l.episodeRef = "") ∧
    ∀ o ∈ d.outcomes, o.group = g → o.episodeRef = ""

theorem GroupOk.congr {store : Store} {g : StableGroupRef} {d d' : Db} (h : GroupOk store g d)
    (hs : SameGroup g d d') : GroupOk store g d' where
  gate := hs.materialized_iff.symm.trans (h.gate.trans ⟨hs.gateOpen, hs.symm.gateOpen⟩)
  ref := fun e he hg => h.ref e ((hs.episodes e hg).mpr he) hg
  bound := fun hm =>
    have hb := h.bound (hs.materialized_iff.mpr hm)
    ⟨fun l hl hg => hb.1 l ((hs.links l hg).mpr hl) hg,
      fun o ho hg => hb.2 o ((hs.outcomes o hg).mpr ho) hg⟩
  unbound := fun hm =>
    have hb := h.unbound fun h' => hm (hs.materialized h')
    ⟨fun l hl hg => hb.1 l ((hs.links l hg).mpr hl) hg,
      fun o ho hg => hb.2 o ((hs.outcomes o hg).mpr ho) hg⟩

theorem groupOk_empty (store : Store) (g : StableGroupRef) : GroupOk store g {} where
  gate := by
    constructor
    · rintro ⟨e, he, _⟩
      cases he
    · rintro ⟨l, hl, _⟩
      cases hl
  ref := fun e he => by cases he
  bound := fun _ => ⟨fun l hl => (by cases hl), fun o ho => (by cases ho)⟩
  unbound := fun _ => ⟨fun l hl => (by cases hl), fun o ho => (by cases ho)⟩

theorem Store.episodeRef_ne (store : Store) (g : StableGroupRef) : store.episodeRef g ≠ "" := by
  intro h
  have hlen := congrArg String.length h
  rw [Store.episodeRef, String.length_append] at hlen
  have : "episode_".length = 8 := by decide
  rw [this] at hlen
  simp at hlen

end ChoraMem
