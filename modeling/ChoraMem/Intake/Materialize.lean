/-
The walk through `appendLinkAndMaterialize`.

Under the lock of its group nobody else changes the group's rows, so what the
transaction finds of them it can still count on at its commit.  The walk goes
through the states of the open group: unbound, with its Episode and no back-filled
row, with its links bound, and in order again.
-/
import ChoraMem.Intake.Steps

namespace ChoraMem

open Txn

/-! ## States of an open group -/

/-- No Episode, and no row that carries a ref. -/
structure Unbound (g : StableGroupRef) (d : Db) : Prop where
  fresh : ¬Materialized g d
  links : ∀ l ∈ d.links, l.group = g → l.episodeRef = ""
  outcomes : ∀ o ∈ d.outcomes, o.group = g → o.episodeRef = ""

/-- The Episode is there, its Outcomes are not yet bound. -/
structure Opened (store : Store) (g : StableGroupRef) (d : Db) : Prop where
  made : Materialized g d
  gate : GateOpen g d
  ref : ∀ e ∈ d.episodes, e.group = g → e.ref = store.episodeRef g
  outcomes : ∀ o ∈ d.outcomes, o.group = g → o.episodeRef = ""

/-- The links are bound as well. -/
structure LinksBound (store : Store) (g : StableGroupRef) (d : Db) : Prop
    extends Opened store g d where
  links : ∀ l ∈ d.links, l.group = g → l.episodeRef = store.episodeRef g

section

variable {store : Store} {g : StableGroupRef} {d d' : Db}

theorem Unbound.congr (h : Unbound g d) (hs : SameGroup g d d') : Unbound g d' :=
  ⟨fun hm => h.fresh (hs.symm.materialized hm),
    fun l hl hg => h.links l ((hs.links l hg).mpr hl) hg,
    fun o ho hg => h.outcomes o ((hs.outcomes o hg).mpr ho) hg⟩

theorem Opened.congr (h : Opened store g d) (hs : SameGroup g d d') : Opened store g d' :=
  ⟨hs.materialized h.made, hs.gateOpen h.gate,
    fun e he hg => h.ref e ((hs.episodes e hg).mpr he) hg,
    fun o ho hg => h.outcomes o ((hs.outcomes o hg).mpr ho) hg⟩

theorem LinksBound.congr (h : LinksBound store g d) (hs : SameGroup g d d') :
    LinksBound store g d' :=
  ⟨h.toOpened.congr hs, fun l hl hg => h.links l ((hs.links l hg).mpr hl) hg⟩

/-- An unbound group whose gate is shut is in order. -/
theorem Unbound.groupOk (h : Unbound g d) (hgate : ¬GateOpen g d) : GroupOk store g d where
  gate := ⟨fun hm => absurd hm h.fresh, fun hg => absurd hg hgate⟩
  ref := fun e he hg => absurd ⟨e, he, hg⟩ h.fresh
  bound := fun hm => absurd hm h.fresh
  unbound := fun _ => ⟨h.links, h.outcomes⟩

theorem GroupOk.toUnbound (h : GroupOk store g d) (hm : ¬Materialized g d) : Unbound g d :=
  ⟨hm, (h.unbound hm).1, (h.unbound hm).2⟩

end

/-! ## The writes of materialization -/

theorem apply_updateLinks (d : Db) (rows : List LinkRow) :
    applyAll d (rows.map Write.updateLink) = { d with links := updateRows LinkRow.key rows d.links } := by
  induction rows generalizing d with
  | nil => rfl
  | cons r rest ih => exact ih (d.apply (.updateLink r))

theorem apply_updateOutcomes (d : Db) (rows : List OutcomeRow) :
    applyAll d (rows.map Write.updateOutcome) =
      { d with outcomes := updateRows OutcomeRow.key rows d.outcomes } := by
  induction rows generalizing d with
  | nil => rfl
  | cons r rest ih => exact ih (d.apply (.updateOutcome r))

/-- The gate looks at the keys of the links alone. -/
theorem gateOpen_of_keys {g : StableGroupRef} {d d' : Db}
    (h : d'.links.map LinkRow.key = d.links.map LinkRow.key) (hg : GateOpen g d) : GateOpen g d' := by
  have hkey : ∀ l ∈ d.links, ∃ l' ∈ d'.links, l'.key = l.key := fun l hl =>
    List.mem_map.mp (h ▸ List.mem_map_of_mem hl)
  obtain ⟨s, hs, a, ha, hsg, hag, hsr, har, hne⟩ := hg
  obtain ⟨s', hs', hsk⟩ := hkey s hs
  obtain ⟨a', ha', hak⟩ := hkey a ha
  obtain ⟨h1, h2, h3⟩ : s'.group = s.group ∧ s'.sourceEventRef = s.sourceEventRef ∧ s'.role = s.role := by
    simpa [LinkRow.key] using hsk
  obtain ⟨h4, h5, h6⟩ : a'.group = a.group ∧ a'.sourceEventRef = a.sourceEventRef ∧ a'.role = a.role := by
    simpa [LinkRow.key] using hak
  exact ⟨s', hs', a', ha', h1.trans hsg, h4.trans hag, h3.trans hsr, h6.trans har, by rw [h2, h5]; exact hne⟩

theorem Opened.bindLinks {store : Store} {g : StableGroupRef} {d : Db} (h : Opened store g d) :
    LinksBound store g
      { d with links := updateRows LinkRow.key (boundLinks (store.episodeRef g) g d) d.links } where
  made := h.made
  gate := by
    refine gateOpen_of_keys (map_key_updateRows fun r hr => ?_) h.gate
    obtain ⟨l, hl, rfl⟩ := List.mem_map.mp hr
    exact ⟨l, List.mem_of_mem_filter hl, rfl⟩
  ref := h.ref
  outcomes := h.outcomes
  links := by
    intro l hl hg
    rcases of_mem_updateRows hl with hl | ⟨hl, hne⟩
    · obtain ⟨l', _, rfl⟩ := List.mem_map.mp hl
      rfl
    · have hmem : l ∈ d.links.filter (·.group = g) := List.mem_filter.mpr ⟨hl, decide_eq_true hg⟩
      exact absurd rfl (hne { l with episodeRef := store.episodeRef g } (List.mem_map_of_mem hmem))

theorem LinksBound.bindOutcomes {store : Store} {g : StableGroupRef} {d : Db}
    (h : LinksBound store g d) :
    GroupOk store g { d with
      outcomes := updateRows OutcomeRow.key (boundOutcomes (store.episodeRef g) g d) d.outcomes } where
  gate := ⟨fun _ => h.gate, fun _ => h.made⟩
  ref := h.ref
  bound := fun _ => ⟨h.links, by
    intro o ho hg
    rcases of_mem_updateRows ho with ho | ⟨ho, hne⟩
    · obtain ⟨o', _, rfl⟩ := List.mem_map.mp ho
      rfl
    · have hmem : o ∈ d.outcomes.filter fun o => o.group = g && o.episodeRef == "" :=
        List.mem_filter.mpr ⟨ho, by simp [hg, h.outcomes o ho hg]⟩
      exact absurd rfl (hne { o with episodeRef := store.episodeRef g } (List.mem_map_of_mem hmem))⟩
  unbound := fun hm => absurd h.made hm

/-- Binding the early Outcomes leaves the others. -/
theorem attached_bindOutcomes {ref : String} {g : StableGroupRef} {d : Db} (hk : KeysOk d) :
    AttachedSub d
      { d with outcomes := updateRows OutcomeRow.key (boundOutcomes ref g d) d.outcomes } := by
  intro o ho hne
  refine mem_updateRows_of_ne ho fun r hr hkey => ?_
  obtain ⟨o', ho', rfl⟩ := List.mem_map.mp hr
  obtain ⟨hmem, hp⟩ := List.mem_filter.mp ho'
  have heq : o = o' := hk.outcomes.eq ho hmem hkey
  simp only [Bool.and_eq_true, beq_iff_eq] at hp
  exact hne (heq ▸ hp.2)

/-! ## The walk -/

/-- After the link: the group is in order, and the ref that is returned is that of
its Episode.  A group that changed is still to be enqueued. -/
structure Appended (store : Store) (pending : Option StableGroupRef) (g : StableGroupRef)
    (ref : String) (l : Local Write String) (d : Db) : Prop where
  mid : Mid store none pending l d
  lock : store.groupLockKey g ∈ l.held
  made : Materialized g (applyAll d l.log) → ref = store.episodeRef g
  fresh : ¬Materialized g (applyAll d l.log) → ref = ""

theorem Appended.later {store : Store} {pending : Option StableGroupRef} {g : StableGroupRef}
    {ref : String} {l : Local Write String} {d d' : Db} (h : Appended store pending g ref l d)
    (hl : (intakeRely store).Later l d d') : Appended store pending g ref l d' :=
  have hs := (hl.1.groups g h.lock).applyAll l.log
  ⟨h.mid.later hl, h.lock, fun hm => h.made (hs.materialized_iff.mpr hm),
    fun hm => h.fresh fun hm' => hm (hs.materialized hm')⟩

/-- What a query finds of a group's Episode when it sees the gate as committed. -/
theorem findEpisode_of_sameGate {store : Store} {g : StableGroupRef} {v d : Db}
    (h : GroupOk store g d) (hs : SameGate g v d) :
    (Materialized g d → findEpisode g v = store.episodeRef g) ∧
      (¬Materialized g d → findEpisode g v = "") := by
  unfold findEpisode findEpisodeRow
  cases hf : v.episodes.find? fun e => decide (e.group = g) with
  | some e =>
    have hg : e.group = g := by simpa using List.find?_some hf
    have he := (hs.episodes e hg).mp (List.mem_of_find?_eq_some hf)
    exact ⟨fun _ => h.ref e he hg, fun hm => absurd ⟨e, he, hg⟩ hm⟩
  | none =>
    have hno := List.find?_eq_none.mp hf
    refine ⟨fun hm => ?_, fun _ => rfl⟩
    obtain ⟨e, he, hg⟩ := hs.materialized_iff.mpr hm
    exact absurd (decide_eq_true hg) (hno e he)

/-- The rows of the link's insert, and the flag it reports. -/
def LinkWrites (row : LinkRow) (inserted : Bool) (ws : List Write) : Prop :=
  (inserted = false ∧ ws = []) ∨ (inserted = true ∧ ws = [.insertLink row])

theorem newLink_writes (row : LinkRow) (d : Db) :
    LinkWrites row (!d.links.any (·.key = row.key)) (newLink row d) := by
  unfold newLink
  by_cases h : d.links.any (·.key = row.key)
  · rw [if_pos h, h]
    exact Or.inl ⟨rfl, rfl⟩
  · rw [if_neg h, Bool.eq_false_iff.mpr h]
    exact Or.inr ⟨rfl, rfl⟩

section

variable {store : Store} {g : StableGroupRef} {l : Local Write String} {d : Db}

/-- Appending a link to a group without an Episode. -/
theorem Mid.appendUnbound (h : Mid store (some g) none l d) (hu : Unbound g (applyAll d l.log))
    (row : LinkRow) (hrow : row.group = g) (hempty : row.episodeRef = "") {inserted : Bool}
    {ws : List Write} (hws : LinkWrites row inserted ws) :
    Mid store (some g) none { l with log := l.log ++ ws } d ∧
      Unbound g (applyAll d (l.log ++ ws)) := by
  have hD : applyAll d (l.log ++ ws) = applyAll (applyAll d l.log) ws := applyAll_append d l.log ws
  rcases hws with ⟨_, rfl⟩ | ⟨_, rfl⟩
  · rw [List.append_nil]
    exact ⟨h, hu⟩
  · refine ⟨h.writeGroup _ (fun w hw => ?_) ?_ fun o ho _ => ho, hD ▸ ⟨hu.fresh, fun l hl hg => ?_, hu.outcomes⟩⟩
    · rw [List.mem_singleton.mp hw]
      exact congrArg some hrow
    · exact h.jobs.extend rfl (fun _ he => he) (fun _ ho _ => ho) (fun _ he => Or.inl he)
        fun _ ho => Or.inl ho
    · rcases mem_insertRow.mp hl with hl | ⟨rfl, _⟩
      · exact hu.links l hl hg
      · exact hempty

/-- Appending an Outcome link to a group with an Episode. -/
theorem Mid.appendBound (h : Mid store none none l d) (hlock : store.groupLockKey g ∈ l.held)
    (hm : Materialized g (applyAll d l.log)) (row : LinkRow) (hrow : row.group = g)
    (href : row.episodeRef = store.episodeRef g) {inserted : Bool} {ws : List Write}
    (hws : LinkWrites row inserted ws) :
    Appended store (if inserted then some g else none) g (store.episodeRef g)
      { l with log := l.log ++ ws } d := by
  have hD : applyAll d (l.log ++ ws) = applyAll (applyAll d l.log) ws := applyAll_append d l.log ws
  have hok := h.groups g (by simp)
  have hp : Mid store none (some g) l d := h.pend _
  rcases hws with ⟨rfl, rfl⟩ | ⟨rfl, rfl⟩
  · rw [List.append_nil]
    exact ⟨h, hlock, fun _ => rfl, fun hno => absurd hm hno⟩
  · have hopen := (hp.openGroup hlock).writeGroup [Write.insertLink row] (fun w hw => by
      rw [List.mem_singleton.mp hw]
      exact congrArg some hrow)
      (hp.jobs.extend rfl (fun _ he => he) (fun _ ho _ => ho) (fun _ he => Or.inl he)
        fun _ ho => Or.inl ho) fun o ho _ => ho
    have hgroup : GroupOk store g (applyAll (applyAll d l.log) [Write.insertLink row]) := by
      refine ⟨⟨fun _ => ?_, fun _ => hm⟩, hok.ref, fun _ => ⟨fun l hl hg => ?_, (hok.bound hm).2⟩,
        fun hno => absurd hm hno⟩
      · obtain ⟨s, hs, a, ha, hrest⟩ := hok.gate.mp hm
        exact ⟨s, mem_insertRow_of_mem hs, a, mem_insertRow_of_mem ha, hrest⟩
      · rcases mem_insertRow.mp hl with hl | ⟨rfl, _⟩
        · exact (hok.bound hm).1 l hl hg
        · exact href
    exact ⟨hopen.close (hD ▸ hgroup), hlock, fun _ => rfl, fun hno => absurd (hD ▸ hm) hno⟩

/-- Back-filling the Outcomes closes the group. -/
theorem Mid.bindOutcomes (h : Mid store (some g) (some g) l d) (hk : KeysOk d)
    (hlock : store.groupLockKey g ∈ l.held) (hb : LinksBound store g (applyAll d l.log)) :
    Appended store (some g) g (store.episodeRef g)
      { l with log := l.log ++
        (boundOutcomes (store.episodeRef g) g (applyAll d l.log)).map Write.updateOutcome } d := by
  set rows := boundOutcomes (store.episodeRef g) g (applyAll d l.log)
  have hD := applyAll_append d l.log (rows.map Write.updateOutcome)
  have hW := apply_updateOutcomes (applyAll d l.log) rows
  have hattached : AttachedSub (applyAll d l.log)
      (applyAll (applyAll d l.log) (rows.map Write.updateOutcome)) := by
    rw [hW]
    exact attached_bindOutcomes (hk.applyAll _)
  have hmid : Mid store (some g) (some g)
      { l with log := l.log ++ rows.map Write.updateOutcome } d := by
    refine h.writeGroup _ (fun w hw => ?_) ?_ hattached
    · obtain ⟨r, hr, rfl⟩ := List.mem_map.mp hw
      obtain ⟨o', ho', rfl⟩ := List.mem_map.mp hr
      have hp := (List.mem_filter.mp ho').2
      simp only [Bool.and_eq_true, decide_eq_true_eq] at hp
      exact congrArg some hp.1
    · refine h.jobs.extend (by rw [hW]) (by rw [hW]; exact fun _ he => he) hattached
        (by rw [hW]; exact fun _ he => Or.inl he) fun o ho => ?_
      rw [hW] at ho
      rcases of_mem_updateRows ho with ho | ⟨ho, _⟩
      · obtain ⟨o', ho', rfl⟩ := List.mem_map.mp ho
        obtain ⟨hmem, hp⟩ := List.mem_filter.mp ho'
        simp only [Bool.and_eq_true, decide_eq_true_eq] at hp
        exact Or.inr ⟨Or.inr (congrArg some hp.1.symm), h.jobs.named o' hmem⟩
      · exact Or.inl ho
  have hok : GroupOk store g (applyAll d (l.log ++ rows.map Write.updateOutcome)) := by
    rw [hD, hW]
    exact hb.bindOutcomes
  have hgate : GateOpen g (applyAll d (l.log ++ rows.map Write.updateOutcome)) := by
    rw [hD, hW]
    exact hb.gate
  exact ⟨hmid.close hok, hlock, fun _ => rfl, fun hno => absurd (hok.gate.mpr hgate) hno⟩

end

/-- The refs of two groups differ.  A collision makes the MySQL insert drop the
Episode of the second group in silence. -/
def RefsDistinct (store : Store) : Prop :=
  store.dialect = .mysql → ∀ g g', store.episodeRef g = store.episodeRef g' → g = g'

section

variable {store : Store} {g : StableGroupRef} {l : Local Write String} {d : Db}

/-- Inserting the Episode opens the group, or the statement fails. -/
theorem insertEpisode_safe (hdistinct : RefsDistinct store) (h : Mid store (some g) none l d)
    (hu : Unbound g (applyAll d l.log)) (hgate : GateOpen g (applyAll d l.log)) :
    (intakeRely store).Safe (store.insertEpisode g) (fun _ l' d' =>
      Mid store (some g) (some g) l' d' ∧ Opened store g (applyAll d' l'.log)) l d := by
  have hlock := h.openLocked g rfl
  intro d₁ h₁
  have hs := (h₁.1.groups g hlock).applyAll l.log
  have hmid := h.later h₁
  have hub := hu.congr hs
  have hno : hasEpisode g (applyAll d₁ l.log) = false :=
    Bool.eq_false_iff.mpr fun hm => hub.fresh (hasEpisode_iff.mp hm)
  cases href : episodeRefTaken (store.episodeRef g) (applyAll d₁ l.log) with
  | true =>
    -- Another group has the ref: PostgreSQL stops, and on MySQL the refs are distinct.
    cases hdial : store.dialect with
    | postgres =>
      simp only [hno, href]
      exact trivial
    | mysql =>
      obtain ⟨e, he, hr⟩ := episodeRefTaken_iff.mp href
      by_cases hg : g = e.group
      · exact absurd ⟨e, he, hg.symm⟩ hub.fresh
      · have hown := (hmid.groups e.group fun he => hg (Option.some.inj he)).ref e he rfl
        exact absurd (hdistinct hdial _ _ (hr.symm.trans hown)) hg
  | false =>
    have hD := applyAll_append d₁ l.log [Write.insertEpisode ⟨g, store.episodeRef g⟩]
    have hmem : ∀ e, e ∈ (applyAll (applyAll d₁ l.log)
        [Write.insertEpisode ⟨g, store.episodeRef g⟩]).episodes ↔
        e ∈ (applyAll d₁ l.log).episodes ∨ e = ⟨g, store.episodeRef g⟩ := by
      intro e
      refine mem_insertRow.trans (or_congr Iff.rfl ⟨And.left, fun he => ⟨he, ?_⟩⟩)
      exact fun e' he' hg' => hub.fresh ⟨e', he', hg'⟩
    have hpend := hmid.pend (some g)
    have hnext : Mid store (some g) (some g)
        { l with log := l.log ++ [Write.insertEpisode ⟨g, store.episodeRef g⟩] } d₁ := by
      refine hpend.writeGroup _ (fun w hw => ?_) ?_ fun o ho _ => ho
      · rw [List.mem_singleton.mp hw]
        rfl
      · refine hpend.jobs.extend rfl (fun e he => (hmem e).mpr (Or.inl he)) (fun _ ho _ => ho)
          (fun e he => ?_) fun _ ho => Or.inl ho
        exact ((hmem e).mp he).imp id fun he => congrArg (fun e => some (EpisodeRow.group e)) he.symm
    have hopened : Opened store g
        (applyAll d₁ (l.log ++ [Write.insertEpisode ⟨g, store.episodeRef g⟩])) := by
      rw [hD]
      refine ⟨⟨_, (hmem _).mpr (Or.inr rfl), rfl⟩, hs.gateOpen hgate, fun e he hg => ?_, hub.outcomes⟩
      rcases (hmem e).mp he with he | rfl
      · exact absurd ⟨e, he, hg⟩ hub.fresh
      · rfl
    simp only [hno, href]
    intro d₂ h₂
    exact ⟨hnext.later h₂, hopened.congr ((h₂.1.groups g hlock).applyAll _)⟩

/-- Back-filling puts the group in order. -/
theorem bindEpisode_safe (h : Mid store (some g) (some g) l d)
    (ho : Opened store g (applyAll d l.log)) :
    (intakeRely store).Safe (store.bindEpisode g)
      (fun _ l' d' => Appended store (some g) g (store.episodeRef g) l' d') l d := by
  have hlock := h.openLocked g rfl
  refine Rely.Safe.statement fun d₁ h₁ => ?_
  have hmid := h.later h₁
  have hop := ho.congr ((h₁.1.groups g hlock).applyAll l.log)
  set links := boundLinks (store.episodeRef g) g (applyAll d₁ l.log)
  have hD := applyAll_append d₁ l.log (links.map Write.updateLink)
  have hW := apply_updateLinks (applyAll d₁ l.log) links
  have hlinks : LinksBound store g (applyAll d₁ (l.log ++ links.map Write.updateLink)) := by
    rw [hD, hW]
    exact hop.bindLinks
  have hmid₁ : Mid store (some g) (some g)
      { l with log := l.log ++ links.map Write.updateLink } d₁ := by
    refine hmid.writeGroup _ (fun w hw => ?_) ?_ ?_
    · obtain ⟨r, hr, rfl⟩ := List.mem_map.mp hw
      obtain ⟨l', hl', rfl⟩ := List.mem_map.mp hr
      exact congrArg some (of_decide_eq_true (List.mem_filter.mp hl').2)
    · rw [hW]
      exact hmid.jobs.extend rfl (fun _ he => he) (fun _ ho _ => ho) (fun _ he => Or.inl he)
        fun _ ho => Or.inl ho
    · rw [hW]
      exact fun o ho _ => ho
  intro d₂ h₂
  have hmid₂ := hmid₁.later h₂
  have hlinks₂ := hlinks.congr ((h₂.1.groups g hlock).applyAll _)
  have happ := hmid₂.bindOutcomes h₂.2.keys hlock hlinks₂
  exact fun d₃ h₃ => happ.later h₃

/-- Under an open gate the group is materialized, otherwise it stays as it is. -/
theorem materialize_safe (hdistinct : RefsDistinct store)
    (h : Mid store (some g) none l d) (hu : Unbound g (applyAll d l.log)) (changed : Bool) :
    (intakeRely store).Safe (store.materialize g changed)
      (fun a l' d' => Appended store (if a.2 then some g else none) g a.1 l' d') l d := by
  have hlock := h.openLocked g rfl
  refine Rely.Safe.select fun d₁ v h₁ hs₁ => ?_
  have hmid := h.later h₁
  have hub := hu.congr ((h₁.1.groups g hlock).applyAll l.log)
  have hsee := (hs₁.gates g hlock).applyAll l.log
  by_cases hgate : GateOpen g (applyAll d₁ l.log)
  · rw [roleGate_iff.mpr (hsee.gateOpen_iff.mpr hgate)]
    refine Rely.Safe.bind h₁.2 ((insertEpisode_safe hdistinct hmid hub hgate).conseq ?_)
    rintro _ l₂ d₂ ⟨hmid₂, hop⟩ hinv₂
    refine Rely.Safe.bind hinv₂ ((bindEpisode_safe hmid₂ hop).conseq ?_)
    exact fun _ l₃ d₃ happ _ d₄ h₄ => happ.later h₄
  · have hshut : roleGate g (applyAll v l.log) = false :=
      Bool.eq_false_iff.mpr fun hg => hgate (hsee.gateOpen_iff.mp (roleGate_iff.mp hg))
    rw [hshut]
    have happ : Appended store (if changed then some g else none) g "" l d₁ :=
      ⟨(hmid.close (hub.groupOk hgate)).pend _, hlock, fun hm => absurd hm hub.fresh, fun _ => rfl⟩
    exact fun d₂ h₂ => happ.later h₂

/-- Appending a link leaves its group in order, and returns the ref of its Episode. -/
theorem appendLinkAndMaterialize_safe (hdistinct : RefsDistinct store) {event : SourceEvent}
    {binding : EpisodeBinding} (hg : binding.group event.scope = g) (h : Settled store l d) :
    (intakeRely store).Safe (store.appendLinkAndMaterialize event binding)
      (fun a l' d' => Appended store (if a.2 then some g else none) g a.1 l' d') l d := by
  unfold Store.appendLinkAndMaterialize
  rw [hg]
  refine Rely.Safe.acquire fun d₁ h₁ => ?_
  have hlock : store.groupLockKey g ∈ store.groupLockKey g :: l.held := List.mem_cons_self
  have hmid₁ := (h.later h₁).hold (store.groupLockKey g)
  refine Rely.Safe.select fun d₂ v h₂ hs₂ => ?_
  have hmid₂ := hmid₁.later h₂
  obtain ⟨hfound, hnone⟩ :=
    findEpisode_of_sameGate (hmid₂.groups g (by simp)) ((hs₂.gates g hlock).applyAll l.log)
  by_cases hm : Materialized g (applyAll d₂ l.log)
  · -- The group has its Episode: an existing link changes nothing, a new one must be an Outcome.
    rw [hfound hm]
    have hne : (store.episodeRef g != "") = true := bne_iff_ne.mpr (store.episodeRef_ne g)
    simp only [alreadyLinked, hne, if_true, Bool.true_and]
    refine Rely.Safe.select fun d₃ v₃ h₃ _ => ?_
    have hmid₃ := hmid₂.later h₃
    have hm₃ := ((h₃.1.groups g hlock).applyAll l.log).materialized hm
    cases episodeLinkExists g event.ref binding.role (applyAll v₃ l.log) with
    | true =>
      have happ : Appended store none g (store.episodeRef g) ⟨store.groupLockKey g :: l.held, l.log⟩
          d₃ :=
        ⟨hmid₃, hlock, fun _ => rfl, fun hno => absurd hm₃ hno⟩
      exact fun d₄ h₄ => happ.later h₄
    | false =>
      by_cases hrole : binding.role = .outcome
      · rw [if_neg (by simp), if_neg (by simp [hrole])]
        refine Rely.Safe.statement fun d₄ h₄ => ?_
        have hm₄ := ((h₄.1.groups g hlock).applyAll l.log).materialized hm₃
        have happ := (hmid₃.later h₄).appendBound hlock hm₄ ⟨g, event.ref, binding.role,
          store.episodeRef g⟩ rfl rfl (newLink_writes _ (applyAll d₄ l.log))
        exact fun d₅ h₅ => happ.later h₅
      · rw [if_neg (by simp), if_pos (by simpa using hrole)]
        exact trivial
  · rw [hnone hm]
    refine Rely.Safe.statement fun d₃ h₃ => ?_
    have hub := ((hmid₂.groups g (by simp)).toUnbound hm).congr
      ((h₃.1.groups g hlock).applyAll l.log)
    obtain ⟨hmid₄, hub₄⟩ := ((hmid₂.later h₃).openGroup hlock).appendUnbound hub
      ⟨g, event.ref, binding.role, ""⟩ rfl rfl (newLink_writes _ _)
    exact materialize_safe hdistinct hmid₄ hub₄ _

end

end ChoraMem
