/-
One Outcome for one ref.

The ref of an Outcome is a short digest, so two reports could get the same.  The unique
index on the ref lets one of them in: an Outcome is inserted when no row has its ref, and
the rows that are written again keep theirs.
-/
import ChoraMem.Txn.Unique
import ChoraMem.World.Sizes

namespace ChoraMem

open Txn

/-! ## The index -/

/-- Rows with one ref are one row. -/
def OutcomesByRef (d : Db) : Prop := ∀ o ∈ d.outcomes, ∀ o' ∈ d.outcomes, o.ref = o'.ref → o = o'

/-- The Outcome that is written. -/
def Write.outcome? : Write → Option OutcomeRow
  | .insertOutcome r => some r
  | .updateOutcome r => some r
  | _ => none

theorem outcomes_apply (d : Db) (w : Write) : (d.apply w).outcomes =
    w.outcome?.elim d.outcomes fun r => updateRow OutcomeRow.key r d.outcomes := by
  cases w <;> rfl

theorem outcomes_of_written {d : Db} {w : Write} {r : OutcomeRow} (h : w.outcome? = some r) :
    (d.apply w).outcomes = updateRow OutcomeRow.key r d.outcomes := by
  rw [outcomes_apply, h]
  rfl

theorem outcomes_of_other {d : Db} {w : Write} (h : w.outcome? = none) :
    (d.apply w).outcomes = d.outcomes := by
  rw [outcomes_apply, h]
  rfl

/-- No other row has the ref of the written one. -/
def FitsOutcome (r : OutcomeRow) (d : Db) : Prop := ∀ o ∈ d.outcomes, o.ref = r.ref → o.key = r.key

theorem OutcomesByRef.updateRow {d d' : Db} {r : OutcomeRow} (h : OutcomesByRef d)
    (hfits : FitsOutcome r d) (hd' : d'.outcomes = updateRow OutcomeRow.key r d.outcomes) :
    OutcomesByRef d' := by
  intro o ho o' ho' href
  rw [hd', mem_updateRow] at ho ho'
  rcases ho with ⟨ho, hne⟩ | rfl
  · rcases ho' with ⟨ho', _⟩ | rfl
    · exact h o ho o' ho' href
    · exact absurd (hfits o ho href) hne
  · rcases ho' with ⟨ho', hne'⟩ | rfl
    · exact absurd (hfits o' ho' href.symm) hne'
    · rfl

theorem outcomeKey_mem {w : Write} {r : OutcomeRow} (h : w.outcome? = some r) :
    (⟨"outcome_events_outcome_event_ref_key", [r.ref]⟩ : RowKey) ∈ w.rowKeys := by
  cases w with
  | insertOutcome r' | updateOutcome r' =>
    obtain rfl := Option.some.inj h
    exact List.mem_cons_self
  | _ => cases h

/-- The unique index on the ref of an Outcome. -/
def outcomeIndex : Index Db Write where
  law := OutcomesByRef
  fits := fun w d => ∀ r, w.outcome? = some r → FitsOutcome r d
  same := fun w d d' => ∀ r, w.outcome? = some r →
    SameRows (fun o => o.ref = r.ref) d.outcomes d'.outcomes
  keeps := by
    intro d w hd hfits
    cases hw : w.outcome? with
    | none =>
      intro o ho o' ho'
      have hsame : (Journal.apply d w).outcomes = d.outcomes := outcomes_of_other hw
      rw [hsame] at ho ho'
      exact hd o ho o' ho'
    | some r => exact hd.updateRow (hfits r hw) (outcomes_of_written hw)
  refl := fun _ d _ _ => SameRows.refl d.outcomes
  trans := by
    intro w d d' d'' h h' r hr
    exact SameRows.trans (h r hr) (h' r hr)
  carried := fun _ _ _ h hfits r hr o ho href => hfits r hr o ((h r hr o href).mpr ho) href
  congr := by
    intro w v d d' h r hr
    show SameRows _ (d.apply v).outcomes (d'.apply v).outcomes
    cases hv : v.outcome? with
    | none =>
      rw [outcomes_of_other hv, outcomes_of_other hv]
      exact h r hr
    | some r' =>
      rw [outcomes_of_written hv, outcomes_of_written hv]
      exact (h r hr).updateRow r'
  apart := by
    intro w v d hapart r hr
    show SameRows _ d.outcomes (d.apply v).outcomes
    cases hv : v.outcome? with
    | none =>
      rw [outcomes_of_other hv]
      exact SameRows.refl _
    | some r' =>
      rw [outcomes_of_written hv]
      refine (sameRows_updateRow (fun x y hxy => ?_) fun href => ?_).symm
      · have hxy : x.ref = y.ref := congrArg Prod.snd hxy
        rw [hxy]
      · refine hapart _ (outcomeKey_mem hv) ?_
        show _ ∈ w.rowKeys
        rw [href]
        exact outcomeKey_mem hr

/-! ## What is checked -/

/-- The row is no Outcome. -/
def Write.Other (w : Write) : Prop := w.outcome? = none

theorem fits_other (w : Write) (d : Db) (h : w.Other) : outcomeIndex.fits w d :=
  fun _ hr => by cases h.symm.trans hr

theorem checked_other {α : Type} {p : Tx α} (h : p.Emits Write.Other) : outcomeIndex.Checked p :=
  .of_emits fits_other h

section

variable {store : Store}

/-- An Outcome that no row conflicts with has a new ref. -/
theorem checked_insertOutcome (row : OutcomeRow) (operation : String) :
    outcomeIndex.Checked (insertFresh (Store.outcomeConflict row) (.insertOutcome row) operation) := by
  intro d hd
  dsimp only
  cases hfree : Store.outcomeConflict row d with
  | true => exact ⟨trivial, trivial⟩
  | false =>
    refine ⟨⟨fun r hr o ho href => ?_, trivial⟩, trivial⟩
    obtain rfl := Option.some.inj hr
    have hno := List.any_eq_false.mp hfree o ho
    simp [href] at hno

/-- Rows that are written again under their keys fit. -/
theorem fits_rewritten {rows : List OutcomeRow} {d : Db} (hd : OutcomesByRef d)
    (hrows : ∀ r ∈ rows, ∃ o ∈ d.outcomes, o.key = r.key) :
    outcomeIndex.FitsAll d (rows.map .updateOutcome) := by
  induction rows generalizing d with
  | nil => exact trivial
  | cons r rest ih =>
    have hfits : FitsOutcome r d := by
      intro o ho href
      obtain ⟨o', ho', hkey⟩ := hrows r List.mem_cons_self
      rw [← hkey, hd o ho o' ho' (href.trans (congrArg Prod.snd hkey).symm)]
    refine ⟨fun r' hr' => Option.some.inj hr' ▸ hfits, ih (hd.updateRow hfits rfl) fun r' hr' => ?_⟩
    obtain ⟨o, ho, hkey⟩ := hrows r' (List.mem_cons_of_mem _ hr')
    by_cases heq : o.key = r.key
    · exact ⟨r, self_mem_updateRow, heq.symm.trans hkey⟩
    · exact ⟨o, mem_updateRow.mpr (Or.inl ⟨ho, heq⟩), hkey⟩

theorem checked_bindEpisode (g : StableGroupRef) : outcomeIndex.Checked (store.bindEpisode g) := by
  intro d _
  refine ⟨Index.fitsAll_of_forall fits_other fun w hw => ?_, fun d hd => ⟨?_, trivial⟩⟩
  · obtain ⟨l, _, rfl⟩ := List.mem_map.mp hw
    exact rfl
  · refine fits_rewritten hd fun r hr => ?_
    obtain ⟨o, ho, rfl⟩ := List.mem_map.mp hr
    exact ⟨o, List.mem_of_mem_filter ho, rfl⟩

theorem checked_materialize (g : StableGroupRef) (changed : Bool) :
    outcomeIndex.Checked (store.materialize g changed) := by
  have hinsert : outcomeIndex.Checked (store.insertEpisode g) := by
    refine checked_other ⟨fun d w hw => ?_, fun d => ?_⟩
    · simp only at hw
      split at hw
      · cases hw
      · rw [List.mem_singleton.mp hw]
        exact rfl
    · simp only
      split <;> exact trivial
  refine Index.Checked.select fun materialized => ?_
  split
  · exact trivial
  · exact hinsert.bind fun _ => (checked_bindEpisode g).bind fun _ => trivial

theorem checked_appendLinkAndMaterialize (event : SourceEvent) (binding : EpisodeBinding) :
    outcomeIndex.Checked (store.appendLinkAndMaterialize event binding) := by
  intro d
  have hlinked : ∀ ref, outcomeIndex.Checked
      (alreadyLinked (binding.group event.scope) event.ref binding.role ref) := by
    intro ref
    unfold alreadyLinked
    split
    · exact fun _ => trivial
    · exact trivial
  refine (hlinked _).bind fun linked => ?_
  split
  · exact trivial
  split
  · exact trivial
  refine fun d _ => ⟨Index.fitsAll_of_forall fits_other fun w hw => ?_, ?_⟩
  · unfold newLink at hw
    split at hw
    · cases hw
    · rw [List.mem_singleton.mp hw]
      exact rfl
  · dsimp only
    split
    · exact trivial
    · exact checked_materialize _ _

theorem checked_enqueueEpisodeState (env : Ambient) (scope : Scope) (ref : String) :
    outcomeIndex.Checked (store.enqueueEpisodeState env scope ref) :=
  checked_other (emits_enqueueEpisodeState store env scope ref (fun _ => rfl) fun _ => rfl)

theorem checked_enqueueEpisodeProjection (scope : Scope) (ref : String) (role : SourceRole)
    (sourceRef : String) :
    outcomeIndex.Checked (store.enqueueEpisodeProjection scope ref role sourceRef) :=
  checked_other (emits_enqueueMemoryIndexOperation store _ _ _ _ _ _ fun _ => rfl)

theorem checked_observe (env : Ambient) (key : String) (event : SourceEvent)
    (binding : EpisodeBinding) : outcomeIndex.Checked (store.observe env key event binding) := by
  unfold Store.observe
  split
  · exact trivial
  split
  · exact trivial
  refine (checked_other (emits_claimRequest store key event binding fun _ => rfl)).bind fun claim => ?_
  obtain ⟨receipt, claimed⟩ := claim
  dsimp only
  split
  · exact trivial
  refine (checked_other (emits_lockActedRun store event.scope binding)).bind fun _ => ?_
  refine (checked_other (emits_admitSource env event fun _ => rfl)).bind fun _ => ?_
  have hbind : outcomeIndex.Checked (store.bindObserved env event binding) := by
    unfold Store.bindObserved
    split
    · refine (checked_appendLinkAndMaterialize event binding).bind fun r => ?_
      dsimp only
      split
      · exact (checked_enqueueEpisodeState env event.scope _).bind fun _ =>
          (checked_enqueueEpisodeProjection event.scope _ _ _).bind fun _ => trivial
      · exact trivial
    · exact trivial
  exact hbind.bind fun ref => (checked_other
    (emits_freezeObserveReceipt _ _ _ fun _ => rfl)).bind fun _ => trivial

theorem checked_reportOutcome (env : Ambient) (report : OutcomeReport) :
    outcomeIndex.Checked (store.reportOutcome env report) := by
  unfold Store.reportOutcome
  split
  · exact trivial
  refine (checked_other (emits_loadOutcomeReceipt report _)).bind fun found => ?_
  split
  · exact trivial
  refine (checked_other (emits_validateOutcomeBindings report _ _)).bind fun _ => ?_
  refine (checked_other (emits_admitSource env report.event fun _ => rfl)).bind fun _ => ?_
  refine (checked_appendLinkAndMaterialize report.event report.binding).bind fun r => ?_
  refine (checked_insertOutcome _ _).bind fun _ => ?_
  refine (checked_enqueueEpisodeState env report.event.scope r.1).bind fun _ => ?_
  split
  · exact (checked_enqueueEpisodeProjection report.event.scope _ _ _).bind fun _ => trivial
  · exact trivial

theorem other_of_formed {seed recollection : String → Prop} {w : Write}
    (h : w.Formed seed recollection) : w.Other := by
  cases w <;> first | exact h.elim | exact rfl

/-- Every call checks the Outcomes that it writes. -/
theorem checked_perform (c : MemoryCommand) :
    outcomeIndex.Checked (store.perform c) := by
  rcases takes_or_formed store c with ⟨i, rfl⟩ | hformed
  · cases i with
    | observe env key event binding =>
      exact Index.Checked.bind ((checked_observe env key event binding).bind fun _ => trivial)
        fun _ => trivial
    | reportOutcome env report =>
      exact Index.Checked.bind ((checked_reportOutcome env report).bind fun _ => trivial)
        fun _ => trivial
    | recordMemoryDelivery env delivery =>
      exact Index.Checked.bind ((checked_other (emits_recordDelivery env delivery (fun _ => rfl)
        (fun _ => rfl) fun _ => rfl)).bind fun _ => trivial) fun _ => trivial
  · exact checked_other (hformed.mono fun _ => other_of_formed)

/-- In every reached state a ref names one Outcome. -/
theorem outcomeRefs_reach {s : MemorySys} (h : MemoryReach store s) :
    OutcomesByRef s.db := by
  refine outcomeIndex.law_reach (fun p hp => ?_) (fun o ho => absurd ho List.not_mem_nil) h
  obtain ⟨c, rfl⟩ := hp
  exact checked_perform c

end

end ChoraMem
