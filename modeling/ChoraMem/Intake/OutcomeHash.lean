/-
The digest of an Outcome report.

A report is told from another one with its idempotency key by the digest of its
fields.  The two sorted lists of refs are joined by the word "related-sources", which is
a valid ref itself, so one pair of reports has the same fields without being the same:
the word is the last delivery of the one and the first related source of the other.
-/
import Mathlib.Data.String.Basic
import ChoraMem.Intake.Emits
import ChoraMem.Txn.Keeps
import ChoraMem.Txn.Turns

namespace ChoraMem

open Txn

/-! ## Sorted lists around a separator -/

theorem sortRefs_perm (refs : List String) : (sortRefs refs).Perm refs :=
  List.perm_insertionSort _ refs

theorem pairwise_sortRefs {refs : List String} (h : refs.Nodup) :
    (sortRefs refs).Pairwise (· < ·) := by
  have hle : (sortRefs refs).Pairwise (· ≤ ·) := List.pairwise_insertionSort _ refs
  have hne : (sortRefs refs).Nodup := (sortRefs_perm refs).nodup_iff.mpr h
  exact (hle.and hne).imp fun hab => lt_of_le_of_ne hab.1 hab.2

theorem sortRefs_eq_iff {a b : List String} : sortRefs a = sortRefs b ↔ a.Perm b := by
  constructor
  · intro h
    exact (sortRefs_perm a).symm.trans (h ▸ sortRefs_perm b)
  · intro h
    have hperm : (sortRefs a).Perm (sortRefs b) :=
      (sortRefs_perm a).trans (h.trans (sortRefs_perm b).symm)
    have ha : (sortRefs a).Pairwise (· ≤ ·) := List.pairwise_insertionSort _ a
    have hb : (sortRefs b).Pairwise (· ≤ ·) := List.pairwise_insertionSort _ b
    exact hperm.eq_of_pairwise' ha hb

/-- The separator moves over at most one element, itself. -/
theorem separated_of_longer {α : Type} [Preorder α] {s : α} {a b a' b' x : List α}
    (ha' : a'.Pairwise (· < ·)) (hb : b.Pairwise (· < ·)) (h : a' = a ++ x) (hx : s :: b = x ++ s :: b') :
    (a' = a ∧ b = b') ∨ (a' = a ++ [s] ∧ b = s :: b') := by
  cases x with
  | nil =>
    simp only [List.nil_append, List.cons.injEq, true_and] at hx
    exact Or.inl ⟨by simpa using h, hx⟩
  | cons y rest =>
    simp only [List.cons_append, List.cons.injEq] at hx
    obtain ⟨rfl, rfl⟩ := hx
    cases rest with
    | nil => exact Or.inr ⟨h, rfl⟩
    | cons z rest =>
      have hlt : s < z := by
        rw [h] at ha'
        have := (List.pairwise_append.mp ha').2.1
        exact (List.pairwise_cons.mp this).1 z List.mem_cons_self
      have hgt : z < s := by
        have := (List.pairwise_cons.mp hb).1 s
        exact this (List.mem_append_right _ List.mem_cons_self)
      exact absurd (hlt.trans hgt) (lt_irrefl s)

theorem separated_iff {α : Type} [Preorder α] {s : α} {a b a' b' : List α}
    (ha : a.Pairwise (· < ·)) (hb : b.Pairwise (· < ·)) (ha' : a'.Pairwise (· < ·))
    (hb' : b'.Pairwise (· < ·)) :
    a ++ s :: b = a' ++ s :: b' ↔
      (a = a' ∧ b = b') ∨ (a' = a ++ [s] ∧ b = s :: b') ∨ (a = a' ++ [s] ∧ b' = s :: b) := by
  constructor
  · intro h
    rcases List.append_eq_append_iff.mp h with ⟨x, hx, hs⟩ | ⟨x, hx, hs⟩
    · rcases separated_of_longer ha' hb hx hs with ⟨h₁, h₂⟩ | h'
      · exact Or.inl ⟨h₁.symm, h₂⟩
      · exact Or.inr (Or.inl h')
    · rcases separated_of_longer ha hb' hx hs with ⟨h₁, h₂⟩ | h'
      · exact Or.inl ⟨h₁, h₂.symm⟩
      · exact Or.inr (Or.inr h')
  · rintro (⟨rfl, rfl⟩ | ⟨rfl, rfl⟩ | ⟨rfl, rfl⟩) <;> simp

/-! ## Reports with one digest -/

namespace OutcomeReport

variable (a b : OutcomeReport)

/-- Everything but the lists of refs. -/
def SameHead : Prop :=
  a.idempotencyKey = b.idempotencyKey ∧ a.event = b.event ∧ a.runRef = b.runRef ∧
    a.sourceGroupRef = b.sourceGroupRef

/-- The same report, its lists in any order. -/
def SameUpToOrder : Prop :=
  a.SameHead b ∧ a.deliveryReceiptRefs.Perm b.deliveryReceiptRefs ∧
    a.relatedSourceEventRefs.Perm b.relatedSourceEventRefs

/-- The separator is the last delivery of `a` and the first related source of `b`. -/
def Slips : Prop :=
  a.SameHead b ∧
    sortRefs a.deliveryReceiptRefs = sortRefs b.deliveryReceiptRefs ++ ["related-sources"] ∧
    sortRefs b.relatedSourceEventRefs = "related-sources" :: sortRefs a.relatedSourceEventRefs

/-- What `ValidateOutcomeReport` lets through. -/
def Accepted : Prop := validateOutcomeReport a = .ok ()

instance : Decidable a.Accepted := inferInstanceAs (Decidable (validateOutcomeReport a = .ok ()))

end OutcomeReport

def Store.reportHash (store : Store) (report : OutcomeReport) : String :=
  store.outcomeReportHash report (sortRefs report.deliveryReceiptRefs)
    (sortRefs report.relatedSourceEventRefs)

theorem ActorKind.text_injective {k k' : ActorKind} (h : k.text = k'.text) : k = k' := by
  cases k <;> cases k' <;> grind [ActorKind.text]

theorem nodup_of_uniqueFeedbackRefs {refs : List String} (h : uniqueFeedbackRefs refs = true) :
    refs.Nodup := by
  induction refs with
  | nil => exact List.nodup_nil
  | cons ref rest ih =>
    simp only [uniqueFeedbackRefs, Bool.and_eq_true, Bool.not_eq_true', List.contains_eq_mem,
      decide_eq_false_iff_not] at h
    exact List.nodup_cons.mpr ⟨h.1.2, ih h.2⟩

namespace OutcomeReport

variable {a b : OutcomeReport}

theorem Accepted.unique (h : a.Accepted) :
    a.deliveryReceiptRefs.Nodup ∧ a.relatedSourceEventRefs.Nodup := by
  unfold Accepted validateOutcomeReport at h
  simp only [bind, Except.bind, throw, throwThe, MonadExceptOf.throw, pure, Except.pure] at h
  split at h
  · cases h
  rename_i hargs
  simp only [Bool.or_eq_true, Bool.not_eq_true', not_or, Bool.not_eq_false] at hargs
  exact ⟨nodup_of_uniqueFeedbackRefs hargs.1.2, nodup_of_uniqueFeedbackRefs hargs.2⟩

/-- The fields behind the head of a digest. -/
theorem constitutionFields_eq {c c' : Constitution} {l l' : List String}
    (hempty : c = {} ↔ c' = {})
    (h : l ++ Store.constitutionFields c = l' ++ Store.constitutionFields c') : l = l' ∧ c = c' := by
  unfold Store.constitutionFields at h
  by_cases hc : c = {}
  · rw [if_pos hc, if_pos (hempty.mp hc), List.append_nil, List.append_nil] at h
    exact ⟨h, hc.trans (hempty.mp hc).symm⟩
  · rw [if_neg hc, if_neg fun h => hc (hempty.mpr h)] at h
    obtain ⟨hl, hfields⟩ := List.append_inj' h rfl
    simp only [List.cons.injEq, true_and, and_true] at hfields
    refine ⟨hl, ?_⟩
    cases c
    cases c'
    simpa using hfields

/-- The lists of two reports, each with the separator between. -/
def JoinedRefs (a b : OutcomeReport) : Prop :=
  sortRefs a.deliveryReceiptRefs ++ "related-sources" :: sortRefs a.relatedSourceEventRefs =
    sortRefs b.deliveryReceiptRefs ++ "related-sources" :: sortRefs b.relatedSourceEventRefs

/-- The list of fields determines all but where the separator is. -/
theorem reportHash_eq_iff {store : Store} (hinj : Function.Injective store.hashFields)
    (hkey : a.idempotencyKey = b.idempotencyKey) :
    store.reportHash a = store.reportHash b ↔ a.SameHead b ∧ JoinedRefs a b := by
  constructor
  · intro h
    have hf := hinj h
    simp only [List.cons_append, List.nil_append, List.append_assoc, List.cons.injEq] at hf
    obtain ⟨htag, hkind, htenant, hagent, hrelation, hsession, hrun, hgroup, href, hactor, hactorRef,
      htext, hrest⟩ := hf
    have hempty : a.event.constitution = {} ↔ b.event.constitution = {} := by
      constructor <;> intro hc <;> by_contra hc' <;> simp [hc, hc'] at htag
    have hsplit : (sortRefs a.deliveryReceiptRefs ++ "related-sources" ::
          sortRefs a.relatedSourceEventRefs) ++ Store.constitutionFields a.event.constitution =
        (sortRefs b.deliveryReceiptRefs ++ "related-sources" ::
          sortRefs b.relatedSourceEventRefs) ++ Store.constitutionFields b.event.constitution := by
      simpa using hrest
    obtain ⟨hjoined, hconstitution⟩ := constitutionFields_eq hempty hsplit
    have hscope : a.event.scope = b.event.scope := by
      cases hsa : a.event.scope
      cases hsb : b.event.scope
      simp only [hsa, hsb] at hkind htenant hagent hrelation hsession
      simp [ScopeKind.text_injective hkind, htenant, hagent, hrelation, hsession]
    have hevent : a.event = b.event := by
      cases hea : a.event
      cases heb : b.event
      simp only [hea, heb] at href hactor hactorRef htext hconstitution hscope
      simp [href, ActorKind.text_injective hactor, hactorRef, htext, hconstitution, hscope]
    exact ⟨⟨hkey, hevent, hrun, hgroup⟩, hjoined⟩
  · rintro ⟨⟨_, hevent, hrun, hgroup⟩, hjoined⟩
    unfold JoinedRefs at hjoined
    unfold Store.reportHash Store.outcomeReportHash
    rw [hevent, hrun, hgroup]
    have hrest : sortRefs a.deliveryReceiptRefs ++ "related-sources" ::
          (sortRefs a.relatedSourceEventRefs ++ Store.constitutionFields b.event.constitution) =
        sortRefs b.deliveryReceiptRefs ++ "related-sources" ::
          (sortRefs b.relatedSourceEventRefs ++ Store.constitutionFields b.event.constitution) := by
      simpa using congrArg (· ++ Store.constitutionFields b.event.constitution) hjoined
    simp only [List.append_assoc, List.cons_append, List.nil_append, hrest]

theorem joinedRefs_iff (ha : a.Accepted) (hb : b.Accepted) (hhead : a.SameHead b) :
    JoinedRefs a b ↔ a.SameUpToOrder b ∨ a.Slips b ∨ b.Slips a := by
  have hsep := separated_iff (s := "related-sources") (pairwise_sortRefs ha.unique.1)
    (pairwise_sortRefs ha.unique.2) (pairwise_sortRefs hb.unique.1) (pairwise_sortRefs hb.unique.2)
  have hhead' : b.SameHead a :=
    ⟨hhead.1.symm, hhead.2.1.symm, hhead.2.2.1.symm, hhead.2.2.2.symm⟩
  simp only [JoinedRefs, hsep, SameUpToOrder, Slips, hhead, hhead', true_and, sortRefs_eq_iff]
  constructor
  · rintro (h | h | h)
    · exact Or.inl h
    · exact Or.inr (Or.inr h)
    · exact Or.inr (Or.inl h)
  · rintro (h | h | h)
    · exact Or.inl h
    · exact Or.inr (Or.inr h)
    · exact Or.inr (Or.inl h)

/-- Two accepted reports of one key have one digest when they are the same up to the
order of their refs, or when the separator slips between them. -/
theorem same_hash_iff {store : Store} (hinj : Function.Injective store.hashFields)
    (ha : a.Accepted) (hb : b.Accepted) (hkey : a.idempotencyKey = b.idempotencyKey) :
    store.reportHash a = store.reportHash b ↔ a.SameUpToOrder b ∨ a.Slips b ∨ b.Slips a := by
  rw [reportHash_eq_iff hinj hkey]
  constructor
  · rintro ⟨hhead, hjoined⟩
    exact (joinedRefs_iff ha hb hhead).mp hjoined
  · intro h
    have hhead : a.SameHead b := by
      rcases h with h | h | h
      · exact h.1
      · exact h.1
      · exact ⟨h.1.1.symm, h.1.2.1.symm, h.1.2.2.1.symm, h.1.2.2.2.symm⟩
    exact ⟨hhead, (joinedRefs_iff ha hb hhead).mpr h⟩

theorem Slips.not_same (h : a.Slips b) : ¬a.SameUpToOrder b := by
  intro hs
  have hlen := congrArg List.length h.2.1
  rw [(sortRefs_eq_iff.mpr hs.2.1)] at hlen
  simp at hlen

theorem Slips.not_same' (h : b.Slips a) : ¬a.SameUpToOrder b := by
  intro hs
  have hlen := congrArg List.length h.2.1
  rw [(sortRefs_eq_iff.mpr hs.2.1)] at hlen
  simp at hlen

end OutcomeReport

/-! ## Stored reports

Every Outcome row is the row of an accepted report, in any interleaving. -/

section

variable {store : Store}

def Store.ReportedRow (store : Store) (o : OutcomeRow) : Prop :=
  ∃ report : OutcomeReport, report.Accepted ∧ o = store.outcomeRow report o.episodeRef

def Store.Reported (store : Store) (d : Db) : Prop := ∀ o ∈ d.outcomes, store.ReportedRow o

/-- A written Outcome is one of a report. -/
def Store.WritesReported (store : Store) : Write → Prop
  | .insertOutcome o => store.ReportedRow o
  | .updateOutcome o => store.ReportedRow o
  | _ => True

theorem reported_apply (d : Db) (w : Write) (hd : store.Reported d) (hw : store.WritesReported w) :
    store.Reported (Journal.apply d w) := by
  intro o ho
  cases w with
  | insertOutcome r | updateOutcome r =>
    rcases mem_updateRow.mp ho with ⟨ho, _⟩ | rfl
    · exact hd o ho
    · exact hw
  | _ => exact hd o ho

theorem ReportedRow.attach {o : OutcomeRow} (h : store.ReportedRow o) (ref : String) :
    store.ReportedRow { o with episodeRef := ref } := by
  obtain ⟨report, hreport, ho⟩ := h
  refine ⟨report, hreport, ?_⟩
  rw [ho]
  rfl

abbrev KeepsReported {α : Type} (store : Store) (p : Tx α) : Prop :=
  p.Keeps store.Reported store.WritesReported

theorem keeps_bindEpisode (g : StableGroupRef) : KeepsReported store (store.bindEpisode g) := by
  refine Prog.Keeps.statement (fun d _ w hw => ?_) fun d _ => ?_
  · obtain ⟨l, _, rfl⟩ := List.mem_map.mp hw
    exact trivial
  · intro d hd
    refine ⟨fun w hw => ?_, trivial⟩
    obtain ⟨o, ho, rfl⟩ := List.mem_map.mp hw
    obtain ⟨o', ho', rfl⟩ := List.mem_map.mp ho
    exact ReportedRow.attach (hd o' (List.mem_of_mem_filter ho')) _

theorem keeps_insertEpisode (g : StableGroupRef) : KeepsReported store (store.insertEpisode g) := by
  intro d _
  constructor
  · intro w hw
    simp only at hw
    split at hw
    · cases hw
    · rw [List.mem_singleton.mp hw]
      exact trivial
  · simp only
    split <;> exact trivial

theorem keeps_materialize (g : StableGroupRef) (changed : Bool) :
    KeepsReported store (store.materialize g changed) := by
  refine Prog.Keeps.select fun d _ => ?_
  split
  · exact trivial
  · exact (keeps_insertEpisode g).bind fun _ => (keeps_bindEpisode g).bind fun _ => trivial

theorem keeps_appendLinkAndMaterialize (event : SourceEvent) (binding : EpisodeBinding) :
    KeepsReported store (store.appendLinkAndMaterialize event binding) := by
  intro d _
  have hlinked : ∀ ref, KeepsReported store
      (alreadyLinked (binding.group event.scope) event.ref binding.role ref) := by
    intro ref
    unfold alreadyLinked
    split
    · exact fun _ _ => trivial
    · exact trivial
  refine (hlinked _).bind fun linked => ?_
  split
  · exact trivial
  split
  · exact trivial
  refine Prog.Keeps.statement (fun d _ w hw => ?_) fun d _ => ?_
  · unfold newLink at hw
    split at hw
    · cases hw
    · rw [List.mem_singleton.mp hw]
      exact trivial
  · split
    · exact trivial
    · exact keeps_materialize _ _

theorem keeps_enqueueEpisodeState (env : Ambient) (scope : Scope) (ref : String) :
    KeepsReported store (store.enqueueEpisodeState env scope ref) :=
  .of_emits (emits_enqueueEpisodeState store env scope ref (fun _ => trivial) fun _ => trivial)

theorem keeps_enqueueEpisodeProjection (scope : Scope) (ref : String) (role : SourceRole)
    (sourceRef : String) :
    KeepsReported store (store.enqueueEpisodeProjection scope ref role sourceRef) :=
  .of_emits (emits_enqueueMemoryIndexOperation store _ _ _ _ _ _ fun _ => trivial)

theorem keeps_observe (env : Ambient) (key : String) (event : SourceEvent)
    (binding : EpisodeBinding) : KeepsReported store (store.observe env key event binding) := by
  unfold Store.observe
  split
  · exact trivial
  split
  · exact trivial
  refine (Prog.Keeps.of_emits (emits_claimRequest store key event binding fun _ => trivial)).bind
    fun claim => ?_
  obtain ⟨receipt, claimed⟩ := claim
  dsimp only
  split
  · exact trivial
  refine (Prog.Keeps.of_emits (emits_lockActedRun store event.scope binding)).bind fun _ => ?_
  refine (Prog.Keeps.of_emits (emits_admitSource env event fun _ => trivial)).bind fun _ => ?_
  have hbind : KeepsReported store (store.bindObserved env event binding) := by
    unfold Store.bindObserved
    split
    · refine (keeps_appendLinkAndMaterialize event binding).bind fun r => ?_
      obtain ⟨ref, changed⟩ := r
      dsimp only
      split
      · exact (keeps_enqueueEpisodeState env event.scope _).bind fun _ =>
          (keeps_enqueueEpisodeProjection event.scope _ _ _).bind fun _ => trivial
      · exact trivial
    · exact trivial
  exact hbind.bind fun ref => (Prog.Keeps.of_emits
    (emits_freezeObserveReceipt _ _ _ fun _ => trivial)).bind fun _ => trivial

theorem keeps_reportOutcome (env : Ambient) (report : OutcomeReport) :
    KeepsReported store (store.reportOutcome env report) := by
  unfold Store.reportOutcome
  split
  · exact trivial
  rename_i hvalid
  refine (Prog.Keeps.of_emits (emits_loadOutcomeReceipt report _)).bind fun found => ?_
  split
  · exact trivial
  refine (Prog.Keeps.of_emits (emits_validateOutcomeBindings report _ _)).bind fun _ => ?_
  refine (Prog.Keeps.of_emits (emits_admitSource env report.event fun _ => trivial)).bind fun _ => ?_
  refine (keeps_appendLinkAndMaterialize report.event report.binding).bind fun r => ?_
  have hrow : store.ReportedRow (store.outcomeRow report r.1) := ⟨report, hvalid, rfl⟩
  refine (Prog.Keeps.of_emits (emits_insertFresh hrow)).bind fun _ => ?_
  refine (keeps_enqueueEpisodeState env report.event.scope r.1).bind fun _ => ?_
  split
  · exact (keeps_enqueueEpisodeProjection report.event.scope _ _ _).bind fun _ => trivial
  · exact trivial

/-- A delivery is one row, and what it shows is put to the queue. -/
theorem emits_recordDelivery {P : Write → Prop} (env : Ambient) (delivery : MemoryDelivery)
    (hdelivery : ∀ r, P (.insertDelivery r)) (hinsert : ∀ r, P (.insertJob r))
    (hupdate : ∀ r, P (.updateJob r)) : (store.recordMemoryDelivery env delivery).Emits P := by
  unfold Store.recordMemoryDelivery
  split
  · exact trivial
  refine Prog.Emits.acquire (Prog.Emits.bind (emits_loadMemoryDeliveryReceipt _ _ _) fun found => ?_)
  split
  · exact trivial
  refine Prog.Emits.acquire ?_
  refine Prog.Emits.bind (emits_rejectRetroactiveMemoryDelivery delivery) fun _ => ?_
  refine Prog.Emits.bind (emits_loadDeliverableMemoryRefs delivery) fun allowed => ?_
  split
  · exact trivial
  refine Prog.Emits.bind (emits_insertFresh (hdelivery _)) fun _ => ?_
  exact Prog.Emits.bind (emits_enqueueRunEpisodes store env _ _ hinsert hupdate) fun _ => trivial

theorem keeps_intake (c : IntakeCommand) : KeepsReported store (store.intake c) := by
  cases c with
  | observe env key event binding =>
    exact (keeps_observe env key event binding).bind fun _ => trivial
  | reportOutcome env report => exact (keeps_reportOutcome env report).bind fun _ => trivial
  | recordMemoryDelivery env delivery =>
    have hemits : (store.recordMemoryDelivery env delivery).Emits store.WritesReported :=
      emits_recordDelivery env delivery (fun _ => trivial) (fun _ => trivial) fun _ => trivial
    exact (Prog.Keeps.of_emits hemits).bind fun _ => trivial

/-- Intake keeps the law, however its transactions interleave. -/
theorem intake_reported {d₀ : Db} (h₀ : store.Reported d₀) {iso : Isolation}
    {cond : Sys Db Write String Fault IntakeReply → Act Db Write String Fault IntakeReply → Prop}
    {s : Sys Db Write String Fault IntakeReply} (h : ReachIf iso store.Intake cond ⟨d₀, []⟩ s) :
    store.Reported s.db := by
  refine (reach_lawful (P := store.WritesReported) reported_apply ?_ h₀ h).db
  rintro p ⟨c, rfl⟩
  exact keeps_intake c

end

/-! ## A key that was used -/

/-- The Outcome row with a report's tenant and key, as the receipt is looked up. -/
def usedKey (report : OutcomeReport) (d : Db) : Option OutcomeRow :=
  d.outcomes.find? fun r => decide (r.group.scope.tenantRef = report.event.scope.tenantRef) &&
    decide (r.idempotencyKey = report.idempotencyKey)

theorem exec_loadOutcomeReceipt {report : OutcomeReport} {hash : String} {d : Db}
    {r : OutcomeRow} (hr : usedKey report d = some r) :
    Prog.exec d (Store.loadOutcomeReceipt report hash) [] =
      if r.requestHash = hash then .ok (some ⟨r.ref, r.episodeRef⟩, [])
      else .error ⟨.outcomeReportConflict, report.idempotencyKey, ""⟩ := by
  unfold usedKey at hr
  simp only [Store.loadOutcomeReceipt, Prog.bind_def, Prog.select_bind, Prog.exec, applyAll_nil, hr]
  by_cases hh : r.requestHash = hash
  · simp [hh, Prog.exec]
  · simp [hh, Prog.exec]

/-- The answer to a report whose key was used. -/
theorem reportOutcome_used {store : Store} (env : Ambient) {report : OutcomeReport}
    (ha : report.Accepted) {d : Db} {r : OutcomeRow} (hr : usedKey report d = some r) :
    Prog.run (store.reportOutcome env report) d =
      if r.requestHash = store.reportHash report then .ok (⟨r.ref, r.episodeRef⟩, d)
      else .error ⟨.outcomeReportConflict, report.idempotencyKey, ""⟩ := by
  unfold OutcomeReport.Accepted at ha
  unfold Store.reportOutcome
  rw [ha]
  simp only [Prog.bind_def, Prog.acquire_bind, Prog.run, Prog.exec, Prog.exec_bind,
    exec_loadOutcomeReceipt hr]
  by_cases hh : r.requestHash = store.reportHash report
  · have hh' : r.requestHash = store.outcomeReportHash report (sortRefs report.deliveryReceiptRefs)
        (sortRefs report.relatedSourceEventRefs) := hh
    rw [if_pos hh', if_pos hh]
    rfl
  · have hh' : ¬r.requestHash = store.outcomeReportHash report (sortRefs report.deliveryReceiptRefs)
        (sortRefs report.relatedSourceEventRefs) := hh
    rw [if_neg hh', if_neg hh]

namespace OutcomeReport

/-- `ReportOutcome` refuses `a` where the key was used by another report. -/
def Refused (store : Store) (env : Ambient) (a b : OutcomeReport) (d : Db) : Prop :=
  ¬a.SameUpToOrder b → Prog.run (store.reportOutcome env a) d =
    .error ⟨.outcomeReportConflict, a.idempotencyKey, ""⟩

/-- Neither report is the other one with the separator slipped. -/
def Separated (a b : OutcomeReport) : Prop := ¬a.Slips b ∧ ¬b.Slips a

end OutcomeReport

/-- The digest tells two accepted reports with one key apart exactly when the separator
does not slip between them, and then, and only then, a report whose key another one used
is refused: in every state that intake reaches, the row that used the key belongs to an
accepted report with that key. -/
theorem outcomeReport_conflict (store : Store) (hinj : Function.Injective store.hashFields) :
    (∀ a b : OutcomeReport, a.Accepted → b.Accepted → a.idempotencyKey = b.idempotencyKey →
      ((store.reportHash a = store.reportHash b → a.SameUpToOrder b) ↔ a.Separated b)) ∧
    ∀ (iso : Isolation) (d₀ : Db) (s : Sys Db Write String Fault IntakeReply), store.Reported d₀ →
      Reach iso store.Intake ⟨d₀, []⟩ s → ∀ (env : Ambient) (a : OutcomeReport) (r : OutcomeRow),
      a.Accepted → usedKey a s.db = some r →
      ∃ b : OutcomeReport, b.Accepted ∧ b.idempotencyKey = a.idempotencyKey ∧
        r = store.outcomeRow b r.episodeRef ∧
        (a.Refused store env b s.db ↔ a.Separated b) := by
  have hpair : ∀ a b : OutcomeReport, a.Accepted → b.Accepted →
      a.idempotencyKey = b.idempotencyKey →
      ((store.reportHash a = store.reportHash b → a.SameUpToOrder b) ↔ a.Separated b) := by
    intro a b ha hb hkey
    rw [OutcomeReport.same_hash_iff hinj ha hb hkey]
    constructor
    · intro h
      exact ⟨fun hs => hs.not_same (h (Or.inr (Or.inl hs))),
        fun hs => OutcomeReport.Slips.not_same' hs (h (Or.inr (Or.inr hs)))⟩
    · rintro ⟨h₁, h₂⟩ (h | h | h)
      · exact h
      · exact absurd h h₁
      · exact absurd h h₂
  refine ⟨hpair, ?_⟩
  intro iso d₀ s h₀ hs env a r ha hr
  have hmem := List.mem_of_find?_eq_some hr
  have hfound := List.find?_some hr
  simp only [Bool.and_eq_true, decide_eq_true_eq] at hfound
  obtain ⟨b, hb, hrow⟩ := intake_reported h₀ hs r hmem
  have hkey : a.idempotencyKey = b.idempotencyKey := by
    rw [← hfound.2, hrow]
    rfl
  refine ⟨b, hb, hkey.symm, hrow, ?_⟩
  have hhash : r.requestHash = store.reportHash b := by
    rw [hrow]
    rfl
  rw [← hpair a b ha hb hkey, OutcomeReport.Refused, reportOutcome_used env ha hr, hhash]
  constructor
  · intro h heq
    by_contra hno
    have := h hno
    rw [if_pos heq.symm] at this
    cases this
  · intro h hno
    rw [if_neg fun heq => hno (h heq.symm)]

/-! Two sources of a question, one of them called "related-sources", and the report of a
result about both; then a report about one of them, attributed to a delivery that does
not exist. -/

def slipSource (ref : String) : SourceEvent := { sampleSituation with ref := ref }

def slipStored : OutcomeReport :=
  { idempotencyKey := "k", event := slipSource "result", runRef := "run", sourceGroupRef := "g",
    deliveryReceiptRefs := [], relatedSourceEventRefs := ["related-sources", "s1"] }

def slipAsked : OutcomeReport :=
  { slipStored with deliveryReceiptRefs := ["related-sources"], relatedSourceEventRefs := ["s1"] }

def slipCalls : List IntakeCommand :=
  [.observe (plainAmbient 1) "k1" (slipSource "related-sources") ⟨"run", "g", .situation⟩,
    .observe (plainAmbient 2) "k2" (slipSource "s1") ⟨"run", "g", .situation⟩,
    .reportOutcome (plainAmbient 3) slipStored]

def slipState : Sys Db Write String Fault IntakeReply :=
  (slipCalls.map (plainStore .postgres).intake).foldl Sys.turn ⟨{}, []⟩

theorem slipState_reach (iso : Isolation) :
    Reach iso (plainStore .postgres).Intake ⟨{}, []⟩ slipState := by
  refine (reach_turns (fun t ht => by cases ht) ReachIf.start ?_).1
  intro p hp
  obtain ⟨c, _, rfl⟩ := List.mem_map.mp hp
  exact ⟨c, rfl⟩

/-- The second report, a different one, is answered with the first one's receipt. -/
theorem outcomeReport_answered_for_another :
    Reach .readCommitted (plainStore .postgres).Intake ⟨{}, []⟩ slipState ∧
      slipAsked.Accepted ∧ slipStored.Accepted ∧
      slipAsked.idempotencyKey = slipStored.idempotencyKey ∧ ¬slipAsked.SameUpToOrder slipStored ∧
      (plainStore .postgres).reportHash slipAsked = (plainStore .postgres).reportHash slipStored ∧
      ∃ o ∈ slipState.db.outcomes, o = (plainStore .postgres).outcomeRow slipStored "" ∧
        Prog.run ((plainStore .postgres).reportOutcome (plainAmbient 4) slipAsked) slipState.db =
          .ok (⟨o.ref, o.episodeRef⟩, slipState.db) := by
  have hslips : slipAsked.Slips slipStored := ⟨⟨rfl, rfl, rfl, rfl⟩, by decide, by decide⟩
  refine ⟨slipState_reach _, by decide, by decide, rfl, hslips.not_same,
    by decide, (plainStore .postgres).outcomeRow slipStored "", by decide, rfl,
    by decide⟩

theorem outcomeReport_conflict_sample :
    ∃ b : OutcomeReport, b.Accepted ∧ b.idempotencyKey = "k" ∧
      (slipAsked.Refused (plainStore .postgres) (plainAmbient 4) b slipState.db ↔
        slipAsked.Separated b) := by
  obtain ⟨b, hb, hkey, _, hiff⟩ := (outcomeReport_conflict
    (plainStore .postgres) fun _ _ h => plainFields_injective h).2 .readCommitted {}
    slipState (fun o ho => by cases ho) (slipState_reach _) (plainAmbient 4) slipAsked
    ((plainStore .postgres).outcomeRow slipStored "") (by decide) (by decide)
  exact ⟨b, hb, hkey, hiff⟩

end ChoraMem
