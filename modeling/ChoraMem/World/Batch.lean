/-
A batch of changes, applied among other transactions.

Each change of a batch is one licensed deed on the store that the ones before it left,
and a batch that goes through is the chain of them.  The projections into the outbox of
the index are beside it: they touch no Memory.
-/
import ChoraMem.Txn.Both
import ChoraMem.World.Changes

namespace ChoraMem

open Txn Versions

/-- The changes in order, each carried out on what the ones before it left. -/
inductive Batch (store : Store) (env : Ambient) (jobRef : String) (w : WindowState) :
    List Change → Db → List (Change × Applied) → Db → Prop
  | nil {x : Db} : Batch store env jobRef w [] x [] x
  | cons {change : Change} {rest : List Change} {x y z : Db} {a : Applied} {deed : Deed}
      {effects : List (Change × Applied)} (h : Carried store env jobRef w change x a deed y)
      (hrest : Batch store env jobRef w rest y effects z) :
      Batch store env jobRef w (change :: rest) x ((change, a) :: effects) z

theorem Store.applyChange_addressee (store : Store) (env : Ambient) (jobRef : String)
    (w : WindowState) (change : Change) :
    store.applyChange env jobRef w change =
      match w.addressee change.target with
      | .newRecollection => do
        let a ← store.applyRecollectionFormation env w jobRef change
        store.projectFormation .recollection (windowOwner w.episodes) a
      | .newDisposition => do
        let a ← store.applyDispositionFormation w jobRef change
        store.projectFormation .disposition (windowOwner w.episodes) a
      | .recollection r => store.applyRecollectionChange env jobRef r change
      | .disposition t => store.applyDispositionChange jobRef t change
      | .nobody => .ret {} := by
  unfold Store.applyChange WindowState.addressee
  split
  · rfl
  split
  · rfl
  cases w.recollectionOf change.target with
  | some r => rfl
  | none => cases targetByRef w.targets change.target <;> rfl

section

variable {store : Store} {o : OwnerScope → Prop} {d : Db} {known : String → String → Prop}
variable {l : Local Write String} {e : Db} {env : Ambient} {jobRef : String} {w : WindowState}
variable {change : Change}

/-! ## The outbox -/

theorem applyAll_outbox {x : Db} {ws : List Write} (h : ∀ w ∈ ws, ∃ r, w = .insertIndexOperation r) :
    ∃ operations, applyAll x ws = { x with indexOperations := operations } := by
  induction ws generalizing x with
  | nil => exact ⟨x.indexOperations, rfl⟩
  | cons w rest ih =>
    obtain ⟨r, rfl⟩ := h w List.mem_cons_self
    obtain ⟨operations, ho⟩ := ih fun w' hw' => h w' (List.mem_cons_of_mem _ hw')
    exact ⟨operations, by rw [applyAll_cons, ho]; rfl⟩

/-- A projection after a change leaves what the change did. -/
theorem ends_outbox {p : Tx Applied} {f : Applied → Tx Applied} {Q : Applied → Db → Prop}
    (hf : ∀ a, (f a).Emits fun w => ∃ r, w = .insertIndexOperation r)
    (hret : ∀ a l e, (memoryPact store).Ends d (f a) (fun b _ _ => b = a) l e)
    (hQ : ∀ a y operations, Q a y → Q a { y with indexOperations := operations })
    (h : (memoryPact store).Ends d p
      (fun a l' e' => Q a (applyAll d l'.log) ∧ Ready store o d known l' e') l e) :
    (memoryPact store).Ends d (p >>= f)
      (fun a l' e' => Q a (applyAll d l'.log) ∧ Ready store o d known l' e') l e := by
  refine Pact.Ends.bind (Pact.Ends.conseq h fun a l₁ e₁ h₁ => ?_)
  refine Pact.Ends.conseq (Pact.Ends.and (hret a l₁ e₁) (Pact.Ends.of_emits
    (J := fun l' e' => Q a (applyAll d l'.log) ∧ Ready store o d known l' e') (hf a)
    (fun l e e' h hb => ⟨h.1, h.2.later hb⟩) ?_ ?_ h₁)) fun b l₂ e₂ h₂ => ?_
  · intro l e ws h hws
    obtain ⟨operations, ho⟩ := applyAll_outbox (x := applyAll d l.log) hws
    refine ⟨?_, h.2.write (fun w hw => ?_) fun b hb => ?_⟩
    · rw [applyAll_append, ho]
      exact hQ a _ operations h.1
    · obtain ⟨r, rfl⟩ := hws w hw
      exact trivial
    · obtain ⟨r, hr⟩ := hws _ hb
      cases hr
  · intro l e key h
    exact ⟨h.1, fun owner ho => List.mem_cons_of_mem _ (h.2.locked owner ho), h.2.rows, h.2.cited,
      h.2.known⟩
  · rw [h₂.1]
    exact h₂.2

theorem ends_ret_of {α β : Type} {p : Tx α} {b : β} {l : Local Write String} {e : Db} :
    (memoryPact store).Ends d (p >>= fun _ => Prog.ret b) (fun c _ _ => c = b) l e := by
  refine Pact.Ends.bind ?_
  exact Pact.Ends.of_emits (J := fun _ _ => b = b) (Prog.emits_true p) (fun _ _ _ _ _ => rfl)
    (fun _ _ _ _ _ => rfl) (fun _ _ _ _ => rfl) rfl

theorem ends_projectFormation {kind : DocumentKind} {owner : OwnerScope} (a : Applied)
    (l : Local Write String) (e : Db) :
    (memoryPact store).Ends d (store.projectFormation kind owner a) (fun b _ _ => b = a) l e := by
  unfold Store.projectFormation
  split
  · exact ends_ret_of
  · rfl

theorem ends_projectRevision {kind : DocumentKind} {rootRef oldRef : String} {owner : OwnerScope}
    (a : Applied) (l : Local Write String) (e : Db) :
    (memoryPact store).Ends d (store.projectRevision kind rootRef oldRef owner a)
      (fun b _ _ => b = a) l e := by
  unfold Store.projectRevision
  split
  · exact ends_ret_of
  · rfl

/-! ## One change -/

/-- What a change of a batch ends with. -/
abbrev Does (store : Store) (o : OwnerScope → Prop) (d : Db) (known : String → String → Prop)
    (env : Ambient) (jobRef : String) (w : WindowState) (change : Change) (x : Db) (a : Applied)
    (l : Local Write String) (e : Db) : Prop :=
  Carries store env jobRef w change x a (applyAll d l.log) ∧ Ready store o d known l e

theorem ends_nothing (h : Ready store o d known l e) :
    (memoryPact store).Ends d (Prog.ret {} : Tx Applied)
      (Does store o d known env jobRef w change (applyAll d l.log)) l e :=
  ⟨⟨_, carried_nothing⟩, h⟩

theorem ends_applyRecollectionChange {r : ActiveRecollection} (h : Ready store o d known l e)
    (hd : WorldLaw store d) (hr : w.addressee change.target = .recollection r) (hheld : r.Held o d) :
    (memoryPact store).Ends d (store.applyRecollectionChange env jobRef r change)
      (Does store o d known env jobRef w change (applyAll d l.log)) l e := by
  unfold Store.applyRecollectionChange
  split
  · rename_i hop
    exact ends_of_replays (replays_applyRecollectionKeep h hd hheld) (carries_recollectionKeep hr hop)
  · rename_i hop
    refine ends_outbox (fun a => emits_projectRevision store _ _ _ _ a)
      (fun a l e => ends_projectRevision a l e) (fun a y operations hc => hc.outbox operations) ?_
    exact ends_of_replays (replays_applyRecollectionRevision h hd hheld)
      (carries_recollectionRevision hr hop)
  · exact ends_nothing h

theorem ends_applyDispositionChange {t : FeedbackTarget} (h : Ready store o d known l e)
    (hd : WorldLaw store d) (hhash : Collisionless store)
    (ht : w.addressee change.target = .disposition t) (hheld : t.Held o d known)
    (hvalid : w.validDispositionChange change t = true) :
    (memoryPact store).Ends d (store.applyDispositionChange jobRef t change)
      (Does store o d known env jobRef w change (applyAll d l.log)) l e := by
  have hrevision : change.operation = .text ∨ change.operation = .adapt →
      (memoryPact store).Ends d (do
        let a ← applyRevision jobRef t change
        store.projectRevision .disposition t.seedRef t.versionRef t.owner a)
        (Does store o d known env jobRef w change (applyAll d l.log)) l e := by
    intro hop
    refine ends_outbox (fun a => emits_projectRevision store _ _ _ _ a)
      (fun a l e => ends_projectRevision a l e) (fun a y operations hc => hc.outbox operations) ?_
    exact ends_of_replays (replays_applyRevision h hd hheld) (carries_revision ht hop)
  unfold Store.applyDispositionChange
  split
  · rename_i hop
    refine ends_of_replays (replays_applyReenactment h hd hhash hheld fun ref href => ?_)
      (carries_reenactment ht hop)
    simp only [WindowState.validDispositionChange, hop, Bool.and_eq_true, List.all_eq_true] at hvalid
    exact hheld.known ref (Or.inl (by simpa using hvalid.2.2 ref href))
  · rename_i hop
    exact ends_of_replays (replays_applyInhibition h hd hheld) (carries_inhibition ht hop)
  · rename_i hop
    exact hrevision (Or.inl hop)
  · rename_i hop
    exact hrevision (Or.inr hop)
  · exact ends_nothing h

theorem ends_applyChange (h : Ready store o d known l e) (hd : WorldLaw store d)
    (hhash : Collisionless store) (hw : w.Held o d known) (hvalid : w.validChange change = true) :
    (memoryPact store).Ends d (store.applyChange env jobRef w change)
      (Does store o d known env jobRef w change (applyAll d l.log)) l e := by
  rw [Store.applyChange_addressee]
  rw [WindowState.validChange_addressee] at hvalid
  cases ha : w.addressee change.target with
  | newRecollection =>
    refine ends_outbox (fun a => emits_projectFormation store _ _ a)
      (fun a l e => ends_projectFormation a l e) (fun a y operations hc => hc.outbox operations) ?_
    exact ends_of_replays (replays_applyRecollectionFormation h hd hw)
      (carries_recollectionFormation ha)
  | newDisposition =>
    refine ends_outbox (fun a => emits_projectFormation store _ _ a)
      (fun a l e => ends_projectFormation a l e) (fun a y operations hc => hc.outbox operations) ?_
    exact ends_of_replays (replays_applyDispositionFormation h hd hw)
      (carries_dispositionFormation ha)
  | recollection r =>
    exact ends_applyRecollectionChange h hd ha
      (hw.recollections r (WindowState.recollectionOf_addressee ha).1)
  | disposition t =>
    rw [ha] at hvalid
    exact ends_applyDispositionChange h hd hhash ha
      (hw.targets t (WindowState.target_addressee ha).1) hvalid
  | nobody => exact ends_nothing h

/-! ## The batch -/

theorem ends_applyChanges {changes : List Change} (h : Ready store o d known l e)
    (hd : WorldLaw store d) (hhash : Collisionless store) (hw : w.Held o d known)
    (hvalid : ∀ change ∈ changes, w.validChange change = true) :
    (memoryPact store).Ends d (store.applyChanges env jobRef w changes)
      (fun effects l' e' => Batch store env jobRef w changes (applyAll d l.log) effects
        (applyAll d l'.log) ∧ Ready store o d known l' e') l e := by
  induction changes generalizing l e with
  | nil => exact ⟨.nil, h⟩
  | cons change rest ih =>
    refine Pact.Ends.bind (Pact.Ends.conseq
      (ends_applyChange h hd hhash hw (hvalid change List.mem_cons_self)) fun a l₁ e₁ h₁ => ?_)
    obtain ⟨⟨deed, hdeed⟩, h₁⟩ := h₁
    refine Pact.Ends.bind (Pact.Ends.conseq (ih h₁ fun c hc => hvalid c (List.mem_cons_of_mem _ hc))
      fun effects l₂ e₂ h₂ => ?_)
    exact ⟨.cons hdeed h₂.1, h₂.2⟩

/-- The receipt of a job comes after its changes, and only where it has none.  What else is
known of the changes is known of them then. -/
theorem ends_commitChanges_with {r : Pact Db Write String} (hr : r.Implies (memoryPact store))
    {E : List (Change × Applied) → Local Write String → Prop} {p : Proposal} {text : String}
    (h : Ready store o d known l e) (hd : WorldLaw store d) (hhash : Collisionless store)
    (hw : w.Held o d known) (hlog : l.log = [])
    (happly : r.Ends d (store.applyChanges env p.window.jobRef w (w.accepted text))
      (fun effects l' _ => E effects l') l e) :
    r.Ends d (store.commitChanges env p w text)
      (fun receipt l' _ => ∃ effects l₁, E effects l₁ ∧
        Batch store env p.window.jobRef w (w.accepted text) d effects (applyAll d l₁.log) ∧
        receipt = w.receipt effects ∧
        (∀ r ∈ (applyAll d l₁.log).receipts, r.key ≠ (p.owner.tenantRef, p.window.jobRef)) ∧
        l' = { l₁ with log := l₁.log ++ [.insertReceipt
          { owner := p.owner, jobRef := p.window.jobRef, requestHash := p.requestHash }] } ∧
        ∀ owner, o owner → store.Locked l₁.held owner) l e := by
  have hvalid : ∀ change ∈ w.accepted text, w.validChange change = true := by
    intro change hc
    obtain ⟨changes, _, heq, hall⟩ := mem_accepted hc
    exact validChange_of_valid hall (heq ▸ hc)
  refine Pact.Ends.bind (Pact.Ends.conseq (Pact.Ends.and happly
    ((ends_applyChanges h hd hhash hw hvalid).implies hr)) fun effects l₁ e₁ h₁ => ?_)
  obtain ⟨heffects, hbatch, h₁⟩ := h₁
  rw [hlog, applyAll_nil] at hbatch
  refine Pact.Ends.bind ?_
  intro e₂ hb hrel
  have hrel := hr.rel _ _ _ hrel
  dsimp only at hrel ⊢
  cases ht : receiptConflict
      { owner := p.owner, jobRef := p.window.jobRef, requestHash := p.requestHash }
      (applyAll e₂ l₁.log) with
  | true => exact trivial
  | false =>
    simp only [ht, Bool.false_eq_true, if_false] at hrel ⊢
    have hkeyed := (hrel.keyed _ (List.mem_append_right _ (List.mem_singleton.mpr rfl))).1.applyAll l₁.log
    refine ⟨effects, l₁, heffects, hbatch, rfl, fun r hr hkey => ?_, rfl, h₁.locked⟩
    have hno := List.any_eq_false.mp ht r ((hkeyed r hkey).mpr hr)
    exact hno (decide_eq_true hkey)

theorem ends_commitChanges {p : Proposal} {text : String} (h : Ready store o d known l e)
    (hd : WorldLaw store d) (hhash : Collisionless store) (hw : w.Held o d known)
    (hlog : l.log = []) :
    (memoryPact store).Ends d (store.commitChanges env p w text)
      (fun receipt l' _ => ∃ effects y,
        Batch store env p.window.jobRef w (w.accepted text) d effects y ∧
        receipt = w.receipt effects ∧
        (∀ r ∈ y.receipts, r.key ≠ (p.owner.tenantRef, p.window.jobRef)) ∧
        applyAll d l'.log = y.apply
          (.insertReceipt { owner := p.owner, jobRef := p.window.jobRef, requestHash := p.requestHash }) ∧
        ∀ owner, o owner → store.Locked l'.held owner) l e := by
  refine Pact.Ends.conseq (ends_commitChanges_with (Pact.Implies.refl _) h hd hhash hw hlog
    (Pact.Ends.conseq (Pact.Ends.grown _ _ _) fun _ _ _ hl => hl)) fun receipt l' _ h' => ?_
  obtain ⟨effects, l₁, _, hbatch, hreceipt, hfree, rfl, hlocked⟩ := h'
  refine ⟨effects, applyAll d l₁.log, hbatch, hreceipt, hfree, ?_, hlocked⟩
  rw [applyAll_append]
  rfl

end

end ChoraMem
