/-
What validation says.

An admitted event has stable refs, a scope of a known kind with the refs of that kind, a
known actor and a text within the bound.  An admitted binding is incomplete, or names a
group of the event's scope and a known role.
-/
import ChoraMem.Core.Ledger

namespace ChoraMem

/-- A scope has a relationship exactly when its kind says so. -/
def Scope.ofKind (s : Scope) : Prop :=
  (s.kind = .agent ∧ s.relationshipRef = "") ∨ (s.kind = .relationship ∧ s.relationshipRef ≠ "")

structure Admitted (event : SourceEvent) : Prop where
  ref : validStableRef event.ref = true
  tenant : validStableRef event.scope.tenantRef = true
  agent : validStableRef event.scope.agentRef = true
  relationship : validOptionalStableRef event.scope.relationshipRef = true
  session : validOptionalStableRef event.scope.sessionRef = true
  scope : event.scope.ofKind
  actorKind : validActorKind event.actorKind = true
  actorRef : validStableRef event.actorRef = true
  text : event.text ≠ ""
  bounded : event.text.utf8ByteSize ≤ maxSourceTextBytes

theorem ne_empty_of_validStableRef {ref : String} (h : validStableRef ref = true) : ref ≠ "" := by
  simp only [validStableRef, Bool.and_eq_true, bne_iff_ne] at h
  exact h.1

/-- The checks of an event after the ones of its scope. -/
theorem actor_and_text {event : SourceEvent} {e e' e'' : Fault}
    (h : (if (!validActorKind event.actorKind || !validStableRef event.actorRef) = true then .error e
      else if (event.text == "") = true then .error e'
      else if maxSourceTextBytes < event.text.utf8ByteSize then .error e''
      else pure () : Except Fault Unit) = .ok ()) :
    (validActorKind event.actorKind = true ∧ validStableRef event.actorRef = true) ∧
      event.text ≠ "" ∧ event.text.utf8ByteSize ≤ maxSourceTextBytes := by
  split at h
  · cases h
  rename_i hactor
  split at h
  · cases h
  rename_i htext
  split at h
  · cases h
  rename_i hbound
  simp only [Bool.or_eq_true, Bool.not_eq_true', not_or, Bool.not_eq_false] at hactor
  exact ⟨hactor, by simpa using htext, by omega⟩

theorem admitted_of_validateSourceEvent {event : SourceEvent}
    (h : validateSourceEvent event = .ok ()) : Admitted event := by
  simp only [validateSourceEvent, bind, Except.bind, throw, throwThe, MonadExceptOf.throw] at h
  split at h
  · cases h
  split at h
  · cases h
  rename_i href
  split at h
  · cases h
  rename_i hscope
  simp only [Bool.or_eq_true, Bool.not_eq_true', not_or, Bool.not_eq_false] at href hscope
  have hscopes : event.scope.ofKind := by
    split at h
    · rename_i hkind
      split at h
      · cases h
      · rename_i hempty
        exact Or.inl ⟨hkind, by simpa using hempty⟩
    · rename_i hkind
      split at h
      · cases h
      · rename_i hempty
        exact Or.inr ⟨hkind, by simpa using hempty⟩
    · cases h
  have hrest : (validActorKind event.actorKind = true ∧ validStableRef event.actorRef = true) ∧
      event.text ≠ "" ∧ event.text.utf8ByteSize ≤ maxSourceTextBytes := by
    split at h
    · split at h
      · cases h
      · exact actor_and_text h
    · split at h
      · cases h
      · exact actor_and_text h
    · cases h
  exact ⟨href, hscope.1.1.1, hscope.1.1.2, hscope.1.2, hscope.2, hscopes, hrest.1.1, hrest.1.2,
    hrest.2.1, hrest.2.2⟩

/-- An admitted command's binding is incomplete, or names a group and a known role. -/
theorem groupOf_ok {event : SourceEvent} {binding : EpisodeBinding} {g : Option StableGroupRef}
    (h : groupOf event binding = .ok g) :
    ((binding.runRef = "" ∨ binding.sourceGroupRef = "") ∧ g = none) ∨
      (validStableRef binding.runRef = true ∧ validStableRef binding.sourceGroupRef = true ∧
        validRole binding.role = true ∧ g = some ⟨event.scope, binding.runRef, binding.sourceGroupRef⟩) := by
  simp only [groupOf, bind, Except.bind, throw, throwThe, MonadExceptOf.throw] at h
  split at h
  · rename_i hempty
    simp only [Bool.or_eq_true, beq_iff_eq] at hempty
    split at h
    · cases h
    · exact Or.inl ⟨hempty, (Except.ok.inj h).symm⟩
  split at h
  · cases h
  rename_i hrefs
  split at h
  · cases h
  rename_i hrole
  split at h
  · cases h
  simp only [Bool.or_eq_true, Bool.not_eq_true', not_or, Bool.not_eq_false] at hrefs hrole
  exact Or.inr ⟨hrefs.1, hrefs.2, hrole, (Except.ok.inj h).symm⟩

theorem admitted_of_validate {event : SourceEvent} {binding : EpisodeBinding}
    (h : validate event binding = .ok ()) :
    Admitted event ∧ ∃ g, groupOf event binding = .ok g := by
  unfold validate at h
  cases hv : validateSourceEvent event with
  | error e =>
    rw [hv] at h
    cases h
  | ok u =>
    rw [hv] at h
    cases hg : groupOf event binding with
    | error e =>
      rw [hg] at h
      cases h
    | ok g => exact ⟨admitted_of_validateSourceEvent hv, g, rfl⟩

/-! ## What a refusal says -/

theorem sentinel_of_validateConstitution {c : Constitution} {e : Fault}
    (h : validateConstitution c = .error e) : e.sentinel = .invalidSourceEvent := by
  simp only [validateConstitution, bind, Except.bind, throw, throwThe, MonadExceptOf.throw] at h
  split at h
  · rw [← Except.error.inj h]
  split at h
  · rw [← Except.error.inj h]
  · cases h

theorem sentinel_of_validateSourceEvent {event : SourceEvent} {e : Fault}
    (h : validateSourceEvent event = .error e) : e.sentinel = .invalidSourceEvent := by
  simp only [validateSourceEvent, bind, Except.bind, throw, throwThe, MonadExceptOf.throw] at h
  split at h
  · rename_i hc
    rw [← Except.error.inj h]
    exact sentinel_of_validateConstitution hc
  repeat' split at h
  all_goals first
    | rw [← Except.error.inj h]
    | cases h

theorem sentinel_of_groupOf {event : SourceEvent} {binding : EpisodeBinding} {e : Fault}
    (h : groupOf event binding = .error e) : e.sentinel = .invalidEpisodeBinding := by
  simp only [groupOf, bind, Except.bind, throw, throwThe, MonadExceptOf.throw] at h
  repeat' split at h
  all_goals first
    | rw [← Except.error.inj h]
    | cases h

/-- A refused command wraps one of the two errors of validation. -/
theorem sentinel_of_validate {event : SourceEvent} {binding : EpisodeBinding} {e : Fault}
    (h : validate event binding = .error e) :
    e.sentinel = .invalidSourceEvent ∨ e.sentinel = .invalidEpisodeBinding := by
  unfold validate at h
  cases hv : validateSourceEvent event with
  | error e' =>
    rw [hv] at h
    obtain rfl := Except.error.inj h
    exact Or.inl (sentinel_of_validateSourceEvent hv)
  | ok u =>
    rw [hv] at h
    cases hg : groupOf event binding with
    | error e' =>
      rw [hg] at h
      obtain rfl := Except.error.inj h
      exact Or.inr (sentinel_of_groupOf hg)
    | ok g =>
      rw [hg] at h
      cases h

end ChoraMem
