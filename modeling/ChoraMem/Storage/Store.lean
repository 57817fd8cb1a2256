/-
What a store brings to its programs: its dialect, its digest, and the refs and
lock names derived from the digest.

`hashFields` stands for SHA-256 over length-prefixed fields, as hexadecimal text.
It is a parameter: nothing here depends on how the digest is computed, and a
result that needs two digests to differ says so.
-/
import Mathlib.Data.List.Sort
import Mathlib.Data.List.Dedup
import ChoraMem.Storage.Schema

namespace ChoraMem

open Txn

inductive Dialect
  | postgres
  | mysql
  deriving DecidableEq, Repr

/-- The level a transaction without options runs at. -/
def Dialect.isolation : Dialect → Isolation
  | postgres => .readCommitted
  | mysql => .repeatableRead

/-- A store: the fields of `Store` that its programs read.  `score` is
`selection.DefaultRanker().Score`, of which the programs use the order alone. -/
structure Store where
  dialect : Dialect
  hashFields : List String → String
  score : String → String → Rat

/-- What one call takes from outside: the clock of its transaction, the next
values of the serial columns, and its random refs. -/
structure Ambient where
  now : Nat
  admissionOrder : Nat
  jobOrder : Nat
  jobRef : String
  remainderOrder : Nat
  remainderRef : String
  leaseToken : String
  deriving DecidableEq, Repr

/-- `sort.Strings`, and `ORDER BY` on a column of refs. -/
def sortRefs (refs : List String) : List String := refs.insertionSort (· ≤ ·)

/-- The keys of a Go map, sorted: the distinct elements in order. -/
def sortedKeys (refs : List String) : List String := sortRefs refs.dedup

@[simp] theorem mem_sortRefs {ref : String} {refs : List String} :
    ref ∈ sortRefs refs ↔ ref ∈ refs :=
  List.mem_insertionSort _

@[simp] theorem mem_sortedKeys {ref : String} {refs : List String} :
    ref ∈ sortedKeys refs ↔ ref ∈ refs := by
  rw [sortedKeys, mem_sortRefs, List.mem_dedup]

def textPrefix (n : Nat) (s : String) : String := String.ofList (s.toList.take n)

namespace Store

variable (store : Store)

/-- `hex(hash[:16])`. -/
def shortHash (fields : List String) : String := textPrefix 32 (store.hashFields fields)

/-- A named lock: the first eight bytes of a digest. -/
def lockKey (fields : List String) : String := textPrefix 16 (store.hashFields fields)

def episodeRef (g : StableGroupRef) : String :=
  "episode_" ++ store.hashFields
    ["episode.v1", g.scope.kind.text, g.scope.tenantRef, g.scope.agentRef, g.scope.relationshipRef,
      g.scope.sessionRef, g.runRef, g.sourceGroupRef]

def groupLockKey (g : StableGroupRef) : String :=
  store.lockKey
    ["episode-group-lock.v1", g.scope.kind.text, g.scope.tenantRef, g.scope.agentRef,
      g.scope.relationshipRef, g.scope.sessionRef, g.runRef, g.sourceGroupRef]

def feedbackRequestLockKey (kind tenantRef idempotencyKey : String) : String :=
  store.lockKey ["feedback-request-lock.v1", kind, tenantRef, idempotencyKey]

def feedbackRunLockKey (scope : Scope) (runRef : String) : String :=
  store.lockKey
    ["feedback-run-lock.v1", scope.kind.text, scope.tenantRef, scope.agentRef, scope.relationshipRef,
      scope.sessionRef, runRef]

def consolidationCollectionLockKey (owner : OwnerScope) : String :=
  store.lockKey
    ["consolidation-collection-lock.v1", owner.tenantRef, owner.kind.text, owner.agentRef,
      owner.relationshipRef]

def projectionStreamLockKey (streamRef : String) : String :=
  store.lockKey ["memory-index-stream-lock.v1", streamRef]

def constitutionFields (c : Constitution) : List String :=
  if c = {} then [] else ["constitution.v1", c.memoryRef, c.text]

def requestHash (event : SourceEvent) (binding : EpisodeBinding) : String :=
  store.hashFields <|
    [if event.constitution = {} then "observe-request.v1" else "observe-request.v2",
      event.ref, event.scope.kind.text, event.scope.tenantRef, event.scope.agentRef,
      event.scope.relationshipRef, event.scope.sessionRef, event.actorKind.text, event.actorRef,
      event.text, binding.runRef, binding.sourceGroupRef, binding.role.text] ++
    constitutionFields event.constitution

def memoryDeliveryHash (delivery : MemoryDelivery) (memoryRefs : List String) : String :=
  store.hashFields <|
    ["memory-delivery.v2", delivery.scope.kind.text, delivery.scope.tenantRef,
      delivery.scope.agentRef, delivery.scope.relationshipRef, delivery.scope.sessionRef,
      delivery.runRef, delivery.memoryContextRef] ++ memoryRefs

def outcomeReportHash (report : OutcomeReport) (deliveryRefs relatedRefs : List String) : String :=
  store.hashFields <|
    [if report.event.constitution = {} then "outcome-report.v1" else "outcome-report.v2",
      report.event.scope.kind.text, report.event.scope.tenantRef, report.event.scope.agentRef,
      report.event.scope.relationshipRef, report.event.scope.sessionRef, report.runRef,
      report.sourceGroupRef, report.event.ref, report.event.actorKind.text, report.event.actorRef,
      report.event.text] ++
    deliveryRefs ++ ["related-sources"] ++ relatedRefs ++
    constitutionFields report.event.constitution

def outcomeEventRef (report : OutcomeReport) : String :=
  "outcome_" ++ store.shortHash
    ["outcome-event-identity.v1", report.event.scope.kind.text, report.event.scope.tenantRef,
      report.event.scope.agentRef, report.event.scope.relationshipRef,
      report.event.scope.sessionRef, report.runRef, report.sourceGroupRef, report.event.ref,
      report.idempotencyKey]

def memoryDeliveryReceiptRef (tenantRef idempotencyKey : String) : String :=
  "delivery_" ++ store.shortHash ["memory-delivery-receipt.v2", tenantRef, idempotencyKey]

end Store

/-! ## A digest for concrete runs

`plainFields` writes the fields out, the last one first, so it has no collisions
and refs of a small run differ early.  White space is spelled by other characters. -/

/-- A character that is written behind a backslash. -/
def escaped (c : Char) : Bool := c == '|' || c == '\\' || isSpace c

/-- What stands for an escaped character. -/
def spellChar (c : Char) : Char := if isSpace c then Char.ofNat (c.toNat + 0x10000) else c

/-- One field, closed by a bar. -/
def plainField : List Char → List Char
  | [] => ['|']
  | c :: rest =>
    if escaped c then '\\' :: spellChar c :: plainField rest else c :: plainField rest

def plainFields (fields : List String) : String :=
  String.ofList (fields.reverse.flatMap fun field => plainField field.toList)

theorem toNat_of_isSpace {c : Char} (h : isSpace c = true) : c.toNat ≤ 0x3000 := by
  simp only [isSpace, Bool.or_eq_true, Bool.and_eq_true, decide_eq_true_eq] at h
  omega

theorem not_isSpace_of_lt {c : Char} (h : 0x3000 < c.toNat) : isSpace c = false := by
  cases hc : isSpace c with
  | false => rfl
  | true => exact absurd (toNat_of_isSpace hc) (Nat.not_le.mpr h)

theorem toNat_spellChar {c : Char} (h : isSpace c = true) :
    (spellChar c).toNat = c.toNat + 0x10000 := by
  have hle := toNat_of_isSpace h
  have hvalid : (c.toNat + 0x10000).isValidChar := Or.inr ⟨by omega, by omega⟩
  unfold spellChar Char.ofNat
  rw [if_pos h, dif_pos hvalid]
  rfl

theorem not_isSpace_spellChar (c : Char) : isSpace (spellChar c) = false := by
  cases h : isSpace c with
  | true => exact not_isSpace_of_lt (by rw [toNat_spellChar h]; omega)
  | false => rw [spellChar, h]; simpa using h

theorem spellChar_injective {a b : Char} (ha : escaped a = true) (hb : escaped b = true)
    (h : spellChar a = spellChar b) : a = b := by
  have hlow : ∀ {c : Char}, escaped c = true → isSpace c = false → c.toNat < 0x10000 := by
    intro c hc hspace
    simp only [escaped, hspace, Bool.or_false, Bool.or_eq_true, beq_iff_eq] at hc
    rcases hc with rfl | rfl <;> decide
  have hn := congrArg Char.toNat h
  cases hsa : isSpace a <;> cases hsb : isSpace b
  · rwa [spellChar, spellChar, hsa, hsb] at h
  · rw [toNat_spellChar hsb, spellChar, hsa, if_neg (by decide)] at hn
    have := hlow ha hsa
    omega
  · rw [toNat_spellChar hsa, spellChar, hsb, if_neg (by decide)] at hn
    have := hlow hb hsb
    omega
  · rw [toNat_spellChar hsa, toNat_spellChar hsb] at hn
    exact Char.toNat_inj.mp (by omega)

theorem ne_of_not_escaped {c : Char} (h : escaped c = false) : c ≠ '|' ∧ c ≠ '\\' := by
  constructor <;> (rintro rfl; exact absurd h (by decide))

theorem plainField_append_inj {a b x y : List Char} (h : plainField a ++ x = plainField b ++ y) :
    a = b ∧ x = y := by
  induction a generalizing b with
  | nil =>
    cases b with
    | nil => exact ⟨rfl, by simpa [plainField] using h⟩
    | cons c rest =>
      unfold plainField at h
      split at h
      · simp at h
      · rename_i hc
        simp only [List.cons_append, List.nil_append, List.cons.injEq] at h
        exact absurd h.1.symm (ne_of_not_escaped (Bool.eq_false_iff.mpr hc)).1
  | cons c rest ih =>
    cases b with
    | nil =>
      unfold plainField at h
      split at h
      · simp at h
      · rename_i hc
        simp only [List.cons_append, List.nil_append, List.cons.injEq] at h
        exact absurd h.1 (ne_of_not_escaped (Bool.eq_false_iff.mpr hc)).1
    | cons c' rest' =>
      simp only [plainField] at h
      split at h <;> split at h
      · rename_i hc hc'
        simp only [List.cons_append, List.cons.injEq, true_and] at h
        obtain ⟨hspell, h⟩ := h
        rw [spellChar_injective hc hc' hspell, (ih h).1]
        exact ⟨rfl, (ih h).2⟩
      · rename_i _ hc'
        simp only [List.cons_append, List.cons.injEq] at h
        exact absurd h.1.symm (ne_of_not_escaped (Bool.eq_false_iff.mpr hc')).2
      · rename_i hc _
        simp only [List.cons_append, List.cons.injEq] at h
        exact absurd h.1 (ne_of_not_escaped (Bool.eq_false_iff.mpr hc)).2
      · simp only [List.cons_append, List.cons.injEq] at h
        obtain ⟨rfl, h⟩ := h
        exact ⟨congrArg _ (ih h).1, (ih h).2⟩

theorem plainField_ne_nil (a : List Char) : plainField a ≠ [] := by
  unfold plainField
  split
  · exact List.cons_ne_nil _ _
  · split <;> exact List.cons_ne_nil _ _

theorem plainFields_injective {a b : List String} (h : plainFields a = plainFields b) : a = b := by
  have hlist : ∀ x y : List String,
      (x.flatMap fun field => plainField field.toList) =
        (y.flatMap fun field => plainField field.toList) → x = y := by
    intro x
    induction x with
    | nil =>
      intro y hy
      cases y with
      | nil => rfl
      | cons f rest => simp [plainField_ne_nil] at hy
    | cons f rest ih =>
      intro y hy
      cases y with
      | nil => simp [plainField_ne_nil] at hy
      | cons f' rest' =>
        rw [List.flatMap_cons, List.flatMap_cons] at hy
        obtain ⟨hf, hrest⟩ := plainField_append_inj hy
        rw [String.toList_inj.mp hf, ih rest' hrest]
  have hl := hlist _ _ (String.ofList_injective h)
  exact List.reverse_injective hl

theorem not_isSpace_plainField (text : List Char) : ∀ c ∈ plainField text, isSpace c = false := by
  induction text with
  | nil =>
    intro c hc
    rcases List.mem_singleton.mp hc with rfl
    decide
  | cons x rest ih =>
    intro c hc
    rw [plainField] at hc
    split at hc
    · rcases List.mem_cons.mp hc with rfl | hc
      · decide
      · rcases List.mem_cons.mp hc with rfl | hc
        · exact not_isSpace_spellChar x
        · exact ih c hc
    · rename_i hx
      rcases List.mem_cons.mp hc with rfl | hc
      · simp only [escaped, Bool.or_eq_true, not_or] at hx
        exact Bool.eq_false_iff.mpr hx.2
      · exact ih c hc

theorem containsSpace_plainFields (fields : List String) :
    containsSpace (plainFields fields) = false := by
  rw [containsSpace, plainFields, String.toList_ofList, List.any_eq_false]
  intro c hc
  obtain ⟨field, _, hc⟩ := List.mem_flatMap.mp hc
  rw [not_isSpace_plainField _ c hc]
  exact Bool.false_ne_true

/-- A store with this digest. -/
def plainStore (dialect : Dialect) : Store :=
  { dialect := dialect, hashFields := plainFields, score := fun _ _ => 0 }

/-- The `n`-th call of a concrete run. -/
def plainAmbient (n : Nat) : Ambient :=
  { now := n, admissionOrder := n, jobOrder := 2 * n, jobRef := "job-" ++ toString n,
    remainderOrder := 2 * n + 1, remainderRef := "rest-" ++ toString n,
    leaseToken := "token-" ++ toString n }

/-! A user's question and the agent's answer, for concrete runs. -/

def sampleScope : Scope :=
  { kind := .relationship, tenantRef := "t", agentRef := "a", relationshipRef := "r",
    sessionRef := "s" }

def sampleSituation : SourceEvent :=
  { ref := "ask", scope := sampleScope, actorKind := .user, actorRef := "u", text := "please",
    constitution := {} }

def sampleAct : SourceEvent :=
  { ref := "act", scope := sampleScope, actorKind := .agent, actorRef := "a", text := "done",
    constitution := {} }

/-! ## Inserts -/

/-- A statement that inserts one row and fails on a unique key it meets. -/
def insertFresh (taken : Db → Bool) (w : Write) (operation : String) : Tx Unit :=
  .write (fun d => if taken d then [] else [w]) fun d =>
    if taken d then .fail ⟨.storage, operation, ""⟩ else .ret ()

end ChoraMem
