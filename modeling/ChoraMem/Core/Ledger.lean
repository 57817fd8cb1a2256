/-
Source events, bindings and their validation.

This is the intake vocabulary of the memory core: an immutable source event in
its exact scope, the typed link that binds it into a run's source group, and the
checks both pass before any storage is read.  Go strings are byte strings; the
refs here are Unicode strings, so the `utf8.ValidString` half of
`validStableRef` holds of every value and lengths are counted in UTF-8 bytes.

A kind that the source leaves open (`type ScopeKind string`) keeps its unknown
values in the constructor `other`, so the rejecting branches of the validators
stay visible.  `other` carries that its text is none of the known ones, so a kind
is its text.
-/
import Mathlib.Data.List.Nodup

namespace ChoraMem

/-! ## Errors -/

/-- The error values callers compare against. -/
inductive Sentinel
  | invalidSourceEvent
  | invalidEpisodeBinding
  | sourceEventConflict
  | idempotencyConflict
  | episodeSealed
  | invalidMemoryDelivery
  | memoryDeliveryConflict
  | invalidOutcomeReport
  | outcomeReportConflict
  | invalidSelectRequest
  | runConflict
  | ambiguousMemoryRef
  | invalidWindow
  | windowConflict
  | windowStale
  | leaseLost
  /-- An error value no caller compares against. -/
  | plain
  /-- An error of the database or of the connection to it. -/
  | storage
  deriving DecidableEq, Repr

/-- An error: the value it wraps, its text, and the value that its text quotes. -/
structure Fault where
  sentinel : Sentinel
  detail : String := ""
  quoted : String := ""
  deriving DecidableEq, Repr

/-! ## Refs -/

def maxSourceTextBytes : Nat := 64 * 1024

def maxStableRefBytes : Nat := 384

/-- `unicode.IsSpace`: the code points of Unicode's White Space property. -/
def isSpace (c : Char) : Bool :=
  let n := c.toNat
  (9 ≤ n && n ≤ 13) || n = 0x20 || n = 0x85 || n = 0xA0 || n = 0x1680 ||
    (0x2000 ≤ n && n ≤ 0x200A) || n = 0x2028 || n = 0x2029 || n = 0x202F || n = 0x205F || n = 0x3000

def containsSpace (s : String) : Bool := s.toList.any isSpace

/-- `strings.TrimSpace`. -/
def trimSpace (s : String) : String :=
  String.ofList (((s.toList.dropWhile isSpace).reverse.dropWhile isSpace).reverse)

def validStableRef (ref : String) : Bool :=
  ref != "" && ref.utf8ByteSize ≤ maxStableRefBytes

def validOptionalStableRef (ref : String) : Bool := ref == "" || validStableRef ref

/-! ## Values -/

inductive ScopeKind
  | agent
  | relationship
  | other (raw : String) (unknown : raw ∉ ["agent", "relationship"])
  deriving DecidableEq, Repr

def ScopeKind.text : ScopeKind → String
  | agent => "agent"
  | relationship => "relationship"
  | other raw _ => raw

theorem ScopeKind.text_injective {k k' : ScopeKind} (h : k.text = k'.text) : k = k' := by
  cases k with
  | agent =>
    cases k' with
    | agent => rfl
    | relationship => exact absurd h (by decide)
    | other raw unknown => exact absurd (List.mem_of_mem_head? (congrArg some h)) unknown
  | relationship =>
    cases k' with
    | agent => exact absurd h (by decide)
    | relationship => rfl
    | other raw unknown => exact absurd (List.mem_cons_of_mem _ (List.mem_singleton.mpr h.symm)) unknown
  | other raw unknown =>
    cases k' with
    | agent => exact absurd (List.mem_of_mem_head? (congrArg some h.symm)) unknown
    | relationship => exact absurd (List.mem_cons_of_mem _ (List.mem_singleton.mpr h)) unknown
    | other raw' unknown' =>
      change raw = raw' at h
      subst h
      rfl

/-- The exact authorization boundary shared by an Episode and all of its source
events. -/
structure Scope where
  kind : ScopeKind
  tenantRef : String
  agentRef : String
  relationshipRef : String
  sessionRef : String
  deriving DecidableEq, Repr

/-- The long-term owner of a scope: everything but its session. -/
structure OwnerScope where
  kind : ScopeKind
  tenantRef : String
  agentRef : String
  relationshipRef : String
  deriving DecidableEq, Repr

def Scope.owner (s : Scope) : OwnerScope :=
  { kind := s.kind, tenantRef := s.tenantRef, agentRef := s.agentRef,
    relationshipRef := s.relationshipRef }

inductive ActorKind
  | agent
  | user
  | system
  | tool
  | external
  | other (raw : String) (unknown : raw ∉ ["agent", "user", "system", "tool", "external"])
  deriving DecidableEq, Repr

def ActorKind.text : ActorKind → String
  | agent => "agent"
  | user => "user"
  | system => "system"
  | tool => "tool"
  | external => "external"
  | other raw _ => raw

/-- The empty kind, which the evidence code tests for. -/
def ActorKind.isEmpty (k : ActorKind) : Bool := k.text == ""

inductive SourceRole
  | situation
  | agentAct
  | outcome
  | other (raw : String) (unknown : raw ∉ ["situation", "agent_act", "outcome"])
  deriving DecidableEq, Repr

def SourceRole.text : SourceRole → String
  | situation => "situation"
  | agentAct => "agent_act"
  | outcome => "outcome"
  | other raw _ => raw

/-- An immutable external normative snapshot.  Both fields empty is an unknown
baseline. -/
structure Constitution where
  memoryRef : String := ""
  text : String := ""
  deriving DecidableEq, Repr

structure SourceEvent where
  ref : String
  scope : Scope
  actorKind : ActorKind
  actorRef : String
  text : String
  constitution : Constitution
  deriving DecidableEq, Repr

/-- One typed provenance link in a stable run and source group.  A binding with
an empty run or group is incomplete, and its event is admitted without a link. -/
structure EpisodeBinding where
  runRef : String
  sourceGroupRef : String
  role : SourceRole
  deriving DecidableEq, Repr

/-- What an Episode is the envelope of. -/
structure StableGroupRef where
  scope : Scope
  runRef : String
  sourceGroupRef : String
  deriving DecidableEq, Repr

structure ObserveReceipt where
  sourceEventRef : String
  episodeRef : String
  deriving DecidableEq, Repr

/-! ## Validation -/

def validActorKind : ActorKind → Bool
  | .other _ _ => false
  | _ => true

def validRole : SourceRole → Bool
  | .other _ _ => false
  | _ => true

def validateConstitution (c : Constitution) : Except Fault Unit := do
  if c.memoryRef.toList.any (· == '\x00') || c.text.toList.any (· == '\x00') then
    throw ⟨.invalidSourceEvent, "Constitution fields cannot contain NUL", ""⟩
  if (c.memoryRef == "") != (c.text == "") ||
      (c.memoryRef != "" && (!validStableRef c.memoryRef || containsSpace c.memoryRef)) ||
      maxSourceTextBytes < c.text.utf8ByteSize then
    throw ⟨.invalidSourceEvent,
      "Constitution requires a stable ref and text within 65536 bytes, or neither", ""⟩

def validateSourceEvent (event : SourceEvent) : Except Fault Unit := do
  validateConstitution event.constitution
  if !validStableRef event.ref then
    throw ⟨.invalidSourceEvent, "source event ref is invalid", ""⟩
  if !validStableRef event.scope.tenantRef || !validStableRef event.scope.agentRef ||
      !validOptionalStableRef event.scope.relationshipRef ||
      !validOptionalStableRef event.scope.sessionRef then
    throw ⟨.invalidSourceEvent, "scope refs are invalid", ""⟩
  match event.scope.kind with
  | .agent =>
    if event.scope.relationshipRef != "" then
      throw ⟨.invalidSourceEvent, "agent scope cannot carry relationship ref", ""⟩
  | .relationship =>
    if event.scope.relationshipRef == "" then
      throw ⟨.invalidSourceEvent, "relationship scope requires relationship ref", ""⟩
  | .other raw _ => throw ⟨.invalidSourceEvent, "unknown scope kind", raw⟩
  if !validActorKind event.actorKind || !validStableRef event.actorRef then
    throw ⟨.invalidSourceEvent, "known actor kind and actor ref are required", ""⟩
  if event.text == "" then
    throw ⟨.invalidSourceEvent, "text is required", ""⟩
  if maxSourceTextBytes < event.text.utf8ByteSize then
    throw ⟨.invalidSourceEvent, "text exceeds 65536 bytes", ""⟩

/-- The group a binding names, `none` when the binding is incomplete. -/
def groupOf (event : SourceEvent) (binding : EpisodeBinding) :
    Except Fault (Option StableGroupRef) := do
  if binding.runRef == "" || binding.sourceGroupRef == "" then
    if !validOptionalStableRef binding.runRef || !validOptionalStableRef binding.sourceGroupRef then
      throw ⟨.invalidEpisodeBinding, "run and source group refs are invalid", ""⟩
    else return none
  else
    if !validStableRef binding.runRef || !validStableRef binding.sourceGroupRef then
      throw ⟨.invalidEpisodeBinding, "run and source group refs are invalid", ""⟩
    if !validRole binding.role then
      throw ⟨.invalidEpisodeBinding, "unknown source role", binding.role.text⟩
    if binding.role == .agentAct &&
        (event.actorKind != .agent || event.actorRef != event.scope.agentRef) then
      throw ⟨.invalidEpisodeBinding, "agent_act requires the scoped agent actor", ""⟩
    return some ⟨event.scope, binding.runRef, binding.sourceGroupRef⟩

/-- One causal intake command, checked without reading storage. -/
def validate (event : SourceEvent) (binding : EpisodeBinding) : Except Fault Unit := do
  validateSourceEvent event
  let _ ← groupOf event binding

/-! ## Deliveries and Outcomes -/

structure MemoryDelivery where
  idempotencyKey : String
  scope : Scope
  runRef : String
  memoryContextRef : String
  deliveredMemoryRefs : List String
  deriving DecidableEq, Repr

structure OutcomeReport where
  idempotencyKey : String
  event : SourceEvent
  runRef : String
  sourceGroupRef : String
  deliveryReceiptRefs : List String
  relatedSourceEventRefs : List String
  deriving DecidableEq, Repr

structure OutcomeReceipt where
  outcomeEventRef : String
  episodeRef : String
  deriving DecidableEq, Repr

def stableFeedbackRef (ref : String) : Bool := validStableRef ref && !containsSpace ref

/-- Every ref is stable and none comes twice. -/
def uniqueFeedbackRefs : List String → Bool
  | [] => true
  | ref :: rest => stableFeedbackRef ref && !rest.contains ref && uniqueFeedbackRefs rest

def validScope (scope : Scope) : Bool :=
  if !validStableRef scope.tenantRef || !validStableRef scope.agentRef ||
      !validOptionalStableRef scope.relationshipRef || !validOptionalStableRef scope.sessionRef then
    false
  else
    match scope.kind with
    | .agent => scope.relationshipRef == ""
    | .relationship => scope.relationshipRef != ""
    | .other _ _ => false

def validateMemoryDelivery (delivery : MemoryDelivery) : Except Fault Unit :=
  if !validStableRef delivery.idempotencyKey || !stableFeedbackRef delivery.runRef ||
      !stableFeedbackRef delivery.memoryContextRef || delivery.deliveredMemoryRefs.length == 0 ||
      !uniqueFeedbackRefs delivery.deliveredMemoryRefs || !validScope delivery.scope then
    throw ⟨.invalidMemoryDelivery, "", ""⟩
  else return ()

/-- The link an Outcome report asks for. -/
def OutcomeReport.binding (report : OutcomeReport) : EpisodeBinding :=
  { runRef := report.runRef, sourceGroupRef := report.sourceGroupRef, role := .outcome }

def validateOutcomeReport (report : OutcomeReport) : Except Fault Unit := do
  if !validStableRef report.idempotencyKey || !stableFeedbackRef report.runRef ||
      !stableFeedbackRef report.sourceGroupRef || !uniqueFeedbackRefs report.deliveryReceiptRefs ||
      !uniqueFeedbackRefs report.relatedSourceEventRefs then
    throw ⟨.invalidOutcomeReport, "", ""⟩
  match validate report.event report.binding with
  | .ok _ => return ()
  | .error e => throw ⟨.invalidOutcomeReport, e.detail, e.quoted⟩

end ChoraMem
