/-
Consolidations in turn.

A consolidation that no other call interrupts finds the state its worker was asked
about, so what it does depends on the answer's changes alone.  `Store.consolidated`
computes it from them: no request is digested and no text is parsed, which keeps the
concrete runs of the later modules small.
-/
import ChoraMem.Core.Render
import ChoraMem.World.Calls

namespace ChoraMem

open Txn

/-! ## One consolidation -/

/-- Apply changes that were parsed before. -/
def Store.commitParsed (store : Store) (env : Ambient) (p : Proposal) (w : WindowState)
    (changes : List Change) : Tx Receipt := do
  let effects ← store.applyChanges env p.window.jobRef w
    (if w.validConsolidationChanges changes then changes else [])
  let row : ConsolidationReceiptRow :=
    { owner := p.owner, jobRef := p.window.jobRef, requestHash := p.requestHash }
  insertFresh (receiptConflict row) (.insertReceipt row) "freeze consolidation receipt"
  .ret (w.receipt effects)

theorem commitChanges_parsed {store : Store} {env : Ambient} {p : Proposal} {w : WindowState}
    {text : String} {changes : List Change} (h : parseTaggedText text = .ok changes) :
    store.commitChanges env p w text = store.commitParsed env p w changes := by
  unfold Store.commitChanges Store.commitParsed WindowState.accepted
  rw [h]

theorem addLinkedRefs_episodeRefs (owner : OwnerScope) (found : MemoryIndexCandidates) (d : Db) :
    (addLinkedRefs owner found d).episodeRefs = found.episodeRefs := by
  unfold addLinkedRefs
  split <;> rfl

/-- The state a snapshot proposes is the one a commit finds there. -/
theorem snapshot_reloaded {store : Store} {index : Option MemoryIndex} {window : Window} {d : Db}
    {p : Proposal} (h : store.snapshotWindow index window d = .ok (.proposed p)) :
    loadConsolidationReceipt p.owner.tenantRef p.window.jobRef p.requestHash d = .ok none ∧
      ∃ w, store.reloaded p d = .ok w ∧ store.unchanged p w = true ∧
        p.request = w.workerRequest window.jobRef := by
  obtain ⟨_, hproposed⟩ := snapshot_proposed h
  have hreceipt : loadConsolidationReceipt p.owner.tenantRef p.window.jobRef p.requestHash d =
      .ok none := by
    obtain ⟨_, _, _, horigin⟩ := hproposed
    exact horigin.receipt
  refine ⟨hreceipt, ?_⟩
  unfold Store.snapshotWindow at h
  cases hvalid : window.valid with
  | false =>
    rw [hvalid] at h
    cases h
  | true =>
    rw [hvalid] at h
    simp only [Bool.not_true, Bool.false_eq_true, if_false, bind, Except.bind, pure, Except.pure] at h
    cases hload : loadConsolidationEpisodes window.episodeRefs d with
    | error e =>
      rw [hload] at h
      cases h
    | ok r =>
      obtain ⟨episodes, owner⟩ := r
      obtain ⟨hep, howner⟩ := loadConsolidationEpisodes_ok hload
      obtain rfl := howner (episodes_ne_nil hvalid hep)
      rw [hload] at h
      simp only at h
      split at h
      · cases h
      split at h
      · cases h
      unfold Store.propose at h
      simp only [bind, Except.bind, pure, Except.pure] at h
      split at h
      · cases h
      rename_i _ hpropose
      split at hpropose
      · cases hpropose
      rename_i state hstate
      cases hpropose
      cases h
      obtain ⟨targets, outcomes⟩ := state
      refine ⟨_, ?_, unchanged_proposal store _ _ _ _, rfl⟩
      unfold Store.reloaded
      simp only [Store.proposal, Sight.withPairs_episodes, addLinkedRefs_episodeRefs] at hstate ⊢
      simp only [hload, hstate, ne_eq, not_true_eq_false, if_false, Store.windowState]

namespace Store

variable (store : Store)

/-- The store after a window was put to a worker that answers with `changes`. -/
def consolidated (index : Option MemoryIndex) (env : Ambient) (window : Window)
    (changes : List Change) (d : Db) : Option Db :=
  match store.snapshotWindow index window d with
  | .ok (.proposed p) =>
    if p.asks then
      match store.reloaded p d with
      | .ok w =>
        match Prog.run (store.commitParsed env p w changes) d with
        | .ok (_, d') => some d'
        | .error _ => none
      | .error _ => none
    else none
  | _ => none

/-- A consolidation whose worker answers with a text. -/
def consolidateCall (index : Option MemoryIndex) (env : Ambient) (window : Window)
    (text : String) : Tx MemoryReply :=
  store.perform (.consolidate index env window fun _ => some text)

end Store

theorem run_selectOrFail {α β : Type} {q : Db → Except Fault α} {f : α → Tx β} {d : Db} :
    Prog.run (selectOrFail q >>= f) d =
      match q d with
      | .ok a => Prog.run (f a) d
      | .error e => .error e := by
  unfold Prog.run
  rw [exec_selectOrFail, applyAll_nil]
  cases q d <;> rfl

theorem run_bind_ret {α β : Type} {p : Tx α} {f : α → β} {a : α} {d d' : Db}
    (h : Prog.run p d = .ok (a, d')) : Prog.run (p >>= fun a => .ret (f a)) d = .ok (f a, d') := by
  obtain ⟨log, hexec, rfl⟩ := Prog.run_ok h
  show Prog.run (Prog.bind p _) d = _
  unfold Prog.run
  rw [Prog.exec_bind, hexec]
  rfl

theorem run_consolidate {store : Store} {index : Option MemoryIndex} {env : Ambient}
    {window : Window} {text : String} {changes : List Change} {d d' : Db}
    (hparse : parseTaggedText text = .ok changes)
    (h : store.consolidated index env window changes d = some d') :
    ∃ p receipt, p.window = window ∧ Prog.run (store.consolidateCall index env window text) d =
      .ok (.consolidated env p text receipt, d') := by
  unfold Store.consolidated at h
  split at h
  case h_2 => cases h
  rename_i p hsnapshot
  split at h
  case isFalse => cases h
  rename_i hasks
  split at h
  case h_2 => cases h
  rename_i w hw
  split at h
  case h_2 => cases h
  rename_i receipt d₁ hrun
  obtain rfl := Option.some.inj h
  obtain ⟨hreceipt, w', hw', hunchanged, _⟩ := snapshot_reloaded hsnapshot
  obtain rfl : w = w' := Except.ok.inj (hw.symm.trans hw')
  have hcommit : Prog.run (store.commitWindow env p text) d = .ok (receipt, d₁) := by
    rw [commitWindow_run, hreceipt, hw]
    simp only [hunchanged, Bool.not_true, Bool.false_eq_true, if_false]
    rw [commitChanges_parsed hparse, hrun]
  refine ⟨p, receipt, (snapshot_proposed hsnapshot).1, ?_⟩
  show Prog.run (selectOrFail (store.snapshotWindow index window) >>= _) d = _
  rw [run_selectOrFail, hsnapshot]
  simp only [Proposal.answer, hasks, if_true]
  exact run_bind_ret hcommit

theorem turn_consolidate {store : Store} {index : Option MemoryIndex} {env : Ambient}
    {window : Window} {text : String} {changes : List Change} {s : MemorySys} {d' : Db}
    (hparse : parseTaggedText text = .ok changes)
    (h : store.consolidated index env window changes s.db = some d') :
    (s.turn (store.consolidateCall index env window text)).db = d' := by
  obtain ⟨p, receipt, _, hrun⟩ := run_consolidate hparse h
  unfold Sys.turn
  rw [hrun]

/-! ## A digest with names

The runs below digest few lists of fields over and over.  Those that become refs get a
name of one character, every other list is written out. -/

def namedDigest (names : List (List String × String)) (fields : List String) : String :=
  match names.find? fun entry => decide (entry.1 = fields) with
  | some entry => entry.2
  | none => "-" ++ plainFields fields

theorem namedDigest_cases (names : List (List String × String)) (fields : List String) :
    (∃ entry ∈ names, entry.1 = fields ∧ namedDigest names fields = entry.2) ∨
      namedDigest names fields = "-" ++ plainFields fields := by
  unfold namedDigest
  cases hf : names.find? fun entry => decide (entry.1 = fields) with
  | none => exact Or.inr rfl
  | some entry =>
    have hfields := List.find?_some hf
    exact Or.inl ⟨entry, List.mem_of_find?_eq_some hf, by simpa using hfields, rfl⟩

/-- Different names, none of which looks written out, make no collision. -/
theorem namedDigest_injective {names : List (List String × String)}
    (hhead : ∀ e ∈ names, e.2.toList.head? ≠ some '-')
    (hnames : ∀ e ∈ names, ∀ e' ∈ names, e.2 = e'.2 → e.1 = e'.1) {a b : List String}
    (h : namedDigest names a = namedDigest names b) : a = b := by
  have hnamed : ∀ entry ∈ names, ∀ s : String, entry.2 ≠ "-" ++ s := by
    intro entry he s heq
    refine hhead entry he ?_
    rw [heq, String.toList_append]
    rfl
  rcases namedDigest_cases names a with ⟨e, he, rfl, hea⟩ | ha <;>
    rcases namedDigest_cases names b with ⟨e', he', rfl, heb⟩ | hb
  · exact hnames e he e' he' (hea.symm.trans (h.trans heb))
  · exact absurd (hea.symm.trans (h.trans hb)) (hnamed e he _)
  · exact absurd (heb.symm.trans (h.symm.trans ha)) (hnamed e' he' _)
  · rw [ha, hb] at h
    have hl := congrArg String.toList h
    rw [String.toList_append, String.toList_append] at hl
    exact plainFields_injective (String.toList_inj.mp (List.append_cancel_left hl))

/-- Names without white space make digests without white space. -/
theorem namedDigest_plain {names : List (List String × String)}
    (hnames : ∀ e ∈ names, containsSpace e.2 = false) (fields : List String) :
    containsSpace (namedDigest names fields) = false := by
  rcases namedDigest_cases names fields with ⟨e, he, _, hdigest⟩ | hdigest
  · rw [hdigest]
    exact hnames e he
  · have h := containsSpace_plainFields fields
    rw [containsSpace] at h
    rw [hdigest, containsSpace, String.toList_append, List.any_append, h]
    rfl

/-- The name of a MemoryIndex stream. -/
def streamName (name kind identity : String) : List String × String :=
  (["memory-index-stream.v1", "t", kind, identity], name)

/-- The name of a MemoryIndex operation. -/
def operationName (name stream action kind documentRef : String) (cause : List String) :
    List String × String :=
  (["memory-index-operation.v1", "memory_index_stream_" ++ stream, action, kind, documentRef] ++ cause,
    name)

def sampleNames : List (List String × String) :=
  [(["episode.v1", "agent", "t", "a", "", "s", "1", "g"], "e"),
    (["episode.v1", "relationship", "t", "a", "r", "s", "2", "g"], "f"),
    (["episode.v1", "agent", "t", "a", "", "s", "2", "g"], "g"),
    (["episode.v1", "agent", "t", "a", "", "s", "3", "g"], "h"),
    (["seed-form.v1", "agent", "t", "a", "", "j", "T", "episode_e"], "s"),
    (["seed-form.v1", "agent", "t", "a", "", "l", "V", "episode_e"], "v"),
    (["seed-form.v1", "agent", "t", "a", "", "l", "W", "episode_e"], "w"),
    (["recollection-form.v1", "agent", "t", "a", "", "l", "self", "M", "episode_e"], "m"),
    (["recollection-form.v1", "agent", "t", "a", "", "l", "self", "N", "episode_e"], "n"),
    (["memory-context-request.v2", "relationship", "t", "a", "r", "s", "2", "", "", "a2"], "c"),
    (["memory-context-request.v2", "agent", "t", "a", "", "s", "2", "", "", "a2"], "i"),
    (["memory-context-request.v2", "agent", "t", "a", "", "s", "3", "", "", "a3"], "j"),
    (["memory-delivery-receipt.v2", "t", "d2"], "d"),
    (["memory-delivery-receipt.v2", "t", "d3"], "k"),
    (["outcome-event-identity.v1", "relationship", "t", "a", "r", "s", "2", "g", "o2", "o2"], "o"),
    (["outcome-event-identity.v1", "agent", "t", "a", "", "s", "2", "g", "o2", "o2"], "p"),
    (["outcome-event-identity.v1", "agent", "t", "a", "", "s", "3", "g", "o3", "o3"], "q"),
    streamName "x" "EPISODE" "episode_e", streamName "y" "EPISODE" "episode_f",
    streamName "A" "EPISODE" "episode_g", streamName "B" "EPISODE" "episode_h",
    streamName "z" "DISPOSITION" "seed_s", streamName "C" "DISPOSITION" "seed_v",
    streamName "D" "DISPOSITION" "seed_w", streamName "E" "RECOLLECTION" "recollection_m",
    streamName "F" "RECOLLECTION" "recollection_n",
    operationName "0" "x" "UPSERT" "EPISODE" "episode_e" ["typed-link", "agent_act", "y"],
    operationName "1" "y" "UPSERT" "EPISODE" "episode_f" ["typed-link", "agent_act", "b2"],
    operationName "2" "y" "UPSERT" "EPISODE" "episode_f" ["typed-link", "outcome", "o2"],
    operationName "3" "A" "UPSERT" "EPISODE" "episode_g" ["typed-link", "agent_act", "b2"],
    operationName "4" "A" "UPSERT" "EPISODE" "episode_g" ["typed-link", "outcome", "o2"],
    operationName "5" "B" "UPSERT" "EPISODE" "episode_h" ["typed-link", "agent_act", "b3"],
    operationName "6" "B" "UPSERT" "EPISODE" "episode_h" ["typed-link", "outcome", "o3"],
    operationName "7" "z" "UPSERT" "DISPOSITION" "seed_s@1" ["seed_s@1"],
    operationName "8" "z" "DELETE" "DISPOSITION" "seed_s@1" ["seed_s@2"],
    operationName "9" "z" "UPSERT" "DISPOSITION" "seed_s@2" ["seed_s@2"],
    operationName "G" "C" "UPSERT" "DISPOSITION" "seed_v@1" ["seed_v@1"],
    operationName "H" "C" "DELETE" "DISPOSITION" "seed_v@1" ["seed_v@2"],
    operationName "I" "C" "UPSERT" "DISPOSITION" "seed_v@2" ["seed_v@2"],
    operationName "J" "D" "UPSERT" "DISPOSITION" "seed_w@1" ["seed_w@1"],
    operationName "K" "E" "UPSERT" "RECOLLECTION" "recollection_m@1" ["recollection_m@1"],
    operationName "L" "E" "DELETE" "RECOLLECTION" "recollection_m@1" ["recollection_m@2"],
    operationName "M" "E" "UPSERT" "RECOLLECTION" "recollection_m@2" ["recollection_m@2"],
    operationName "N" "E" "DELETE" "RECOLLECTION" "recollection_m@2" ["recollection_m@3"],
    operationName "O" "E" "UPSERT" "RECOLLECTION" "recollection_m@3" ["recollection_m@3"],
    operationName "P" "F" "UPSERT" "RECOLLECTION" "recollection_n@1" ["recollection_n@1"]]

def sampleDigest : List String → String := namedDigest sampleNames

theorem sampleDigest_injective {a b : List String} (h : sampleDigest a = sampleDigest b) : a = b :=
  @namedDigest_injective sampleNames (by decide +kernel) (by decide +kernel) a b h

/-- A store with this digest. -/
def sampleStore : Store := { dialect := .postgres, hashFields := sampleDigest, score := fun _ _ => 0 }

theorem sampleStore_collisionless : Collisionless sampleStore :=
  fun _ _ h => sampleDigest_injective h

theorem sampleStore_plain (fields : List String) :
    containsSpace (sampleStore.hashFields fields) = false :=
  @namedDigest_plain sampleNames (by decide +kernel) fields

/-! A run whose relationship gives feedback to its agent's Disposition. -/

/-- The agent's own scope. -/
def agentScope : Scope :=
  { kind := .agent, tenantRef := "t", agentRef := "a", relationshipRef := "", sessionRef := "s" }

def observeCall (n : Nat) (scope : Scope) (ref : String) (kind : ActorKind) (run : String)
    (role : SourceRole) : MemoryCommand :=
  .intake (.observe (plainAmbient n) ref
    { ref := ref, scope := scope, actorRef := "a", text := ref, constitution := {}, actorKind := kind }
    ⟨run, "g", role⟩)

def sampleEpisodeRef (scope : Scope) (run : String) : String :=
  sampleStore.episodeRef ⟨scope, run, "g"⟩

/-- A window that is put to a worker that answers with these changes. -/
structure Task where
  call : Nat
  jobRef : String
  episodes : List String
  outcomes : List String := []
  changes : List Change

def Task.window (t : Task) : Window := ⟨t.jobRef, t.episodes, t.outcomes⟩

def Task.command (t : Task) : MemoryCommand :=
  .consolidate none (plainAmbient t.call) t.window fun _ => some (renderChanges t.changes)

def Task.after (t : Task) (d : Db) : Option Db :=
  sampleStore.consolidated none (plainAmbient t.call) t.window t.changes d

/-- The answer is written such that it is parsed back. -/
def Task.Written (t : Task) : Prop :=
  (∀ change ∈ t.changes, change.Writable ∧ (change.operation.hasText → CleanLine change.text)) ∧
    (existingTargets t.changes).Nodup ∧ (renderChanges t.changes).utf8ByteSize ≤ maxTaggedTextBytes

instance (t : Task) : Decidable t.Written := inferInstanceAs (Decidable (_ ∧ _))

theorem Task.Written.parsed {t : Task} (h : t.Written) :
    parseTaggedText (renderChanges t.changes) = .ok t.changes :=
  parseTaggedText_renderChanges (fun change hmem => (h.1 change hmem).1)
    (fun change hmem => (h.1 change hmem).2) h.2.1 h.2.2

/-- A part of a run: a call, or a window with the answer to it. -/
inductive Part
  | call (c : MemoryCommand)
  | task (t : Task)

def Part.command : Part → MemoryCommand
  | call c => c
  | task t => t.command

def Part.after : Part → Db → Option Db
  | call c, d => some (sampleStore.calls [c] ⟨d, []⟩).db
  | task t, d => t.after d

def Part.Written : Part → Prop
  | call _ => True
  | task t => t.Written

instance : (part : Part) → Decidable part.Written
  | .call _ => inferInstanceAs (Decidable True)
  | .task t => inferInstanceAs (Decidable t.Written)

/-- The store that a run leads to. -/
def played : List Part → Db → Option Db
  | [], d => some d
  | part :: rest, d => (part.after d).bind (played rest)

/-- The run itself. -/
def play (parts : List Part) (s : MemorySys) : MemorySys :=
  sampleStore.calls (parts.map Part.command) s

theorem play_calls (cs : List MemoryCommand) (s : MemorySys) :
    play (cs.map .call) s = sampleStore.calls cs s := by
  unfold play
  rw [List.map_map, show Part.command ∘ Part.call = id from rfl, List.map_id]

theorem calls_append (store : Store) (cs cs' : List MemoryCommand) (s : MemorySys) :
    store.calls (cs ++ cs') s = store.calls cs' (store.calls cs s) := by
  unfold Store.calls
  rw [List.map_append, List.foldl_append]

/-- The agent is asked and answers. -/
def metCalls : List MemoryCommand :=
  [observeCall 1 agentScope "x" .user "1" .situation, observeCall 2 agentScope "y" .agent "1" .agentAct]

/-- The agent adapts. -/
def adaptTask : Task :=
  { call := 3, jobRef := "j", episodes := [sampleEpisodeRef agentScope "1"],
    changes := [⟨targetNewDisposition, .self, .adapt, "T", [sampleEpisodeRef agentScope "1"]⟩] }

/-- The agent's Episode once more. -/
def agentWindow : Window := ⟨"n", [sampleEpisodeRef agentScope "1"], []⟩

/-- The ref of the adapted Disposition's versions. -/
def adaptedRef (n : Nat) : String :=
  versionRefOf (sampleStore.seedFormationRef agentScope.owner "j" "T"
    [sampleEpisodeRef agentScope "1"] []) n

/-- The index answers a question about the agent's Memory with one version. -/
def selectCall (scope : Scope) (run ref : String) : SelectRequest × MemoryCommand :=
  let request : SelectRequest :=
    { scope := scope, runRef := run, situationSourceRefs := ["a" ++ run], constitution := {},
      episodeEvidenceMaxBytes := 0 }
  (request, .select (some fun q =>
    if q.scope.relationshipRef = "" then some [⟨some .disposition, ref⟩] else some []) request)

def sampleReport (scope : Scope) (run : String) : OutcomeReport :=
  { idempotencyKey := "o" ++ run,
    event := { ref := "o" ++ run, scope := scope, actorRef := "a", text := "o" ++ run,
               constitution := {}, actorKind := .user },
    runRef := run, sourceGroupRef := "g",
    deliveryReceiptRefs := [sampleStore.memoryDeliveryReceiptRef "t" ("d" ++ run)],
    relatedSourceEventRefs := ["b" ++ run] }

/-- What follows when a run has its context: the version is delivered, the agent answers, and
an Outcome is reported. -/
def deliveredCalls (n : Nat) (scope : Scope) (run ref : String) : List MemoryCommand :=
  [.intake (.recordMemoryDelivery (plainAmbient (n + 1))
      { idempotencyKey := "d" ++ run, scope := scope, runRef := run,
        memoryContextRef := (sampleStore.contextRow (selectCall scope run ref).1).ref,
        deliveredMemoryRefs := [ref] }),
    observeCall (n + 2) scope ("b" ++ run) .agent run .agentAct,
    .intake (.reportOutcome (plainAmbient (n + 3)) (sampleReport scope run))]

/-- A run is shown the version, answers, and an Outcome follows. -/
def feedbackCalls (n : Nat) (scope : Scope) (run ref : String) : List MemoryCommand :=
  observeCall n scope ("a" ++ run) .user run .situation :: (selectCall scope run ref).2 ::
    deliveredCalls n scope run ref

/-- The run's Episode is consolidated with its Outcome. -/
def feedbackTask (n : Nat) (job : String) (scope : Scope) (run ref : String)
    (operation : Operation) (text : String) : Task :=
  { call := n, jobRef := job, episodes := [sampleEpisodeRef scope run],
    outcomes := [sampleStore.outcomeEventRef (sampleReport scope run)],
    changes := [⟨ref, .self, operation, text, [sampleEpisodeRef scope run,
      sampleStore.outcomeEventRef (sampleReport scope run)]⟩] }

/-! Its states, and their stores. -/

def sampleMet : MemorySys := sampleStore.calls metCalls ⟨{}, []⟩

/-- The agent has adapted. -/
def sampleAdapted : MemorySys := play [.task adaptTask] sampleMet

/-- The relationship has given feedback to the adapted Disposition. -/
def sampleFed : MemorySys :=
  play ((feedbackCalls 4 sampleScope "2" (adaptedRef 1)).map .call) sampleAdapted

/-- Its Outcome revises it. -/
def reviseTask : Task := feedbackTask 8 "k" sampleScope "2" (adaptedRef 1) .text "U"

def sampleRevised : MemorySys := play [.task reviseTask] sampleFed

def adaptedDb : Db := (adaptTask.after sampleMet.db).getD {}

def fedDb : Db :=
  (played ((feedbackCalls 4 sampleScope "2" (adaptedRef 1)).map .call) adaptedDb).getD {}

def revisedDb : Db := (reviseTask.after fedDb).getD {}

theorem sampleMet_reach : MemoryReach sampleStore sampleMet ∧ sampleMet.Quiet :=
  reach_calls (fun _ ht => absurd ht List.not_mem_nil) .start _

theorem sampleAdapted_reach :
    MemoryReach sampleStore sampleAdapted ∧ sampleAdapted.Quiet :=
  reach_calls sampleMet_reach.2 sampleMet_reach.1 _

theorem sampleFed_reach : MemoryReach sampleStore sampleFed ∧ sampleFed.Quiet :=
  reach_calls sampleAdapted_reach.2 sampleAdapted_reach.1 _

theorem sampleRevised_reach :
    MemoryReach sampleStore sampleRevised ∧ sampleRevised.Quiet :=
  reach_calls sampleFed_reach.2 sampleFed_reach.1 _

theorem turn_db {s s' : MemorySys} (h : s.db = s'.db) (p : Tx MemoryReply) :
    (s.turn p).db = (s'.turn p).db := by
  unfold Sys.turn
  rw [h]
  cases Prog.run p s'.db <;> rfl

/-- What a part does depends on the store alone. -/
theorem turn_part {part : Part} {s : MemorySys} {d d' : Db} (hs : s.db = d) (hwritten : part.Written)
    (h : part.after d = some d') : (s.turn (sampleStore.perform part.command)).db = d' := by
  cases part with
  | call c =>
    obtain rfl := Option.some.inj h
    exact @turn_db s ⟨d, []⟩ hs _
  | task t => exact turn_consolidate (Task.Written.parsed hwritten) (by rw [hs]; exact h)

theorem play_db {parts : List Part} {s : MemorySys} {d d' : Db} (hs : s.db = d)
    (hwritten : ∀ part ∈ parts, part.Written) (h : played parts d = some d') :
    (play parts s).db = d' := by
  induction parts generalizing s d with
  | nil =>
    obtain rfl := Option.some.inj h
    exact hs
  | cons part rest ih =>
    obtain ⟨d₁, hd₁, hrest⟩ := Option.bind_eq_some_iff.mp h
    exact ih (turn_part hs (hwritten part List.mem_cons_self) hd₁)
      (fun part hmem => hwritten part (List.mem_cons_of_mem _ hmem)) hrest

theorem some_getD {α : Type} {o : Option α} (h : o.isSome = true) (a : α) : o = some (o.getD a) := by
  cases o with
  | none => cases h
  | some b => rfl

theorem written_calls {cs : List MemoryCommand} : ∀ part ∈ cs.map Part.call, part.Written := by
  intro part hmem
  obtain ⟨c, _, rfl⟩ := List.mem_map.mp hmem
  exact trivial

theorem written_task {t : Task} (h : t.Written) : ∀ part ∈ [Part.task t], part.Written := by
  intro part hmem
  obtain rfl := List.mem_singleton.mp hmem
  exact h

theorem played_task {t : Task} {d d' : Db} (h : t.after d = some d') :
    played [.task t] d = some d' :=
  Option.bind_eq_some_iff.mpr ⟨d', h, rfl⟩

theorem sampleTasks_written : adaptTask.Written ∧ reviseTask.Written := by
  decide +kernel

theorem adaptTask_written : adaptTask.Written := sampleTasks_written.1

/-- Where the runs lead.  They are evaluated here, once for all their uses. -/
theorem sample_runs :
    (adaptTask.after sampleMet.db).isSome ∧
    (played ((feedbackCalls 4 sampleScope "2" (adaptedRef 1)).map .call) adaptedDb).isSome ∧
    (reviseTask.after fedDb).isSome ∧
    adaptedDb.seeds.length ≠ sampleMet.db.seeds.length ∧
    (adaptedDb.seedVersions.map fun v => (v.tendency, decide (v.status = .active))) =
      [("T", true)] ∧
    (adaptedDb.seedBasis.map fun b => (b.versionRef, b.role)) = [(adaptedRef 1, .formation)] ∧
    (loadDispositionCandidates sampleScope 10 none adaptedDb).map (·.versionRef) =
      [adaptedRef 1] ∧
    fedDb.contextItems.map (·.memoryRef) = [adaptedRef 1] ∧
    (revisedDb.seedVersions.map fun v => (v.ref, v.tendency, decide (v.status = .active))) =
      [(adaptedRef 1, "T", false), (adaptedRef 2, "U", true)] := by
  decide +kernel

theorem adaptTask_after : adaptTask.after sampleMet.db = some adaptedDb :=
  some_getD sample_runs.1 _

theorem sampleAdapted_db : sampleAdapted.db = adaptedDb :=
  play_db rfl (written_task adaptTask_written) (played_task adaptTask_after)

theorem sampleFed_db : sampleFed.db = fedDb :=
  play_db sampleAdapted_db written_calls (some_getD sample_runs.2.1 _)

theorem sampleRevised_db : sampleRevised.db = revisedDb :=
  play_db sampleFed_db (written_task sampleTasks_written.2)
    (played_task (some_getD sample_runs.2.2.1 _))

end ChoraMem
