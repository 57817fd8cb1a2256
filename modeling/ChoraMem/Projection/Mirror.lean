/-
The projector as a worker behind an outbox.

The store is the content, the unfinished rows of the queue are what is pending, and the index
is the copy.  Every step of the store, the queue and the projector is one of the outbox, or
none, so the copy is what the outbox says of it: where the index is not what the store shows,
an operation about the document is still to be worked on.
-/
import ChoraMem.Projection.Law
import ChoraMem.Projection.Watch

namespace ChoraMem

open Dialog Outbox Txn

/-! ## The index as a copy -/

/-- What the operations of the queue are about. -/
def indexFeed : Feed DocumentRef IndexOperationRow where
  about := IndexOperationRow.document
  adds := fun o => o.action == .upsert

/-- The text that the index has of a document. -/
def indexText (index : List Document) (r : DocumentRef) : Option String :=
  (index.find? fun document => decide (document.about = r)).map (·.text)

section

variable {index : List Document} {r : DocumentRef} {document : Document}

theorem indexText_filter (p : Document → Bool)
    (hkeep : ∀ document, document.about = r → p document = true) :
    indexText (index.filter p) r = indexText index r := by
  unfold indexText
  rw [List.find?_filter]
  congr 2
  funext document
  by_cases hr : document.about = r
  · simp [hr, hkeep document hr]
  · simp [hr]

theorem indexText_drop (p : Document → Bool)
    (hdrop : ∀ document, document.about = r → p document = false) :
    indexText (index.filter p) r = none := by
  unfold indexText
  rw [Option.map_eq_none_iff, List.find?_eq_none]
  intro document hmem hr
  have hkept := (List.mem_filter.mp hmem).2
  rw [hdrop document (of_decide_eq_true hr)] at hkept
  cases hkept

theorem indexText_append (more : List Document) :
    indexText (index ++ more) r = (indexText index r).or (indexText more r) := by
  unfold indexText
  rw [List.find?_append, Option.map_or]

theorem indexText_upsert (document : Document) :
    indexText (upsertDocument index document) =
      Function.update (indexText index) document.about (some document.text) := by
  funext r
  unfold upsertDocument
  rw [indexText_append]
  by_cases hr : r = document.about
  · rw [hr, Function.update_self, indexText_drop, Option.none_or]
    · unfold indexText
      rw [List.find?_cons_of_pos (by simp)]
      rfl
    · intro other hother
      rw [same_document, decide_eq_true hother]
      rfl
  · rw [Function.update_of_ne hr, indexText_filter]
    · unfold indexText
      rw [List.find?_cons_of_neg (by simpa using fun h => hr h.symm)]
      exact Option.or_none
    · intro other hother
      rw [same_document, decide_eq_false fun h => hr (hother.symm.trans h)]
      rfl

theorem indexText_upserts (page : List (DocumentRef × String)) :
    indexText ((pageDocuments page).foldl upsertDocument index) = fill (indexText index) page := by
  induction page generalizing index with
  | nil => rfl
  | cons entry rest ih =>
    show indexText ((pageDocuments rest).foldl upsertDocument
      (upsertDocument index (entry.1.withText entry.2))) = _
    rw [ih, indexText_upsert]
    rfl

theorem indexText_delete (r : DocumentRef) :
    indexText (deleteDocuments r.scope [⟨some r.kind, r.ref⟩] index) =
      Function.update (indexText index) r none := by
  funext x
  unfold deleteDocuments
  have hcandidate : ∀ document : Document, (!(decide (document.scope = r.scope) &&
      [(⟨some r.kind, r.ref⟩ : IndexCandidate)].any fun candidate =>
        decide (candidate.kind = some document.kind) && decide (candidate.ref = document.ref))) =
        decide (document.about ≠ r) := by
    intro document
    obtain ⟨kind, ref, scope⟩ := r
    simp only [List.any_cons, List.any_nil, Bool.or_false, Option.some.injEq, Document.about, ne_eq,
      DocumentRef.mk.injEq, decide_not, Bool.decide_and, eq_comm (a := kind), eq_comm (a := ref)]
    rw [Bool.and_comm, Bool.and_assoc]
  by_cases hx : x = r
  · rw [hx, Function.update_self]
    refine indexText_drop _ fun document hr => ?_
    rw [hcandidate, decide_eq_false (not_not.mpr hr)]
  · rw [Function.update_of_ne hx]
    refine indexText_filter _ fun document hr => ?_
    rw [hcandidate]
    exact decide_eq_true fun h => hx (hr.symm.trans h)

/-- An index with one entry for a document has the texts it is asked for. -/
theorem mem_index (h : KeysUnique Document.about index) :
    document ∈ index ↔ indexText index document.about = some document.text := by
  unfold indexText
  constructor
  · intro hmem
    rw [h.find hmem rfl]
    rfl
  · intro hfind
    obtain ⟨other, hother, htext⟩ := Option.map_eq_some_iff.mp hfind
    have habout := List.find?_some hother
    have habout : other.about = document.about := of_decide_eq_true habout
    have hsame : other = document := by
      obtain ⟨kind, ref, scope, text⟩ := other
      obtain ⟨kind', ref', scope', text'⟩ := document
      obtain ⟨rfl, rfl, rfl⟩ := DocumentRef.mk.inj habout
      obtain rfl : text = text' := htext
      rfl
    rw [← hsame]
    exact List.mem_of_find?_eq_some hother

end

/-! ## What is pending -/

/-- The operations that are not acknowledged. -/
def pendingOperations (queue : List QueueRow) : Set IndexOperationRow :=
  fun o => ∃ row ∈ queue, row.operation = o ∧ row.unfinished = true

section

variable {operations : List IndexOperationRow} {queue : List QueueRow} {p : QueueRow → Bool}
variable {f : QueueRow → QueueRow}

theorem pending_receive (now : IndexOperationRow → Nat) (o : IndexOperationRow) :
    o ∈ pendingOperations (receive now operations queue) ↔
      o ∈ pendingOperations queue ∨ (o ∈ operations ∧ ∀ row ∈ queue, row.operation ≠ o) := by
  constructor
  · intro h
    obtain ⟨row, hrow, rfl, hopen⟩ := h
    rcases mem_receive.mp hrow with hrow | ⟨o, ho, hnew, rfl⟩
    · exact Or.inl ⟨row, hrow, rfl, hopen⟩
    · exact Or.inr ⟨ho, hnew⟩
  · intro h
    rcases h with ⟨row, hrow, rfl, hopen⟩ | ⟨ho, hnew⟩
    · exact ⟨row, mem_receive.mpr (Or.inl hrow), rfl, hopen⟩
    · exact ⟨_, mem_receive.mpr (Or.inr ⟨o, ho, hnew, rfl⟩), rfl, rfl⟩

/-- An update that finishes nothing leaves everything pending. -/
theorem pending_update (hf : KeepsOperation f)
    (hsame : ∀ r ∈ queue, p r = true → (f r).unfinished = r.unfinished) :
    pendingOperations (updateQueue p f queue) = pendingOperations queue := by
  have hstays : ∀ r ∈ queue, (if p r then f r else r).unfinished = r.unfinished := by
    intro r hr
    by_cases hp : p r = true
    · rw [if_pos hp, hsame r hr hp]
    · rw [if_neg hp]
  ext o
  constructor
  · intro h
    obtain ⟨row, hrow, rfl, hopen⟩ := h
    obtain ⟨r, hr, rfl⟩ := mem_updateQueue.mp hrow
    exact ⟨r, hr, (hf.update r).symm, (hstays r hr).symm.trans hopen⟩
  · intro h
    obtain ⟨r, hr, rfl, hopen⟩ := h
    exact ⟨_, mem_updateQueue.mpr ⟨r, hr, rfl⟩, hf.update r, (hstays r hr).trans hopen⟩

theorem pending_lease (now : Nat) (token : String) (locked : QueueRow → Bool) (leaseUntil : Nat) :
    pendingOperations (leaseMemoryIndexOperation now token locked leaseUntil queue).2 =
      pendingOperations queue := by
  rcases lease_cases now token locked leaseUntil queue with ⟨row, _, _, heq⟩ | ⟨heq, _⟩
  · rw [heq]
    exact pending_update (keeps_take now _) fun _ _ _ => rfl
  · rw [heq]

theorem pending_retry (now : Nat) (operation : IndexOperation) (notBefore : Nat) (reason : String) :
    pendingOperations (retryMemoryIndexOperation now operation notBefore reason queue).2 =
      pendingOperations queue := by
  unfold retryMemoryIndexOperation
  by_cases hzero : notBefore = 0
  · rw [if_pos hzero]
  · rw [if_neg hzero]
    exact pending_update (keeps_retry now notBefore reason) fun _ _ _ => rfl

/-- An acknowledgement takes its own operation out, or nothing. -/
theorem pending_acknowledge (h : QueueLaw operations queue) (now : Nat) (token : String)
    {o : IndexOperationRow} (ho : o ∈ pendingOperations queue) :
    pendingOperations (acknowledgeMemoryIndexOperation now (o.leased token) queue).2 =
        pendingOperations queue ∨
      pendingOperations (acknowledgeMemoryIndexOperation now (o.leased token) queue).2 =
        pendingOperations queue \ {o} := by
  obtain ⟨mine, hmine, rfl, hopen⟩ := ho
  have hsame : ∀ r ∈ queue, r.heldBy (mine.operation.leased token) = true → r = mine :=
    fun r hr hp => h.unique.eq hr hmine (heldBy_iff.mp hp).1
  show pendingOperations (updateQueue _ _ queue) = _ ∨ pendingOperations (updateQueue _ _ queue) = _
  by_cases hheld : mine.heldBy (mine.operation.leased token) = true
  · right
    ext x
    constructor
    · intro hx
      obtain ⟨row, hrow, rfl, hx⟩ := hx
      obtain ⟨r, hr, rfl⟩ := mem_updateQueue.mp hrow
      by_cases hp : r.heldBy (mine.operation.leased token) = true
      · rw [if_pos hp] at hx
        cases hx
      · rw [if_neg hp] at hx ⊢
        refine ⟨⟨r, hr, rfl, hx⟩, fun heq => hp ?_⟩
        have hid : r = mine := h.unique.eq hr hmine (congrArg IndexOperationRow.operationId heq)
        rw [hid]
        exact hheld
    · intro hx
      obtain ⟨⟨r, hr, rfl, hx⟩, hne⟩ := hx
      refine ⟨_, mem_updateQueue.mpr ⟨r, hr, rfl⟩, (keeps_acknowledge now).update r, ?_⟩
      by_cases hp : r.heldBy (mine.operation.leased token) = true
      · rw [hsame r hr hp] at hne
        exact absurd rfl hne
      · rw [if_neg hp]
        exact hx
  · left
    refine pending_update (keeps_acknowledge now) fun r hr hp => absurd ?_ hheld
    rw [← hsame r hr hp]
    exact hsame r hr hp ▸ hp

end

/-! ## What is read -/

section

variable {store : Store} {d : Db} {r : DocumentRef}

/-- An Episode that is not there has no text. -/
theorem documentText_notFound (hkind : r.kind = .episode) (h : documentEpisode r d = none) :
    documentText r d = none := by
  unfold documentText
  rw [hkind]
  unfold documentEpisode at h
  dsimp only
  rw [h]

/-- The row of an Episode that was read before is the one that is there. -/
theorem documentText_opened (hd : WorldLaw store d) (hhash : Collisionless store) {e : EpisodeRow}
    (he : e ∈ d.episodes) (hkind : r.kind = .episode) (href : e.ref = r.ref)
    (hscope : e.group.scope.owner.index = r.scope) :
    documentText r d = episodeText e (documentSources r.ref r.scope.tenantRef d) := by
  have hr : r = ⟨.episode, e.ref, e.group.scope.owner.index⟩ := by
    rw [href, hscope, ← hkind]
  rw [hr, documentText_episode hd hhash he]
  rfl

theorem documentEpisode_some {e : EpisodeRow} (h : documentEpisode r d = some e) :
    e ∈ d.episodes ∧ e.ref = r.ref ∧ e.group.scope.owner.index = r.scope := by
  have hp := List.find?_some h
  rw [Bool.and_eq_true, decide_eq_true_eq, decide_eq_true_eq] at hp
  exact ⟨List.mem_of_find?_eq_some h, hp⟩

/-- A document with a text is listed. -/
theorem listed_of_text (hd : WorldLaw store d) (h : documentText r d ≠ none) :
    r ∈ documentRefs d := by
  obtain ⟨text, htext⟩ := Option.ne_none_iff_exists'.mp h
  obtain ⟨kind, ref, scope⟩ := r
  unfold documentRefs
  cases kind with
  | episode =>
    have hfound : documentEpisode ⟨.episode, ref, scope⟩ d ≠ none := fun hnone => by
      rw [documentText_notFound rfl hnone] at htext
      cases htext
    obtain ⟨e, he⟩ := Option.ne_none_iff_exists'.mp hfound
    obtain ⟨hmem, rfl, rfl⟩ := documentEpisode_some he
    exact List.mem_append_left _ (List.mem_append_left _ (List.mem_map.mpr ⟨e, hmem, rfl⟩))
  | recollection =>
    obtain ⟨v, hs, _⟩ := (documentText_recollection hd.memory).mp htext
    obtain ⟨root, hroot, hrootRef, rfl⟩ := Db.recollectionShelf_owns.mp hs.owned
    obtain rfl : v.ref = ref := hs.ref
    refine List.mem_append_left _ (List.mem_append_right _ (List.mem_flatMap.mpr ⟨v, ?_, ?_⟩))
    · exact List.mem_filter.mpr ⟨hs.mem, beq_iff_eq.mpr hs.live⟩
    · refine List.mem_map.mpr ⟨root, List.mem_filter.mpr ⟨hroot, ?_⟩, rfl⟩
      rw [Bool.and_eq_true, decide_eq_true_eq, decide_eq_true_eq]
      exact ⟨(hd.memory.recollectionTenant hs.mem hroot hrootRef).symm, hrootRef⟩
  | disposition =>
    obtain ⟨v, hs, _⟩ := (documentText_disposition hd.memory).mp htext
    obtain ⟨root, hroot, hrootRef, rfl⟩ := Db.seedShelf_owns.mp hs.owned
    obtain rfl : v.ref = ref := hs.ref
    refine List.mem_append_right _ (List.mem_flatMap.mpr ⟨v, ?_, ?_⟩)
    · exact List.mem_filter.mpr ⟨hs.mem, beq_iff_eq.mpr hs.live⟩
    · refine List.mem_map.mpr ⟨root, List.mem_filter.mpr ⟨hroot, ?_⟩, rfl⟩
      rw [Bool.and_eq_true, decide_eq_true_eq, decide_eq_true_eq]
      exact ⟨(hd.memory.seedTenant hs.mem hroot hrootRef).symm, hrootRef⟩

/-- The rows of a page, in order and named. -/
theorem listed_refsBehind (h : d.Documented) (afterKind : Int) (afterRef : String) (limit : Nat) :
    Listed limit (refsBehind afterKind afterRef limit d) := by
  have hsorted : (((documentRefs d).filter fun r => decide (afterKind < r.kind.order) ||
      (decide (afterKind = r.kind.order) && decide (afterRef < r.ref))).insertionSort
        documentOrder).Pairwise fun a b => a.key < b.key := by
    rw [rows_eq h]
    exact (sorted_documents h).sublist List.filter_sublist
  refine ⟨hsorted.sublist (List.take_sublist _ _), fun r hr => ?_, List.length_take_le _ _⟩
  have hmem := (List.mem_insertionSort _).mp (List.mem_of_mem_take hr)
  exact h.named r (List.mem_of_mem_filter hmem)

/-- What is behind the cursor and has a text is on the page or behind it. -/
theorem toCome_refsBehind (hd : WorldLaw store d) (h : d.Documented) {afterKind : Int}
    {afterRef : String} {limit : Nat} (hbehind : Behind afterKind afterRef r)
    (htext : documentText r d ≠ none) :
    r ∈ toCome limit (refsBehind afterKind afterRef limit d) := by
  let rows := ((documentRefs d).filter fun r => decide (afterKind < r.kind.order) ||
    (decide (afterKind = r.kind.order) && decide (afterRef < r.ref))).insertionSort documentOrder
  have hsorted : rows.Pairwise fun a b => a.key < b.key := by
    show (((documentRefs d).filter _).insertionSort documentOrder).Pairwise _
    rw [rows_eq h]
    exact (sorted_documents h).sublist List.filter_sublist
  have hrow : r ∈ rows := by
    refine (List.mem_insertionSort _).mpr (List.mem_filter.mpr ⟨listed_of_text hd htext, ?_⟩)
    rw [Bool.or_eq_true, Bool.and_eq_true, decide_eq_true_eq, decide_eq_true_eq, decide_eq_true_eq]
    exact hbehind
  show r ∈ rows.take limit ∨ _
  rw [← List.take_append_drop limit rows, List.mem_append] at hrow
  rcases hrow with hrow | hrow
  · exact Or.inl hrow
  · right
    have hlen : limit ≤ rows.length := by
      by_contra hlt
      rw [List.drop_of_length_le (by omega)] at hrow
      exact absurd hrow List.not_mem_nil
    refine ⟨by rw [refsBehind, List.length_take]; exact Nat.min_eq_left hlen, fun x hx => ?_⟩
    rw [← List.take_append_drop limit rows, List.pairwise_append] at hsorted
    exact hsorted.2.2 x hx r hrow

end

/-! ## Asks -/

abbrev IndexOutbox := Outbox.State DocumentRef String IndexOperationRow

/-- The outbox that the store, the queue and the index are. -/
structure Reflects (s : ProjectionSys) (o : IndexOutbox) (opened : Option (DocumentRef × EpisodeRow)) :
    Prop where
  content : o.content = fun r => documentText r s.memory.db
  pending : o.pending = pendingOperations s.queue
  copy : o.copy = indexText s.index
  opened : ∀ r e, opened = some (r, e) → r.kind = .episode ∧ e ∈ s.memory.db.episodes ∧
    e.ref = r.ref ∧ e.group.scope.owner.index = r.scope
  broken : ∀ toCome page, o.phase = .copying toCome page → s.whole = false ∧ ¬o.damaged
  undamaged : s.whole = true → ¬o.damaged

/-- What the asks need of the store. -/
structure Projectable (store : Store) (s : ProjectionSys) : Prop where
  collisionless : Collisionless store
  law : ProjectionLaw store s
  world : WorldLaw store s.memory.db
  documented : s.memory.db.Documented

section

variable {store : Store} {s : ProjectionSys} {o : IndexOutbox}
variable {opened : Option (DocumentRef × EpisodeRow)} {r : DocumentRef}

/-- The outbox after its phase alone has changed. -/
theorem Reflects.moved (h : Reflects s o opened) {phase : ProjectorPhase}
    (hcopying : ∀ toCome page, phase = .copying toCome page →
      ∃ toCome page, o.phase = .copying toCome page) :
    Reflects s { o with phase := phase } none where
  content := h.content
  pending := h.pending
  copy := h.copy
  opened := fun _ _ hno => by cases hno
  broken := by
    intro toCome page hphase
    obtain ⟨toCome', page', hphase'⟩ := hcopying toCome page hphase
    exact h.broken toCome' page' hphase'
  undamaged := h.undamaged

/-- The text of a document is read. -/
theorem Reflects.load (h : Reflects s o opened) (hloads : Loads o.phase r) :
    Run indexFeed o { o with phase := loaded r (documentText r s.memory.db) o.phase } ∧
      Reflects s { o with phase := loaded r (documentText r s.memory.db) o.phase } none := by
  have htext : o.content r = documentText r s.memory.db := by rw [h.content]
  rcases hloads with ⟨op, hphase, haction, rfl⟩ | ⟨toCome, page, hphase⟩
  · have hloaded : loaded op.document (documentText op.document s.memory.db) o.phase =
        .read op (o.content (indexFeed.about op)) := by
      rw [hphase, ← htext]
      rfl
    rw [hloaded]
    refine ⟨Run.start.step (.look op hphase (beq_iff_eq.mpr haction)), h.moved fun _ _ hno => ?_⟩
    cases hno
  · have hloaded : loaded r (documentText r s.memory.db) o.phase =
        .copying (toCome \ {r}) (page ++ Outbox.entryOf r (o.content r)) := by
      rw [hphase, ← htext]
      rfl
    rw [hloaded]
    exact ⟨Run.start.step (.load r toCome page hphase), h.moved fun _ _ _ => ⟨toCome, page, hphase⟩⟩

/-- The projector gives up what it holds. -/
theorem Reflects.quit (h : Reflects s o opened)
    (hphase : ∀ toCome page, o.phase ≠ .copying toCome page) :
    Run indexFeed o { o with phase := .idle } ∧ Reflects s { o with phase := .idle } none :=
  ⟨Run.start.step (.quit hphase), h.moved fun _ _ hno => by cases hno⟩

/-- An operation is acknowledged, or its lease was lost. -/
theorem Reflects.acknowledge (h : Reflects s o opened) (hlaw : ProjectionLaw store s)
    {op : IndexOperationRow} (hhandled : Handled op o.phase) (hmine : op ∈ o.pending) (m : Moment)
    (token : String) :
    ∃ o', Run indexFeed o o' ∧
      Reflects (s.perform m (.acknowledge (op.leased token))).2 o' none ∧ o'.phase = .idle := by
  have hquit : Run indexFeed o { o with phase := .idle } ∧ Reflects s { o with phase := .idle } none :=
    h.quit fun toCome page hno => by
      rcases hhandled with hphase | hphase
      · rw [hphase] at hno
        cases hno
      · rw [hphase] at hno
        cases hno
  have hpending : op ∈ pendingOperations s.queue := by
    rw [← h.pending]
    exact hmine
  rcases pending_acknowledge hlaw.queue m.now token hpending with hsame | hgone
  · refine ⟨_, hquit.1, ?_, rfl⟩
    exact { hquit.2 with pending := h.pending.trans hsame.symm }
  · have htold : Run indexFeed o { o with phase := .told op } := by
      rcases hhandled with hphase | hphase
      · rw [← hphase]
        exact Run.start
      · exact Run.start.step (.pass op hphase)
    refine ⟨_, htold.step (.acknowledge op rfl), ?_, rfl⟩
    refine { hquit.2 with pending := ?_ }
    show o.pending \ {op} = _
    rw [h.pending]
    exact hgone.symm

/-- Documents are put into the index. -/
theorem Reflects.upsert (h : Reflects s o opened) {documents : List Document}
    (hallow : projectorAllows (o.phase, opened) (.upsert documents)) (m : Moment) :
    ∃ o', Run indexFeed o o' ∧ Reflects (s.perform m (.upsert documents)).2 o' none ∧
      o'.phase = given o.phase := by
  rcases hallow with ⟨op, text, hphase, rfl⟩ | ⟨toCome, page, hphase, rfl⟩
  · have hphase : o.phase = .read op (some text) := hphase
    refine ⟨_, Run.start.step (.put op text hphase), ?_, by rw [hphase]; rfl⟩
    have htold : Reflects s { o with phase := .told op } none := h.moved fun _ _ hno => by cases hno
    refine { htold with copy := ?_ }
    show Function.update o.copy op.document (some text) =
      indexText (upsertDocument s.index (op.document.withText text))
    rw [indexText_upsert, h.copy]
    rfl
  · have hphase : o.phase = .copying toCome page := hphase
    refine ⟨_, Run.start.step (.upload toCome page hphase), ?_, by rw [hphase]; rfl⟩
    have hstays : Reflects s { o with phase := .copying toCome [] } none :=
      h.moved fun _ _ _ => ⟨toCome, page, hphase⟩
    refine { hstays with copy := ?_ }
    show fill o.copy page = indexText ((pageDocuments page).foldl upsertDocument s.index)
    rw [indexText_upserts, h.copy]

/-- A document is taken out of the index. -/
theorem Reflects.delete (h : Reflects s o opened) {scope : IndexScope}
    {candidates : List IndexCandidate}
    (hallow : projectorAllows (o.phase, opened) (.delete scope candidates)) (m : Moment) :
    ∃ o', Run indexFeed o o' ∧ Reflects (s.perform m (.delete scope candidates)).2 o' none ∧
      o'.phase = given o.phase := by
  obtain ⟨op, hphase, haction, rfl, rfl⟩ := hallow
  have hphase : o.phase = .took op := hphase
  have hadds : indexFeed.adds op = false := by
    show (op.action == .upsert) = false
    rw [haction]
    rfl
  refine ⟨_, Run.start.step (.drop op hphase hadds), ?_, by rw [hphase]; rfl⟩
  have htold : Reflects s { o with phase := .told op } none := h.moved fun _ _ hno => by cases hno
  refine { htold with copy := ?_ }
  show Function.update o.copy op.document none =
    indexText (deleteDocuments op.document.scope [⟨some op.document.kind, op.document.ref⟩] s.index)
  rw [indexText_delete, h.copy]

/-- The index is thrown away. -/
theorem Reflects.reset (h : Reflects s o opened) (hidle : o.phase = .idle) (m : Moment) :
    ∃ o', Run indexFeed o o' ∧ Reflects (s.perform m .reset).2 o' none ∧
      o'.phase = .copying Set.univ [] := by
  refine ⟨_, Run.start.step (.reset hidle), ?_, rfl⟩
  exact {
    content := h.content
    pending := h.pending
    copy := rfl
    opened := fun _ _ hno => by cases hno
    broken := fun _ _ _ => ⟨rfl, fun hno => hno⟩
    undamaged := fun hno => by cases hno }

/-- A page is listed. -/
theorem Reflects.list (h : Reflects s o opened) (hs : Projectable store s) {afterKind : Int}
    {afterRef : String} {limit : Nat}
    (hallow : projectorAllows (o.phase, opened) (.refs afterKind afterRef limit)) :
    ∃ o', Run indexFeed o o' ∧ Reflects s o' none ∧
      o'.phase = .copying (toCome limit (refsBehind afterKind afterRef limit s.memory.db)) [] := by
  obtain ⟨refs, hphase, hbehind⟩ := hallow
  have hphase : o.phase = .copying refs [] := hphase
  refine ⟨_, Run.start.step (.list refs _ [] hphase fun r hr htext => ?_),
    h.moved fun _ _ _ => ⟨refs, [], hphase⟩, rfl⟩
  rw [h.content] at htext
  exact toCome_refsBehind hs.world hs.documented (hbehind r hr) htext

/-- An operation is leased, or there is none. -/
theorem Reflects.lease (h : Reflects s o opened) (hidle : o.phase = .idle) (m : Moment)
    (leaseUntil : Nat) :
    ∃ o' opened', Run indexFeed o o' ∧ Reflects (s.perform m (.lease leaseUntil)).2 o' opened' ∧
      projectorMoves (o.phase, opened) (.lease leaseUntil) (s.perform m (.lease leaseUntil)).1
        (o'.phase, opened') := by
  have hpending := h.pending.trans (pending_lease m.now m.token m.locked leaseUntil).symm
  rcases lease_cases m.now m.token m.locked leaseUntil s.queue with
    ⟨row, hrow, hready, heq⟩ | ⟨_, hnone⟩
  · have hmine : row.operation ∈ o.pending := by
      rw [h.pending]
      exact ⟨row, hrow, rfl, (ready_iff.mp hready).1⟩
    have htook : Reflects s { o with phase := .took row.operation } none :=
      h.moved fun _ _ hno => by cases hno
    refine ⟨_, none, Run.start.step (.take row.operation hidle hmine), { htook with pending := hpending }, ?_⟩
    show projectorMoves _ (.lease leaseUntil) (leaseMemoryIndexOperation m.now m.token m.locked leaseUntil s.queue).1 _
    rw [heq]
    exact ⟨row.operation, m.token, rfl, rfl⟩
  · refine ⟨o, opened, Run.start, { h with pending := hpending }, ?_⟩
    show projectorMoves _ (.lease leaseUntil) (leaseMemoryIndexOperation m.now m.token m.locked leaseUntil s.queue).1 _
    cases hanswer : (leaseMemoryIndexOperation m.now m.token m.locked leaseUntil s.queue).1 with
    | error fault => exact rfl
    | ok leased =>
      cases leased with
      | none => exact rfl
      | some operation => exact absurd hanswer (hnone operation)

/-- The projector lets go of an operation. -/
theorem Reflects.retry (h : Reflects s o opened)
    (hphase : ∀ toCome page, o.phase ≠ .copying toCome page) (m : Moment)
    (operation : IndexOperation) (notBefore : Nat) (reason : String) :
    Run indexFeed o { o with phase := .idle } ∧
      Reflects (s.perform m (.retry operation notBefore reason)).2 { o with phase := .idle } none := by
  obtain ⟨hrun, hquit⟩ := h.quit hphase
  refine ⟨hrun, { hquit with pending := ?_ }⟩
  exact h.pending.trans (pending_retry m.now operation notBefore reason).symm

/-- What is carried out and answered is followed by the outbox. -/
theorem Reflects.perform (h : Reflects s o opened) (hs : Projectable store s)
    (hheld : ∀ op, o.phase.Holds op → op ∈ o.pending) {q : ProjectorAsk}
    (hallow : projectorAllows (o.phase, opened) q) (m : Moment) :
    ∃ o' opened', Run indexFeed o o' ∧ Reflects (s.perform m q).2 o' opened' ∧
      projectorMoves (o.phase, opened) q (s.perform m q).1 (o'.phase, opened') := by
  cases q with
  | now => exact ⟨o, opened, Run.start, h, rfl⟩
  | lease leaseUntil => exact h.lease hallow m leaseUntil
  | acknowledge operation =>
    obtain ⟨op, token, hhandled, rfl⟩ := hallow
    have hmine : op ∈ o.pending := hheld op (by
      rcases hhandled with hphase | hphase
      · have hphase : o.phase = .told op := hphase
        rw [hphase]
        exact rfl
      · have hphase : o.phase = .read op none := hphase
        rw [hphase]
        exact rfl)
    obtain ⟨o', hrun, hnext, hidle⟩ := h.acknowledge hs.law hhandled hmine m token
    refine ⟨o', none, hrun, hnext, ?_⟩
    show (o'.phase, none) = _
    rw [hidle]
  | retry operation notBefore reason =>
    obtain ⟨hrun, hnext⟩ := h.retry hallow m operation notBefore reason
    exact ⟨_, none, hrun, hnext, rfl⟩
  | episode r =>
    obtain ⟨hloads, hkind⟩ := hallow
    show ∃ o' opened', Run indexFeed o o' ∧ Reflects s o' opened' ∧ projectorMoves (o.phase, opened)
      (.episode r) (.ok (documentEpisode r s.memory.db)) (o'.phase, opened')
    cases hfound : documentEpisode r s.memory.db with
    | none =>
      obtain ⟨hrun, hnext⟩ := h.load hloads
      rw [documentText_notFound hkind hfound] at hrun hnext
      exact ⟨_, none, hrun, hnext, rfl⟩
    | some e =>
      refine ⟨o, some (r, e), Run.start, { h with opened := fun r' e' heq => ?_ }, rfl⟩
      obtain ⟨rfl, rfl⟩ := Prod.mk.inj (Option.some.inj heq)
      exact ⟨hkind, documentEpisode_some hfound⟩
  | sources ref tenantRef =>
    obtain ⟨r, e, hopened, hloads, rfl, rfl⟩ := hallow
    have hopened : opened = some (r, e) := hopened
    obtain ⟨hkind, he, href, hscope⟩ := h.opened r e hopened
    obtain ⟨hrun, hnext⟩ := h.load hloads
    rw [documentText_opened hs.world hs.collisionless he hkind href hscope] at hrun hnext
    exact ⟨_, none, hrun, hnext, ⟨r, e, hopened, rfl⟩⟩
  | version r =>
    obtain ⟨hloads, _⟩ := hallow
    obtain ⟨hrun, hnext⟩ := h.load hloads
    exact ⟨_, none, hrun, hnext, rfl⟩
  | refs afterKind afterRef limit =>
    obtain ⟨o', hrun, hnext, hphase⟩ := h.list hs hallow
    refine ⟨o', none, hrun, hnext, listed_refsBehind hs.documented afterKind afterRef limit, ?_⟩
    rw [hphase]
  | upsert documents =>
    obtain ⟨o', hrun, hnext, hphase⟩ := h.upsert hallow m
    refine ⟨o', none, hrun, hnext, ?_⟩
    show (o'.phase, none) = (given o.phase, none)
    rw [hphase]
  | delete scope candidates =>
    obtain ⟨o', hrun, hnext, hphase⟩ := h.delete hallow m
    refine ⟨o', none, hrun, hnext, ?_⟩
    show (o'.phase, none) = (given o.phase, none)
    rw [hphase]
  | reset =>
    obtain ⟨o', hrun, hnext, hphase⟩ := h.reset hallow m
    refine ⟨o', none, hrun, hnext, ?_⟩
    show (o'.phase, none) = (.copying Set.univ [], none)
    rw [hphase]

/-- So is what is carried out and not answered. -/
theorem Reflects.lose (h : Reflects s o opened) (hs : Projectable store s)
    (hheld : ∀ op, o.phase.Holds op → op ∈ o.pending) {q : ProjectorAsk}
    (hallow : projectorAllows (o.phase, opened) q) (m : Moment) {fault : Fault} {x : q.Answer}
    (hx : q.failure fault = some x) :
    ∃ o' opened', Run indexFeed o o' ∧ Reflects (s.perform m q).2 o' opened' ∧
      projectorMoves (o.phase, opened) q x (o'.phase, opened') := by
  cases q with
  | now => cases hx
  | lease leaseUntil =>
    obtain rfl := Option.some.inj hx
    have hpending := h.pending.trans (pending_lease m.now m.token m.locked leaseUntil).symm
    exact ⟨o, opened, Run.start, { h with pending := hpending }, rfl⟩
  | acknowledge operation =>
    obtain ⟨o', opened', hrun, hnext, hmoves⟩ :=
      h.perform (q := .acknowledge operation) hs hheld hallow m
    exact ⟨o', opened', hrun, hnext, hmoves⟩
  | retry operation notBefore reason =>
    obtain ⟨hrun, hnext⟩ := h.retry hallow m operation notBefore reason
    exact ⟨_, none, hrun, hnext, rfl⟩
  | upsert documents =>
    obtain rfl := Option.some.inj hx
    obtain ⟨o', hrun, hnext, hphase⟩ := h.upsert hallow m
    refine ⟨o', none, hrun, hnext, Or.inr ?_⟩
    rw [hphase]
  | delete scope candidates =>
    obtain rfl := Option.some.inj hx
    obtain ⟨o', hrun, hnext, hphase⟩ := h.delete hallow m
    refine ⟨o', none, hrun, hnext, Or.inr ?_⟩
    rw [hphase]
  | reset =>
    obtain rfl := Option.some.inj hx
    obtain ⟨o', hrun, hnext, hphase⟩ := h.reset hallow m
    refine ⟨o', none, hrun, hnext, Or.inr ?_⟩
    rw [hphase]
  | _ =>
    obtain rfl := Option.some.inj hx
    exact ⟨o, opened, Run.start, h, rfl⟩

/-- What is not carried out leaves the projector where it is, or without its operation. -/
theorem Reflects.refuse (h : Reflects s o opened) {q : ProjectorAsk}
    (hallow : projectorAllows (o.phase, opened) q) {fault : Fault} {x : q.Answer}
    (hx : q.failure fault = some x) :
    ∃ o' opened', Run indexFeed o o' ∧ Reflects s o' opened' ∧
      projectorMoves (o.phase, opened) q x (o'.phase, opened') := by
  cases q with
  | now => cases hx
  | acknowledge operation =>
    obtain ⟨op, token, hhandled, _⟩ := hallow
    obtain ⟨hrun, hnext⟩ := h.quit fun toCome page hno => by
      rcases hhandled with hphase | hphase
      · have hphase : o.phase = .told op := hphase
        rw [hphase] at hno
        cases hno
      · have hphase : o.phase = .read op none := hphase
        rw [hphase] at hno
        cases hno
    exact ⟨_, none, hrun, hnext, rfl⟩
  | retry operation notBefore reason =>
    obtain ⟨hrun, hnext⟩ := h.quit hallow
    exact ⟨_, none, hrun, hnext, rfl⟩
  | upsert documents =>
    obtain rfl := Option.some.inj hx
    exact ⟨o, opened, Run.start, h, Or.inl rfl⟩
  | delete scope candidates =>
    obtain rfl := Option.some.inj hx
    exact ⟨o, opened, Run.start, h, Or.inl rfl⟩
  | reset =>
    obtain rfl := Option.some.inj hx
    exact ⟨o, opened, Run.start, h, Or.inl rfl⟩
  | _ =>
    obtain rfl := Option.some.inj hx
    exact ⟨o, opened, Run.start, h, rfl⟩

end

end ChoraMem
