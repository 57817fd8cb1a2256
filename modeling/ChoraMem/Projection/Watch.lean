/-
What the projector is allowed to ask.

The projector's work is watched as the work of a worker behind an outbox: from an operation
that is leased to the text of its document, to the index and to the acknowledgement, and from
an index that was reset through its pages to the last one.  Each piece of work follows the
watch, whatever it is answered and wherever the store is by then.
-/
import ChoraMem.Outbox.Copy
import ChoraMem.Projection.Pages
import ChoraMem.Projection.System

namespace ChoraMem

open Dialog Outbox

/-! ## Places -/

abbrev ProjectorPhase := Phase DocumentRef String IndexOperationRow

/-- Where the projector is, and the Episode that it has the row of. -/
abbrev Place := ProjectorPhase × Option (DocumentRef × EpisodeRow)

/-- The text of the document may be read. -/
def Loads (phase : ProjectorPhase) (r : DocumentRef) : Prop :=
  (∃ o, phase = .took o ∧ o.action = .upsert ∧ o.document = r) ∨
    ∃ toCome page, phase = .copying toCome page

/-- The phase after the text of a document was read. -/
def loaded (r : DocumentRef) (found : Option String) : ProjectorPhase → ProjectorPhase
  | .took o => .read o found
  | .copying toCome page => .copying (toCome \ {r}) (page ++ Outbox.entryOf r found)
  | phase => phase

/-- The phase after the index was told. -/
def given : ProjectorPhase → ProjectorPhase
  | .took o | .read o _ => .told o
  | .copying toCome _ => .copying toCome []
  | phase => phase

def pageDocuments (page : List (DocumentRef × String)) : List Document :=
  page.map fun entry => entry.1.withText entry.2

/-- A ref is behind a cursor. -/
def Behind (afterKind : Int) (afterRef : String) (r : DocumentRef) : Prop :=
  afterKind < r.kind.order ∨ (afterKind = r.kind.order ∧ afterRef < r.ref)

/-- What the refs of a page leave to be listed. -/
def toCome (limit : Nat) (rows : List DocumentRef) : Set DocumentRef :=
  fun r => r ∈ rows ∨ (rows.length = limit ∧ ∀ x ∈ rows, x.key < r.key)

/-- Rows as the query returns them. -/
structure Listed (limit : Nat) (rows : List DocumentRef) : Prop where
  sorted : rows.Pairwise fun a b => a.key < b.key
  named : ∀ r ∈ rows, r.ref ≠ ""
  length : rows.length ≤ limit

/-- The work on an operation is done. -/
def Handled (o : IndexOperationRow) (phase : ProjectorPhase) : Prop :=
  phase = .told o ∨ phase = .read o none

def projectorAllows (place : Place) : ProjectorAsk → Prop
  | .now => True
  | .lease _ => place.1 = .idle
  | .acknowledge operation => ∃ o token, Handled o place.1 ∧ operation = o.leased token
  | .retry _ _ _ => ∀ toCome page, place.1 ≠ .copying toCome page
  | .episode r => Loads place.1 r ∧ r.kind = .episode
  | .sources ref tenantRef => ∃ r e, place.2 = some (r, e) ∧ Loads place.1 r ∧ ref = r.ref ∧
      tenantRef = r.scope.tenantRef
  | .version r => Loads place.1 r ∧ r.kind ≠ .episode
  | .refs afterKind afterRef _ => ∃ toCome, place.1 = .copying toCome [] ∧
      ∀ r ∈ toCome, Behind afterKind afterRef r
  | .upsert documents =>
    (∃ o text, place.1 = .read o (some text) ∧ documents = [o.document.withText text]) ∨
      ∃ toCome page, place.1 = .copying toCome page ∧ documents = pageDocuments page
  | .delete scope candidates => ∃ o, place.1 = .took o ∧ o.action = .delete ∧
      scope = o.document.scope ∧ candidates = [⟨some o.document.kind, o.document.ref⟩]
  | .reset => place.1 = .idle

def projectorMoves (place : Place) : (q : ProjectorAsk) → q.Answer → Place → Prop
  | .now, _, next => next = place
  | .lease _, .ok (some operation), next =>
    ∃ o token, operation = o.leased token ∧ next = (.took o, none)
  | .lease _, _, next => next = place
  | .acknowledge _, _, next | .retry _ _ _, _, next => next = (.idle, none)
  | .episode r, .ok (some e), next => next = (place.1, some (r, e))
  | .episode r, .ok none, next => next = (loaded r none place.1, none)
  | .sources _ _, .ok sources, next =>
    ∃ r e, place.2 = some (r, e) ∧ next = (loaded r (episodeText e sources) place.1, none)
  | .version r, .ok text, next => next = (loaded r text place.1, none)
  | .refs _ _ limit, .ok rows, next => Listed limit rows ∧ next = (.copying (toCome limit rows) [], none)
  | .episode _, .error _, next | .sources _ _, .error _, next | .version _, .error _, next
  | .refs _ _ _, .error _, next => next = place
  | .upsert _, .ok _, next | .delete _ _, .ok _, next => next = (given place.1, none)
  | .upsert _, .error _, next | .delete _ _, .error _, next =>
    next = place ∨ next = (given place.1, none)
  | .reset, .ok _, next => next = (.copying Set.univ [], none)
  | .reset, .error _, next => next = place ∨ next = (.copying Set.univ [], none)

def projectorWatch : Watch ProjectorAsk.Answer Place where
  allows := projectorAllows
  moves := projectorMoves

/-- What is left to be listed is behind the cursor. -/
def BehindCursor (cursor : String) (refs : Set DocumentRef) : Prop :=
  ∀ afterKind afterRef, parseMemoryIndexCursor cursor = .ok (afterKind, afterRef) →
    ∀ r ∈ refs, Behind afterKind afterRef r

/-- Where a piece of work may end. -/
def Ended : Report → Place → Prop
  | .again cursor, place => ∃ toCome, place.1 = .copying toCome [] ∧ BehindCursor cursor toCome
  | .rebuilt, place => place.1 = .copying ∅ []
  | .processed _ _, _ | .failed _, _ => True

/-! ## Operations -/

section

variable {place : Place} {r : DocumentRef} {o : IndexOperationRow}

/-- A document that was read is that of the place. -/
def Rehydrated (r : DocumentRef) (place : Place) : Except Fault (Option Document) → Place → Prop
  | .ok found, next => ∃ text, found = Option.map r.withText text ∧ next = (loaded r text place.1, none)
  | .error _, next => next.1 = place.1

theorem follows_rehydrateEpisode (hloads : Loads place.1 r) (hkind : r.kind = .episode) :
    Follows projectorWatch (Rehydrated r place) place (rehydrateEpisode r) := by
  refine ⟨⟨hloads, hkind⟩, fun episode next hmove => ?_⟩
  cases episode with
  | error fault =>
    obtain rfl : next = place := hmove
    exact rfl
  | ok episode =>
    cases episode with
    | none => exact ⟨none, rfl, hmove⟩
    | some e =>
      obtain rfl : next = (place.1, some (r, e)) := hmove
      refine ⟨⟨r, e, rfl, hloads, rfl, rfl⟩, fun sources next hmove => ?_⟩
      cases sources with
      | error fault =>
        obtain rfl : next = (place.1, some (r, e)) := hmove
        exact rfl
      | ok sources =>
        obtain ⟨r', e', heq, rfl⟩ := hmove
        obtain ⟨rfl, rfl⟩ := Prod.mk.inj (Option.some.inj heq)
        exact ⟨_, rfl, rfl⟩

theorem follows_rehydrateVersion (operation : String) (hloads : Loads place.1 r)
    (hkind : r.kind ≠ .episode) :
    Follows projectorWatch (Rehydrated r place) place (rehydrateVersion operation r) := by
  refine ⟨⟨hloads, hkind⟩, fun text next hmove => ?_⟩
  cases text with
  | error fault =>
    obtain rfl : next = place := hmove
    exact rfl
  | ok text => exact ⟨text, rfl, hmove⟩

theorem follows_rehydrate (hloads : Loads place.1 r) :
    Follows projectorWatch (Rehydrated r place) place (rehydrate r) := by
  unfold rehydrate
  cases hkind : r.kind with
  | episode => exact follows_rehydrateEpisode hloads hkind
  | recollection =>
    exact follows_rehydrateVersion _ hloads fun h => by
      rw [hkind] at h
      cases h
  | disposition =>
    exact follows_rehydrateVersion _ hloads fun h => by
      rw [hkind] at h
      cases h

/-- Where an operation that was leased is left. -/
def Left (o : IndexOperationRow) : Except Fault Unit → Place → Prop
  | .ok _, next => Handled o next.1
  | .error _, next => ∀ toCome page, next.1 ≠ .copying toCome page

theorem follows_apply (token : String) :
    Follows projectorWatch (Left o) (.took o, none) (apply (o.leased token)) := by
  unfold apply
  cases haction : (o.leased token).action with
  | upsert =>
    refine Follows.bind (follows_rehydrate (Or.inl ⟨o, rfl, haction, rfl⟩)) fun found next hfound => ?_
    cases found with
    | error fault =>
      intro toCome page hphase
      rw [hfound] at hphase
      cases hphase
    | ok found =>
      obtain ⟨text, rfl, rfl⟩ := hfound
      cases text with
      | none => exact Or.inr rfl
      | some text =>
        refine follows_ite (fun _ toCome page hphase => ?_) fun _ => ?_
        · cases hphase
        · refine ⟨Or.inl ⟨o, text, rfl, rfl⟩, fun answer next hmove => ?_⟩
          cases answer with
          | error fault =>
            rcases hmove with rfl | rfl
            · intro toCome page hphase
              cases hphase
            · intro toCome page hphase
              cases hphase
          | ok _ =>
            obtain rfl : next = _ := hmove
            exact Or.inl rfl
  | delete =>
    refine follows_ite (fun _ toCome page hphase => ?_) fun _ => ?_
    · cases hphase
    · refine ⟨⟨o, rfl, haction, rfl, rfl⟩, fun answer next hmove => ?_⟩
      cases answer with
      | error fault =>
        rcases hmove with rfl | rfl
        · intro toCome page hphase
          cases hphase
        · intro toCome page hphase
          cases hphase
      | ok _ =>
        obtain rfl : next = _ := hmove
        exact Or.inl rfl

theorem follows_settle (config : ProjectorConfig) (token : String) {outcome : Except Fault Unit}
    (h : Left o outcome place) : Follows projectorWatch Ended place (settle config (o.leased token) outcome) := by
  cases outcome with
  | error fault =>
    refine ⟨trivial, fun now next hmove => ?_⟩
    obtain rfl : next = place := hmove
    refine ⟨h, fun retried next _ => ?_⟩
    cases retried <;> exact trivial
  | ok _ =>
    refine ⟨⟨o, token, h, rfl⟩, fun acknowledged next _ => ?_⟩
    cases acknowledged <;> exact trivial

theorem follows_processOne (config : ProjectorConfig) :
    Follows projectorWatch Ended (.idle, none) (processOne config) := by
  refine ⟨trivial, fun now next hmove => ?_⟩
  obtain rfl : next = _ := hmove
  refine ⟨rfl, fun leased next hmove => ?_⟩
  cases leased with
  | error fault => exact trivial
  | ok leased =>
    cases leased with
    | none => exact trivial
    | some operation =>
      obtain ⟨o, token, rfl, rfl⟩ := hmove
      exact Follows.bind (follows_apply token) fun outcome next h => follows_settle config token h

end

/-! ## Rebuilding -/

section

variable {place : Place}

/-- What the documents of a page are, and what is left to come. -/
def PageRead (refs : List DocumentRef) (toCome : Set DocumentRef) (page : List (DocumentRef × String)) :
    Except Fault (List Document) → Place → Prop
  | .ok documents, next => ∃ more, documents = pageDocuments more ∧
      next.1 = .copying (toCome \ {r | r ∈ refs}) (page ++ more)
  | .error _, _ => True

theorem follows_rehydrateAll {refs : List DocumentRef} {toCome : Set DocumentRef}
    {page : List (DocumentRef × String)} (hphase : place.1 = .copying toCome page) :
    Follows projectorWatch (PageRead refs toCome page) place (rehydrateAll refs) := by
  induction refs generalizing place toCome page with
  | nil =>
    refine ⟨[], rfl, ?_⟩
    rw [hphase]
    simp
  | cons r rest ih =>
    refine Follows.bind (follows_rehydrate (Or.inr ⟨toCome, page, hphase⟩)) fun found next hfound => ?_
    cases found with
    | error fault => exact trivial
    | ok found =>
      obtain ⟨text, rfl, rfl⟩ := hfound
      have hnext : loaded r text place.1 = .copying (toCome \ {r}) (page ++ Outbox.entryOf r text) := by
        rw [hphase]
        rfl
      refine Follows.bind (ih hnext) fun documents next hdocuments => ?_
      cases documents with
      | error fault => exact trivial
      | ok documents =>
        obtain ⟨more, rfl, hmore⟩ := hdocuments
        refine ⟨Outbox.entryOf r text ++ more, ?_, ?_⟩
        · cases text with
          | none => rfl
          | some text => rfl
        · rw [hmore, List.append_assoc, Set.sdiff_sdiff]
          congr 2
          ext x
          simp

/-- The last row that was taken is behind no other row that was not. -/
theorem toCome_of_more {limit : Nat} {rows : List DocumentRef} (h : Listed (limit + 1) rows)
    (hlimit : 0 < limit) (hmore : limit < rows.length) :
    ∃ r, nextCursor limit rows = memoryIndexCursor r ∧ r.ref ≠ "" ∧
      ∀ x ∈ toCome (limit + 1) rows \ {x | x ∈ rows.take limit}, r.key < x.key := by
  have hlast : limit - 1 < (rows.take limit).length := by
    rw [List.length_take]
    omega
  have hget : (rows.take limit).getLast? = some (rows.take limit)[limit - 1] := by
    rw [List.getLast?_eq_getElem?, List.length_take, Nat.min_eq_left hmore.le]
    exact List.getElem?_eq_getElem hlast
  have hmem : (rows.take limit)[limit - 1] ∈ rows := List.mem_of_mem_take (List.getElem_mem hlast)
  refine ⟨(rows.take limit)[limit - 1], ?_, h.named _ hmem, fun x hx => ?_⟩
  · rw [nextCursor, if_pos hmore, hget]
    rfl
  · obtain ⟨hcome, hnot⟩ := hx
    rcases hcome with hrow | ⟨_, hbehind⟩
    · have hdrop : x ∈ rows.drop limit := by
        rw [← List.take_append_drop limit rows, List.mem_append] at hrow
        exact hrow.resolve_left hnot
      have hsorted := h.sorted
      rw [← List.take_append_drop limit rows, List.pairwise_append] at hsorted
      exact hsorted.2.2 _ (List.getElem_mem hlast) x hdrop
    · exact hbehind _ hmem

theorem behind_iff {r x : DocumentRef} : Behind r.kind.order r.ref x ↔ r.key < x.key := by
  rw [DocumentRef.key, DocumentRef.key, Prod.Lex.toLex_lt_toLex, Behind]
  exact or_congr Int.ofNat_lt (and_congr_left fun _ => Int.ofNat_inj)

theorem behindCursor_of_key {r : DocumentRef} (hne : r.ref ≠ "") {refs : Set DocumentRef}
    (h : ∀ x ∈ refs, r.key < x.key) : BehindCursor (memoryIndexCursor r) refs := by
  intro afterKind afterRef hparse x hx
  rw [parse_cursor hne] at hparse
  obtain ⟨rfl, rfl⟩ := Prod.mk.inj (Except.ok.inj hparse)
  exact behind_iff.mpr (h x hx)

/-- Everything is behind the empty cursor. -/
theorem behindCursor_empty (refs : Set DocumentRef) : BehindCursor "" refs := by
  intro afterKind afterRef hparse x _
  obtain ⟨rfl, rfl⟩ := Prod.mk.inj (Except.ok.inj hparse)
  exact Or.inl (by omega)

/-- A page that was enumerated, and what its cursor leaves to come. -/
def Enumerated : Except Fault (List Document × String) → Place → Prop
  | .ok (documents, cursor), next => ∃ toCome page, next.1 = .copying toCome page ∧
      documents = pageDocuments page ∧ BehindCursor cursor toCome ∧ (cursor = "" → toCome = ∅)
  | .error _, _ => True

theorem follows_enumerate {cursor : String} {limit : Int} {refs : Set DocumentRef}
    (hphase : place.1 = .copying refs []) (hbehind : BehindCursor cursor refs) :
    Follows projectorWatch Enumerated place (enumerate cursor limit) := by
  unfold enumerate
  refine follows_ite (fun _ => trivial) fun hlimit => ?_
  have hpos : 0 < limit.toNat := by omega
  cases hparse : parseMemoryIndexCursor cursor with
  | error fault => exact trivial
  | ok after =>
    obtain ⟨afterKind, afterRef⟩ := after
    refine ⟨⟨refs, hphase, hbehind afterKind afterRef hparse⟩, fun rows next hmove => ?_⟩
    cases rows with
    | error fault => exact trivial
    | ok rows =>
      obtain ⟨hlisted, rfl⟩ := hmove
      refine Follows.bind (follows_rehydrateAll rfl) fun documents next hdocuments => ?_
      cases documents with
      | error fault => exact trivial
      | ok documents =>
        obtain ⟨more, rfl, hmore⟩ := hdocuments
        refine ⟨_, _, hmore, rfl, ?_⟩
        by_cases hlen : limit.toNat < rows.length
        · obtain ⟨r, hcursor, hne, hafter⟩ := toCome_of_more hlisted hpos hlen
          rw [hcursor]
          exact ⟨behindCursor_of_key hne hafter, fun hempty => absurd hempty (cursor_ne_empty r)⟩
        · have hnone : toCome (limit.toNat + 1) rows \ {x | x ∈ rows.take limit.toNat} = ∅ := by
            rw [List.take_of_length_le (by omega), Set.eq_empty_iff_forall_notMem]
            rintro x ⟨hrow | ⟨hlength, _⟩, hnot⟩
            · exact hnot hrow
            · omega
          rw [hnone]
          exact ⟨fun _ _ _ x hx => hx.elim, fun _ => rfl⟩

theorem ended_turn {cursor next : String} {refs : Set DocumentRef} (hphase : place.1 = .copying refs [])
    (hbehind : BehindCursor next refs) (hlast : next = "" → refs = ∅) : Ended (turn cursor next) place := by
  unfold turn
  by_cases hempty : next = ""
  · rw [if_pos (beq_iff_eq.mpr hempty)]
    show place.1 = .copying ∅ []
    rw [hphase, hlast hempty]
  · rw [if_neg (mt beq_iff_eq.mp hempty)]
    by_cases hsame : next = cursor
    · rw [if_pos (beq_iff_eq.mpr hsame)]
      exact trivial
    · rw [if_neg (mt beq_iff_eq.mp hsame)]
      exact ⟨refs, hphase, hbehind⟩

theorem follows_startRebuild : Follows projectorWatch Ended (.idle, none) startRebuild := by
  refine ⟨rfl, fun answer next hmove => ?_⟩
  cases answer with
  | error fault => exact trivial
  | ok _ =>
    obtain rfl : next = (.copying Set.univ [], none) := hmove
    exact ⟨Set.univ, rfl, behindCursor_empty _⟩

theorem follows_rebuildPage (config : ProjectorConfig) {cursor : String}
    (h : Ended (.again cursor) place) : Follows projectorWatch Ended place (rebuildPage config cursor) := by
  obtain ⟨refs, hphase, hbehind⟩ := h
  refine Follows.bind (follows_enumerate hphase hbehind) fun page next hpage => ?_
  cases page with
  | error fault => exact trivial
  | ok page =>
    obtain ⟨documents, cursor'⟩ := page
    obtain ⟨refs', loaded, hphase', hdocuments, hbehind', hlast⟩ := hpage
    refine follows_ite (fun hempty => ?_) fun _ => follows_ite (fun _ => trivial) fun _ => ?_
    · have hnil : loaded = [] := by
        rw [hdocuments, List.isEmpty_iff] at hempty
        exact List.map_eq_nil_iff.mp hempty
      rw [hnil] at hphase'
      exact ended_turn hphase' hbehind' hlast
    · refine ⟨Or.inr ⟨refs', loaded, hphase', hdocuments⟩, fun answer next' hmove => ?_⟩
      cases answer with
      | error fault => exact trivial
      | ok _ =>
        obtain rfl : next' = (given next.1, none) := hmove
        refine ended_turn ?_ hbehind' hlast
        show given next.1 = .copying refs' []
        rw [hphase']
        rfl

end

end ChoraMem
