/-
The pages of an enumeration.

The cursor of a page spells the kind and the ref of its last row, and is read back to them
whatever characters the ref has.  The rows behind a cursor are those behind it in the order
the pages are in, so an enumeration is paging by key: it ends, repeats no cursor, and each
document comes once.
-/
import Mathlib.Data.Prod.Lex
import Mathlib.Data.String.Basic
import Mathlib.Data.Nat.Basic
import ChoraMem.Order.Best
import ChoraMem.Order.Paging
import ChoraMem.Storage.Projection

namespace ChoraMem

/-! ## Cursors -/

def DocumentRef.key (r : DocumentRef) : ℕ ×ₗ String := toLex (r.kind.order, r.ref)

/-- How a place among the rows is spelled. -/
def cursorText : Option (ℕ ×ₗ String) → String
  | none => ""
  | some k => toString (ofLex k).1 ++ ":" ++ (ofLex k).2

/-- The first separator ends the kind, so the ref may have any characters. -/
theorem parse_cursor {r : DocumentRef} (h : r.ref ≠ "") :
    parseMemoryIndexCursor (memoryIndexCursor r) = .ok ((r.kind.order : Int), r.ref) := by
  have hne : r.ref.toList.isEmpty = false := by
    rw [List.isEmpty_eq_false_iff]
    intro hnil
    exact h (by rw [← String.toList_inj, hnil]; rfl)
  have hchars : ∀ c : Char, c ≠ ':' → ∀ order : Int, atoi [c] = some order → ¬(order < 0 ∨ 2 < order) →
      ∀ text : String, text.toList = c :: ':' :: r.ref.toList →
        parseMemoryIndexCursor text = .ok (order, r.ref) := by
    intro c hc order hatoi horder text htext
    have hempty : (text == "") = false := by
      rw [beq_eq_false_iff_ne]
      rintro rfl
      cases htext
    unfold parseMemoryIndexCursor
    rw [hempty, if_neg Bool.false_ne_true, htext]
    rw [List.takeWhile_cons_of_pos (by simpa using hc), List.takeWhile_cons_of_neg (by simp),
      List.dropWhile_cons_of_pos (by simpa using hc), List.dropWhile_cons_of_neg (by simp)]
    simp only [List.drop_succ_cons, List.drop_zero, hne, hatoi, if_neg horder, Bool.false_eq_true,
      if_false, String.ofList_toList]
  cases hkind : r.kind with
  | episode =>
    exact hchars '0' (by decide) 0 (by decide) (by decide) _ (by
      rw [memoryIndexCursor, hkind, String.toList_append, String.toList_append]; rfl)
  | recollection =>
    exact hchars '1' (by decide) 1 (by decide) (by decide) _ (by
      rw [memoryIndexCursor, hkind, String.toList_append, String.toList_append]; rfl)
  | disposition =>
    exact hchars '2' (by decide) 2 (by decide) (by decide) _ (by
      rw [memoryIndexCursor, hkind, String.toList_append, String.toList_append]; rfl)

/-- Two rows have one cursor when they have one key. -/
theorem cursor_injective {r r' : DocumentRef} (hr : r.ref ≠ "") (hr' : r'.ref ≠ "")
    (h : memoryIndexCursor r = memoryIndexCursor r') : r.key = r'.key := by
  have hparse := parse_cursor hr
  rw [h, parse_cursor hr'] at hparse
  obtain ⟨horder, href⟩ := Prod.mk.inj (Except.ok.inj hparse)
  rw [DocumentRef.key, DocumentRef.key, Int.ofNat_inj.mp horder, href]

theorem cursor_ne_empty (r : DocumentRef) : memoryIndexCursor r ≠ "" := by
  intro h
  have hlen := congrArg String.length h
  rw [memoryIndexCursor, String.length_append, String.length_append] at hlen
  have hcolon : ":".length = 1 := rfl
  have hempty : "".length = 0 := rfl
  omega

/-! ## One page -/

/-- No two documents of a kind have one ref, and none has an empty one. -/
structure Db.Documented (d : Db) : Prop where
  unique : ((documentRefs d).map fun r => (r.kind, r.ref)).Nodup
  named : ∀ r ∈ documentRefs d, r.ref ≠ ""

def sortedDocumentRefs (d : Db) : List DocumentRef := (documentRefs d).insertionSort documentOrder

section

variable {d : Db}

theorem documentOrder_iff (a b : DocumentRef) : documentOrder a b ↔ a.key ≤ b.key := by
  rw [documentOrder, DocumentRef.key, DocumentRef.key, Prod.Lex.toLex_le_toLex]

theorem order_inj {a b : DocumentKind} (h : a.order = b.order) : a = b := by
  cases a <;> cases b <;> first | rfl | cases h

theorem faithful_documents (h : d.Documented) : Best.Faithful DocumentRef.key (documentRefs d) := by
  intro a ha b hb hkey
  have hpair : (a.kind, a.ref) = (b.kind, b.ref) := by
    have horder := congrArg (fun k => (ofLex k).1) hkey
    have href := congrArg (fun k => (ofLex k).2) hkey
    exact Prod.ext (order_inj horder) href
  exact List.inj_on_of_nodup_map h.unique ha hb hpair

/-- The rows are in strict order. -/
theorem sorted_documents (h : d.Documented) :
    (sortedDocumentRefs d).Pairwise fun a b => a.key < b.key := by
  have hperm : (sortedDocumentRefs d).Perm (documentRefs d) := List.perm_insertionSort _ _
  have hnodup : (sortedDocumentRefs d).Nodup :=
    hperm.nodup_iff.mpr (List.Nodup.of_map _ h.unique)
  have hsorted : (sortedDocumentRefs d).Pairwise fun a b => a.key ≤ b.key :=
    Best.insertionSort_sorted _ documentOrder_iff _
  refine (hsorted.and hnodup).imp_of_mem fun {a b} ha hb hab => lt_of_le_of_ne hab.1 fun hkey => ?_
  exact hab.2 (faithful_documents h a (hperm.mem_iff.mp ha) b (hperm.mem_iff.mp hb) hkey)

/-- The rows of a page: the query sorts what is behind the cursor. -/
theorem rows_eq (h : d.Documented) (p : DocumentRef → Bool) :
    ((documentRefs d).filter p).insertionSort documentOrder = (sortedDocumentRefs d).filter p := by
  have hperm : (((documentRefs d).filter p).insertionSort documentOrder).Perm
      ((sortedDocumentRefs d).filter p) :=
    (List.perm_insertionSort _ _).trans ((List.perm_insertionSort _ _).symm.filter p)
  refine Best.sorted_unique hperm ?_ (Best.insertionSort_sorted _ documentOrder_iff _) ?_
  · intro a ha b hb hkey
    have hmem : ∀ {r : DocumentRef},
        r ∈ ((documentRefs d).filter p).insertionSort documentOrder → r ∈ documentRefs d :=
      fun hr => (List.mem_filter.mp ((List.mem_insertionSort _).mp hr)).1
    exact faithful_documents h a (hmem ha) b (hmem hb) hkey
  · exact ((sorted_documents h).sublist List.filter_sublist).imp fun hlt => hlt.le

/-- A cursor that the enumeration gave out, or none. -/
def GivenOut (d : Db) (cursor : Option (ℕ ×ₗ String)) : Prop :=
  ∀ k, cursor = some k → ∃ r ∈ documentRefs d, k = r.key

/-- The rows behind a cursor are those that the query compares greater. -/
theorem enumerate_given {cursor : Option (ℕ ×ₗ String)} {limit : Int} (h : d.Documented)
    (hgiven : GivenOut d cursor) (hlow : 1 ≤ limit) (hhigh : limit ≤ 1000) :
    enumerateMemoryIndexDocuments (cursorText cursor) limit d =
      .ok (((Paging.after DocumentRef.key cursor (sortedDocumentRefs d)).take limit.toNat).filterMap
          fun r => memoryIndexDocument r d,
        if limit.toNat < (Paging.after DocumentRef.key cursor (sortedDocumentRefs d)).length then
          (((Paging.after DocumentRef.key cursor (sortedDocumentRefs d)).take
            limit.toNat).getLast?.map memoryIndexCursor).getD ""
        else "") := by
  obtain ⟨afterKind, afterRef, hparse, hbehind⟩ : ∃ afterKind afterRef,
      parseMemoryIndexCursor (cursorText cursor) = .ok (afterKind, afterRef) ∧
        (documentRefs d).insertionSort documentOrder = sortedDocumentRefs d ∧
        ∀ r : DocumentRef, (decide (afterKind < r.kind.order) ||
          (decide (afterKind = r.kind.order) && decide (afterRef < r.ref))) =
            cursor.all fun k => decide (k < r.key) := by
    cases cursor with
    | none =>
      refine ⟨-1, "", rfl, rfl, fun r => ?_⟩
      have hkind : (-1 : Int) < r.kind.order := by omega
      rw [decide_eq_true hkind]
      rfl
    | some k =>
      obtain ⟨r₀, hr₀, rfl⟩ := hgiven k rfl
      refine ⟨r₀.kind.order, r₀.ref, parse_cursor (h.named r₀ hr₀), rfl, fun r => ?_⟩
      rw [Option.all_some, DocumentRef.key, DocumentRef.key]
      by_cases hlt : r₀.kind.order < r.kind.order ∨
          (r₀.kind.order = r.kind.order ∧ r₀.ref < r.ref)
      · rw [decide_eq_true (Prod.Lex.toLex_lt_toLex.mpr hlt)]
        rcases hlt with hkind | ⟨hkind, href⟩
        · rw [decide_eq_true (Int.ofNat_lt.mpr hkind), Bool.true_or]
        · rw [hkind, decide_eq_true href, decide_eq_true rfl, Bool.and_true, Bool.or_true]
      · rw [decide_eq_false fun hkey => hlt (Prod.Lex.toLex_lt_toLex.mp hkey),
          decide_eq_false fun hkind => hlt (.inl (Int.ofNat_lt.mp hkind)), Bool.false_or]
        by_cases hkind : r₀.kind.order = r.kind.order
        · rw [decide_eq_false fun href => hlt (.inr ⟨hkind, href⟩), Bool.and_false]
        · rw [decide_eq_false fun heq => hkind (Int.ofNat_inj.mp heq), Bool.false_and]
  have hrows : ((documentRefs d).filter fun r => decide (afterKind < r.kind.order) ||
      (decide (afterKind = r.kind.order) && decide (afterRef < r.ref))).insertionSort documentOrder =
        Paging.after DocumentRef.key cursor (sortedDocumentRefs d) := by
    rw [rows_eq h]
    exact List.filter_congr fun r _ => hbehind.2 r
  have hlimit : ¬(limit ≤ 0 ∨ 1000 < limit) := by omega
  simp only [enumerateMemoryIndexDocuments, if_neg hlimit, hparse, bind, Except.bind, pure, Except.pure,
    hrows]
  generalize Paging.after DocumentRef.key cursor (sortedDocumentRefs d) = rows
  have htake : (rows.take (limit.toNat + 1)).take limit.toNat = rows.take limit.toNat := by
    rw [List.take_take, Nat.min_eq_left (Nat.le_succ _)]
  have hlen : limit.toNat < (rows.take (limit.toNat + 1)).length ↔ limit.toNat < rows.length := by
    rw [List.length_take]
    omega
  rw [htake, if_congr hlen rfl rfl]

/-! ## The run -/

/-- The pages from a cursor on, each cursor that is returned followed until none is. -/
inductive Paged (d : Db) (limit : Int) : String → List (String × List Document) → Prop
  | last {cursor : String} {documents : List Document}
      (h : enumerateMemoryIndexDocuments cursor limit d = .ok (documents, "")) :
      Paged d limit cursor [(cursor, documents)]
  | more {cursor next : String} {documents : List Document} {rest : List (String × List Document)}
      (h : enumerateMemoryIndexDocuments cursor limit d = .ok (documents, next)) (hnext : next ≠ "")
      (hrest : Paged d limit next rest) : Paged d limit cursor ((cursor, documents) :: rest)

theorem paged_run {cursor : Option (ℕ ×ₗ String)} {limit : Int}
    {run : List (Option (ℕ ×ₗ String) × List DocumentRef)} (h : d.Documented)
    (hlow : 1 ≤ limit) (hhigh : limit ≤ 1000) (hgiven : GivenOut d cursor)
    (hrun : Paging.Run DocumentRef.key limit.toNat (sortedDocumentRefs d) cursor run) :
    Paged d limit (cursorText cursor) (run.map fun page =>
      (cursorText page.1, page.2.filterMap fun r => memoryIndexDocument r d)) ∧
        ∀ page ∈ run, GivenOut d page.1 := by
  induction hrun with
  | @last cursor hle =>
    refine ⟨.last ?_, fun page hpage => ?_⟩
    · rw [enumerate_given h hgiven hlow hhigh, if_neg (Nat.not_lt.mpr hle), List.take_of_length_le hle]
    · rw [List.mem_singleton.mp hpage]
      exact hgiven
  | @more cursor item rest hlt hlast _ ih =>
    have hmem : item ∈ documentRefs d :=
      (List.perm_insertionSort _ _).mem_iff.mp
        (Paging.mem_after.mp (List.mem_of_mem_take (List.mem_of_getLast? hlast))).1
    have hitem : GivenOut d (some item.key) := fun k hk => ⟨item, hmem, (Option.some.inj hk).symm⟩
    obtain ⟨hpaged, hpages⟩ := ih hitem
    refine ⟨.more ?_ (cursor_ne_empty item) hpaged, fun page hpage => ?_⟩
    · rw [enumerate_given h hgiven hlow hhigh, if_pos hlt, hlast]
      rfl
    · rcases List.mem_cons.mp hpage with rfl | hpage
      · exact hgiven
      · exact hpages page hpage

theorem cursorText_inj {c c' : Option (ℕ ×ₗ String)} (h : d.Documented) (hc : GivenOut d c)
    (hc' : GivenOut d c') (heq : cursorText c = cursorText c') : c = c' := by
  cases c with
  | none =>
    cases c' with
    | none => rfl
    | some k' =>
      obtain ⟨r', _, rfl⟩ := hc' k' rfl
      exact absurd heq.symm (cursor_ne_empty r')
  | some k =>
    obtain ⟨r, hr, rfl⟩ := hc k rfl
    cases c' with
    | none => exact absurd heq (cursor_ne_empty r)
    | some k' =>
      obtain ⟨r', hr', rfl⟩ := hc' k' rfl
      rw [cursor_injective (h.named r hr) (h.named r' hr') heq]

end

/-- From the empty cursor the pages end, no cursor comes twice, and every document that can be
projected comes exactly once. -/
theorem pages_complete (d : Db) (h : d.Documented) (limit : Int) (hlow : 1 ≤ limit)
    (hhigh : limit ≤ 1000) :
    ∃ run, Paged d limit "" run ∧ (run.map Prod.fst).Nodup ∧
      ((run.flatMap Prod.snd).map fun document => (document.kind, document.ref)).Nodup ∧
      ∀ document, document ∈ run.flatMap Prod.snd ↔
        ∃ r ∈ documentRefs d, memoryIndexDocument r d = some document := by
  obtain ⟨run, hrun, hcursors, hflat⟩ := Paging.exists_run (sorted_documents h)
    (show 0 < limit.toNat by omega)
  have hnone : GivenOut d none := fun k hk => by cases hk
  obtain ⟨hpaged, hgiven⟩ := paged_run h hlow hhigh hnone hrun
  have hdocuments : (run.map fun page =>
      (cursorText page.1, page.2.filterMap fun r => memoryIndexDocument r d)).flatMap Prod.snd =
        (sortedDocumentRefs d).filterMap fun r => memoryIndexDocument r d := by
    rw [← hflat, List.filterMap_flatten, List.map_map, List.flatMap_map]
    rfl
  have hperm : (sortedDocumentRefs d).Perm (documentRefs d) := List.perm_insertionSort _ _
  refine ⟨_, hpaged, ?_, ?_, fun document => ?_⟩
  · rw [List.map_map]
    have hmap : run.map (Prod.fst ∘ fun page =>
        (cursorText page.1, page.2.filterMap fun r => memoryIndexDocument r d)) =
          (run.map Prod.fst).map cursorText := by
      rw [List.map_map]
      rfl
    rw [hmap]
    refine List.Nodup.map_on (fun c hc c' hc' heq => ?_) hcursors
    obtain ⟨page, hpage, rfl⟩ := List.mem_map.mp hc
    obtain ⟨page', hpage', rfl⟩ := List.mem_map.mp hc'
    exact cursorText_inj h (hgiven page hpage) (hgiven page' hpage') heq
  · rw [hdocuments]
    have hsub : (((sortedDocumentRefs d).filterMap fun r => memoryIndexDocument r d).map
        fun document => (document.kind, document.ref)).Sublist
          ((sortedDocumentRefs d).map fun r => (r.kind, r.ref)) := by
      generalize sortedDocumentRefs d = rows
      induction rows with
      | nil => exact List.Sublist.slnil
      | cons r rows ih =>
        cases hdoc : memoryIndexDocument r d with
        | none =>
          simp only [List.filterMap_cons, hdoc, List.map_cons]
          exact ih.cons _
        | some document =>
          simp only [List.filterMap_cons, hdoc, List.map_cons]
          obtain ⟨text, _, rfl⟩ := Option.map_eq_some_iff.mp hdoc
          exact ih.cons_cons _
    exact ((hperm.map _).nodup_iff.mpr h.unique).sublist hsub
  · rw [hdocuments, List.mem_filterMap]
    constructor
    · rintro ⟨r, hr, hdoc⟩
      exact ⟨r, hperm.mem_iff.mp hr, hdoc⟩
    · rintro ⟨r, hr, hdoc⟩
      exact ⟨r, hperm.mem_iff.mpr hr, hdoc⟩

/-- Refs that have the separator of the cursor. -/
def separatorDb : Db :=
  let owner : OwnerScope := ⟨.relationship, "T", "A", "R"⟩
  { seeds := [⟨owner, "seed"⟩]
    seedVersions := [⟨"T", "seed", ":", 1, "one", .active, "job"⟩,
      ⟨"T", "seed", "2:1", 2, "two", .active, "job"⟩] }

theorem pages_complete_separator :
    ∃ run, Paged separatorDb 1 "" run ∧ (run.map Prod.fst).Nodup ∧
      ((run.flatMap Prod.snd).map fun document => (document.kind, document.ref)).Nodup ∧
      ∀ document, document ∈ run.flatMap Prod.snd ↔
        ∃ r ∈ documentRefs separatorDb, memoryIndexDocument r separatorDb = some document :=
  pages_complete separatorDb ⟨by decide, by decide⟩ 1 (by decide) (by decide)

end ChoraMem
