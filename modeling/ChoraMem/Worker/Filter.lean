/-
When removing is filtering.

A batch is a list of blocks, and the lines of Python in it are those of its blocks one after
another.  The pass leaves out parts, the parser reads blocks.  A part is a block again just
when Python does not cut its text and none of its lines but the first is a marker, and by
counting them no two parts can stand for one block.
-/
import ChoraMem.Worker.Removal

namespace ChoraMem

open Text

/-- The pass is meant to remove the change. -/
def Change.ownedBy (changes : List String) (change : Change) : Bool :=
  change.target == targetNewDisposition && changes.contains change.operation.line

/-! ## Blocks -/

section

variable {change : Change} {batch : List Change} {changes block lines : List String}
  {blocks : List (List String)}

theorem pythonBlock_append (a b : List String) : pythonBlock (a ++ b) = pythonBlock a ++ pythonBlock b :=
  List.flatMap_append

theorem pythonBlock_stable {refs : List String} (h : ∀ ref ∈ refs, stableRef ref = true) :
    pythonBlock refs = refs := by
  induction refs with
  | nil => rfl
  | cons ref refs ih =>
    rw [pythonBlock, List.flatMap_cons, lineParts_stable (h ref List.mem_cons_self)]
    show [ref] ++ pythonBlock refs = ref :: refs
    rw [ih fun r hr => h r (List.mem_cons_of_mem _ hr)]
    rfl

theorem stable_target (h : change.Valid) : stableRef change.target = true := by
  rcases h.target with hnew | hold
  · rw [Change.isNew, Bool.or_eq_true, beq_iff_eq, beq_iff_eq] at hnew
    rcases hnew with hnew | hnew <;> rw [hnew] <;> decide
  · rw [existingStableRef, Bool.and_eq_true] at hold
    exact hold.1

theorem stable_basis (h : change.Valid) {ref : String} (href : ref ∈ change.basisRefs) :
    stableRef ref = true ∧ ref ≠ "TARGET" := by
  have hstable := h.refs ref href
  rw [stableBasisRef, Bool.and_eq_true, Bool.not_eq_true', List.contains_eq_mem,
    decide_eq_false_iff_not] at hstable
  refine ⟨hstable.1, fun heq => hstable.2 ?_⟩
  rw [heq]
  exact List.mem_cons_self

theorem application_stable (application : Application) :
    stableRef application.text = true ∧ application.text ≠ "TARGET" := by
  cases application <;> decide

/-- Only the lines of the operation may be cut. -/
theorem pythonBlock_lines {ls : List String} (h : change.Valid) :
    pythonBlock (["TARGET", change.target, "APPLICATION", change.application.text, "CHANGE"] ++ ls ++
        "BASIS" :: change.basisRefs) =
      ["TARGET", change.target, "APPLICATION", change.application.text, "CHANGE"] ++ pythonBlock ls ++
        "BASIS" :: change.basisRefs := by
  have hhead : pythonBlock ["TARGET", change.target, "APPLICATION", change.application.text, "CHANGE"] =
      ["TARGET", change.target, "APPLICATION", change.application.text, "CHANGE"] := by
    refine pythonBlock_stable fun ref href => ?_
    simp only [List.mem_cons, List.not_mem_nil, or_false] at href
    rcases href with rfl | rfl | rfl | rfl | rfl
    · decide
    · exact stable_target h
    · decide
    · exact (application_stable change.application).1
    · decide
  have hbasis : pythonBlock ("BASIS" :: change.basisRefs) = "BASIS" :: change.basisRefs := by
    refine pythonBlock_stable fun ref href => ?_
    rcases List.mem_cons.mp href with rfl | href
    · decide
    · exact (stable_basis h href).1
  rw [pythonBlock_append, pythonBlock_append, hhead, hbasis]

/-- A block whose text Python does not cut is the same block to it. -/
theorem BlockLines.python (h : BlockLines change block) (hvalid : change.Valid)
    (hu : Unbroken change.text) : BlockLines change (pythonBlock block) := by
  obtain ⟨ls, hls, rfl⟩ := h
  exact ⟨_, hls.python hvalid.body hu, pythonBlock_lines hvalid⟩

/-- How a block starts in Python. -/
theorem BlockLines.python_first (h : BlockLines change block) (hvalid : change.Valid) :
    ∃ first more, pythonBlock block =
        "TARGET" :: change.target :: "APPLICATION" :: change.application.text :: "CHANGE" :: first :: more ∧
      (first = change.operation.line ∨ (change.operation.line ++ " ").toList <+: first.toList) := by
  obtain ⟨ls, hls, rfl⟩ := h
  obtain ⟨first, more, hmore, hfirst⟩ := operation_first hls
  refine ⟨first, more ++ "BASIS" :: change.basisRefs, ?_, hfirst⟩
  rw [pythonBlock_lines hvalid, hmore]
  rfl

/-- The text of a block is part of one of its lines. -/
theorem BlockLines.unbroken (h : BlockLines change block) (hlines : ∀ line ∈ block, Unbroken line) :
    Unbroken change.text := by
  obtain ⟨ls, hls, rfl⟩ := h
  cases hls with
  | word _ ht =>
    rw [ht]
    exact fun c hc => absurd hc List.not_mem_nil
  | own _ => exact hlines _ (by simp)
  | @inline _ pad _ =>
    intro c hc
    refine hlines (String.ofList (change.operation.line.toList ++ ' ' :: pad ++ change.text.toList))
      (by simp) c ?_
    rw [String.toList_ofList]
    exact List.mem_append_right _ hc

/-- Where all parts of a block are complete, it is one part. -/
theorem BlockLines.unmarked (h : BlockLines change block) (hvalid : change.Valid)
    (hcomplete : ∀ part ∈ parts block, completeBlock part = true) :
    ∃ tail, block = "TARGET" :: tail ∧ "TARGET" ∉ tail := by
  obtain ⟨ls, hls, rfl⟩ := h
  refine ⟨change.target :: "APPLICATION" :: change.application.text :: "CHANGE" ::
    (ls ++ "BASIS" :: change.basisRefs), rfl, ?_⟩
  have hfirst := hcomplete _ (show "TARGET" :: (cutBefore (· == "TARGET") (change.target ::
    "APPLICATION" :: change.application.text :: "CHANGE" ::
      (ls ++ "BASIS" :: change.basisRefs))).1 ∈ _ from List.mem_cons_self)
  have htarget : change.target ≠ "TARGET" := by
    intro heq
    rw [heq, cutBefore_target] at hfirst
    cases hfirst
  have hbasis : "TARGET" ∉ "BASIS" :: change.basisRefs := by
    intro hmem
    rcases List.mem_cons.mp hmem with heq | hmem
    · exact absurd heq (by decide)
    · exact (stable_basis hvalid hmem).2 rfl
  have hls : "TARGET" ∉ ls := by
    cases hls with
    | word _ _ => cases change.operation <;> decide
    | own _ =>
      intro hmem
      have htext : change.text = "TARGET" := by
        rcases List.mem_cons.mp hmem with heq | hmem
        · exact absurd heq (by cases change.operation <;> decide)
        · exact (List.mem_singleton.mp hmem).symm
      have hop : change.operation.line ≠ "TARGET" := by cases change.operation <;> decide
      rw [cutBefore_other htarget, cutBefore_other (by decide),
        cutBefore_other (application_stable change.application).2, cutBefore_other (by decide),
        List.cons_append, cutBefore_other hop, htext] at hfirst
      cases hfirst
    | @inline _ pad _ =>
      intro hmem
      have hspace : ' ' ∈ "TARGET".toList := by
        rw [List.mem_singleton.mp hmem, String.toList_ofList]
        simp
      exact absurd hspace (by decide)
  simp only [List.mem_cons, List.mem_append, not_or] at hbasis ⊢
  exact ⟨Ne.symm htarget, by decide, Ne.symm (application_stable change.application).2, by decide,
    hls, hbasis⟩

theorem BlockLines.complete (h : BlockLines change block) (hvalid : change.Valid) :
    completeBlock block = true := by
  obtain ⟨ls, hls, rfl⟩ := h
  obtain ⟨ref, refs, hrefs⟩ := List.exists_cons_of_ne_nil hvalid.basis
  rw [hrefs]
  cases hls <;> rfl

/-! ## Operations -/

theorem takeWhile_space {word line : List Char} (hword : ' ' ∉ word) (h : word ++ [' '] <+: line) :
    line.takeWhile (· != ' ') = word := by
  obtain ⟨rest, rfl⟩ := h
  rw [List.append_assoc, List.takeWhile_append_of_pos]
  · show word ++ [] = word
    rw [List.append_nil]
  · intro c hc
    rw [bne_iff_ne]
    rintro rfl
    exact hword hc

theorem operation_no_space (operation : Operation) : ' ' ∉ operation.line.toList := by
  cases operation <;> decide

/-- The line of an operation is owned when the operation is. -/
theorem ownsOperation_first {operation : Operation} {first : String}
    (hchanges : ∀ name ∈ changes, name ∈ ["ADAPT", "TEXT"])
    (hfirst : first = operation.line ∨ (operation.line ++ " ").toList <+: first.toList) :
    ownsOperation changes first = changes.contains operation.line := by
  have hspace : ∀ name ∈ changes, ' ' ∉ name.toList := by
    intro name hname
    have hcases := hchanges name hname
    simp only [List.mem_cons, List.not_mem_nil, or_false] at hcases
    rcases hcases with rfl | rfl <;> decide
  have hword : ∀ name : String, (name ++ " ").toList = name.toList ++ [' '] :=
    fun name => String.toList_append
  rw [ownsOperation]
  rcases hfirst with rfl | hfirst
  · have hnone : (changes.any fun change =>
        (change ++ " ").toList.isPrefixOf operation.line.toList) = false := by
      rw [List.any_eq_false]
      intro name _ hstart
      rw [List.isPrefixOf_iff_prefix, hword] at hstart
      exact operation_no_space operation (hstart.subset (by simp))
    rw [hnone, Bool.or_false]
  · rw [hword] at hfirst
    have hnone : changes.contains first = false := by
      rw [List.contains_eq_mem, decide_eq_false_iff_not]
      intro hmem
      exact hspace first hmem (hfirst.subset (by simp))
    rw [hnone, Bool.false_or, Bool.eq_iff_iff, List.any_eq_true, List.contains_iff_mem]
    constructor
    · rintro ⟨name, hname, hstart⟩
      rw [List.isPrefixOf_iff_prefix, hword] at hstart
      have heq : name = operation.line := by
        rw [← String.toList_inj, ← takeWhile_space (hspace name hname) hstart,
          takeWhile_space (operation_no_space operation) hfirst]
      rw [← heq]
      exact hname
    · intro hmem
      refine ⟨_, hmem, ?_⟩
      rw [List.isPrefixOf_iff_prefix, hword]
      exact hfirst

/-- The first part of a block is owned when its change is. -/
theorem BlockLines.parts_first (h : BlockLines change block) (hvalid : change.Valid)
    (hchanges : ∀ name ∈ changes, name ∈ ["ADAPT", "TEXT"])
    (hcomplete : ∀ part ∈ parts (pythonBlock block), completeBlock part = true) :
    ∃ part rest, parts (pythonBlock block) = part :: rest ∧
      ownedBlock changes part = change.ownedBy changes := by
  obtain ⟨first, more, hblock, hfirst⟩ := h.python_first hvalid
  rw [hblock] at hcomplete ⊢
  refine ⟨_, _, rfl, ?_⟩
  have hpart := hcomplete _ (show "TARGET" :: (cutBefore (· == "TARGET") (change.target ::
    "APPLICATION" :: change.application.text :: "CHANGE" :: first :: more)).1 ∈ _
      from List.mem_cons_self)
  have htarget : change.target ≠ "TARGET" := by
    intro heq
    rw [heq, cutBefore_target] at hpart
    cases hpart
  have hop : first ≠ "TARGET" := by
    rintro rfl
    rcases hfirst with heq | hstart
    · exact absurd heq (by cases change.operation <;> decide)
    · have hspace : ' ' ∈ "TARGET".toList := hstart.subset (by rw [String.toList_append]; simp)
      exact absurd hspace (by decide)
  rw [cutBefore_other htarget, cutBefore_other (by decide),
    cutBefore_other (application_stable change.application).2, cutBefore_other (by decide),
    cutBefore_other hop]
  show (change.target == targetNewDisposition && ownsOperation changes first) = _
  rw [ownsOperation_first hchanges hfirst, Change.ownedBy]

/-- Six lines that start as an owned block does. -/
def OwnedHead (changes values : List String) : Prop :=
  ∃ application operation, ownsOperation changes operation = true ∧
    ["TARGET", targetNewDisposition, "APPLICATION", application, "CHANGE", operation] <:+: values

theorem hasOwnedBlock_iff {values : List String} :
    hasOwnedBlock changes values = true ↔ OwnedHead changes values := by
  rw [hasOwnedBlock, List.any_eq_true]
  constructor
  · rintro ⟨tail, htail, hstarts⟩
    rw [List.mem_tails] at htail
    obtain ⟨front, rfl⟩ := htail
    match tail, hstarts with
    | target :: disposition :: application :: value :: change :: operation :: more, hstarts =>
      rw [startsOwned, Bool.and_eq_true, Bool.and_eq_true, Bool.and_eq_true, Bool.and_eq_true,
        beq_iff_eq, beq_iff_eq, beq_iff_eq, beq_iff_eq] at hstarts
      obtain ⟨⟨⟨⟨rfl, rfl⟩, rfl⟩, rfl⟩, howns⟩ := hstarts
      exact ⟨value, operation, howns, front, more, by simp⟩
  · rintro ⟨application, operation, howns, front, more, rfl⟩
    refine ⟨["TARGET", targetNewDisposition, "APPLICATION", application, "CHANGE", operation] ++ more,
      (List.mem_tails _ _).mpr ⟨front, by simp⟩, ?_⟩
    simp [startsOwned, howns]

theorem BlockLines.ownedHead (h : BlockLines change block) (hvalid : change.Valid)
    (hchanges : ∀ name ∈ changes, name ∈ ["ADAPT", "TEXT"]) (howned : change.ownedBy changes = true) :
    OwnedHead changes (pythonBlock block) := by
  obtain ⟨first, more, hblock, hfirst⟩ := h.python_first hvalid
  rw [Change.ownedBy, Bool.and_eq_true, beq_iff_eq] at howned
  refine ⟨change.application.text, first, ?_, [], more, ?_⟩
  · rw [ownsOperation_first hchanges hfirst, howned.2]
  · rw [hblock, howned.1]
    rfl

/-! ## Batches -/

theorem batchLines_iff : BatchLines batch lines ↔
    ∃ blocks, blocks.flatten = lines ∧ List.Forall₂ BlockLines batch blocks := by
  constructor
  · intro h
    induction h with
    | nil => exact ⟨[], rfl, .nil⟩
    | cons h _ ih =>
      obtain ⟨blocks, rfl, hblocks⟩ := ih
      exact ⟨_ :: blocks, rfl, .cons h hblocks⟩
  · rintro ⟨blocks, rfl, hblocks⟩
    induction hblocks with
    | nil => exact .nil
    | cons h _ ih => exact .cons h ih

theorem parts_flatten (h : ∀ block ∈ blocks, block.head? = some "TARGET") :
    parts blocks.flatten = blocks.flatMap parts := by
  induction blocks with
  | nil => rfl
  | cons block blocks ih =>
    have hrest : blocks.flatten = [] ∨ blocks.flatten.head? = some "TARGET" := by
      cases blocks with
      | nil => exact .inl rfl
      | cons next blocks =>
        right
        rw [List.flatten_cons, List.head?_append, h next (by simp)]
        rfl
    rw [List.flatten_cons, parts, parts_append hrest, List.flatMap_cons,
      ih fun b hb => h b (List.mem_cons_of_mem _ hb)]

theorem pythonBlock_flatten (blocks : List (List String)) :
    pythonBlock blocks.flatten = (blocks.map pythonBlock).flatten := by
  induction blocks with
  | nil => rfl
  | cons block blocks ih => rw [List.flatten_cons, pythonBlock_append, ih, List.map_cons, List.flatten_cons]

/-- The parts of a block that the pass keeps. -/
def keptParts (changes block : List String) : List (List String) :=
  (parts (pythonBlock block)).filter fun part => !ownedBlock changes part

/-- The lines of a block, as the pass should see them: an owned change is cut into owned blocks, and
another one is one part. -/
def PartedAs (changes : List String) (change : Change) (block : List String) : Prop :=
  BlockLines change block ∧
    if change.ownedBy changes then
      ∀ part ∈ parts (pythonBlock block), completeBlock part = true ∧ ownedBlock changes part = true
    else Unbroken change.text ∧ "TARGET" ∉ (pythonBlock block).tail

def Separable (changes : List String) (batch : List Change) (lines : List String) : Prop :=
  ∃ blocks, blocks.flatten = lines ∧ List.Forall₂ (PartedAs changes) batch blocks

/-! ## What the parts say -/

theorem mem_of_mem_part {part values : List String} {line : String} (hpart : part ∈ parts values)
    (hline : line ∈ part) : line ∈ values := by
  rw [← cutBefore_flatten values]
  exact List.mem_append_right _ (List.mem_flatten.mpr ⟨part, hpart, hline⟩)

theorem parts_blocks (hblocks : List.Forall₂ BlockLines batch blocks) (hvalid : ∀ c ∈ batch, c.Valid) :
    parts (pythonBlock blocks.flatten) = blocks.flatMap fun block => parts (pythonBlock block) := by
  have hheads : ∀ block ∈ blocks.map pythonBlock, block.head? = some "TARGET" := by
    induction hblocks with
    | nil => exact fun _ h => absurd h List.not_mem_nil
    | @cons c block batch blocks h _ ih =>
      intro value hvalue
      rcases List.mem_cons.mp hvalue with rfl | hvalue
      · obtain ⟨first, more, hblock, _⟩ := h.python_first (hvalid c List.mem_cons_self)
        rw [hblock]
        rfl
      · exact ih (fun c hc => hvalid c (List.mem_cons_of_mem _ hc)) value hvalue
  rw [pythonBlock_flatten, parts_flatten hheads, List.flatMap_map]

/-- Every change that stays has a part that stays. -/
theorem kept_le (hblocks : List.Forall₂ BlockLines batch blocks) (hvalid : ∀ c ∈ batch, c.Valid)
    (hchanges : ∀ name ∈ changes, name ∈ ["ADAPT", "TEXT"])
    (hcomplete : ∀ block ∈ blocks, ∀ part ∈ parts (pythonBlock block), completeBlock part = true) :
    (batch.filter fun c => !c.ownedBy changes).length ≤
      (blocks.flatMap (keptParts changes)).length := by
  induction hblocks with
  | nil => exact Nat.le_refl _
  | @cons c block batch blocks h _ ih =>
    have hle := ih (fun c hc => hvalid c (List.mem_cons_of_mem _ hc))
      fun b hb => hcomplete b (List.mem_cons_of_mem _ hb)
    obtain ⟨part, rest, hparts, howned⟩ := h.parts_first (hvalid c List.mem_cons_self) hchanges
      (hcomplete block List.mem_cons_self)
    rw [List.flatMap_cons, List.length_append]
    by_cases hc : c.ownedBy changes = true
    · rw [List.filter_cons_of_neg (by simp [hc])]
      omega
    · have hkept : 0 < (keptParts changes block).length := by
        rw [keptParts, hparts, List.filter_cons_of_pos (by rw [howned]; simpa using hc)]
        exact Nat.succ_pos _
      rw [List.filter_cons_of_pos (by simpa using hc), List.length_cons]
      omega

/-- Where the kept parts are the blocks of the changes that stay, each of these has its own. -/
theorem parted_of_kept (hblocks : List.Forall₂ BlockLines batch blocks)
    (hvalid : ∀ c ∈ batch, c.Valid) (hchanges : ∀ name ∈ changes, name ∈ ["ADAPT", "TEXT"])
    (hcomplete : ∀ block ∈ blocks, ∀ part ∈ parts (pythonBlock block), completeBlock part = true)
    (hkept : List.Forall₂ BlockLines (batch.filter fun c => !c.ownedBy changes)
      (blocks.flatMap (keptParts changes))) : List.Forall₂ (PartedAs changes) batch blocks := by
  induction hblocks with
  | nil => exact .nil
  | @cons c block batch blocks h hrest ih =>
    have hv := hvalid c List.mem_cons_self
    have hvalid' : ∀ c ∈ batch, c.Valid := fun c hc => hvalid c (List.mem_cons_of_mem _ hc)
    have hblock := hcomplete block List.mem_cons_self
    have hcomplete' := fun b hb => hcomplete b (List.mem_cons_of_mem _ hb)
    have hle := kept_le hrest hvalid' hchanges hcomplete'
    have hlen := hkept.length_eq
    rw [List.flatMap_cons] at hkept
    rw [List.flatMap_cons, List.length_append] at hlen
    by_cases hc : c.ownedBy changes = true
    · rw [List.filter_cons_of_neg (by simp [hc])] at hkept hlen
      have hnil : keptParts changes block = [] := List.eq_nil_of_length_eq_zero (by omega)
      rw [hnil, List.nil_append] at hkept
      refine .cons ⟨h, ?_⟩ (ih hvalid' hcomplete' hkept)
      rw [if_pos hc]
      intro part hpart
      refine ⟨hblock part hpart, ?_⟩
      simpa using List.filter_eq_nil_iff.mp hnil part hpart
    · obtain ⟨part, rest, hparts, howned⟩ := h.parts_first hv hchanges hblock
      have hcons : keptParts changes block =
          part :: rest.filter fun part => !ownedBlock changes part := by
        rw [keptParts, hparts, List.filter_cons_of_pos (by rw [howned]; simpa using hc)]
      rw [List.filter_cons_of_pos (by simpa using hc)] at hkept hlen
      rw [hcons, List.length_cons, List.length_cons] at hlen
      have hnil : (rest.filter fun part => !ownedBlock changes part) = [] :=
        List.eq_nil_of_length_eq_zero (by omega)
      rw [hcons, hnil] at hkept
      cases hkept with
      | cons hpart hkept =>
        have hmem : part ∈ parts (pythonBlock block) := by
          rw [hparts]
          exact List.mem_cons_self
        have hu : Unbroken c.text :=
          hpart.unbroken fun line hline => unbroken_of_mem (mem_of_mem_part hmem hline)
        refine .cons ⟨h, ?_⟩ (ih hvalid' hcomplete' hkept)
        rw [if_neg hc]
        obtain ⟨tail, htail, hnot⟩ := (h.python hv hu).unmarked hv hblock
        rw [htail]
        exact ⟨hu, hnot⟩

/-- Then the parts are complete and the kept ones write the changes that stay. -/
theorem kept_of_parted (hblocks : List.Forall₂ (PartedAs changes) batch blocks)
    (hvalid : ∀ c ∈ batch, c.Valid) (hchanges : ∀ name ∈ changes, name ∈ ["ADAPT", "TEXT"]) :
    (∀ block ∈ blocks, ∀ part ∈ parts (pythonBlock block), completeBlock part = true) ∧
      BatchLines (batch.filter fun c => !c.ownedBy changes)
        (blocks.flatMap (keptParts changes)).flatten := by
  induction hblocks with
  | nil => exact ⟨fun _ h => absurd h List.not_mem_nil, .nil⟩
  | @cons c block batch blocks h _ ih =>
    have hv := hvalid c List.mem_cons_self
    obtain ⟨hcomplete, hbatch⟩ := ih fun c hc => hvalid c (List.mem_cons_of_mem _ hc)
    obtain ⟨hlines, hparted⟩ := h
    by_cases hc : c.ownedBy changes = true
    · rw [if_pos hc] at hparted
      have hnil : keptParts changes block = [] := by
        rw [keptParts, List.filter_eq_nil_iff]
        intro part hpart
        simp [(hparted part hpart).2]
      refine ⟨fun b hb => ?_, ?_⟩
      · rcases List.mem_cons.mp hb with rfl | hb
        · exact fun part hpart => (hparted part hpart).1
        · exact hcomplete b hb
      · rw [List.filter_cons_of_neg (by simp [hc]), List.flatMap_cons, hnil, List.nil_append]
        exact hbatch
    · rw [if_neg hc] at hparted
      obtain ⟨hu, hmarked⟩ := hparted
      have hpython := hlines.python hv hu
      obtain ⟨tail, htail⟩ := List.head?_eq_some_iff.mp hpython.head
      have hparts : parts (pythonBlock block) = [pythonBlock block] := by
        rw [htail] at hmarked ⊢
        exact parts_single hmarked
      have hblock : ∀ part ∈ parts (pythonBlock block), completeBlock part = true := by
        intro part hpart
        rw [hparts, List.mem_singleton] at hpart
        rw [hpart]
        exact hpython.complete hv
      obtain ⟨part, rest, hfirst, howned⟩ := hlines.parts_first hv hchanges hblock
      have hkept : keptParts changes block = [pythonBlock block] := by
        rw [hparts] at hfirst
        obtain ⟨rfl, rfl⟩ := List.cons.inj hfirst
        rw [keptParts, hparts, List.filter_cons_of_pos (by rw [howned]; simpa using hc),
          List.filter_nil]
      refine ⟨fun b hb => ?_, ?_⟩
      · rcases List.mem_cons.mp hb with rfl | hb
        · exact hblock
        · exact hcomplete b hb
      · rw [List.filter_cons_of_pos (by simpa using hc), List.flatMap_cons, hkept,
          List.singleton_append, List.flatten_cons]
        exact .cons hpython hbatch

/-! ## The filter -/

theorem kept_eq (hblocks : List.Forall₂ BlockLines batch blocks) (hvalid : ∀ c ∈ batch, c.Valid) :
    (parts (pythonBlock blocks.flatten)).filter (fun part => !ownedBlock changes part) =
      blocks.flatMap (keptParts changes) := by
  rw [parts_blocks hblocks hvalid, List.filter_flatMap]
  rfl

theorem flatMap_parts (h : ∀ block ∈ blocks, ∃ tail, block = "TARGET" :: tail ∧ "TARGET" ∉ tail) :
    blocks.flatMap parts = blocks := by
  induction blocks with
  | nil => rfl
  | cons block blocks ih =>
    obtain ⟨tail, rfl, hnot⟩ := h block List.mem_cons_self
    rw [List.flatMap_cons, parts_single hnot, ih fun b hb => h b (List.mem_cons_of_mem _ hb)]
    rfl

/-- Blocks that have the lines of complete parts are those parts. -/
theorem blocks_eq_parts {kept : List (List String)} (hblocks : List.Forall₂ BlockLines batch blocks)
    (hvalid : ∀ c ∈ batch, c.Valid) (hflat : blocks.flatten = kept.flatten)
    (hkept : ∀ part ∈ kept, completeBlock part = true ∧
      ∃ tail, part = "TARGET" :: tail ∧ "TARGET" ∉ tail) : blocks = kept := by
  have hpair : ∀ block ∈ blocks, ∃ c ∈ batch, BlockLines c block := by
    intro block hblock
    obtain ⟨i, hi, rfl⟩ := List.getElem_of_mem hblock
    have hi' : i < batch.length := hblocks.length_eq ▸ hi
    exact ⟨batch[i], List.getElem_mem hi', List.forall₂_iff_get.mp hblocks |>.2 i hi' hi⟩
  have hparts : blocks.flatMap parts = kept := by
    rw [← parts_flatten, hflat, parts_flatten, flatMap_parts fun part hpart => (hkept part hpart).2]
    · intro part hpart
      obtain ⟨tail, rfl, _⟩ := (hkept part hpart).2
      rfl
    · intro block hblock
      obtain ⟨c, _, h⟩ := hpair block hblock
      exact h.head
  rw [← hparts, flatMap_parts]
  intro block hblock
  obtain ⟨c, hc, h⟩ := hpair block hblock
  refine h.unmarked (hvalid c hc) fun part hpart => (hkept part ?_).1
  rw [← hparts]
  exact List.mem_flatMap.mpr ⟨block, hblock, hpart⟩

theorem ownedHead_of_mem (hblocks : List.Forall₂ BlockLines batch blocks)
    (hvalid : ∀ c ∈ batch, c.Valid) (hchanges : ∀ name ∈ changes, name ∈ ["ADAPT", "TEXT"])
    (hc : change ∈ batch) (howned : change.ownedBy changes = true) :
    OwnedHead changes (pythonBlock blocks.flatten) := by
  induction hblocks with
  | nil => cases hc
  | @cons c block batch blocks h _ ih =>
    rw [List.flatten_cons, pythonBlock_append]
    rcases List.mem_cons.mp hc with rfl | hc
    · obtain ⟨application, operation, howns, hhead⟩ :=
        h.ownedHead (hvalid _ List.mem_cons_self) hchanges howned
      exact ⟨application, operation, howns, hhead.trans (List.prefix_append _ _).isInfix⟩
    · obtain ⟨application, operation, howns, hhead⟩ :=
        ih (fun c hc => hvalid c (List.mem_cons_of_mem _ hc)) hc
      exact ⟨application, operation, howns, hhead.trans (List.suffix_append _ _).isInfix⟩

theorem ValidBatch.filter (h : ValidBatch batch) (p : Change → Bool) : ValidBatch (batch.filter p) where
  valid c hc := h.valid c (List.mem_filter.mp hc).1
  targets := h.targets.sublist ((List.filter_sublist.filter _).map _)

end

/-- The pass is a filter when Python finds no head of an owned block, or when it cuts every owned
change into owned blocks and no other one, or when all changes are owned and a part is not complete. -/
theorem removal_filters_iff (text : String) (batch : List Change) (changes : List String)
    (hparse : parseTaggedText text = .ok batch)
    (hchanges : ∀ name ∈ changes, name ∈ ["ADAPT", "TEXT"]) :
    parseTaggedText (removeNewDispositionChanges text changes) =
        .ok (batch.filter fun change => !change.ownedBy changes) ↔
      ¬OwnedHead changes (pythonValues text) ∨ Separable changes batch (textLines text) ∨
        ((∀ change ∈ batch, change.ownedBy changes = true) ∧
          ∃ part ∈ parts (pythonValues text), completeBlock part = false) := by
  obtain ⟨hsize, hvalid, lines, hbatch, hspaced⟩ := parseTaggedText_iff.mp hparse
  have hlines : textLines text = lines := textLines_spaced hspaced (hbatch.clean hvalid.valid)
  obtain ⟨blocks, hflat, hblocks⟩ := batchLines_iff.mp hbatch
  have hvalues : pythonValues text = pythonBlock blocks.flatten := by
    rw [pythonValues_eq, hlines, hflat]
  have hcomplete_of : Separable changes batch (textLines text) →
      (∀ part ∈ parts (pythonValues text), completeBlock part = true) ∧
        BatchLines (batch.filter fun change => !change.ownedBy changes)
          ((parts (pythonValues text)).filter fun part => !ownedBlock changes part).flatten := by
    rintro ⟨blocks', hflat', hparted⟩
    have hblocks' : List.Forall₂ BlockLines batch blocks' := hparted.imp fun _ _ h => h.1
    obtain ⟨hcomplete, hkept⟩ := kept_of_parted hparted hvalid.valid hchanges
    rw [pythonValues_eq, ← hflat', kept_eq hblocks' hvalid.valid]
    refine ⟨fun part hpart => ?_, hkept⟩
    rw [parts_blocks hblocks' hvalid.valid] at hpart
    obtain ⟨block, hblock, hpart⟩ := List.mem_flatMap.mp hpart
    exact hcomplete block hblock part hpart
  by_cases hfound : OwnedHead changes (pythonValues text)
  · have howned := hasOwnedBlock_iff.mpr hfound
    by_cases hall : ∀ part ∈ parts (pythonValues text), completeBlock part = true
    · have hhead : (pythonValues text).head? = some "TARGET" := by
        rw [hvalues] at hfound ⊢
        cases hblocks with
        | nil =>
          obtain ⟨application, operation, _, hinfix⟩ := hfound
          exact absurd hinfix.length_le (by simp [pythonBlock])
        | cons h _ =>
          obtain ⟨first, more, hblock, _⟩ := h.python_first (hvalid.valid _ List.mem_cons_self)
          rw [List.flatten_cons, pythonBlock_append, hblock]
          rfl
      obtain ⟨htext, hfits⟩ := remove_complete howned hhead hall
      constructor
      · intro hresult
        obtain ⟨_, hvalid', lines', hbatch', hspaced'⟩ := parseTaggedText_iff.mp hresult
        rw [← textLines_spaced hspaced' (hbatch'.clean hvalid'.valid), htext] at hbatch'
        obtain ⟨blocks', hflat', hblocks'⟩ := batchLines_iff.mp hbatch'
        have heq := blocks_eq_parts hblocks' hvalid'.valid hflat' fun part hpart =>
          ⟨hall part (List.mem_filter.mp hpart).1, parts_marked part (List.mem_filter.mp hpart).1⟩
        rw [heq, hvalues, kept_eq hblocks hvalid.valid] at hblocks'
        refine .inr (.inl ⟨blocks, by rw [hlines, hflat], ?_⟩)
        refine parted_of_kept hblocks hvalid.valid hchanges (fun block hblock part hpart => ?_) hblocks'
        refine hall part ?_
        rw [hvalues, parts_blocks hblocks hvalid.valid]
        exact List.mem_flatMap.mpr ⟨block, hblock, hpart⟩
      · rintro (hnone | hseparable | ⟨_, part, hpart, hincomplete⟩)
        · exact absurd hfound hnone
        · have hkept := (hcomplete_of hseparable).2
          rw [← htext] at hkept
          exact parseTaggedText_iff.mpr ⟨hfits.trans hsize, hvalid.filter _, _, hkept,
            spaced_textLines _⟩
        · rw [hall part hpart] at hincomplete
          cases hincomplete
    · have hpart : ∃ part ∈ parts (pythonValues text), completeBlock part = false := by
        by_contra hnone
        refine hall fun part hpart => ?_
        by_contra hincomplete
        exact hnone ⟨part, hpart, by simpa using hincomplete⟩
      have hempty : parseTaggedText "" = .ok [] := rfl
      rw [remove_incomplete howned hpart, hempty]
      constructor
      · intro hresult
        have hnil := List.filter_eq_nil_iff.mp (Except.ok.inj hresult).symm
        exact .inr (.inr ⟨fun change hc => by simpa using hnil change hc, hpart⟩)
      · rintro (hnone | hseparable | ⟨hremoved, _⟩)
        · exact absurd hfound hnone
        · exact absurd (hcomplete_of hseparable).1 hall
        · rw [List.filter_eq_nil_iff.mpr fun change hc => by simp [hremoved change hc]]
  · have hnone : hasOwnedBlock changes (pythonValues text) = false := by
      rw [Bool.eq_false_iff]
      exact fun h => hfound (hasOwnedBlock_iff.mp h)
    have hkept : (batch.filter fun change => !change.ownedBy changes) = batch := by
      rw [List.filter_eq_self]
      intro change hc
      by_contra howned
      rw [hvalues] at hfound
      exact hfound (ownedHead_of_mem hblocks hvalid.valid hchanges hc (by simpa using howned))
    rw [remove_unowned hnone, hparse, hkept]
    exact iff_of_true rfl (.inl hfound)

/-- A Recollection with a line separator in its text, and a new Disposition of the other pass. -/
def separatedText : String :=
  "TARGET\nNEW_RECOLLECTION\nAPPLICATION\nSELF\nCHANGE\nTEXT\na\u2028b\nBASIS\ne1\n" ++
  "TARGET\nNEW_DISPOSITION\nAPPLICATION\nSELF\nCHANGE\nADAPT\nc\nBASIS\ne2"

theorem separatedText_parsed : parseTaggedText separatedText =
    .ok [⟨"NEW_RECOLLECTION", .self, .text, "a\u2028b", ["e1"]⟩,
      ⟨"NEW_DISPOSITION", .self, .adapt, "c", ["e2"]⟩] := by
  decide +kernel

theorem separatedText_removed : removeNewDispositionChanges separatedText ["ADAPT"] =
    "TARGET\nNEW_RECOLLECTION\nAPPLICATION\nSELF\nCHANGE\nTEXT\na\nb\nBASIS\ne1" := by
  decide +kernel

theorem removal_filters_iff_separated :
    parseTaggedText (removeNewDispositionChanges separatedText ["ADAPT"]) =
        .ok ([⟨"NEW_RECOLLECTION", .self, .text, "a\u2028b", ["e1"]⟩,
          ⟨"NEW_DISPOSITION", .self, .adapt, "c", ["e2"]⟩].filter
            fun change => !change.ownedBy ["ADAPT"]) ↔
      ¬OwnedHead ["ADAPT"] (pythonValues separatedText) ∨
        Separable ["ADAPT"] [⟨"NEW_RECOLLECTION", .self, .text, "a\u2028b", ["e1"]⟩,
          ⟨"NEW_DISPOSITION", .self, .adapt, "c", ["e2"]⟩] (textLines separatedText) ∨
        ((∀ change ∈ ([⟨"NEW_RECOLLECTION", .self, .text, "a\u2028b", ["e1"]⟩,
          ⟨"NEW_DISPOSITION", .self, .adapt, "c", ["e2"]⟩] : List Change),
            change.ownedBy ["ADAPT"] = true) ∧
          ∃ part ∈ parts (pythonValues separatedText), completeBlock part = false) :=
  removal_filters_iff separatedText _ ["ADAPT"] separatedText_parsed (by decide)

/-- The pass leaves a text that is not accepted. -/
theorem removal_filters_separated :
    ∃ batch, parseTaggedText separatedText = .ok batch ∧
      ∀ left, parseTaggedText (removeNewDispositionChanges separatedText ["ADAPT"]) ≠ .ok left := by
  refine ⟨_, separatedText_parsed, fun left hleft => ?_⟩
  rw [separatedText_removed] at hleft
  have hfault : parseTaggedText
      "TARGET\nNEW_RECOLLECTION\nAPPLICATION\nSELF\nCHANGE\nTEXT\na\nb\nBASIS\ne1" =
        .error (lineFault "invalid change block markers" 1) := by
    decide
  rw [hfault] at hleft
  cases hleft

end ChoraMem
