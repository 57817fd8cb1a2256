/-
Removing the changes of another pass.

`_remove_new_disposition_changes` cuts the answer of a model before each line that reads
`TARGET` and leaves out the parts that start as a new Disposition of certain operations.
It knows the lines of Python, and a part is what is between two markers, where the parser
of Core cuts at `\n` only and reads a block by position.  So the pass is a filter just
when the text of no kept change is cut further and no line inside a block is a marker.
-/
import ChoraMem.Worker.Repairs
import ChoraMem.Python.Strings
import Mathlib.Algebra.Order.BigOperators.Group.List
import Mathlib.Algebra.Order.Ring.Nat

namespace ChoraMem

open Text

/-! ## The pass -/

/-- `text.splitlines()`. -/
def pythonLines (text : String) : List String := (Python.splitlines text.toList).map String.ofList

/-- The line is one of the operations, with or without a text behind it. -/
def ownsOperation (changes : List String) (operation : String) : Bool :=
  changes.contains operation ||
    changes.any fun change => (change ++ " ").toList.isPrefixOf operation.toList

/-- The lines start as an owned block does. -/
def startsOwned (changes : List String) : List String → Bool
  | target :: disposition :: application :: _ :: change :: operation :: _ =>
    target == "TARGET" && disposition == targetNewDisposition && application == "APPLICATION" &&
      change == "CHANGE" && ownsOperation changes operation
  | _ => false

def hasOwnedBlock (changes values : List String) : Bool := values.tails.any (startsOwned changes)

/-- What is before the first of the marked lines, and the parts that start with each. -/
def cutBefore (marked : String → Bool) : List String → List String × List (List String)
  | [] => ([], [])
  | line :: rest =>
    if marked line then ([], (line :: (cutBefore marked rest).1) :: (cutBefore marked rest).2)
    else (line :: (cutBefore marked rest).1, (cutBefore marked rest).2)

def completeBlock : List String → Bool
  | target :: _ :: application :: _ :: change :: _ :: _ :: _ =>
    target == "TARGET" && application == "APPLICATION" && change == "CHANGE"
  | _ => false

def ownedBlock (changes : List String) : List String → Bool
  | _ :: target :: _ :: _ :: _ :: operation :: _ =>
    target == targetNewDisposition && ownsOperation changes operation
  | _ => false

/-- `_remove_new_disposition_changes`. -/
def removeNewDispositionChanges (text : String) (changes : List String) : String :=
  let lines := pythonLines text
  if !hasOwnedBlock changes (meaningful lines) then text
  else
    let parts := cutBefore (fun line => trimSpace line == "TARGET") lines
    if parts.2.isEmpty || !(meaningful parts.1).isEmpty then ""
    else if !parts.2.all (fun block => completeBlock (meaningful block)) then ""
    else trimSpace (joinNewlines
      (parts.2.filter fun block => !ownedBlock changes (meaningful block)).flatten)

/-! ## Parts -/

/-- The parts of trimmed lines. -/
def parts (values : List String) : List (List String) := (cutBefore (· == "TARGET") values).2

section

variable {values rest : List String}

theorem cutBefore_target (values : List String) :
    cutBefore (· == "TARGET") ("TARGET" :: values) =
      ([], ("TARGET" :: (cutBefore (· == "TARGET") values).1) :: parts values) :=
  rfl

theorem cutBefore_other {line : String} (h : line ≠ "TARGET") (values : List String) :
    cutBefore (· == "TARGET") (line :: values) =
      (line :: (cutBefore (· == "TARGET") values).1, parts values) := by
  rw [cutBefore, if_neg (by simpa using h)]
  rfl

theorem cutBefore_flatten (values : List String) :
    (cutBefore (· == "TARGET") values).1 ++ (parts values).flatten = values := by
  induction values with
  | nil => rfl
  | cons line values ih =>
    by_cases hline : line = "TARGET"
    · rw [hline, parts, cutBefore_target, List.nil_append, List.flatten_cons, List.cons_append, ih]
    · rw [parts, cutBefore_other hline, List.cons_append, ih]

theorem cutBefore_fst (values : List String) :
    "TARGET" ∉ (cutBefore (· == "TARGET") values).1 := by
  induction values with
  | nil => exact List.not_mem_nil
  | cons line values ih =>
    by_cases hline : line = "TARGET"
    · rw [hline, cutBefore_target]
      exact List.not_mem_nil
    · rw [cutBefore_other hline, List.mem_cons, not_or]
      exact ⟨Ne.symm hline, ih⟩

/-- A part has its marker in front and nowhere else. -/
theorem parts_marked : ∀ part ∈ parts values, ∃ tail, part = "TARGET" :: tail ∧ "TARGET" ∉ tail := by
  induction values with
  | nil => exact fun _ h => absurd h List.not_mem_nil
  | cons line values ih =>
    intro part hpart
    by_cases hline : line = "TARGET"
    · rw [hline, parts, cutBefore_target] at hpart
      rcases List.mem_cons.mp hpart with rfl | hpart
      · exact ⟨_, rfl, cutBefore_fst values⟩
      · exact ih part hpart
    · rw [parts, cutBefore_other hline] at hpart
      exact ih part hpart

theorem cutBefore_nil (h : values = [] ∨ values.head? = some "TARGET") :
    (cutBefore (· == "TARGET") values).1 = [] := by
  rcases h with rfl | h
  · rfl
  · obtain ⟨tail, rfl⟩ := List.head?_eq_some_iff.mp h
    rw [cutBefore_target]

theorem parts_append (h : rest = [] ∨ rest.head? = some "TARGET") :
    cutBefore (· == "TARGET") (values ++ rest) =
      ((cutBefore (· == "TARGET") values).1, parts values ++ parts rest) := by
  induction values with
  | nil =>
    rw [List.nil_append]
    exact Prod.ext (cutBefore_nil h) rfl
  | cons line values ih =>
    by_cases hline : line = "TARGET"
    · rw [hline, List.cons_append, cutBefore_target, parts, parts, cutBefore_target, ih]
      rfl
    · rw [List.cons_append, cutBefore_other hline, parts, parts, cutBefore_other hline, ih]

theorem parts_single (h : "TARGET" ∉ values) : parts ("TARGET" :: values) = ["TARGET" :: values] := by
  have hcut : cutBefore (· == "TARGET") values = (values, []) := by
    induction values with
    | nil => rfl
    | cons line values ih =>
      rw [List.mem_cons, not_or] at h
      rw [cutBefore_other (Ne.symm h.1), parts, ih h.2]
  rw [parts, cutBefore_target, parts, hcut]

/-- The marked raw lines are those that read as a marker. -/
theorem cutBefore_meaningful (lines : List String) :
    cutBefore (· == "TARGET") (meaningful lines) =
      (meaningful (cutBefore (fun line => trimSpace line == "TARGET") lines).1,
        (cutBefore (fun line => trimSpace line == "TARGET") lines).2.map meaningful) := by
  induction lines with
  | nil => rfl
  | cons line lines ih =>
    by_cases htarget : trimSpace line = "TARGET"
    · have hne : trimSpace line ≠ "" := by
        rw [htarget]
        decide
      rw [meaningful_cons hne, htarget, cutBefore_target, parts, ih, cutBefore,
        if_pos (by simpa using htarget), List.map_cons, meaningful_cons hne, htarget]
      rfl
    · rw [cutBefore, if_neg (by simpa using htarget)]
      by_cases hblank : trimSpace line = ""
      · rw [meaningful_cons_blank hblank, ih, meaningful_cons_blank hblank]
      · rw [meaningful_cons hblank, cutBefore_other htarget, parts, ih, meaningful_cons hblank]

end

/-! ## What the pass returns -/

section

variable {text : String} {changes : List String}

/-- The lines that the pass reads, trimmed. -/
def pythonValues (text : String) : List String := meaningful (pythonLines text)

theorem remove_unowned (h : hasOwnedBlock changes (pythonValues text) = false) :
    removeNewDispositionChanges text changes = text := by
  unfold pythonValues at h
  simp only [removeNewDispositionChanges, h, Bool.not_false, if_true]

theorem remove_incomplete (h : hasOwnedBlock changes (pythonValues text) = true)
    (hpart : ∃ part ∈ parts (pythonValues text), completeBlock part = false) :
    removeNewDispositionChanges text changes = "" := by
  obtain ⟨part, hpart, hincomplete⟩ := hpart
  rw [parts, pythonValues, cutBefore_meaningful] at hpart
  obtain ⟨block, hblock, rfl⟩ := List.mem_map.mp hpart
  unfold pythonValues at h
  have hall : (cutBefore (fun line => trimSpace line == "TARGET") (pythonLines text)).2.all
      (fun block => completeBlock (meaningful block)) = false := by
    rw [List.all_eq_false]
    exact ⟨block, hblock, by simp [hincomplete]⟩
  simp only [removeNewDispositionChanges, h, hall, Bool.not_true, Bool.not_false, if_true,
    Bool.false_eq_true, if_false, ite_self]

theorem meaningful_append (a b : List String) : meaningful (a ++ b) = meaningful a ++ meaningful b := by
  rw [meaningful, List.map_append, List.filter_append]
  rfl

theorem meaningful_flatten (blocks : List (List String)) :
    meaningful blocks.flatten = (blocks.map meaningful).flatten := by
  induction blocks with
  | nil => rfl
  | cons block blocks ih => rw [List.flatten_cons, meaningful_append, ih, List.map_cons, List.flatten_cons]

theorem splitNewlines_joinNewlines {lines : List String} (hne : lines ≠ [])
    (h : ∀ line ∈ lines, '\n' ∉ line.toList) : splitNewlines (joinNewlines lines) = lines := by
  have hsplit : ∀ cs : List Char, cs.splitOnP isNewline = cs.splitOn '\n' := fun _ => rfl
  rw [splitNewlines, joinNewlines, String.toList_ofList, hsplit,
    List.splitOn_intercalate '\n' (by simpa using h) (by simpa using hne), List.map_map]
  have hid : (String.ofList ∘ String.toList) = id := funext fun cs => String.ofList_toList
  rw [hid, List.map_id]

theorem textLines_joinNewlines {lines : List String} (h : ∀ line ∈ lines, '\n' ∉ line.toList) :
    textLines (trimSpace (joinNewlines lines)) = meaningful lines := by
  have htrim : ∀ t : String, textLines (trimSpace t) = textLines t := by
    intro t
    rw [textLines_eq, textLines_eq, toList_trimSpace, pieces_strip fun _ h => h]
  rw [htrim]
  by_cases hne : lines = []
  · rw [hne]
    rfl
  · rw [← meaningful_splitNewlines, splitNewlines_joinNewlines hne h]

/-- The raw lines that are kept are lines of the text. -/
theorem cutBefore_sublist (marked : String → Bool) (p : List String → Bool) (lines : List String) :
    (((cutBefore marked lines).2.filter p).flatten).Sublist lines := by
  have hall : ((cutBefore marked lines).1 ++ (cutBefore marked lines).2.flatten) = lines := by
    induction lines with
    | nil => rfl
    | cons line lines ih =>
      rw [cutBefore]
      split
      · rw [List.nil_append, List.flatten_cons, List.cons_append, ih]
      · rw [List.cons_append, ih]
  have hfilter : ∀ blocks : List (List String), (blocks.filter p).flatten.Sublist blocks.flatten := by
    intro blocks
    induction blocks with
    | nil => exact List.Sublist.slnil
    | cons block blocks ih =>
      rw [List.flatten_cons, List.filter_cons]
      split
      · rw [List.flatten_cons]
        exact (List.Sublist.refl block).append ih
      · exact ih.trans (List.sublist_append_right _ _)
  conv_rhs => rw [← hall]
  exact (hfilter _).trans (List.sublist_append_right _ _)

theorem bytes_joinNewlines {lines : List (List Char)} (hne : lines ≠ []) :
    Text.bytes (['\n'].intercalate lines) + 1 ≤
      (lines.map Text.bytes).sum + lines.length := by
  induction lines with
  | nil => exact absurd rfl hne
  | cons line lines ih =>
    cases lines with
    | nil => simp
    | cons next lines =>
      have h := ih (List.cons_ne_nil _ _)
      have hsep : Text.bytes ['\n'] = 1 := rfl
      rw [List.intercalate_cons_cons, Text.bytes_append, Text.bytes_append, hsep, List.map_cons,
        List.sum_cons, List.length_cons]
      omega

/-- Lines of a text, joined again, are no longer than it. -/
theorem joinNewlines_fits {lines : List String} (h : lines.Sublist (pythonLines text)) :
    (trimSpace (joinNewlines lines)).utf8ByteSize ≤ text.utf8ByteSize := by
  have hstrip : ∀ cs : List Char, Text.bytes (strip isSpace cs) ≤ Text.bytes cs := by
    intro cs
    obtain ⟨w, w', hsplit, _, _⟩ := strip_spec isSpace cs
    conv_rhs => rw [hsplit]
    rw [Text.bytes_append, Text.bytes_append]
    omega
  have hsize : ∀ s : String, s.utf8ByteSize = Text.bytes s.toList := fun s => by
    rw [← Text.utf8ByteSize_ofList, String.ofList_toList]
  rw [hsize, hsize, toList_trimSpace, joinNewlines, String.toList_ofList]
  refine (hstrip _).trans ?_
  have hchars : (lines.map String.toList).Sublist (Python.splitlines text.toList) := by
    have hmap := h.map String.toList
    rw [pythonLines, List.map_map] at hmap
    have hid : (String.toList ∘ String.ofList) = id := funext fun cs => String.toList_ofList
    rwa [hid, List.map_id] at hmap
  by_cases hne : lines.map String.toList = []
  · rw [hne]
    exact Nat.zero_le _
  · have hjoin := bytes_joinNewlines hne
    have hsplit := Python.splitlines_bytes text.toList
    have hsum := (hchars.map Text.bytes).sum_le_sum fun _ _ => Nat.zero_le _
    have hlen := hchars.length_le
    omega

/-- Where every part is a block, the lines of what is left are those of the other parts. -/
theorem remove_complete (h : hasOwnedBlock changes (pythonValues text) = true)
    (hhead : (pythonValues text).head? = some "TARGET")
    (hall : ∀ part ∈ parts (pythonValues text), completeBlock part = true) :
    textLines (removeNewDispositionChanges text changes) =
        ((parts (pythonValues text)).filter fun part => !ownedBlock changes part).flatten ∧
      (removeNewDispositionChanges text changes).utf8ByteSize ≤ text.utf8ByteSize := by
  have hcut := cutBefore_meaningful (pythonLines text)
  have hbefore : meaningful (cutBefore (fun line => trimSpace line == "TARGET")
      (pythonLines text)).1 = [] := by
    rw [← cutBefore_nil (Or.inr hhead)]
    exact (congrArg Prod.fst hcut).symm
  have hparts : parts (pythonValues text) =
      (cutBefore (fun line => trimSpace line == "TARGET") (pythonLines text)).2.map meaningful :=
    congrArg Prod.snd hcut
  have hne : (cutBefore (fun line => trimSpace line == "TARGET") (pythonLines text)).2 ≠ [] := by
    intro hnil
    obtain ⟨tail, htail⟩ := List.head?_eq_some_iff.mp hhead
    rw [hnil, htail, parts, cutBefore_target] at hparts
    cases hparts
  rw [hparts] at hall ⊢
  unfold pythonValues at h
  have hresult : removeNewDispositionChanges text changes = trimSpace (joinNewlines
      ((cutBefore (fun line => trimSpace line == "TARGET") (pythonLines text)).2.filter
        fun block => !ownedBlock changes (meaningful block)).flatten) := by
    have hcomplete : (cutBefore (fun line => trimSpace line == "TARGET") (pythonLines text)).2.all
        (fun block => completeBlock (meaningful block)) = true := by
      rw [List.all_eq_true]
      exact fun block hb => hall _ (List.mem_map_of_mem hb)
    simp only [removeNewDispositionChanges, h, hcomplete, hbefore, Bool.not_true,
      Bool.false_eq_true, if_false, List.isEmpty_iff, List.isEmpty_nil, Bool.or_false,
      hne]
  rw [hresult]
  have hsub := cutBefore_sublist (fun line => trimSpace line == "TARGET")
    (fun block => !ownedBlock changes (meaningful block)) (pythonLines text)
  refine ⟨?_, joinNewlines_fits hsub⟩
  rw [textLines_joinNewlines, meaningful_flatten, List.filter_map]
  · rfl
  · intro line hline hnewline
    obtain ⟨cs, hcs, rfl⟩ := List.mem_map.mp (hsub.subset hline)
    rw [String.toList_ofList] at hnewline
    exact absurd (Python.mem_of_mem_splitlines hcs '\n' hnewline).2 (by decide)

end

/-! ## Lines in Python -/

/-- The lines of Python in a line of Core. -/
def lineParts (line : String) : List String :=
  (pieces Python.isLineBreak isSpace line.toList).map String.ofList

/-- A text that Python does not cut. -/
def Unbroken (text : String) : Prop := ∀ c ∈ text.toList, Python.isLineBreak c = false

/-- The lines of Python in a block. -/
def pythonBlock (block : List String) : List String := block.flatMap lineParts

theorem pythonValues_eq (text : String) : pythonValues text = pythonBlock (textLines text) := by
  have htrimmed : pythonValues text =
      (pieces Python.isLineBreak isSpace text.toList).map String.ofList := by
    rw [pythonValues, meaningful, pythonLines, List.map_map, ← Python.splitlines_pieces]
    exact trimmed_lines _
  have hrefine : ∀ c, isNewline c = true → Python.isLineBreak c = true := by
    intro c hc
    have hc : c = '\n' := by simpa [isNewline] using hc
    rw [hc]
    decide
  rw [htrimmed, pieces_refine hrefine (fun _ h => h), textLines_eq, pythonBlock]
  generalize pieces isNewline isSpace text.toList = lines
  induction lines with
  | nil => rfl
  | cons line lines ih =>
    rw [List.flatMap_cons, List.map_append, ih, List.map_cons, List.flatMap_cons, lineParts,
      String.toList_ofList]

theorem unbroken_of_mem {block : List String} {value : String} (h : value ∈ pythonBlock block) :
    Unbroken value := by
  obtain ⟨line, _, hvalue⟩ := List.mem_flatMap.mp h
  obtain ⟨cs, hcs, rfl⟩ := List.mem_map.mp hvalue
  intro c hc
  rw [String.toList_ofList] at hc
  exact not_sep_of_mem_pieces hcs c hc

theorem stripped_of_clean {line : String} (h : CleanLine line) :
    strip isSpace line.toList = line.toList := by
  rw [← toList_trimSpace, h.2.1]

theorem pieces_clean {line : String} (h : CleanLine line) (hu : Unbroken line) :
    pieces Python.isLineBreak isSpace line.toList = [line.toList] := by
  have hne : line.toList ≠ [] := by
    intro hnil
    exact h.1 (by rw [← String.toList_inj, hnil]; rfl)
  rw [pieces_single hu, stripped_of_clean h, List.filter_cons_of_pos (by simpa using hne),
    List.filter_nil]

theorem lineParts_clean {line : String} (h : CleanLine line) (hu : Unbroken line) :
    lineParts line = [line] := by
  rw [lineParts, pieces_clean h hu, List.map_singleton, String.ofList_toList]

/-- What Python cuts at is white space or a control character. -/
theorem unbroken_of_stableRef {ref : String} (h : stableRef ref = true) : Unbroken ref := by
  intro c hc
  rw [stableRef, Bool.and_eq_true] at h
  have hc' := h.2
  rw [Bool.not_eq_true', List.any_eq_false] at hc'
  have hnot := hc' c hc
  rw [Bool.or_eq_true, not_or] at hnot
  by_contra hbreak
  rw [Bool.not_eq_false] at hbreak
  simp only [Python.isLineBreak, isSpace, isControl, Bool.or_eq_true, Bool.and_eq_true,
    decide_eq_true_eq] at hbreak hnot
  omega

theorem lineParts_stable {ref : String} (h : stableRef ref = true) : lineParts ref = [ref] :=
  lineParts_clean (cleanLine_of_stableRef h) (unbroken_of_stableRef h)

section

variable {change : Change} {operation : Operation} {text : String} {lines block rest : List String}

theorem unbroken_operation (operation : Operation) : Unbroken operation.line :=
  unbroken_of_stableRef (by cases operation <;> decide)

theorem clean_operation (operation : Operation) : CleanLine operation.line := by
  cases operation <;> exact cleanLine_of_stableRef (by decide)

/-- The word in front of a line stays there when the line is stripped. -/
theorem strip_operation (operation : Operation) (more : List Char) :
    strip isSpace (operation.line.toList ++ ' ' :: more) = operation.line.toList ∨
      (operation.line ++ " ").toList <+: strip isSpace (operation.line.toList ++ ' ' :: more) := by
  have hprefix : operation.line.toList <+: strip isSpace (operation.line.toList ++ ' ' :: more) ∧
      strip isSpace (operation.line.toList ++ ' ' :: more) <+:
        operation.line.toList ++ ' ' :: more := by
    cases operation with
    | text =>
      exact prefix_strip ['E', 'X'] (show _ = 'T' :: (_ ++ ['T']) from rfl) (by decide) (by decide)
        (List.prefix_append _ _)
    | adapt =>
      exact prefix_strip ['D', 'A', 'P'] (show _ = 'A' :: (_ ++ ['T']) from rfl) (by decide)
        (by decide) (List.prefix_append _ _)
    | keep =>
      exact prefix_strip ['E', 'E'] (show _ = 'K' :: (_ ++ ['P']) from rfl) (by decide) (by decide)
        (List.prefix_append _ _)
    | reenact =>
      exact prefix_strip ['E', 'E', 'N', 'A', 'C'] (show _ = 'R' :: (_ ++ ['T']) from rfl)
        (by decide) (by decide) (List.prefix_append _ _)
    | inhibit =>
      exact prefix_strip ['N', 'H', 'I', 'B', 'I'] (show _ = 'I' :: (_ ++ ['T']) from rfl)
        (by decide) (by decide) (List.prefix_append _ _)
  obtain ⟨⟨tail, htail⟩, hstrip⟩ := hprefix
  have hspace : (operation.line ++ " ").toList = operation.line.toList ++ [' '] :=
    String.toList_append
  cases tail with
  | nil =>
    left
    rw [← htail, List.append_nil]
  | cons c tail =>
    right
    rw [← htail, List.prefix_append_right_inj, List.cons_prefix_cons] at hstrip
    rw [← htail, hspace, List.prefix_append_right_inj, hstrip.1, List.cons_prefix_cons]
    exact ⟨rfl, List.nil_prefix⟩

/-- The first line of an operation starts with it. -/
theorem operation_first (h : ChangeLines operation text lines) :
    ∃ first more, pythonBlock lines = first :: more ∧
      (first = operation.line ∨ (operation.line ++ " ").toList <+: first.toList) := by
  have hop : lineParts operation.line = [operation.line] :=
    lineParts_clean (clean_operation operation) (unbroken_operation operation)
  cases h with
  | word h ht => exact ⟨operation.line, [], by rw [pythonBlock, List.flatMap_cons, hop]; rfl, Or.inl rfl⟩
  | own h => exact ⟨operation.line, _, by rw [pythonBlock, List.flatMap_cons, hop]; rfl, Or.inl rfl⟩
  | @inline h pad hpad =>
    have hsingle : ∀ more : List Char, (∀ c ∈ more, Python.isLineBreak c = false) →
        pieces Python.isLineBreak isSpace (operation.line.toList ++ ' ' :: more) =
          [strip isSpace (operation.line.toList ++ ' ' :: more)] := by
      intro more hmore
      rw [pieces_single, List.filter_cons_of_pos, List.filter_nil]
      · rcases strip_operation operation more with heq | hprefix
        · rw [heq]
          cases operation <;> rfl
        · cases hstrip : strip isSpace (operation.line.toList ++ ' ' :: more) with
          | nil =>
            rw [hstrip, List.prefix_nil, String.toList_append] at hprefix
            simp at hprefix
          | cons c rest => rfl
      · intro c hc
        rcases List.mem_append.mp hc with hc | hc
        · exact unbroken_operation operation c hc
        · rcases List.mem_cons.mp hc with rfl | hc
          · decide
          · exact hmore c hc
    have hpieces : ∃ more rest, pieces Python.isLineBreak isSpace
        (operation.line.toList ++ ' ' :: (pad ++ text.toList)) =
          strip isSpace (operation.line.toList ++ ' ' :: more) :: rest := by
      by_cases hbreak : ∃ c ∈ pad ++ text.toList, Python.isLineBreak c = true
      · obtain ⟨c, hfind⟩ := Option.isSome_iff_exists.mp (List.find?_isSome.mpr hbreak)
        obtain ⟨hc, more, rest, heq, hnone⟩ := List.find?_eq_some_iff_append.mp hfind
        have hmore : ∀ d ∈ more, Python.isLineBreak d = false := fun d hd => by
          simpa using hnone d hd
        rw [heq, ← List.cons_append, ← List.append_assoc, pieces_append_sep hc, hsingle more hmore]
        exact ⟨more, _, rfl⟩
      · exact ⟨_, [], hsingle _ fun c hc => by
          by_contra hne
          exact hbreak ⟨c, hc, by simpa using hne⟩⟩
    obtain ⟨more, rest, hpieces⟩ := hpieces
    refine ⟨String.ofList (strip isSpace (operation.line.toList ++ ' ' :: more)),
      rest.map String.ofList, ?_, ?_⟩
    · rw [pythonBlock, List.flatMap_cons, List.flatMap_nil, List.append_nil, lineParts,
        String.toList_ofList, List.append_assoc, List.cons_append, hpieces, List.map_cons]
    · rw [String.toList_ofList]
      rcases strip_operation operation more with heq | hprefix
      · left
        rw [heq, String.ofList_toList]
      · exact Or.inr hprefix

/-- A text that is not cut is read in the same place. -/
theorem ChangeLines.python (h : ChangeLines operation text lines)
    (hclean : operation.hasText → CleanLine text) (hu : Unbroken text) :
    ChangeLines operation text (pythonBlock lines) := by
  have hop : lineParts operation.line = [operation.line] :=
    lineParts_clean (clean_operation operation) (unbroken_operation operation)
  cases h with
  | word h ht =>
    have hlines : pythonBlock [operation.line] = [operation.line] := by
      rw [pythonBlock, List.flatMap_cons, hop]
      rfl
    rw [hlines]
    exact .word h ht
  | own h =>
    have hlines : pythonBlock [operation.line, text] = [operation.line, text] := by
      rw [pythonBlock, List.flatMap_cons, List.flatMap_cons, hop, lineParts_clean (hclean h) hu]
      rfl
    rw [hlines]
    exact .own h
  | @inline h pad hpad =>
    have hline : CleanLine (String.ofList (operation.line.toList ++ ' ' :: pad ++ text.toList)) :=
      @ChangeLines.clean ⟨"", .self, operation, text, []⟩ _ (.inline h hpad) hclean _
        List.mem_cons_self
    by_cases hbreak : ∃ c ∈ pad, Python.isLineBreak c = true
    · obtain ⟨c, hc, hbreak⟩ := hbreak
      obtain ⟨p, q, rfl⟩ := List.append_of_mem hc
      have hq : pieces Python.isLineBreak isSpace (q ++ text.toList) = [text.toList] := by
        have happ : pieces Python.isLineBreak isSpace (q ++ text.toList ++ []) =
            pieces Python.isLineBreak isSpace text.toList :=
          pieces_append_blank (fun d hd => (hpad d (List.mem_append_right _
            (List.mem_cons_of_mem _ hd))).1) fun _ hd => absurd hd List.not_mem_nil
        rw [List.append_nil] at happ
        rw [happ, pieces_clean (hclean h) hu]
      have hp : pieces Python.isLineBreak isSpace (operation.line.toList ++ ' ' :: p) =
          [operation.line.toList] := by
        have happ : pieces Python.isLineBreak isSpace ([] ++ operation.line.toList ++ ' ' :: p) =
            pieces Python.isLineBreak isSpace operation.line.toList := by
          refine pieces_append_blank (fun _ hd => absurd hd List.not_mem_nil) fun d hd => ?_
          rcases List.mem_cons.mp hd with rfl | hd
          · decide
          · exact (hpad d (List.mem_append_left _ hd)).1
        rw [List.nil_append] at happ
        rw [happ, pieces_clean (clean_operation operation) (unbroken_operation operation)]
      have hlines : pythonBlock [String.ofList
          (operation.line.toList ++ ' ' :: (p ++ c :: q) ++ text.toList)] =
            [operation.line, text] := by
        have hchars : operation.line.toList ++ ' ' :: (p ++ c :: q) ++ text.toList =
            (operation.line.toList ++ ' ' :: p) ++ c :: (q ++ text.toList) := by
          simp
        rw [pythonBlock, List.flatMap_cons, List.flatMap_nil, List.append_nil, lineParts,
          String.toList_ofList, hchars, pieces_append_sep hbreak, hp, hq, List.map_append,
          List.map_singleton, List.map_singleton, String.ofList_toList, String.ofList_toList]
        rfl
      rw [hlines]
      exact .own h
    · have hall : Unbroken (String.ofList (operation.line.toList ++ ' ' :: pad ++ text.toList)) := by
        intro c hc
        rw [String.toList_ofList] at hc
        rcases List.mem_append.mp hc with hc | hc
        · rcases List.mem_append.mp hc with hc | hc
          · exact unbroken_operation operation c hc
          · rcases List.mem_cons.mp hc with rfl | hc
            · decide
            · by_contra hne
              exact hbreak ⟨c, hc, by simpa using hne⟩
        · exact hu c hc
      rw [pythonBlock, List.flatMap_cons, List.flatMap_nil, List.append_nil,
        lineParts_clean hline hall]
      exact .inline h hpad

end

end ChoraMem
