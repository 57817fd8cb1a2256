/-
The repair passes of the worker.

A model may copy an inline application from the window, leave out the first marker, or
separate the refs of a basis again and again.  Each of three passes looks for one of these
in lines, without reading blocks, and none of them finds anything in a text that Core
accepts: no `CHANGE` follows an inline application there, the first line is a marker, and
refs behind a `BASIS` are different and end before another one.
-/
import ChoraMem.Core.Grammar

namespace ChoraMem

open Text

/-! ## Lines -/

/-- `text.split("\n")`. -/
def splitNewlines (text : String) : List String :=
  (text.toList.splitOnP isNewline).map String.ofList

/-- `"\n".join(lines)`. -/
def joinNewlines (lines : List String) : String :=
  String.ofList (List.intercalate ['\n'] (lines.map String.toList))

theorem joinNewlines_splitNewlines (text : String) : joinNewlines (splitNewlines text) = text := by
  have hsplit : text.toList.splitOnP isNewline = text.toList.splitOn '\n' := rfl
  rw [joinNewlines, splitNewlines, List.map_map, hsplit]
  have hid : (String.toList ∘ String.ofList) = id := funext fun cs => String.toList_ofList
  rw [hid, List.map_id, List.intercalate_splitOn, String.ofList_toList]

/-- The lines that are not blank, without the white space around them. -/
def meaningful (lines : List String) : List String := (lines.map trimSpace).filter (· != "")

theorem meaningful_cons_blank {line : String} (h : trimSpace line = "") (rest : List String) :
    meaningful (line :: rest) = meaningful rest := by
  simp [meaningful, h]

theorem meaningful_cons {line : String} (h : trimSpace line ≠ "") (rest : List String) :
    meaningful (line :: rest) = trimSpace line :: meaningful rest := by
  simp [meaningful, h]

/-- The worker and the parser read the same lines. -/
theorem meaningful_splitNewlines (text : String) : meaningful (splitNewlines text) = textLines text := by
  rw [textLines_eq, meaningful, splitNewlines, List.map_map]
  exact trimmed_lines _

/-- `"\r"` when the line ends with one. -/
def returnSuffix (line : String) : String := if line.toList.getLast? = some '\r' then "\r" else ""

/-! ## An inline application -/

/-- `APPLICATION` and a scope on one line. -/
def inlineScope (value : String) : Option String :=
  match (value.toList.splitOn ' ').map String.ofList with
  | [word, scope] =>
    if word = "APPLICATION" ∧ scope ∈ ["SELF", "OTHER", "RELATION", "SITUATION"] then some scope
    else none
  | _ => none

/-- Split the first inline application between an offered target and a `CHANGE`. -/
def splitInlineLines (allowed : List String) (previous : Option String) : List String → List String
  | [] => []
  | line :: rest =>
    let value := trimSpace line
    if value = "" then line :: splitInlineLines allowed previous rest
    else
      match inlineScope value with
      | none => line :: splitInlineLines allowed (some value) rest
      | some scope =>
        if previous.any allowed.contains && (meaningful rest).head? == some "CHANGE" then
          ("APPLICATION" ++ returnSuffix line) :: (scope ++ returnSuffix line) :: rest
        else line :: splitInlineLines allowed (some value) rest

/-- `_split_copied_inline_application`. -/
def splitCopiedInlineApplication (text : String) (allowed : List String) : String :=
  joinNewlines (splitInlineLines allowed none (splitNewlines text))

/-! ## The first marker -/

/-- `_restore_initial_new_target`. -/
def restoreInitialNewTarget (text : String) (allowed : List String) : String :=
  let offered := [targetNewRecollection, targetNewDisposition].filter allowed.contains
  let lines := splitNewlines text
  match meaningful lines with
  | target :: application :: _ =>
    if offered.contains target && application == "APPLICATION" then
      let blank := lines.takeWhile fun line => trimSpace line == ""
      let written := lines.dropWhile fun line => trimSpace line == ""
      joinNewlines (blank ++ ("TARGET" ++ returnSuffix (written.headD "")) :: written)
    else text
  | _ => text

/-! ## Basis separators -/

def isBlank (c : Char) : Bool := c == ' ' || c == '\t' || c == '\r'

/-- `line.strip(" \t\r")`. -/
def stripBlank (line : String) : String := String.ofList (strip isBlank line.toList)

/-- `_complete_basis_tail`. -/
def completeBasisTail (allowed : List String) (previousRef : Bool) : List String → Bool
  | [] => previousRef
  | line :: rest =>
    let value := stripBlank line
    if value = "TARGET" then previousRef
    else if value = "" then completeBasisTail allowed previousRef rest
    else if allowed.contains value then completeBasisTail allowed true rest
    else if value = "BASIS" ∧ previousRef then completeBasisTail allowed false rest
    else false

/-- The refs since the last `BASIS`, while there was nothing else since. -/
def deduplicateLines (allowed : List String) (seen : Option (List String)) : List String → List String
  | [] => []
  | line :: rest =>
    let value := stripBlank line
    if value = "TARGET" then line :: deduplicateLines allowed none rest
    else if value = "BASIS" then
      if seen.any (!·.isEmpty) && completeBasisTail allowed false rest then
        deduplicateLines allowed seen rest
      else line :: deduplicateLines allowed (some []) rest
    else
      match seen with
      | some refs =>
        if allowed.contains value then
          if refs.contains value then deduplicateLines allowed (some refs) rest
          else line :: deduplicateLines allowed (some (refs ++ [value])) rest
        else line :: deduplicateLines allowed (if value = "" then some refs else none) rest
      | none => line :: deduplicateLines allowed none rest

/-- `_deduplicate_basis`. -/
def deduplicateBasis (text : String) (allowed : List String) : String :=
  joinNewlines (deduplicateLines allowed none (splitNewlines text))

/-! ## Lines of a batch -/

/-- A ref as Core makes it for an Episode or an Outcome. -/
def coreRef (ref : String) : Bool :=
  "episode_".toList.isPrefixOf ref.toList || "outcome_".toList.isPrefixOf ref.toList

/-- The refs that follow are none of these and are different, and no `BASIS` is behind them. -/
def RefsEnd (seen : List String) : List String → Prop
  | [] => True
  | line :: rest =>
    if coreRef line then line ∉ seen ∧ RefsEnd (seen ++ [line]) rest else line = "BASIS" → seen = []

/-- So it is behind every `BASIS`. -/
def BasisEnds : List String → Prop
  | [] => True
  | line :: rest => (line = "BASIS" → RefsEnd [] rest) ∧ BasisEnds rest

theorem refsEnd_cons {seen rest : List String} {line : String} (h : coreRef line = false) :
    RefsEnd seen (line :: rest) ↔ (line = "BASIS" → seen = []) := by
  rw [RefsEnd, if_neg (by simp [h])]

theorem RefsEnd.refs {seen refs rest : List String} (hbasis : ∀ ref ∈ refs, ref ≠ "BASIS")
    (hnodup : refs.Nodup) (hseen : ∀ ref ∈ refs, ref ∉ seen)
    (hrest : rest = [] ∨ rest.head? = some "TARGET") : RefsEnd seen (refs ++ rest) := by
  induction refs generalizing seen with
  | nil =>
    rcases hrest with rfl | hrest
    · exact trivial
    · obtain ⟨rest, rfl⟩ := List.head?_eq_some_iff.mp hrest
      exact fun h => absurd h (by decide)
  | cons ref refs ih =>
    rw [List.cons_append, RefsEnd]
    by_cases hcore : coreRef ref = true
    · rw [if_pos hcore]
      refine ⟨hseen ref List.mem_cons_self, ih (fun r hr => hbasis r (List.mem_cons_of_mem _ hr))
        (List.nodup_cons.mp hnodup).2 fun r hr => ?_⟩
      rw [List.mem_append, List.mem_singleton, not_or]
      refine ⟨hseen r (List.mem_cons_of_mem _ hr), ?_⟩
      rintro rfl
      exact (List.nodup_cons.mp hnodup).1 hr
    · rw [if_neg hcore]
      exact fun h => absurd h (hbasis ref List.mem_cons_self)

theorem BasisEnds.append_of_ne {lines rest : List String} (h : ∀ line ∈ lines, line ≠ "BASIS")
    (hrest : BasisEnds rest) : BasisEnds (lines ++ rest) := by
  induction lines with
  | nil => exact hrest
  | cons line lines ih =>
    exact ⟨fun heq => absurd heq (h line List.mem_cons_self),
      ih fun l hl => h l (List.mem_cons_of_mem _ hl)⟩

section

variable {change : Change} {changes : List Change} {lines rest : List String}

theorem operationLine_ne_basis (operation : Operation) : operation.line ≠ "BASIS" := by
  cases operation <;> decide

/-- A line with a text behind its operation is no marker. -/
theorem inlineLine_ne {operation : Operation} {pad text : List Char} {marker : String}
    (h : ' ' ∉ marker.toList) :
    String.ofList (operation.line.toList ++ ' ' :: pad ++ text) ≠ marker := by
  rintro rfl
  rw [String.toList_ofList] at h
  exact h (by simp)

theorem stableBasisRef_ne_basis {ref : String} (h : stableBasisRef ref = true) : ref ≠ "BASIS" := by
  rintro rfl
  exact absurd h (by decide)

/-- A `BASIS` that is a target or a text has a marker behind it. -/
theorem BlockLines.basisEnds (h : BlockLines change lines) (hvalid : change.Valid)
    (hhead : rest = [] ∨ rest.head? = some "TARGET") (hrest : BasisEnds rest) :
    BasisEnds (lines ++ rest) := by
  obtain ⟨ls, hls, rfl⟩ := h
  have hne : ∀ ref ∈ change.basisRefs, ref ≠ "BASIS" :=
    fun ref hr => stableBasisRef_ne_basis (hvalid.refs ref hr)
  have hmarker : BasisEnds ("BASIS" :: (change.basisRefs ++ rest)) :=
    ⟨fun _ => RefsEnd.refs hne hvalid.nodup (fun _ _ => List.not_mem_nil) hhead,
      BasisEnds.append_of_ne hne hrest⟩
  have hbody : BasisEnds (ls ++ "BASIS" :: (change.basisRefs ++ rest)) := by
    cases hls with
    | word =>
      exact ⟨fun heq => absurd heq (operationLine_ne_basis _), hmarker⟩
    | own =>
      exact ⟨fun heq => absurd heq (operationLine_ne_basis _),
        fun _ => (refsEnd_cons (by decide)).mpr fun _ => rfl, hmarker⟩
    | inline =>
      exact ⟨fun heq => absurd heq (inlineLine_ne (by decide)), hmarker⟩
  have hscope : change.application.text ≠ "BASIS" := by
    cases change.application <;> decide
  have hrewrite : ["TARGET", change.target, "APPLICATION", change.application.text, "CHANGE"] ++ ls ++
      "BASIS" :: change.basisRefs ++ rest = "TARGET" :: change.target :: "APPLICATION" ::
        change.application.text :: "CHANGE" :: (ls ++ "BASIS" :: (change.basisRefs ++ rest)) := by
    simp
  rw [hrewrite]
  exact ⟨fun heq => absurd heq (by decide),
    fun _ => (refsEnd_cons (by decide)).mpr fun heq => absurd heq (by decide),
    fun heq => absurd heq (by decide), fun heq => absurd heq hscope,
    fun heq => absurd heq (by decide), hbody⟩

theorem BatchLines.basisEnds (h : BatchLines changes lines) (hvalid : ∀ c ∈ changes, c.Valid) :
    BasisEnds lines := by
  induction h with
  | nil => exact trivial
  | @cons change changes ls rest h hrest ih =>
    exact h.basisEnds (hvalid change List.mem_cons_self) hrest.head
      (ih fun c hc => hvalid c (List.mem_cons_of_mem _ hc))

/-! ## Nothing to repair -/

/-- No `CHANGE` is behind an inline application. -/
def Split (a b : String) : Prop := b = "CHANGE" → inlineScope a = none

theorem stableBasisRef_ne_change {ref : String} (h : stableBasisRef ref = true) :
    ref ≠ "CHANGE" := by
  rintro rfl
  exact absurd h (by decide)

theorem isChain_split_cons (first : String) (hline : ∀ line ∈ lines, line ≠ "CHANGE")
    (hrest : rest.IsChain Split) (hhead : rest = [] ∨ rest.head? = some "TARGET") :
    (first :: (lines ++ rest)).IsChain Split := by
  induction lines generalizing first with
  | nil =>
    rcases hhead with rfl | hhead
    · exact .singleton first
    · obtain ⟨more, rfl⟩ := List.head?_eq_some_iff.mp hhead
      exact .cons_cons (fun heq => absurd heq (by decide)) hrest
  | cons line lines ih =>
    exact .cons_cons (fun heq => absurd heq (hline line List.mem_cons_self))
      (ih line fun l hl => hline l (List.mem_cons_of_mem _ hl))

/-- A `CHANGE` is behind a scope, an operation or a `TARGET`. -/
theorem BlockLines.split (h : BlockLines change lines) (hvalid : change.Valid)
    (hrest : rest.IsChain Split) (hhead : rest = [] ∨ rest.head? = some "TARGET") :
    (lines ++ rest).IsChain Split := by
  obtain ⟨ls, hls, rfl⟩ := h
  have hbasis : ("BASIS" :: (change.basisRefs ++ rest)).IsChain Split :=
    isChain_split_cons "BASIS" (fun ref hr => stableBasisRef_ne_change (hvalid.refs ref hr))
      hrest hhead
  have hop : inlineScope change.operation.line = none := by
    cases change.operation <;> decide
  have hne : change.operation.line ≠ "CHANGE" := by
    cases change.operation <;> decide
  have hscope : inlineScope change.application.text = none := by
    cases change.application <;> decide
  have htarget : inlineScope "TARGET" = none := by
    decide
  have hbody : ("CHANGE" :: (ls ++ "BASIS" :: (change.basisRefs ++ rest))).IsChain Split := by
    cases hls with
    | word =>
      exact .cons_cons (fun heq => absurd heq hne) (.cons_cons (fun _ => hop) hbasis)
    | own =>
      exact .cons_cons (fun heq => absurd heq hne) (.cons_cons (fun _ => hop)
        (.cons_cons (fun heq => absurd heq (by decide)) hbasis))
    | inline =>
      exact .cons_cons (fun heq => absurd heq (inlineLine_ne (by decide)))
        (.cons_cons (fun heq => absurd heq (by decide)) hbasis)
  have hword : change.application.text ≠ "CHANGE" := by
    cases change.application <;> decide
  have hrewrite : ["TARGET", change.target, "APPLICATION", change.application.text, "CHANGE"] ++ ls ++
      "BASIS" :: change.basisRefs ++ rest = "TARGET" :: change.target :: "APPLICATION" ::
        change.application.text :: "CHANGE" :: (ls ++ "BASIS" :: (change.basisRefs ++ rest)) := by
    simp
  rw [hrewrite]
  exact .cons_cons (fun _ => htarget) (.cons_cons (fun heq => absurd heq (by decide))
    (.cons_cons (fun heq => absurd heq hword) (.cons_cons (fun _ => hscope) hbody)))

theorem BatchLines.split (h : BatchLines changes lines) (hvalid : ∀ c ∈ changes, c.Valid) :
    lines.IsChain Split := by
  induction h with
  | nil => exact .nil
  | @cons change changes ls rest h hrest ih =>
    exact h.split (hvalid change List.mem_cons_self)
      (ih fun c hc => hvalid c (List.mem_cons_of_mem _ hc)) hrest.head

theorem splitInlineLines_unchanged {allowed : List String} {previous : Option String}
    {raw : List String} (h : (meaningful raw).IsChain Split) :
    splitInlineLines allowed previous raw = raw := by
  induction raw generalizing previous with
  | nil => rfl
  | cons line rest ih =>
    by_cases hblank : trimSpace line = ""
    · rw [meaningful_cons_blank hblank] at h
      simp only [splitInlineLines, hblank, if_true, ih h]
    · rw [meaningful_cons hblank] at h
      have hrest := @ih (some (trimSpace line)) h.of_cons
      cases hscope : inlineScope (trimSpace line) with
      | none => simp only [splitInlineLines, hblank, if_false, hscope, hrest]
      | some scope =>
        have hhead : (meaningful rest).head? ≠ some "CHANGE" := by
          intro hhead
          obtain ⟨more, hmore⟩ := List.head?_eq_some_iff.mp hhead
          rw [hmore, List.isChain_cons_cons] at h
          rw [h.1 rfl] at hscope
          cases hscope
        have hno : ((meaningful rest).head? == some "CHANGE") = false := by simpa using hhead
        simp only [splitInlineLines, hblank, if_false, hscope, hno, Bool.and_false, hrest]
        rfl

theorem trimSpace_stripBlank (line : String) : trimSpace (stripBlank line) = trimSpace line := by
  obtain ⟨w, w', hsplit, hw, hw'⟩ := strip_spec isBlank line.toList
  have hspace : ∀ c, isBlank c = true → isSpace c = true := by
    intro c hc
    simp only [isBlank, Bool.or_eq_true, beq_iff_eq] at hc
    rcases hc with (rfl | rfl) | rfl <;> decide
  rw [← String.toList_inj, toList_trimSpace, toList_trimSpace, stripBlank, String.toList_ofList]
  conv_rhs => rw [hsplit]
  rw [strip_append_blank (fun c hc => hspace c (hw c hc)) fun c hc => hspace c (hw' c hc)]

/-- What starts with a word keeps it, and its start, when the white space around it goes. -/
theorem prefix_strip {word cs : List Char} {first last : Char} (mid : List Char)
    (hword : word = first :: (mid ++ [last])) (hfirst : isSpace first = false)
    (hlast : isSpace last = false) (h : word <+: cs) :
    word <+: strip isSpace cs ∧ strip isSpace cs <+: cs := by
  obtain ⟨more, hmore⟩ := h
  obtain ⟨w, w', hsplit, hw, hw'⟩ := strip_spec isSpace cs
  have hnone : w = [] := by
    cases w with
    | nil => rfl
    | cons c w =>
      rw [← hmore, hword, List.cons_append, List.cons_append] at hsplit
      have hc : first = c := by
        simpa using congrArg List.head? hsplit
      rw [hc] at hfirst
      rw [hw c List.mem_cons_self] at hfirst
      cases hfirst
  rw [hnone, List.nil_append] at hsplit
  refine ⟨?_, w', hsplit.symm⟩
  by_cases hlen : word.length ≤ (strip isSpace cs).length
  · exact List.prefix_of_prefix_length_le ⟨more, hmore⟩ ⟨w', hsplit.symm⟩ hlen
  · -- The last letter of the word would be white space.
    obtain ⟨tail, htail⟩ :=
      List.prefix_of_prefix_length_le ⟨w', hsplit.symm⟩ ⟨more, hmore⟩ (by omega)
    have hne : tail ≠ [] := by
      rintro rfl
      rw [← htail, List.append_nil] at hlen
      exact hlen le_rfl
    have hlastTail : last ∈ tail := by
      have hget : tail.getLast? = some last := by
        have hall : word.getLast? = some last := by
          rw [hword, ← List.cons_append, List.getLast?_concat]
        rwa [← htail, List.getLast?_append_of_ne_nil _ hne] at hall
      exact List.mem_of_getLast? hget
    have hmem : last ∈ w' := by
      have heq : tail ++ more = w' := by
        apply (List.append_right_inj (strip isSpace cs)).mp
        rw [← List.append_assoc, htail, hmore, ← hsplit]
      rw [← heq]
      exact List.mem_append_left _ hlastTail
    rw [hw' last hmem] at hlast
    cases hlast

theorem coreRef_trimSpace {ref : String} (h : coreRef ref = true) :
    coreRef (trimSpace ref) = true := by
  rw [coreRef, Bool.or_eq_true, List.isPrefixOf_iff_prefix, List.isPrefixOf_iff_prefix] at h ⊢
  rw [toList_trimSpace]
  refine h.imp (fun h => ?_) fun h => ?_
  · exact (prefix_strip "pisode".toList (show _ = 'e' :: (_ ++ ['_']) from rfl) (by decide)
      (by decide) h).1
  · exact (prefix_strip "utcome".toList (show _ = 'o' :: (_ ++ ['_']) from rfl) (by decide)
      (by decide) h).1

theorem deduplicateLines_cons (allowed : List String) (seen : Option (List String)) (line : String)
    (rest : List String) :
    deduplicateLines allowed seen (line :: rest) =
      (let value := stripBlank line
      if value = "TARGET" then line :: deduplicateLines allowed none rest
      else if value = "BASIS" then
        if seen.any (!·.isEmpty) && completeBasisTail allowed false rest then
          deduplicateLines allowed seen rest
        else line :: deduplicateLines allowed (some []) rest
      else
        match seen with
        | some refs =>
          if allowed.contains value then
            if refs.contains value then deduplicateLines allowed (some refs) rest
            else line :: deduplicateLines allowed (some (refs ++ [value])) rest
          else line :: deduplicateLines allowed (if value = "" then some refs else none) rest
        | none => line :: deduplicateLines allowed none rest) :=
  rfl

/-- What was seen since a `BASIS` are refs of one basis, so none comes again. -/
theorem deduplicateLines_unchanged {allowed : List String}
    (hallowed : ∀ ref ∈ allowed, coreRef ref = true) {s : Option (List String)}
    {raw : List String} (h : BasisEnds (meaningful raw))
    (hseen : ∀ refs, s = some refs → RefsEnd (refs.map trimSpace) (meaningful raw)) :
    deduplicateLines allowed s raw = raw := by
  induction raw generalizing s with
  | nil => rfl
  | cons line rest ih =>
    have htrim := trimSpace_stripBlank line
    have hrest : BasisEnds (meaningful rest) := by
      by_cases hblank : trimSpace line = ""
      · rwa [meaningful_cons_blank hblank] at h
      · rw [meaningful_cons hblank] at h
        exact h.2
    have hnone := ih (s := none) hrest fun _ hs => by cases hs
    rw [deduplicateLines_cons]
    dsimp only
    by_cases htarget : stripBlank line = "TARGET"
    · rw [if_pos htarget, hnone]
    rw [if_neg htarget]
    by_cases hbasis : stripBlank line = "BASIS"
    · have hline : trimSpace line = "BASIS" := by
        rw [← htrim, hbasis]
        decide
      have hne : trimSpace line ≠ "" := by
        rw [hline]
        decide
      rw [meaningful_cons hne, hline] at h hseen
      have hempty : s.any (!·.isEmpty) = false := by
        cases s with
        | none => rfl
        | some refs =>
          have hnil := (refsEnd_cons (by decide)).mp (hseen refs rfl) rfl
          rw [List.map_eq_nil_iff] at hnil
          rw [hnil]
          rfl
      have hsome := ih (s := some []) hrest fun refs hs => by
        obtain rfl := Option.some.inj hs
        exact h.1 rfl
      rw [if_pos hbasis, hempty, Bool.false_and, if_neg Bool.false_ne_true, hsome]
    rw [if_neg hbasis]
    cases s with
    | none => rw [hnone]
    | some refs =>
      dsimp only
      by_cases hmem : allowed.contains (stripBlank line) = true
      · have hcore : coreRef (trimSpace line) = true := by
          rw [← htrim]
          exact coreRef_trimSpace (hallowed _ (by simpa using hmem))
        have hne : trimSpace line ≠ "" := by
          intro hempty
          rw [hempty] at hcore
          exact absurd hcore (by decide)
        have hends := hseen refs rfl
        rw [meaningful_cons hne, RefsEnd, if_pos hcore] at hends
        have hnew : refs.contains (stripBlank line) = false := by
          by_contra hold
          refine hends.1 (List.mem_map.mpr ⟨stripBlank line, ?_, htrim⟩)
          simpa using hold
        have hsome := ih (s := some (refs ++ [stripBlank line])) hrest fun refs' hs => by
          obtain rfl := Option.some.inj hs
          rw [List.map_append, List.map_singleton, htrim]
          exact hends.2
        rw [if_pos hmem, hnew, if_neg Bool.false_ne_true, hsome]
      · rw [if_neg hmem]
        by_cases hempty : stripBlank line = ""
        · have hblank : trimSpace line = "" := by
            rw [← htrim, hempty]
            decide
          rw [meaningful_cons_blank hblank] at hseen
          rw [if_pos hempty, ih (s := some refs) hrest hseen]
        · rw [if_neg hempty, hnone]

/-! ## Accepted texts -/

variable {text : String} {allowed : List String}

/-- The lines that are not blank write the changes of an accepted text. -/
theorem batchLines_of_accepted (h : parseTaggedText text = .ok changes) :
    BatchLines changes (meaningful (splitNewlines text)) ∧ ∀ c ∈ changes, c.Valid := by
  obtain ⟨_, hvalid, lines, hlines, hspaced⟩ := parseTaggedText_iff.mp h
  rw [meaningful_splitNewlines, textLines_spaced hspaced (hlines.clean hvalid.valid)]
  exact ⟨hlines, hvalid.valid⟩

theorem splitCopiedInlineApplication_accepted (h : parseTaggedText text = .ok changes) :
    splitCopiedInlineApplication text allowed = text := by
  obtain ⟨hlines, hvalid⟩ := batchLines_of_accepted h
  rw [splitCopiedInlineApplication, splitInlineLines_unchanged (hlines.split hvalid),
    joinNewlines_splitNewlines]

theorem restoreInitialNewTarget_accepted (h : parseTaggedText text = .ok changes) :
    restoreInitialNewTarget text allowed = text := by
  have hhead := (batchLines_of_accepted h).1.head
  unfold restoreInitialNewTarget
  dsimp only
  split
  · rename_i target application rest hlines
    rw [hlines] at hhead
    have htarget : target = "TARGET" := by
      rcases hhead with hhead | hhead
      · cases hhead
      · exact Option.some.inj hhead
    have hnone : ([targetNewRecollection, targetNewDisposition].filter
        allowed.contains).contains target = false := by
      rw [htarget, Bool.eq_false_iff]
      intro hmem
      have hin := (List.mem_filter.mp (List.contains_iff_mem.mp hmem)).1
      exact absurd hin (by decide)
    rw [hnone, Bool.false_and, if_neg Bool.false_ne_true]
  · rfl

theorem deduplicateBasis_accepted (hallowed : ∀ ref ∈ allowed, coreRef ref = true)
    (h : parseTaggedText text = .ok changes) : deduplicateBasis text allowed = text := by
  obtain ⟨hlines, hvalid⟩ := batchLines_of_accepted h
  rw [deduplicateBasis, deduplicateLines_unchanged hallowed (hlines.basisEnds hvalid)
    (fun _ hs => by cases hs), joinNewlines_splitNewlines]

end

end ChoraMem
