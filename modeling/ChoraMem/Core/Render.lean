/-
Texts written for the parser.

The lines the parser reads of a text are its nonblank lines, whatever ends them.  A
list of blocks whose lines survive the trimming is read back as the changes it was
written from.
-/
import ChoraMem.Core.Parser
import ChoraMem.Text.Lines

namespace ChoraMem

open Text

/-! ## Lines -/

def isNewline (c : Char) : Bool := c == '\n'

theorem toList_trimSpace (s : String) : (trimSpace s).toList = strip isSpace s.toList := by
  rw [trimSpace, String.toList_ofList]
  rfl

theorem splitLines_eq (cs : List Char) : splitLines cs = cs.splitOnP isNewline := by
  induction cs with
  | nil => rfl
  | cons c rest ih =>
    rw [List.splitOnP_cons_eq_if_modifyHead]
    by_cases hc : c = '\n'
    · subst hc
      rw [if_pos (by decide)]
      show [] :: splitLines rest = _
      rw [ih]
    · rw [if_neg (by simpa [isNewline] using hc)]
      obtain ⟨line, lines, hl⟩ := List.exists_cons_of_ne_nil (List.splitOnP_ne_nil isNewline rest)
      rw [splitLines, ih, hl]
      · rfl
      · exact fun h => hc h

/-- A carriage return at the end of a line is not part of it. -/
theorem unixNewlines_line {line : List Char} (h : ∀ c ∈ line, isNewline c = false)
    (rest : List Char) :
    ∃ kept cut, line = kept ++ cut ∧ (∀ c ∈ cut, isSpace c) ∧
      unixNewlines (line ++ '\n' :: rest) = kept ++ '\n' :: unixNewlines rest := by
  induction line with
  | nil => exact ⟨[], [], rfl, by simp, rfl⟩
  | cons c line ih =>
    obtain ⟨kept, cut, heq, hcut, hunix⟩ := ih fun d hd => h d (List.mem_cons_of_mem _ hd)
    by_cases hcr : c = '\r' ∧ line = []
    · obtain ⟨rfl, rfl⟩ := hcr
      exact ⟨[], ['\r'], rfl, by simp; decide, rfl⟩
    · refine ⟨c :: kept, cut, by rw [heq]; rfl, hcut, ?_⟩
      have hstep : ∀ d tail, line ++ '\n' :: rest = d :: tail → ¬(c = '\r' ∧ d = '\n') := by
        intro d tail heq' hboth
        cases line with
        | nil => exact hcr ⟨hboth.1, rfl⟩
        | cons e line =>
          simp only [List.cons_append, List.cons.injEq] at heq'
          have := h e (by simp)
          rw [heq'.1, hboth.2] at this
          exact absurd this (by decide)
      rw [List.cons_append, List.cons_append, ← hunix]
      cases hl : line ++ '\n' :: rest with
      | nil => simp at hl
      | cons d tail =>
        rw [unixNewlines]
        intro tail' hc heq'
        cases heq'
        exact hstep _ _ hl ⟨hc, rfl⟩

theorem unixNewlines_of_not_newline {cs : List Char} (h : ∀ c ∈ cs, isNewline c = false) :
    unixNewlines cs = cs := by
  induction cs with
  | nil => rfl
  | cons c rest ih =>
    rw [unixNewlines]
    · rw [ih fun d hd => h d (List.mem_cons_of_mem _ hd)]
    · intro tail _ hrest
      have := h '\n' (by rw [hrest]; simp)
      exact absurd this (by decide)

theorem pieces_unixNewlines (cs : List Char) :
    pieces isNewline isSpace (unixNewlines cs) = pieces isNewline isSpace cs := by
  induction hn : cs.length using Nat.strong_induction_on generalizing cs with
  | _ n ih =>
    by_cases hall : ∀ c ∈ cs, isNewline c = false
    · rw [unixNewlines_of_not_newline hall]
    · have hdrop : cs.dropWhile (fun c => !isNewline c) ≠ [] := by
        intro hnil
        rw [List.dropWhile_eq_nil_iff] at hnil
        exact hall fun c hc => by simpa using hnil c hc
      obtain ⟨c, rest, hrest⟩ := List.exists_cons_of_ne_nil hdrop
      have hc : c = '\n' := by
        have := List.head_dropWhile_not (fun c => !isNewline c) hdrop
        simp only [hrest, List.head_cons] at this
        simpa [isNewline] using this
      have hcs : cs = cs.takeWhile (fun c => !isNewline c) ++ '\n' :: rest := by
        rw [← hc, ← hrest, List.takeWhile_append_dropWhile]
      have hline : ∀ d ∈ cs.takeWhile (fun c => !isNewline c), isNewline d = false := by
        intro d hd
        simpa using List.mem_takeWhile_imp hd
      obtain ⟨kept, cut, heq, hcut, hunix⟩ := unixNewlines_line hline rest
      have hlen : rest.length < n := by
        rw [← hn, hcs, List.length_append, List.length_cons]
        omega
      have hkept : pieces isNewline isSpace (kept ++ cut) = pieces isNewline isSpace kept := by
        rw [← List.nil_append kept]
        exact pieces_append_blank (fun c hc => absurd hc List.not_mem_nil) hcut
      have hnl : isNewline '\n' := by decide
      rw [hcs, hunix, pieces_append_sep hnl, pieces_append_sep hnl, ih _ hlen rest rfl, heq, hkept]

/-- Raw lines, trimmed, without the blank ones. -/
theorem trimmed_lines (raws : List (List Char)) :
    ((raws.map fun raw => trimSpace (String.ofList raw)).filter (· != "")) =
      ((raws.map (strip isSpace)).filter fun line => !line.isEmpty).map String.ofList := by
  induction raws with
  | nil => rfl
  | cons raw raws ih =>
    have htrim : trimSpace (String.ofList raw) = String.ofList (strip isSpace raw) := by
      rw [← String.toList_inj, toList_trimSpace, String.toList_ofList, String.toList_ofList]
    rw [List.map_cons, List.map_cons, htrim]
    by_cases hraw : strip isSpace raw = []
    · rw [hraw, List.filter_cons_of_neg (by decide), List.filter_cons_of_neg (by simp)]
      exact ih
    · have hne : String.ofList (strip isSpace raw) ≠ "" := by
        intro h
        exact hraw (String.ofList_injective h)
      rw [List.filter_cons_of_pos (by simpa using hne), List.filter_cons_of_pos (by simpa using hraw),
        List.map_cons, ih]

/-- The parser reads the nonblank lines. -/
theorem textLines_eq (text : String) :
    textLines text = (pieces isNewline isSpace text.toList).map String.ofList := by
  unfold textLines
  rw [toList_trimSpace, String.toList_ofList, splitLines_eq, ← pieces_unixNewlines,
    ← pieces_strip fun _ h => h]
  exact trimmed_lines _

/-- A line that is read back as it was written. -/
def CleanLine (line : String) : Prop :=
  line ≠ "" ∧ trimSpace line = line ∧ '\n' ∉ line.toList

instance (line : String) : Decidable (CleanLine line) :=
  inferInstanceAs (Decidable (line ≠ "" ∧ trimSpace line = line ∧ '\n' ∉ line.toList))

theorem cleanLine_of_mem_textLines {text line : String} (h : line ∈ textLines text) :
    CleanLine line := by
  rw [textLines_eq] at h
  obtain ⟨cs, hcs, rfl⟩ := List.mem_map.mp h
  obtain ⟨hne, hstripped⟩ := mem_pieces hcs
  refine ⟨fun h => hne (String.ofList_injective h), ?_, fun hn => ?_⟩
  · rw [← String.toList_inj, toList_trimSpace, String.toList_ofList, strip_eq_self hstripped]
  · have := not_sep_of_mem_pieces hcs '\n' (by simpa using hn)
    exact absurd this (by decide)

theorem pieces_cleanLine {line : String} (h : CleanLine line) :
    pieces isNewline isSpace line.toList = [line.toList] := by
  obtain ⟨hne, htrim, hnl⟩ := h
  have hstrip : strip isSpace line.toList = line.toList := by
    rw [← toList_trimSpace, htrim]
  have hnil : line.toList ≠ [] := fun h => hne (String.toList_inj.mp h)
  rw [pieces_single, hstrip, List.filter_cons_of_pos (by simpa using hnil), List.filter_nil]
  intro c hc
  have : c ≠ '\n' := fun h => hnl (h ▸ hc)
  simpa [isNewline] using this

theorem pieces_joined (lines : List String) :
    pieces isNewline isSpace (String.intercalate "\n" lines).toList =
      (lines.map String.toList).flatMap (pieces isNewline isSpace) := by
  rw [String.toList_intercalate]
  exact pieces_intercalate (by decide) _

/-- Joined clean lines are read back. -/
theorem textLines_joined {lines : List String} (h : ∀ line ∈ lines, CleanLine line) :
    textLines (String.intercalate "\n" lines) = lines := by
  rw [textLines_eq, pieces_joined]
  induction lines with
  | nil => rfl
  | cons line rest ih =>
    rw [List.map_cons, List.flatMap_cons, pieces_cleanLine (h line List.mem_cons_self),
      List.map_append, ih fun l hl => h l (List.mem_cons_of_mem _ hl)]
    simp

/-! ## Blocks -/

/-- The lines of a change, a text on the line after its operation. -/
def Operation.line : Operation → String
  | text => "TEXT"
  | adapt => "ADAPT"
  | keep => "KEEP"
  | reenact => "REENACT"
  | inhibit => "INHIBIT"

/-- The operations that carry a text. -/
def Operation.hasText : Operation → Bool
  | text | adapt => true
  | _ => false

def Change.lines (change : Change) : List String :=
  ["TARGET", change.target, "APPLICATION", change.application.text, "CHANGE",
    change.operation.line] ++ (if change.operation.hasText then [change.text] else []) ++
      "BASIS" :: change.basisRefs

/-- A change that can be written. -/
structure Change.Writable (change : Change) : Prop where
  target : change.isNew ∨ existingStableRef change.target
  basis : change.basisRefs ≠ []
  nodup : change.basisRefs.Nodup
  refs : ∀ ref ∈ change.basisRefs, stableBasisRef ref
  bounded : change.text.utf8ByteSize ≤ maxChangeTextBytes
  plain : change.operation.hasText = false → change.text = ""

instance (change : Change) : Decidable change.Writable :=
  decidable_of_iff
    ((change.isNew ∨ existingStableRef change.target) ∧ change.basisRefs ≠ [] ∧
      change.basisRefs.Nodup ∧ (∀ ref ∈ change.basisRefs, stableBasisRef ref) ∧
      change.text.utf8ByteSize ≤ maxChangeTextBytes ∧
      (change.operation.hasText = false → change.text = ""))
    ⟨fun ⟨h₁, h₂, h₃, h₄, h₅, h₆⟩ => ⟨h₁, h₂, h₃, h₄, h₅, h₆⟩,
      fun ⟨h₁, h₂, h₃, h₄, h₅, h₆⟩ => ⟨h₁, h₂, h₃, h₄, h₅, h₆⟩⟩

theorem parseBasis_lines {refs seen rest : List String} {n : Nat} (hrefs : ∀ ref ∈ refs, stableBasisRef ref)
    (hnd : (seen ++ refs).Nodup) (hrest : rest = [] ∨ rest.head? = some "TARGET") :
    parseBasis n seen (refs ++ rest) = .ok (seen ++ refs) := by
  induction refs generalizing seen n with
  | nil =>
    rcases hrest with rfl | hrest
    · simp [parseBasis]
    · cases rest with
      | nil => cases hrest
      | cons line rest =>
        simp only [List.head?_cons, Option.some.injEq] at hrest
        subst hrest
        simp [parseBasis]
  | cons ref refs ih =>
    have hstable := hrefs ref List.mem_cons_self
    have htarget : ref ≠ "TARGET" := by
      intro h
      subst h
      exact absurd hstable (by decide)
    have hnew : ref ∉ seen := by
      have := List.nodup_append.mp hnd
      exact fun h => this.2.2 ref h ref List.mem_cons_self rfl
    rw [List.cons_append, parseBasis, if_neg (by simpa using htarget), if_neg (by simpa using hstable),
      if_neg (by simpa using hnew), ih (fun r hr => hrefs r (List.mem_cons_of_mem _ hr)) (by simpa using hnd)]
    simp

theorem parseApplication_text (a : Application) (n : Nat) : parseApplication a.text n = .ok a := by
  cases a <;> rfl

theorem claimTarget_writable {change : Change} (h : change.Writable) {existing : List String} (n : Nat)
    (hnew : change.isNew = false → change.target ∉ existing) :
    claimTarget change.target existing n =
      .ok (existing ++ if change.isNew then [] else [change.target]) := by
  unfold claimTarget
  by_cases hn : change.isNew
  · have hn' := hn
    unfold Change.isNew at hn'
    rw [if_pos hn', if_pos hn, List.append_nil]
  · have hn' := hn
    unfold Change.isNew at hn'
    have hstable : existingStableRef change.target := h.target.resolve_left hn
    have hfresh := hnew (eq_false_of_ne_true hn)
    rw [if_neg hn', if_neg (by simpa using hstable), if_neg (by simpa using hfresh), if_neg hn]

theorem parseBlock_lines {change : Change} (h : change.Writable) {existing rest : List String}
    (offset : Nat) (hnew : change.isNew = false → change.target ∉ existing)
    (hrest : rest = [] ∨ rest.head? = some "TARGET") :
    parseBlock offset existing (change.lines ++ rest) =
      .ok ⟨change, existing ++ (if change.isNew then [] else [change.target]),
        change.lines.length⟩ := by
  have hclaim := fun n => claimTarget_writable h n hnew
  have hbasis : ∀ n, parseBasis n [] (change.basisRefs ++ rest) = .ok change.basisRefs := by
    intro n
    have hnd : ([] ++ change.basisRefs).Nodup := by simpa using h.nodup
    simpa using parseBasis_lines h.refs hnd hrest
  have hbounded : ¬maxChangeTextBytes < change.text.utf8ByteSize := Nat.not_lt.mpr h.bounded
  have hpos : 0 < change.basisRefs.length := List.length_pos_iff.mpr h.basis
  have heta : ∀ o t, change.operation = o → change.text = t →
      (⟨change.target, change.application, o, t, change.basisRefs⟩ : Change) = change := by
    intro o t ho ht
    subst ho ht
    rfl
  unfold parseBlock
  cases hop : change.operation with
  | text | adapt =>
    simp [Change.lines, Operation.hasText, Operation.line, hclaim, parseApplication_text, parseChange,
      nextLineText, hbounded, bind, Except.bind, pure, Except.pure, Except.map, hop]
    rw [if_neg (by omega)]
    simp [hbasis, h.basis, heta _ _ hop rfl]
    omega
  | keep | reenact | inhibit =>
    have htext : change.text = "" := h.plain (by rw [hop]; rfl)
    simp [Change.lines, Operation.hasText, Operation.line, hclaim, parseApplication_text, parseChange,
      parseOperation, bind, Except.bind, pure, Except.pure, Except.map, hop]
    rw [if_neg (by omega)]
    simp [hbasis, h.basis, heta _ _ hop htext]
    omega

theorem Change.length_lines (change : Change) : 0 < change.lines.length := by
  simp [Change.lines]

/-- The existing targets of a batch. -/
def existingTargets (changes : List Change) : List String :=
  (changes.filter (!·.isNew)).map (·.target)

theorem existingTargets_cons (change : Change) (changes : List Change) :
    existingTargets (change :: changes) =
      (if change.isNew then [] else [change.target]) ++ existingTargets changes := by
  unfold existingTargets
  cases hnew : change.isNew <;> simp [hnew]

theorem parseBlocks_lines {changes : List Change} (h : ∀ change ∈ changes, change.Writable)
    {fuel : Nat} {existing : List String} (offset : Nat)
    (hnd : (existing ++ existingTargets changes).Nodup)
    (hfuel : (changes.flatMap Change.lines).length ≤ fuel) :
    parseBlocks fuel offset existing (changes.flatMap Change.lines) = .ok changes := by
  induction changes generalizing fuel offset existing with
  | nil => cases fuel <;> rfl
  | cons change rest ih =>
    have hpos := change.length_lines
    have hfresh : change.isNew = false → change.target ∉ existing := by
      intro hnew hmem
      rw [existingTargets_cons, hnew] at hnd
      exact (List.nodup_append.mp hnd).2.2 _ hmem _ (by simp) rfl
    have hhead : rest.flatMap Change.lines = [] ∨
        (rest.flatMap Change.lines).head? = some "TARGET" := by
      cases rest with
      | nil => exact Or.inl rfl
      | cons next rest => exact Or.inr rfl
    rw [List.flatMap_cons] at hfuel ⊢
    rw [List.length_append] at hfuel
    obtain ⟨line, lines, hl⟩ := List.exists_cons_of_ne_nil (List.length_pos_iff.mp hpos)
    cases fuel with
    | zero => omega
    | succ fuel =>
      have hblock := parseBlock_lines (h change List.mem_cons_self) offset hfresh hhead
      rw [existingTargets_cons, ← List.append_assoc] at hnd
      have hfit : (rest.flatMap Change.lines).length ≤ fuel := by omega
      have hrest := ih (fun c hc => h c (List.mem_cons_of_mem _ hc))
        (offset + change.lines.length) hnd hfit
      have hdrop : (change.lines ++ rest.flatMap Change.lines).drop change.lines.length =
          rest.flatMap Change.lines := by
        simp
      have hcons : change.lines ++ rest.flatMap Change.lines =
          line :: (lines ++ rest.flatMap Change.lines) := by
        rw [hl]
        rfl
      have hunfold : ∀ all : List String, all = line :: (lines ++ rest.flatMap Change.lines) →
          parseBlocks (fuel + 1) offset existing all = (do
            let block ← parseBlock offset existing all
            let rest ← parseBlocks fuel (offset + block.length) block.existing
              (all.drop block.length)
            return block.change :: rest) := by
        intro all hall
        subst hall
        rfl
      rw [hunfold _ hcons, hblock]
      simp only [bind, Except.bind, pure, Except.pure, hdrop, hrest]

/-- The text of a batch. -/
def renderChanges (changes : List Change) : String :=
  String.intercalate "\n" (changes.flatMap Change.lines)

theorem not_isSpace_of_stableRef {ref : String} (h : stableRef ref) :
    ref ≠ "" ∧ ∀ c ∈ ref.toList, isSpace c = false ∧ isControl c = false := by
  unfold stableRef at h
  simp only [Bool.and_eq_true, bne_iff_ne, ne_eq, Bool.not_eq_true', List.any_eq_false,
    Bool.or_eq_true, not_or, Bool.not_eq_true] at h
  exact ⟨h.1, h.2⟩

theorem cleanLine_of_stableRef {ref : String} (h : stableRef ref) : CleanLine ref := by
  obtain ⟨hne, hspace⟩ := not_isSpace_of_stableRef h
  refine ⟨hne, ?_, fun hn => ?_⟩
  · rw [← String.toList_inj, toList_trimSpace, strip_eq_self]
    constructor
    · intro c hc
      exact (hspace c (List.mem_of_mem_head? hc)).1
    · intro c hc
      exact (hspace c (List.mem_of_getLast? hc)).1
  · exact absurd (hspace _ hn).1 (by decide)

theorem stableRef_of_stableBasisRef {ref : String} (h : stableBasisRef ref) : stableRef ref := by
  unfold stableBasisRef at h
  simp only [Bool.and_eq_true] at h
  exact h.1

theorem cleanLine_of_mem_lines {change : Change} (h : change.Writable)
    (htext : change.operation.hasText → CleanLine change.text) {line : String}
    (hl : line ∈ change.lines) : CleanLine line := by
  have hword : ∀ word ∈ ["TARGET", "APPLICATION", "CHANGE", "BASIS"], CleanLine word := by
    intro word hw
    simp only [List.mem_cons, List.not_mem_nil, or_false] at hw
    rcases hw with rfl | rfl | rfl | rfl <;> exact cleanLine_of_stableRef (by decide)
  have htarget : CleanLine change.target := by
    rcases h.target with hnew | hold
    · unfold Change.isNew at hnew
      simp only [Bool.or_eq_true, beq_iff_eq] at hnew
      rcases hnew with heq | heq <;> rw [heq] <;> exact cleanLine_of_stableRef (by decide)
    · unfold existingStableRef at hold
      simp only [Bool.and_eq_true] at hold
      exact cleanLine_of_stableRef hold.1
  have happ : CleanLine change.application.text := by
    cases change.application <;> exact cleanLine_of_stableRef (by decide)
  have hop : CleanLine change.operation.line := by
    cases change.operation <;> exact cleanLine_of_stableRef (by decide)
  simp only [Change.lines, List.cons_append, List.nil_append, List.mem_cons, List.mem_append] at hl
  rcases hl with rfl | rfl | rfl | rfl | rfl | rfl | hl | rfl | hl
  · exact hword _ (by simp)
  · exact htarget
  · exact hword _ (by simp)
  · exact happ
  · exact hword _ (by simp)
  · exact hop
  · split at hl
    · rw [List.mem_singleton.mp hl]
      exact htext (by assumption)
    · cases hl
  · exact hword _ (by simp)
  · exact cleanLine_of_stableRef (stableRef_of_stableBasisRef (h.refs line hl))

/-- What is written is read back. -/
theorem parseTaggedText_lines {changes : List Change} (h : ∀ change ∈ changes, change.Writable)
    (hnd : (existingTargets changes).Nodup) {text : String}
    (hlines : textLines text = changes.flatMap Change.lines)
    (hsize : text.utf8ByteSize ≤ maxTaggedTextBytes) : parseTaggedText text = .ok changes := by
  unfold parseTaggedText
  rw [if_neg (Nat.not_lt.mpr hsize), hlines]
  exact parseBlocks_lines h 0 (by simpa using hnd) (Nat.le_refl _)

theorem textLines_renderChanges {changes : List Change} (h : ∀ change ∈ changes, change.Writable)
    (htext : ∀ change ∈ changes, change.operation.hasText → CleanLine change.text) :
    textLines (renderChanges changes) = changes.flatMap Change.lines := by
  refine textLines_joined fun line hl => ?_
  obtain ⟨change, hc, hline⟩ := List.mem_flatMap.mp hl
  exact cleanLine_of_mem_lines (h change hc) (htext change hc) hline

theorem parseTaggedText_renderChanges {changes : List Change}
    (h : ∀ change ∈ changes, change.Writable)
    (htext : ∀ change ∈ changes, change.operation.hasText → CleanLine change.text)
    (hnd : (existingTargets changes).Nodup)
    (hsize : (renderChanges changes).utf8ByteSize ≤ maxTaggedTextBytes) :
    parseTaggedText (renderChanges changes) = .ok changes :=
  parseTaggedText_lines h hnd (textLines_renderChanges h htext) hsize

theorem parseTaggedText_single {change : Change} (h : change.Writable)
    (htext : change.operation.hasText → CleanLine change.text)
    (hsize : (renderChanges [change]).utf8ByteSize ≤ maxTaggedTextBytes) :
    parseTaggedText (renderChanges [change]) = .ok [change] := by
  refine parseTaggedText_renderChanges ?_ ?_ ?_ hsize
  · intro c hc
    rw [List.mem_singleton.mp hc]
    exact h
  · intro c hc
    rw [List.mem_singleton.mp hc]
    exact htext
  · rw [existingTargets_cons]
    cases change.isNew <;> simp [existingTargets]

end ChoraMem
