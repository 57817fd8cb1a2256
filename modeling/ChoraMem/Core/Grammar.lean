/-
The grammar of tagged text.

A batch is written block by block, a text on the line of its own or behind its
operation, with blank lines, carriage returns and white space around the lines as one
likes.  The parser accepts exactly the texts that write a batch of valid changes, and
answers that batch.  So a batch behind another is read as both.
-/
import Mathlib.Data.List.GetD
import ChoraMem.Core.Render

namespace ChoraMem

open Text

/-! ## Lines in a text -/

/-- The text consists of these lines, each between white space, and of blank lines.  A
carriage return at the end of a line is white space. -/
inductive Spaced : List String → List Char → Prop
  | blank {w : List Char} (h : ∀ c ∈ w, isSpace c) : Spaced [] w
  | last {line : String} {w w' : List Char} (h : ∀ c ∈ w, isSpace c) (h' : ∀ c ∈ w', isSpace c) :
      Spaced [line] (w ++ line.toList ++ w')
  | cons {line : String} {lines : List String} {w w' rest : List Char}
      (h : ∀ c ∈ w, isSpace c) (h' : ∀ c ∈ w', isSpace c) (hrest : Spaced lines rest) :
      Spaced (line :: lines) (w ++ line.toList ++ w' ++ '\n' :: rest)

theorem pieces_spaced {lines : List String} {cs : List Char} (h : Spaced lines cs)
    (hclean : ∀ line ∈ lines, CleanLine line) :
    pieces isNewline isSpace cs = lines.map String.toList := by
  induction h with
  | @blank w h =>
    have hnil := @pieces_append_blank isNewline _ _ [] [] h (by simp)
    simpa [pieces_nil] using hnil
  | last h h' =>
    rw [pieces_append_blank h h', pieces_cleanLine (hclean _ List.mem_cons_self)]
    rfl
  | cons h h' _ ih =>
    rw [pieces_append_sep (by decide), pieces_append_blank h h',
      pieces_cleanLine (hclean _ List.mem_cons_self), ih fun l hl => hclean l (List.mem_cons_of_mem _ hl)]
    rfl

/-- The parser reads the lines. -/
theorem textLines_spaced {lines : List String} {text : String} (h : Spaced lines text.toList)
    (hclean : ∀ line ∈ lines, CleanLine line) : textLines text = lines := by
  rw [textLines_eq, pieces_spaced h hclean, List.map_map]
  simp [Function.comp_def]

theorem Spaced.blank_append {lines : List String} {w cs : List Char} (hw : ∀ c ∈ w, isSpace c)
    (h : Spaced lines cs) : Spaced lines (w ++ cs) := by
  have hboth : ∀ {w' : List Char}, (∀ c ∈ w', isSpace c) → ∀ c ∈ w ++ w', isSpace c := by
    intro w' hw' c hc
    exact (List.mem_append.mp hc).elim (hw c) (hw' c)
  cases h with
  | blank h => exact .blank (hboth h)
  | @last line _ _ h h' =>
    have hlast := @Spaced.last line _ _ (hboth h) h'
    simpa using hlast
  | @cons line _ _ _ _ h h' hrest =>
    have hcons := @Spaced.cons line _ _ _ _ (hboth h) h' hrest
    simpa using hcons

/-- Every text consists of the lines that the parser reads. -/
theorem spaced_pieces (cs : List Char) :
    Spaced ((pieces isNewline isSpace cs).map String.ofList) cs := by
  induction hn : cs.length using Nat.strong_induction_on generalizing cs with
  | _ n ih =>
    have hline : ∀ line : List Char, (∀ c ∈ line, isNewline c = false) →
        pieces isNewline isSpace line = [] ∧ (∀ c ∈ line, isSpace c) ∨
          ∃ w w', (∀ c ∈ w, isSpace c) ∧ (∀ c ∈ w', isSpace c) ∧
            line = w ++ strip isSpace line ++ w' ∧
              pieces isNewline isSpace line = [strip isSpace line] := by
      intro line hsep
      rw [pieces_single hsep]
      by_cases hnil : strip isSpace line = []
      · left
        exact ⟨by simp [hnil], strip_eq_nil.mp hnil⟩
      · right
        obtain ⟨w, w', heq, hw, hw'⟩ := strip_spec isSpace line
        exact ⟨w, w', hw, hw', heq, by simp [hnil]⟩
    by_cases hall : ∀ c ∈ cs, isNewline c = false
    · rcases hline cs hall with ⟨hnil, hblank⟩ | ⟨w, w', hw, hw', heq, hpiece⟩
      · rw [hnil]
        exact .blank hblank
      · rw [hpiece]
        have hlast := @Spaced.last (String.ofList (strip isSpace cs)) _ _ hw hw'
        rw [String.toList_ofList, ← heq] at hlast
        exact hlast
    · have hdrop : cs.dropWhile (fun c => !isNewline c) ≠ [] := by
        intro hnil
        rw [List.dropWhile_eq_nil_iff] at hnil
        exact hall fun c hc => by simpa using hnil c hc
      obtain ⟨c, rest, hrest⟩ := List.exists_cons_of_ne_nil hdrop
      have hc : c = '\n' := by
        have hhead := List.head_dropWhile_not (fun c => !isNewline c) hdrop
        simp only [hrest, List.head_cons] at hhead
        simpa [isNewline] using hhead
      have hcs : cs = cs.takeWhile (fun c => !isNewline c) ++ '\n' :: rest := by
        rw [← hc, ← hrest, List.takeWhile_append_dropWhile]
      generalize hl : cs.takeWhile (fun c => !isNewline c) = line at hcs
      have hsep : ∀ d ∈ line, isNewline d = false := by
        intro d hd
        rw [← hl] at hd
        simpa using List.mem_takeWhile_imp hd
      have hlen : rest.length < n := by
        rw [← hn, hcs, List.length_append, List.length_cons]
        omega
      have hrec := ih _ hlen rest rfl
      rw [hcs, pieces_append_sep (by decide), List.map_append]
      rcases hline line hsep with ⟨hnil, hblank⟩ | ⟨w, w', hw, hw', heq, hpiece⟩
      · rw [hnil]
        have happend : line ++ '\n' :: rest = (line ++ ['\n']) ++ rest := by simp
        rw [happend]
        refine hrec.blank_append fun c hc => ?_
        rcases List.mem_append.mp hc with hc | hc
        · exact hblank c hc
        · rw [List.mem_singleton.mp hc]
          decide
      · rw [hpiece]
        have hcons := @Spaced.cons (String.ofList (strip isSpace line)) _ _ _ _ hw hw' hrec
        rw [String.toList_ofList, ← heq] at hcons
        exact hcons

theorem spaced_textLines (text : String) : Spaced (textLines text) text.toList := by
  rw [textLines_eq]
  exact spaced_pieces text.toList

/-! ## Blocks -/

/-- The lines of an operation and its text. -/
inductive ChangeLines (operation : Operation) (text : String) : List String → Prop
  | word (h : operation.hasText = false) (ht : text = "") : ChangeLines operation text [operation.line]
  | own (h : operation.hasText) : ChangeLines operation text [operation.line, text]
  | inline (h : operation.hasText) {pad : List Char} (hpad : ∀ c ∈ pad, isSpace c ∧ c ≠ '\n') :
      ChangeLines operation text
        [String.ofList (operation.line.toList ++ ' ' :: pad ++ text.toList)]

def BlockLines (change : Change) (lines : List String) : Prop :=
  ∃ ls, ChangeLines change.operation change.text ls ∧
    lines = ["TARGET", change.target, "APPLICATION", change.application.text, "CHANGE"] ++ ls ++
      "BASIS" :: change.basisRefs

inductive BatchLines : List Change → List String → Prop
  | nil : BatchLines [] []
  | cons {change : Change} {changes : List Change} {ls rest : List String}
      (h : BlockLines change ls) (hrest : BatchLines changes rest) :
      BatchLines (change :: changes) (ls ++ rest)

/-- The text writes the batch. -/
def Writes (text : String) (changes : List Change) : Prop :=
  ∃ lines, BatchLines changes lines ∧ Spaced lines text.toList

/-- A change that the grammar admits. -/
structure Change.Valid (change : Change) : Prop extends change.Writable where
  body : change.operation.hasText → CleanLine change.text

/-- A batch that the grammar admits: no existing target comes twice. -/
structure ValidBatch (changes : List Change) : Prop where
  valid : ∀ change ∈ changes, change.Valid
  targets : (existingTargets changes).Nodup

section

variable {change : Change} {changes : List Change} {existing lines rest : List String}

theorem ChangeLines.clean {ls : List String} (h : ChangeLines change.operation change.text ls)
    (hbody : change.operation.hasText → CleanLine change.text) : ∀ line ∈ ls, CleanLine line := by
  have hop : CleanLine change.operation.line := by
    cases change.operation <;> exact cleanLine_of_stableRef (by decide)
  intro line hl
  cases h with
  | word =>
    rw [List.mem_singleton.mp hl]
    exact hop
  | own h =>
    rcases List.mem_cons.mp hl with rfl | hl
    · exact hop
    · rw [List.mem_singleton.mp hl]
      exact hbody h
  | @inline h pad hpad =>
    obtain ⟨hne, htrim, hnl⟩ := hbody h
    rw [List.mem_singleton.mp hl]
    have hstrip : strip isSpace change.text.toList = change.text.toList := by
      rw [← toList_trimSpace, htrim]
    have htext : change.text.toList ≠ [] := fun h => hne (String.toList_inj.mp h)
    refine ⟨fun h => ?_, ?_, fun hn => ?_⟩
    · have := congrArg String.toList h
      simp at this
    · rw [← String.toList_inj, toList_trimSpace, String.toList_ofList, strip_eq_self]
      constructor
      · intro c hc
        cases hline : change.operation with
        | text | adapt =>
          rw [hline] at hc
          obtain rfl : _ = c := Option.some.inj hc
          decide
        | _ =>
          rw [hline] at h
          cases h
      · intro c hc
        rw [List.getLast?_append_of_ne_nil _ htext, ← hstrip] at hc
        exact (stripped_strip change.text.toList).2 c hc
    · rw [String.toList_ofList] at hn
      rcases List.mem_append.mp hn with hn | hn
      · rcases List.mem_append.mp hn with hn | hn
        · exact hop.2.2 hn
        · rcases List.mem_cons.mp hn with hn | hn
          · exact absurd hn (by decide)
          · exact (hpad _ hn).2 rfl
      · exact hnl hn

/-- The lines of a valid batch are read as they are. -/
theorem BatchLines.clean (h : BatchLines changes lines) (hvalid : ∀ c ∈ changes, c.Valid) :
    ∀ line ∈ lines, CleanLine line := by
  induction h with
  | nil => simp
  | @cons change changes ls rest h hrest ih =>
    obtain ⟨op, hop, rfl⟩ := h
    have hv := hvalid change List.mem_cons_self
    intro line hl
    rcases List.mem_append.mp hl with hl | hl
    · by_cases hmem : line ∈ op
      · exact hop.clean hv.body line hmem
      · refine cleanLine_of_mem_lines hv.toWritable hv.body ?_
        unfold Change.lines
        simp only [List.mem_append, List.mem_cons, List.not_mem_nil, or_false] at hl ⊢
        grind
    · exact ih (fun c hc => hvalid c (List.mem_cons_of_mem _ hc)) line hl

/-! ## What is written is read -/

/-- A text behind its operation. -/
theorem parseChange_inline {operation : Operation} (h : operation.hasText) (tail : List Char)
    (next : String) (offset : Nat) :
    parseChange (String.ofList (operation.line.toList ++ ' ' :: tail)) next offset =
      (inlineText operation (trimSpace (String.ofList tail)) (offset + 6)).map (·, 6) := by
  have hne : ∀ word : String, operation.line = word →
      String.ofList (operation.line.toList ++ ' ' :: tail) ≠ word := by
    intro word hword heq
    have hlists := congrArg String.toList heq
    simp [hword] at hlists
  cases operation with
  | text =>
    have htext : String.ofList ("TEXT".toList ++ ' ' :: tail) ≠ "TEXT" :=
      hne "TEXT" rfl
    have hadapt : String.ofList ("TEXT".toList ++ ' ' :: tail) ≠ "ADAPT" := by
      intro heq
      have := congrArg String.toList heq
      simp at this
    unfold parseChange
    rw [Operation.line, if_neg (by simpa using htext), if_neg (by simpa using hadapt)]
    unfold parseOperation
    rw [if_pos (by simp)]
    simp
  | adapt =>
    have htext : String.ofList ("ADAPT".toList ++ ' ' :: tail) ≠ "TEXT" := by
      intro heq
      have := congrArg String.toList heq
      simp at this
    have hadapt : String.ofList ("ADAPT".toList ++ ' ' :: tail) ≠ "ADAPT" :=
      hne "ADAPT" rfl
    unfold parseChange
    rw [Operation.line, if_neg (by simpa using htext), if_neg (by simpa using hadapt)]
    unfold parseOperation
    rw [if_neg (by simp), if_pos (by simp)]
    simp
  | _ => cases h

theorem parseChange_lines {ls : List String} (h : ChangeLines change.operation change.text ls)
    (hvalid : change.Valid) (next : List String) (offset : Nat) :
    parseChange ((ls ++ next).getD 0 "") ((ls ++ next).getD 1 "") offset =
      .ok ((change.operation, change.text), 5 + ls.length) := by
  have hbounded : ¬maxChangeTextBytes < change.text.utf8ByteSize := Nat.not_lt.mpr hvalid.bounded
  cases h with
  | word h ht =>
    rw [ht]
    cases hop : change.operation with
    | text | adapt =>
      rw [hop] at h
      cases h
    | keep | reenact | inhibit =>
      simp [Operation.line, parseChange, parseOperation, Except.map]
  | own h =>
    cases hop : change.operation with
    | text | adapt => simp [Operation.line, parseChange, nextLineText, hbounded, Except.map]
    | _ =>
      rw [hop] at h
      cases h
  | @inline h pad hpad =>
    obtain ⟨hne, htrim, _⟩ := hvalid.body h
    have hinner : trimSpace (String.ofList (pad ++ change.text.toList)) = change.text := by
      rw [← String.toList_inj, toList_trimSpace, String.toList_ofList]
      have hstrip := @strip_append_blank isSpace pad [] change.text.toList
        (fun c hc => (hpad c hc).1) (by simp)
      rw [List.append_nil] at hstrip
      rw [hstrip, ← toList_trimSpace, htrim]
    have hline : change.operation.line.toList ++ ' ' :: pad ++ change.text.toList =
        change.operation.line.toList ++ ' ' :: (pad ++ change.text.toList) := by simp
    rw [hline]
    show parseChange (String.ofList _) _ _ = _
    rw [parseChange_inline h, hinner]
    unfold inlineText
    rw [if_neg (by simpa using hne), if_neg hbounded]
    rfl

theorem parseBlock_blockLines (h : BlockLines change lines) (hvalid : change.Valid) (offset : Nat)
    (hnew : change.isNew = false → change.target ∉ existing)
    (hrest : rest = [] ∨ rest.head? = some "TARGET") :
    parseBlock offset existing (lines ++ rest) =
      .ok ⟨change, existing ++ (if change.isNew then [] else [change.target]), lines.length⟩ := by
  obtain ⟨ls, hls, rfl⟩ := h
  have hclaim := claimTarget_writable hvalid.toWritable (offset + 2) hnew
  have hchange := parseChange_lines hls hvalid ("BASIS" :: change.basisRefs ++ rest) offset
  have hbasis : ∀ n, parseBasis n [] (change.basisRefs ++ rest) = .ok change.basisRefs := by
    intro n
    have hnd : ([] ++ change.basisRefs).Nodup := by simpa using hvalid.nodup
    simpa using parseBasis_lines hvalid.refs hnd hrest
  have hpos : 0 < change.basisRefs.length := List.length_pos_iff.mpr hvalid.basis
  have hls : 0 < ls.length := by cases hls <;> simp
  have hdrop : ∀ n, (ls ++ ("BASIS" :: change.basisRefs ++ rest)).getD n "" =
      (["TARGET", change.target, "APPLICATION", change.application.text, "CHANGE"] ++ ls ++
        "BASIS" :: change.basisRefs ++ rest).getD (5 + n) "" := by
    intro n
    have hassoc : ["TARGET", change.target, "APPLICATION", change.application.text, "CHANGE"] ++ ls ++
        "BASIS" :: change.basisRefs ++ rest =
          ["TARGET", change.target, "APPLICATION", change.application.text, "CHANGE"] ++
            (ls ++ ("BASIS" :: change.basisRefs ++ rest)) := by simp
    have hlen : ["TARGET", change.target, "APPLICATION", change.application.text, "CHANGE"].length ≤
        5 + n := by simp
    rw [hassoc, List.getD_append_right _ _ _ _ hlen]
    simp
  rw [hdrop 0, hdrop 1] at hchange
  have hmarker : (["TARGET", change.target, "APPLICATION", change.application.text, "CHANGE"] ++ ls ++
      "BASIS" :: change.basisRefs ++ rest).getD (5 + ls.length) "" = "BASIS" := by
    rw [← hdrop ls.length, List.getD_append_right _ _ _ _ (Nat.le_refl _)]
    simp
  have htail : (["TARGET", change.target, "APPLICATION", change.application.text, "CHANGE"] ++ ls ++
      "BASIS" :: change.basisRefs ++ rest).drop (5 + ls.length + 1) = change.basisRefs ++ rest := by
    have hassoc : ["TARGET", change.target, "APPLICATION", change.application.text, "CHANGE"] ++ ls ++
        "BASIS" :: change.basisRefs ++ rest =
          (["TARGET", change.target, "APPLICATION", change.application.text, "CHANGE"] ++ ls ++
            ["BASIS"]) ++ (change.basisRefs ++ rest) := by simp
    rw [hassoc, List.drop_left' (by simp; omega)]
  generalize hall : ["TARGET", change.target, "APPLICATION", change.application.text, "CHANGE"] ++ ls ++
      "BASIS" :: change.basisRefs ++ rest = all at *
  have hlen : 8 ≤ all.length := by
    rw [← hall]
    simp
    omega
  have h₀ : all.getD 0 "" = "TARGET" := by rw [← hall]; rfl
  have h₁ : all.getD 1 "" = change.target := by rw [← hall]; rfl
  have h₂ : all.getD 2 "" = "APPLICATION" := by rw [← hall]; rfl
  have h₃ : all.getD 3 "" = change.application.text := by rw [← hall]; rfl
  have h₄ : all.getD 4 "" = "CHANGE" := by rw [← hall]; rfl
  unfold parseBlock
  rw [if_neg (by omega), h₀, h₁, h₂, h₃, h₄]
  simp only [bind, Except.bind, pure, Except.pure, bne_self_eq_false, Bool.or_self, Bool.false_eq_true,
    if_false, hclaim, parseApplication_text]
  rw [show (5 : Nat) + 0 = 5 from rfl, show (5 : Nat) + 1 = 6 from rfl] at hchange
  simp only [hchange, hmarker, bne_self_eq_false, Bool.false_eq_true, if_false, htail, hbasis]
  rw [if_neg (by simp [hvalid.basis])]
  simp
  omega

theorem BlockLines.head (h : BlockLines change lines) : lines.head? = some "TARGET" := by
  obtain ⟨_, _, rfl⟩ := h
  rfl

theorem BatchLines.head (h : BatchLines changes lines) :
    lines = [] ∨ lines.head? = some "TARGET" := by
  cases h with
  | nil => exact Or.inl rfl
  | cons h _ =>
    right
    rw [List.head?_append, h.head]
    rfl

/-- One turn of the loop. -/
theorem parseBlocks_step {fuel offset : Nat} (hne : lines ≠ []) :
    parseBlocks (fuel + 1) offset existing lines = (do
      let block ← parseBlock offset existing lines
      let rest ← parseBlocks fuel (offset + block.length) block.existing (lines.drop block.length)
      return block.change :: rest) := by
  cases lines with
  | nil => exact absurd rfl hne
  | cons line rest => rfl

theorem parseBlocks_batchLines (h : BatchLines changes lines) (hvalid : ∀ c ∈ changes, c.Valid)
    {fuel : Nat} (offset : Nat) (hnd : (existing ++ existingTargets changes).Nodup)
    (hfuel : lines.length ≤ fuel) : parseBlocks fuel offset existing lines = .ok changes := by
  induction h generalizing fuel offset existing with
  | nil => cases fuel <;> rfl
  | @cons change changes ls rest h hrest ih =>
    have hne : ls ≠ [] := by
      intro hnil
      have := h.head
      rw [hnil] at this
      cases this
    have hpos := List.length_pos_iff.mpr hne
    have hfresh : change.isNew = false → change.target ∉ existing := by
      intro hnew hmem
      rw [existingTargets_cons, hnew] at hnd
      exact (List.nodup_append.mp hnd).2.2 _ hmem _ (by simp) rfl
    have hv := hvalid change List.mem_cons_self
    rw [List.length_append] at hfuel
    rw [existingTargets_cons, ← List.append_assoc] at hnd
    cases fuel with
    | zero => omega
    | succ fuel =>
      rw [parseBlocks_step (by simp [hne]), parseBlock_blockLines h hv offset hfresh hrest.head]
      simp only [bind, Except.bind, pure, Except.pure, List.drop_left]
      rw [ih (fun c hc => hvalid c (List.mem_cons_of_mem _ hc)) _ hnd (by omega)]

/-! ## What is read was written -/

theorem parseBasis_read {n : Nat} {seen refs : List String}
    (h : parseBasis n seen lines = .ok refs) :
    ∃ taken rest, lines = taken ++ rest ∧ refs = seen ++ taken ∧
      (rest = [] ∨ rest.head? = some "TARGET") := by
  induction lines generalizing n seen with
  | nil =>
    obtain rfl := Except.ok.inj h
    exact ⟨[], [], rfl, (List.append_nil _).symm, Or.inl rfl⟩
  | cons ref tail ih =>
    unfold parseBasis at h
    by_cases htarget : ref = "TARGET"
    · rw [if_pos (by simpa using htarget)] at h
      obtain rfl := Except.ok.inj h
      exact ⟨[], ref :: tail, rfl, (List.append_nil _).symm, Or.inr (by rw [htarget]; rfl)⟩
    · rw [if_neg (by simpa using htarget)] at h
      split at h
      · cases h
      split at h
      · cases h
      obtain ⟨taken, rest, rfl, rfl, hrest⟩ := ih h
      exact ⟨ref :: taken, rest, rfl, by simp, hrest⟩

theorem parseApplication_read {line : String} {n : Nat} {a : Application}
    (h : parseApplication line n = .ok a) : line = a.text := by
  unfold parseApplication at h
  split at h
  · rename_i heq
    obtain rfl := Except.ok.inj h
    exact eq_of_beq heq
  split at h
  · rename_i heq
    obtain rfl := Except.ok.inj h
    exact eq_of_beq heq
  split at h
  · rename_i heq
    obtain rfl := Except.ok.inj h
    exact eq_of_beq heq
  split at h
  · rename_i heq
    obtain rfl := Except.ok.inj h
    exact eq_of_beq heq
  · cases h

/-- What is read behind an operation on its line. -/
theorem inlineText_read {operation : Operation} (hop : operation.hasText) {line : String}
    (hclean : CleanLine line) {tail : List Char} {n : Nat} {change : Operation × String}
    (hline : line.toList = operation.line.toList ++ ' ' :: tail)
    (h : inlineText operation (trimSpace (String.ofList tail)) n = .ok change) :
    ChangeLines change.1 change.2 [line] ∧ change.1.hasText ∧ CleanLine change.2 := by
  unfold inlineText at h
  split at h
  · cases h
  rename_i hne
  split at h
  · cases h
  obtain rfl := Except.ok.inj h
  obtain ⟨w, w', heq, hw, hw'⟩ := strip_spec isSpace tail
  have htext : (trimSpace (String.ofList tail)).toList = strip isSpace tail := by
    rw [toList_trimSpace, String.toList_ofList]
  have hstrip : strip isSpace tail ≠ [] := by
    intro hnil
    rw [hnil] at htext
    exact hne (by simpa using String.toList_inj.mp (htext.trans rfl))
  have hnl : ∀ c ∈ tail, c ≠ '\n' := by
    intro c hc heq
    refine hclean.2.2 ?_
    rw [hline, ← heq]
    simp [hc]
  -- The line is trimmed, so nothing follows the text.
  have hend : w' = [] := by
    by_contra hne'
    have hlast : line.toList.getLast? = w'.getLast? := by
      rw [hline, heq, List.getLast?_append_of_ne_nil _ (by simp), ← List.cons_append,
        List.getLast?_append_of_ne_nil _ hne']
    have hstripped : Stripped isSpace line.toList := by
      rw [← hclean.2.1, toList_trimSpace]
      exact stripped_strip _
    have hc := List.getLast?_eq_getLast_of_ne_nil hne'
    have hnot := hstripped.2 _ (hlast.trans hc)
    rw [hw' _ (List.getLast_mem hne')] at hnot
    cases hnot
  subst hend
  rw [List.append_nil] at heq
  refine ⟨?_, hop, ?_, ?_, ?_⟩
  · have hinline := @ChangeLines.inline operation
      (trimSpace (String.ofList tail)) hop w fun c hc => ⟨hw c hc, hnl c ?_⟩
    · rw [htext, List.append_assoc, List.cons_append, ← heq, ← hline, String.ofList_toList] at hinline
      exact hinline
    · rw [heq]
      exact List.mem_append_left _ hc
  · simpa using hne
  · rw [← String.toList_inj, toList_trimSpace, htext, strip_strip]
  · rw [htext]
    intro hn
    refine hnl '\n' ?_ rfl
    rw [heq]
    exact List.mem_append_right _ hn

theorem isPrefixOf_split {word cs : List Char} (h : word.isPrefixOf cs = true) :
    cs = word ++ cs.drop word.length := by
  obtain ⟨t, rfl⟩ := List.isPrefixOf_iff_prefix.mp h
  simp

theorem parseChange_read {line next : String} (hclean : CleanLine line) (hnext : CleanLine next)
    {offset marker : Nat} {change : Operation × String}
    (h : parseChange line next offset = .ok (change, marker)) :
    (change.1.hasText → CleanLine change.2) ∧ (change.1.hasText = false → change.2 = "") ∧
      (marker = 6 ∧ ChangeLines change.1 change.2 [line] ∨
        marker = 7 ∧ ChangeLines change.1 change.2 [line, next]) := by
  have hmap : ∀ {r : Except Fault (Operation × String)} {m : Nat},
      r.map (·, m) = .ok (change, marker) → r = .ok change ∧ m = marker := by
    intro r m hr
    cases r with
    | error e => cases hr
    | ok c =>
      cases hr
      exact ⟨rfl, rfl⟩
  have hown : ∀ {operation : Operation}, operation.hasText → line = operation.line →
      nextLineText operation next (offset + 7) = .ok change → 7 = marker →
      (change.1.hasText → CleanLine change.2) ∧ (change.1.hasText = false → change.2 = "") ∧
        (marker = 6 ∧ ChangeLines change.1 change.2 [line] ∨
          marker = 7 ∧ ChangeLines change.1 change.2 [line, next]) := by
    intro operation hop hline hr hm
    unfold nextLineText at hr
    split at hr
    · cases hr
    obtain rfl := Except.ok.inj hr
    refine ⟨fun _ => hnext, fun hno => ?_, Or.inr ⟨hm.symm, ?_⟩⟩
    · rw [hop] at hno
      cases hno
    · rw [hline]
      exact .own hop
  have hinline : ∀ {operation : Operation}, operation.hasText → ∀ {tail : List Char},
      line.toList = operation.line.toList ++ ' ' :: tail →
      inlineText operation (trimSpace (String.ofList tail)) (offset + 6) = .ok change → 6 = marker →
      (change.1.hasText → CleanLine change.2) ∧ (change.1.hasText = false → change.2 = "") ∧
        (marker = 6 ∧ ChangeLines change.1 change.2 [line] ∨
          marker = 7 ∧ ChangeLines change.1 change.2 [line, next]) := by
    intro operation hop tail hline hr hm
    obtain ⟨hlines, htext, hbody⟩ := inlineText_read hop hclean hline hr
    refine ⟨fun _ => hbody, fun hno => ?_, Or.inl ⟨hm.symm, hlines⟩⟩
    rw [htext] at hno
    cases hno
  have hword : ∀ {operation : Operation}, operation.hasText = false → line = operation.line →
      (operation, "") = change → 6 = marker →
      (change.1.hasText → CleanLine change.2) ∧ (change.1.hasText = false → change.2 = "") ∧
        (marker = 6 ∧ ChangeLines change.1 change.2 [line] ∨
          marker = 7 ∧ ChangeLines change.1 change.2 [line, next]) := by
    intro operation hop hline hc hm
    subst hc
    refine ⟨fun htext => ?_, fun _ => rfl, Or.inl ⟨hm.symm, ?_⟩⟩
    · rw [hop] at htext
      cases htext
    · rw [hline]
      exact .word hop rfl
  unfold parseChange at h
  split at h
  · rename_i hline
    obtain ⟨hr, hm⟩ := hmap h
    exact @hown .text rfl (eq_of_beq hline) hr hm
  split at h
  · rename_i hline
    obtain ⟨hr, hm⟩ := hmap h
    exact @hown .adapt rfl (eq_of_beq hline) hr hm
  obtain ⟨hr, hm⟩ := hmap h
  unfold parseOperation at hr
  split at hr
  · rename_i hprefix
    exact @hinline .text rfl _ (isPrefixOf_split hprefix) hr hm
  split at hr
  · rename_i hprefix
    exact @hinline .adapt rfl _ (isPrefixOf_split hprefix) hr hm
  split at hr
  · rename_i hline
    exact @hword .keep rfl (eq_of_beq hline) (Except.ok.inj hr) hm
  split at hr
  · rename_i hline
    exact @hword .reenact rfl (eq_of_beq hline) (Except.ok.inj hr) hm
  split at hr
  · rename_i hline
    exact @hword .inhibit rfl (eq_of_beq hline) (Except.ok.inj hr) hm
  · cases hr

theorem exists_seven_lines (h : 8 ≤ lines.length) :
    ∃ a b c d e f g rest, lines = a :: b :: c :: d :: e :: f :: g :: rest := by
  match lines, h with
  | a :: b :: c :: d :: e :: f :: g :: rest, _ => exact ⟨a, b, c, d, e, f, g, rest, rfl⟩

theorem parseBlock_read {offset : Nat} {block : Block} (hclean : ∀ line ∈ lines, CleanLine line)
    (h : parseBlock offset existing lines = .ok block) :
    block.change.Valid ∧
      block.existing = existing ++ (if block.change.isNew then [] else [block.change.target]) ∧
      (block.change.isNew = false → block.change.target ∉ existing) ∧
      ∃ ls rest, lines = ls ++ rest ∧ BlockLines block.change ls ∧ block.length = ls.length := by
  obtain ⟨hwf, _, htargets⟩ := parseBlock_ok h
  unfold parseBlock at h
  simp only [bind, Except.bind, throw, throwThe, MonadExceptOf.throw, pure, Except.pure] at h
  split at h
  · cases h
  rename_i hlen
  obtain ⟨a, b, c, d, e, f, g, tail, rfl⟩ := exists_seven_lines (Nat.not_lt.mp hlen)
  split at h
  · cases h
  rename_i hmarkers
  obtain ⟨⟨rfl, rfl⟩, rfl⟩ : (a = "TARGET" ∧ c = "APPLICATION") ∧ e = "CHANGE" := by
    simpa using hmarkers
  split at h
  · cases h
  split at h
  · cases h
  rename_i application happlication
  split at h
  · cases h
  rename_i change hchange
  split at h
  · cases h
  rename_i hmarker
  split at h
  · cases h
  rename_i basisRefs hbasis
  split at h
  · cases h
  obtain rfl := Except.ok.inj h
  have happ := parseApplication_read happlication
  obtain ⟨hbody, hplain, hform⟩ := @parseChange_read _ _
    (hclean f (by simp)) (hclean g (by simp)) _ change.2 change.1 hchange
  obtain ⟨taken, rest, hdrop, hrefs, _⟩ := parseBasis_read hbasis
  rw [List.nil_append] at hrefs
  subst hrefs
  refine ⟨⟨⟨hwf.target, hwf.basis, hwf.nodup, hwf.refs, hwf.bounded, hplain⟩, hbody⟩, ?_, ?_, ?_⟩
  · rcases htargets with ⟨hnew, hex⟩ | ⟨hold, hex, _⟩
    · rw [if_pos hnew, hex, List.append_nil]
    · rw [hold, hex]
      rfl
  · intro hold
    rcases htargets with ⟨hnew, _⟩ | ⟨_, _, hfresh⟩
    · rw [hnew] at hold
      cases hold
    · exact hfresh
  · simp only [List.getD_cons_succ, List.getD_cons_zero] at happ
    rcases hform with ⟨hm, hlines⟩ | ⟨hm, hlines⟩
    · rw [hm] at hmarker hdrop
      obtain rfl : g = "BASIS" := by simpa using hmarker
      refine ⟨_, rest, ?_, ⟨_, hlines, rfl⟩, ?_⟩
      · have htail : tail = basisRefs ++ rest := hdrop
        rw [happ, htail]
        simp
      · rw [hm]
        simp
        omega
    · rw [hm] at hmarker hdrop
      cases tail with
      | nil => simp at hmarker
      | cons marker tail =>
        obtain rfl : marker = "BASIS" := by simpa using hmarker
        refine ⟨_, rest, ?_, ⟨_, hlines, rfl⟩, ?_⟩
        · have htail : tail = basisRefs ++ rest := hdrop
          rw [happ, htail]
          simp
        · rw [hm]
          simp
          omega

theorem parseBlocks_read {fuel offset : Nat} (hclean : ∀ line ∈ lines, CleanLine line)
    (h : parseBlocks fuel offset existing lines = .ok changes) :
    BatchLines changes lines ∧ (∀ c ∈ changes, c.Valid) := by
  induction fuel generalizing offset existing lines changes with
  | zero =>
    cases lines with
    | nil =>
      obtain rfl := Except.ok.inj h
      exact ⟨.nil, by simp⟩
    | cons line rest => cases h
  | succ fuel ih =>
    by_cases hnil : lines = []
    · subst hnil
      obtain rfl := Except.ok.inj h
      exact ⟨.nil, by simp⟩
    · rw [parseBlocks_step hnil] at h
      simp only [bind, Except.bind, pure, Except.pure] at h
      split at h
      · cases h
      rename_i block hblock
      split at h
      · cases h
      rename_i later hlater
      obtain rfl := Except.ok.inj h
      obtain ⟨hvalid, _, _, ls, rest, rfl, hls, hlen⟩ := parseBlock_read hclean hblock
      rw [hlen, List.drop_left] at hlater
      obtain ⟨hbatch, hall⟩ := ih (fun l hl => hclean l (List.mem_append_right _ hl)) hlater
      refine ⟨.cons hls hbatch, fun c hc => ?_⟩
      rcases List.mem_cons.mp hc with rfl | hc
      · exact hvalid
      · exact hall c hc

/-! ## The parser is exact -/

/-- The parser accepts the texts that write a valid batch, and answers the batch. -/
theorem parseTaggedText_iff {text : String} : parseTaggedText text = .ok changes ↔
    text.utf8ByteSize ≤ maxTaggedTextBytes ∧ ValidBatch changes ∧ Writes text changes := by
  constructor
  · intro h
    have hok := parseTaggedText_ok h
    unfold parseTaggedText at h
    split at h
    · cases h
    rename_i hsize
    obtain ⟨hbatch, hvalid⟩ := parseBlocks_read (fun _ hl => cleanLine_of_mem_textLines hl) h
    exact ⟨Nat.not_lt.mp hsize, ⟨hvalid, hok.2⟩, _, hbatch, spaced_textLines text⟩
  · intro ⟨hsize, hvalid, lines, hbatch, hspaced⟩
    unfold parseTaggedText
    rw [if_neg (Nat.not_lt.mpr hsize), textLines_spaced hspaced (hbatch.clean hvalid.valid)]
    exact parseBlocks_batchLines hbatch hvalid.valid 0 (by simpa using hvalid.targets) (Nat.le_refl _)

theorem BatchLines.append {changes' : List Change} {lines' : List String}
    (h : BatchLines changes lines) (h' : BatchLines changes' lines') :
    BatchLines (changes ++ changes') (lines ++ lines') := by
  induction h with
  | nil => exact h'
  | cons h _ ih =>
    rw [List.append_assoc]
    exact .cons h ih

/-- The lines of two texts on lines of their own. -/
theorem textLines_append {a b between : String} (h : ∀ c ∈ between.toList, isSpace c)
    (hnl : '\n' ∈ between.toList) : textLines (a ++ between ++ b) = textLines a ++ textLines b := by
  obtain ⟨w, w', hw⟩ := List.append_of_mem hnl
  rw [hw] at h
  have hleft := @pieces_append_blank isNewline isSpace [] w a.toList
    (by simp) fun c hc => h c (List.mem_append_left _ hc)
  have hright := @pieces_append_blank isNewline isSpace w' [] b.toList
    (fun c hc => h c (List.mem_append_right _ (List.mem_cons_of_mem _ hc))) (by simp)
  rw [List.append_nil] at hright
  rw [List.nil_append] at hleft
  rw [textLines_eq, textLines_eq, textLines_eq, String.toList_append, String.toList_append, hw,
    ← List.map_append, ← hleft, ← hright,
    ← pieces_append_sep (show isNewline '\n' = true by decide)]
  simp

/-- Two batches in one text. -/
theorem parseTaggedText_append {a b between : String} {as bs : List Change}
    (ha : parseTaggedText a = .ok as) (hb : parseTaggedText b = .ok bs)
    (hbetween : ∀ c ∈ between.toList, isSpace c) (hnl : '\n' ∈ between.toList)
    (hdisjoint : ∀ t ∈ existingTargets as, t ∉ existingTargets bs)
    (hsize : (a ++ between ++ b).utf8ByteSize ≤ maxTaggedTextBytes) :
    parseTaggedText (a ++ between ++ b) = .ok (as ++ bs) := by
  obtain ⟨_, hva, la, hla, hsa⟩ := parseTaggedText_iff.mp ha
  obtain ⟨_, hvb, lb, hlb, hsb⟩ := parseTaggedText_iff.mp hb
  have hvalid : ∀ c ∈ as ++ bs, c.Valid := by
    intro c hc
    exact (List.mem_append.mp hc).elim (hva.valid c) (hvb.valid c)
  have htargets : (existingTargets (as ++ bs)).Nodup := by
    unfold existingTargets
    rw [List.filter_append, List.map_append, List.nodup_append]
    refine ⟨hva.targets, hvb.targets, fun t ht t' ht' heq => ?_⟩
    subst heq
    exact hdisjoint t ht ht'
  refine parseTaggedText_iff.mpr ⟨hsize, ⟨hvalid, htargets⟩, la ++ lb, hla.append hlb, ?_⟩
  rw [← textLines_spaced hsa (hla.clean hva.valid), ← textLines_spaced hsb (hlb.clean hvb.valid),
    ← textLines_append hbetween hnl]
  exact spaced_textLines _

/-- The parser reads a text exactly when it writes a valid batch within the limit, as
that batch, and two texts behind each other as both batches. -/
theorem parseTaggedText_exact :
    (∀ text changes, parseTaggedText text = .ok changes ↔
      text.utf8ByteSize ≤ maxTaggedTextBytes ∧ ValidBatch changes ∧ Writes text changes) ∧
    ∀ a b as bs, parseTaggedText a = .ok as → parseTaggedText b = .ok bs →
      (∀ t ∈ existingTargets as, t ∉ existingTargets bs) →
      (a ++ "\n" ++ b).utf8ByteSize ≤ maxTaggedTextBytes →
      parseTaggedText (a ++ "\n" ++ b) = .ok (as ++ bs) :=
  ⟨fun _ _ => parseTaggedText_iff, fun _ _ _ _ ha hb hdisjoint hsize =>
    parseTaggedText_append ha hb (List.all_eq_true.mp (by decide)) (by decide) hdisjoint hsize⟩

/-- A text that looks like a marker. -/
def markerNote : Change := ⟨targetNewRecollection, .other, .text, "BASIS", ["episode_1"]⟩

theorem parseTaggedText_markerNote :
    parseTaggedText (renderChanges [markerNote]) = .ok [markerNote] :=
  parseTaggedText_single (by decide) (by decide) (by decide)

theorem parseTaggedText_exact_markerNotes :
    parseTaggedText (renderChanges [markerNote] ++ "\n" ++ renderChanges [markerNote]) =
      .ok ([markerNote] ++ [markerNote]) :=
  parseTaggedText_exact.2 _ _ _ _ parseTaggedText_markerNote parseTaggedText_markerNote
    (by decide) (by decide +kernel)

end

end ChoraMem
