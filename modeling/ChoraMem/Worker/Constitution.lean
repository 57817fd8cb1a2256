/-
The constitution that the Worker reads back.

Core quotes the text of a constitution line by line and ends it with a marker; the Worker
takes the quoted lines up to the marker.  Core ends a line at `\n` only and the Worker at
every line boundary of Python, so what follows another boundary has no quote mark.  The
text comes back exactly when nothing visible follows such a boundary in a line and none
stands inside the text.
-/
import ChoraMem.Core.WindowEvidence
import ChoraMem.Python.Strings

namespace ChoraMem

open Text Python

/-! ## Reading -/

def endConstitution : List Char := "END_CONSTITUTION".toList

/-- The quoted lines without their marks. -/
def unquoted (lines : List (List Char)) : List (List Char) :=
  (lines.filter (['>', ' '].isPrefixOf ·)).map (·.drop 2)

/-- `_constitution_text`. -/
def constitutionText (windowText : String) : String :=
  match splitlines windowText.toList with
  | first :: second :: rest =>
    if first ≠ "CONSTITUTION".toList then "UNKNOWN"
    else if second = "UNKNOWN".toList then "UNKNOWN"
    else if rest.contains endConstitution then
      let quoted := unquoted (rest.takeWhile (· != endConstitution))
      let text := Python.strip (String.ofList (['\n'].intercalate quoted))
      if text = "" then "UNKNOWN" else text
    else "UNKNOWN"
  | _ => "UNKNOWN"

/-! ## Lines of the quoted text -/

/-- The lines that Core quotes. -/
def textLinesOf (text : List Char) : List (List Char) := text.splitOnP (· == '\n')

/-- What the Worker sees of one quoted line. -/
def quotedLine (line : List Char) : List (List Char) := splitlines ('>' :: ' ' :: (line ++ ['\n']))

/-- A line up to its first boundary. -/
def shownPart (line : List Char) : List Char := line.takeWhile fun c => !isLineBreak c

theorem textLinesOf_cons (c : Char) (text : List Char) :
    textLinesOf (c :: text) =
      if c = '\n' then [] :: textLinesOf text else (textLinesOf text).modifyHead (c :: ·) := by
  unfold textLinesOf
  rw [List.splitOnP_cons_eq_if_modifyHead]
  by_cases hc : c = '\n'
  · simp [hc]
  · simp [hc]

theorem textLinesOf_ne_nil (text : List Char) : textLinesOf text ≠ [] := List.splitOnP_ne_nil _ _

theorem quoteLines_toList (text : String) : (quoteLines text).toList ++ ['\n'] =
    (textLinesOf text.toList).flatMap fun line => '>' :: ' ' :: (line ++ ['\n']) := by
  have hall : ∀ text : List Char, '>' :: ' ' ::
      (text.flatMap (fun c => if c = '\n' then ['\n', '>', ' '] else [c]) ++ ['\n']) =
        (textLinesOf text).flatMap fun line => '>' :: ' ' :: (line ++ ['\n']) := by
    intro text
    induction text with
    | nil => rfl
    | cons c rest ih =>
      obtain ⟨line, lines, hlines⟩ := List.exists_cons_of_ne_nil (textLinesOf_ne_nil rest)
      rw [textLinesOf_cons]
      rw [hlines] at ih ⊢
      by_cases hc : c = '\n'
      · simp [hc] at ih ⊢
        exact ih
      · simp [hc] at ih ⊢
        exact ih
  simpa [quoteLines] using hall text.toList

theorem splitlines_flatMap (lines : List (List Char)) (rest : List Char) :
    splitlines ((lines.flatMap fun line => '>' :: ' ' :: (line ++ ['\n'])) ++ rest) =
      lines.flatMap quotedLine ++ splitlines rest := by
  induction lines with
  | nil => rfl
  | cons line lines ih =>
    rw [List.flatMap_cons, List.flatMap_cons, List.append_assoc, List.append_assoc, ← ih]
    show splitlines (('>' :: ' ' :: line) ++ ['\n'] ++ _) = splitlines (('>' :: ' ' :: line) ++ ['\n']) ++ _
    rw [List.append_assoc]
    exact splitlines_append _ _

theorem shownPart_break (line : List Char) : ∀ c ∈ shownPart line, isLineBreak c = false := by
  intro c hc
  have h := List.mem_takeWhile_imp hc
  simpa using h

/-- The part of a line that is cut off. -/
def cutPart (line : List Char) : List Char := line.dropWhile fun c => !isLineBreak c

/-- The first part of a line has the quote mark, and the others are cut from the rest. -/
theorem quotedLine_eq (line : List Char) : ∃ parts, quotedLine line =
    ('>' :: ' ' :: shownPart line) :: parts ∧
      parts.flatten = (cutPart line).filter fun c => !isLineBreak c := by
  have hhead : ∃ c rest, cutPart line ++ ['\n'] = c :: rest ∧ isLineBreak c = true := by
    cases hcut : cutPart line with
    | nil => exact ⟨'\n', [], rfl, rfl⟩
    | cons c rest =>
      have hbreak := List.head?_dropWhile_not (fun c => !isLineBreak c) line
      rw [show line.dropWhile (fun c => !isLineBreak c) = c :: rest from hcut] at hbreak
      exact ⟨c, rest ++ ['\n'], rfl, by simpa using hbreak⟩
  obtain ⟨c, rest, hcut, hbreak⟩ := hhead
  obtain ⟨parts, hparts⟩ := splitlines_head_break hbreak rest
  have hmarked : ∀ d ∈ '>' :: ' ' :: shownPart line, isLineBreak d = false := by
    intro d hd
    rcases List.mem_cons.mp hd with rfl | hd
    · rfl
    · rcases List.mem_cons.mp hd with rfl | hd
      · rfl
      · exact shownPart_break line d hd
  have hline : '>' :: ' ' :: (line ++ ['\n']) = ('>' :: ' ' :: shownPart line) ++ c :: rest := by
    rw [← hcut, List.cons_append, List.cons_append, ← List.append_assoc, shownPart, cutPart,
      List.takeWhile_append_dropWhile]
  refine ⟨parts, ?_, ?_⟩
  · rw [quotedLine, hline, splitlines_append_line hmarked hparts, List.append_nil]
  · have hflat := splitlines_flatten (c :: rest)
    rw [hparts, List.flatten_cons, List.nil_append, ← hcut, List.filter_append] at hflat
    rw [hflat, List.filter_cons_of_neg (by decide), List.filter_nil, List.append_nil]

theorem mem_endConstitution : 'E' ∈ endConstitution := by decide

theorem not_mem_endConstitution : '>' ∉ endConstitution := by decide

theorem mem_cutPart {line part : List Char} {parts : List (List Char)}
    (hflat : parts.flatten = (cutPart line).filter fun c => !isLineBreak c) (hpart : part ∈ parts) :
    ∀ c ∈ part, c ∈ cutPart line := by
  intro c hc
  have hmem : c ∈ parts.flatten := List.mem_flatten.mpr ⟨part, hpart, hc⟩
  rw [hflat] at hmem
  exact List.mem_of_mem_filter hmem

/-- What is left of a line, where nothing that is cut off looks like a mark. -/
theorem unquoted_quotedLine {line : List Char} (h : '>' ∉ cutPart line) :
    unquoted (quotedLine line) = [shownPart line] := by
  obtain ⟨parts, hparts, hflat⟩ := quotedLine_eq line
  have hnone : parts.filter (['>', ' '].isPrefixOf ·) = [] := by
    rw [List.filter_eq_nil_iff]
    intro part hpart hmark
    obtain ⟨rest, rfl⟩ := List.isPrefixOf_iff_prefix.mp hmark
    exact h (mem_cutPart hflat hpart '>' List.mem_cons_self)
  rw [unquoted, hparts, List.filter_cons_of_pos rfl, hnone]
  rfl

/-- A character that is not stripped. -/
def visible (c : Char) : Bool := !Python.isSpace c

/-- No part has more visible characters without its mark, and a visible part has fewer. -/
theorem countP_unquoted (parts : List (List Char)) :
    (unquoted parts).flatten.countP visible ≤ parts.flatten.countP visible ∧
      (parts.flatten.countP visible ≠ 0 →
        (unquoted parts).flatten.countP visible < parts.flatten.countP visible) := by
  induction parts with
  | nil => exact ⟨Nat.le_refl 0, fun h => absurd rfl h⟩
  | cons part rest ih =>
    by_cases hmark : ['>', ' '].isPrefixOf part = true
    · obtain ⟨body, rfl⟩ := List.isPrefixOf_iff_prefix.mp hmark
      have hcons : unquoted ((['>', ' '] ++ body) :: rest) = body :: unquoted rest := by
        rw [unquoted, List.filter_cons_of_pos hmark]
        rfl
      rw [hcons]
      have hgt : visible '>' = true := by decide
      simp only [List.flatten_cons, List.countP_append, List.countP_cons, List.cons_append,
        List.nil_append, hgt, if_true]
      omega
    · have hcons : unquoted (part :: rest) = unquoted rest := by
        rw [unquoted, List.filter_cons_of_neg hmark]
        rfl
      rw [hcons]
      simp only [List.flatten_cons, List.countP_append]
      omega

theorem not_visible_of_break {c : Char} (h : isLineBreak c = true) : visible c = false := by
  rw [visible, isSpace_of_isLineBreak h]
  rfl

theorem unquoted_append (a b : List (List Char)) : unquoted (a ++ b) = unquoted a ++ unquoted b := by
  rw [unquoted, List.filter_append, List.map_append]
  rfl

/-- The visible characters of a line that come back, fewer if some of what is cut off is. -/
theorem countP_quotedLine (line : List Char) :
    (unquoted (quotedLine line)).flatten.countP visible ≤ line.countP visible ∧
      ((∃ c ∈ cutPart line, visible c) →
        (unquoted (quotedLine line)).flatten.countP visible < line.countP visible) := by
  obtain ⟨parts, hparts, hflat⟩ := quotedLine_eq line
  have hcons : unquoted (quotedLine line) = shownPart line :: unquoted parts := by
    rw [unquoted, hparts, List.filter_cons_of_pos rfl]
    rfl
  have hcut : parts.flatten.countP visible = (cutPart line).countP visible := by
    rw [hflat, List.countP_filter]
    refine List.countP_congr fun c _ => ?_
    cases hc : isLineBreak c with
    | true => simp [not_visible_of_break hc]
    | false => simp
  have hline : line.countP visible = (shownPart line).countP visible + (cutPart line).countP visible := by
    rw [← List.countP_append, shownPart, cutPart, List.takeWhile_append_dropWhile]
  have hunquoted := countP_unquoted parts
  rw [hcons, List.flatten_cons, List.countP_append, hline]
  constructor
  · omega
  · intro ⟨c, hc, hvisible⟩
    have hpos : 0 < (cutPart line).countP visible := List.countP_pos_iff.mpr ⟨c, hc, hvisible⟩
    omega

theorem countP_quotedLines (lines : List (List Char)) :
    (unquoted (lines.flatMap quotedLine)).flatten.countP visible ≤ lines.flatten.countP visible ∧
      ((∃ line ∈ lines, ∃ c ∈ cutPart line, visible c) →
        (unquoted (lines.flatMap quotedLine)).flatten.countP visible <
          lines.flatten.countP visible) := by
  induction lines with
  | nil => exact ⟨Nat.le_refl 0, fun ⟨_, h, _⟩ => nomatch h⟩
  | cons line lines ih =>
    obtain ⟨hle, hlt⟩ := countP_quotedLine line
    rw [List.flatMap_cons, unquoted_append, List.flatten_append, List.countP_append,
      List.flatten_cons, List.countP_append]
    constructor
    · omega
    · intro ⟨other, hother, hcut⟩
      rcases List.mem_cons.mp hother with rfl | hm
      · have := hlt hcut
        omega
      · have := ih.2 ⟨other, hm, hcut⟩
        omega

theorem countP_textLinesOf (text : List Char) :
    (textLinesOf text).flatten.countP visible = text.countP visible := by
  induction text with
  | nil => rfl
  | cons c rest ih =>
    obtain ⟨line, lines, hlines⟩ := List.exists_cons_of_ne_nil (textLinesOf_ne_nil rest)
    rw [textLinesOf_cons]
    rw [hlines] at ih ⊢
    by_cases hc : c = '\n'
    · rw [if_pos hc, List.flatten_cons, List.nil_append, ih, hc,
        List.countP_cons_of_neg (by decide)]
    · rw [if_neg hc, List.modifyHead_cons, List.flatten_cons, List.cons_append, List.countP_cons,
        ← List.flatten_cons, ih, List.countP_cons]

theorem countP_intercalate (lines : List (List Char)) :
    (['\n'].intercalate lines).countP visible = lines.flatten.countP visible := by
  induction lines with
  | nil => rfl
  | cons line rest ih =>
    cases rest with
    | nil => simp
    | cons next rest =>
      rw [List.intercalate_cons_cons, List.countP_append, List.countP_append, ih, List.flatten_cons,
        List.countP_append]
      simp [show visible '\n' = false from rfl]

/-! ## Cutting a text -/

/-- A text without what stands between another boundary and the next `\n`. -/
def cut : Bool → List Char → List Char
  | _, [] => []
  | shown, c :: rest =>
    if c = '\n' then c :: cut true rest
    else if shown && !isLineBreak c then c :: cut true rest
    else cut false rest

/-- Cutting goes line by line. -/
theorem cut_eq (text : List Char) : ∃ line lines, textLinesOf text = line :: lines ∧
    cut true text = shownPart line ++ lines.flatMap (fun l => '\n' :: shownPart l) ∧
      cut false text = lines.flatMap fun l => '\n' :: shownPart l := by
  induction text with
  | nil => exact ⟨[], [], rfl, rfl, rfl⟩
  | cons c rest ih =>
    obtain ⟨line, lines, hlines, htrue, hfalse⟩ := ih
    rw [textLinesOf_cons, hlines]
    by_cases hc : c = '\n'
    · refine ⟨[], line :: lines, if_pos hc, ?_, ?_⟩
      · simp [cut, hc, htrue, shownPart]
      · simp [cut, hc, htrue, shownPart]
    · refine ⟨c :: line, lines, if_neg hc, ?_, ?_⟩
      · cases hbreak : isLineBreak c with
        | true => simp [cut, hc, hbreak, hfalse, shownPart]
        | false => simp [cut, hc, hbreak, htrue, shownPart]
      · simp [cut, hc, hfalse]

theorem intercalate_newline (line : List Char) (lines : List (List Char)) :
    ['\n'].intercalate (line :: lines) = line ++ lines.flatMap ('\n' :: ·) := by
  induction lines generalizing line with
  | nil => simp
  | cons next rest ih =>
    rw [List.intercalate_cons_cons, ih]
    simp

theorem mem_intercalate_newline {lines : List (List Char)} {c : Char}
    (h : c ∈ ['\n'].intercalate lines) : c = '\n' ∨ ∃ line ∈ lines, c ∈ line := by
  cases lines with
  | nil => cases h
  | cons line lines =>
    rw [intercalate_newline] at h
    rcases List.mem_append.mp h with hm | hm
    · exact .inr ⟨line, List.mem_cons_self, hm⟩
    · obtain ⟨other, hother, hm⟩ := List.mem_flatMap.mp hm
      rcases List.mem_cons.mp hm with rfl | hm
      · exact .inl rfl
      · exact .inr ⟨other, List.mem_cons_of_mem _ hother, hm⟩

theorem intercalate_shownPart (text : List Char) :
    ['\n'].intercalate ((textLinesOf text).map shownPart) = cut true text := by
  obtain ⟨line, lines, hlines, htrue, _⟩ := cut_eq text
  rw [hlines, htrue]
  rw [List.map_cons, intercalate_newline, List.flatMap_map]

theorem cut_append (shown : Bool) (a : List Char) : ∃ shown', ∀ b,
    cut shown (a ++ b) = cut shown a ++ cut shown' b := by
  induction a generalizing shown with
  | nil => exact ⟨shown, fun _ => rfl⟩
  | cons c rest ih =>
    by_cases hc : c = '\n'
    · obtain ⟨shown', h⟩ := ih true
      exact ⟨shown', fun b => by simp [cut, hc, h b]⟩
    · cases hshown : shown && !isLineBreak c with
      | true =>
        obtain ⟨shown', h⟩ := ih true
        exact ⟨shown', fun b => by simp [cut, hc, hshown, h b]⟩
      | false =>
        obtain ⟨shown', h⟩ := ih false
        exact ⟨shown', fun b => by simp [cut, hc, hshown, h b]⟩

theorem cut_sublist (shown : Bool) (text : List Char) : (cut shown text).Sublist text := by
  induction text generalizing shown with
  | nil => exact List.Sublist.refl []
  | cons c rest ih =>
    rw [cut]
    by_cases hc : c = '\n'
    · rw [if_pos hc]
      exact (ih true).cons_cons c
    · rw [if_neg hc]
      cases shown && !isLineBreak c with
      | true => exact (ih true).cons_cons c
      | false => exact (ih false).cons c

/-- Nothing is cut from what has no other boundary. -/
theorem cut_unbroken {a : List Char} (ha : ∀ c ∈ a, isLineBreak c = true → c = '\n') (b : List Char) :
    cut true (a ++ b) = a ++ cut true b := by
  induction a with
  | nil => rfl
  | cons c rest ih =>
    have ih := ih fun d hd => ha d (List.mem_cons_of_mem _ hd)
    rw [List.cons_append, cut]
    by_cases hc : c = '\n'
    · rw [if_pos hc, ih]
      rfl
    · have hbreak : isLineBreak c = false := by
        by_contra hne
        exact hc (ha c List.mem_cons_self (eq_true_of_ne_false hne))
      rw [if_neg hc, hbreak, ih]
      rfl

/-! ## What is read back -/

/-- The lines that the ref of a constitution makes after its first. -/
def refLines (ref : String) : List (List Char) := (splitlines (ref.toList ++ ['\n'])).tail

/-- The quoted lines that the Worker reads of a constitution. -/
def readLines (c : Constitution) : List (List Char) :=
  unquoted ((refLines c.memoryRef ++ (textLinesOf c.text.toList).flatMap quotedLine).takeWhile
    (· != endConstitution))

theorem takeWhile_append_self {α : Type} [BEq α] [LawfulBEq α] (xs ys : List α) (e : α) :
    (xs ++ e :: ys).takeWhile (· != e) = xs.takeWhile (· != e) := by
  induction xs with
  | nil => simp
  | cons x rest ih =>
    by_cases hx : x = e
    · simp [hx]
    · simp [hx, ih]

/-- A text is checked for breaks character by character. -/
theorem unbroken_of_all {l : List Char} (h : (l.all fun ch => !isLineBreak ch) = true) :
    ∀ ch ∈ l, isLineBreak ch = false := by
  intro ch hch
  simpa using List.all_eq_true.mp h ch hch

/-- The lines of a rendered constitution: its head, its ref, its text and its end. -/
theorem splitlines_rendered {h m e first : List Char} {ref : String}
    (hh : ∀ d ∈ h, isLineBreak d = false) (hm : ∀ d ∈ m, isLineBreak d = false)
    (he : ∀ d ∈ e, isLineBreak d = false)
    (hfirst : splitlines (ref.toList ++ ['\n']) = first :: refLines ref) (text : String)
    (rest : List Char) :
    splitlines (h ++ '\n' :: ((m ++ ref.toList) ++ '\n' ::
        (((quoteLines text).toList ++ ['\n']) ++ (e ++ '\n' :: rest)))) =
      h :: (m ++ first) ::
        ((refLines ref ++ (textLinesOf text.toList).flatMap quotedLine) ++ e :: splitlines rest) := by
  rw [splitlines_line hh, splitlines_append, List.append_assoc m, splitlines_append_line hm hfirst,
    quoteLines_toList, splitlines_flatMap, splitlines_line he, List.cons_append, List.append_assoc]

theorem newline_append_toList (text : String) : ("\n" ++ text).toList = '\n' :: text.toList := by
  rw [String.toList_append]
  rfl

theorem renderConstitution_append {c : Constitution} (h : c ≠ {}) (continuation : String) :
    renderConstitution c ++ continuation = "CONSTITUTION" ++ ("\n" ++ ("MEMORY_REF " ++
      (c.memoryRef ++ ("\n" ++ (quoteLines c.text ++ ("\n" ++ ("END_CONSTITUTION" ++
        ("\n" ++ ("\n" ++ continuation))))))))) := by
  have hfront : "CONSTITUTION\nMEMORY_REF " = "CONSTITUTION" ++ "\n" ++ "MEMORY_REF " := by
    decide
  have hback : "\nEND_CONSTITUTION\n\n" = "\n" ++ "END_CONSTITUTION" ++ "\n" ++ "\n" := by
    decide
  rw [renderConstitution, if_neg h, hfront, hback]
  simp only [String.append_assoc]

/-- The continuation is never read. -/
theorem constitutionText_render {c : Constitution} (h : c ≠ {}) (continuation : String) :
    constitutionText (renderConstitution c ++ continuation) =
      let text := Python.strip (String.ofList (['\n'].intercalate (readLines c)))
      if text = "" then "UNKNOWN" else text := by
  obtain ⟨first, hfirst⟩ : ∃ first, splitlines (c.memoryRef.toList ++ ['\n']) =
      first :: refLines c.memoryRef := by
    obtain ⟨first, rest, hsplit⟩ := List.exists_cons_of_ne_nil
      (splitlines_ne_nil (List.append_ne_nil_of_right_ne_nil c.memoryRef.toList (List.cons_ne_nil '\n' [])))
    exact ⟨first, by rw [refLines, hsplit]; rfl⟩
  have htext : (renderConstitution c ++ continuation).toList = "CONSTITUTION".toList ++ '\n' ::
      (("MEMORY_REF ".toList ++ c.memoryRef.toList) ++ '\n' ::
        (((quoteLines c.text).toList ++ ['\n']) ++
          (endConstitution ++ '\n' :: ('\n' :: continuation.toList)))) := by
    rw [renderConstitution_append h, String.toList_append, newline_append_toList,
      String.toList_append, String.toList_append, newline_append_toList, String.toList_append,
      newline_append_toList, String.toList_append, newline_append_toList, newline_append_toList,
      List.append_assoc, List.append_assoc]
    rfl
  have hlines := splitlines_rendered (h := "CONSTITUTION".toList) (m := "MEMORY_REF ".toList)
    (e := endConstitution) (unbroken_of_all (by decide))
    (unbroken_of_all (by decide)) (unbroken_of_all (by decide)) hfirst c.text
    ('\n' :: continuation.toList)
  rw [← htext] at hlines
  have hsecond : "MEMORY_REF ".toList ++ first ≠ "UNKNOWN".toList := by
    intro heq
    have hhead := congrArg List.head? heq
    exact absurd hhead (by simp)
  unfold constitutionText
  rw [hlines]
  simp only [ne_eq, not_true_eq_false, if_false, if_neg hsecond, takeWhile_append_self]
  rw [if_pos (by simp)]
  rfl

/-- What makes a constitution readable: no line of its ref looks like the marker, its text
is not blank, nothing visible is cut from a line, and the stripped text has no boundary
but `\n`. -/
structure Constitution.Plain (c : Constitution) : Prop where
  ref : endConstitution ∉ refLines c.memoryRef
  text : Python.strip c.text ≠ ""
  tidy : ∀ line ∈ textLinesOf c.text.toList, ∀ ch ∈ cutPart line, Python.isSpace ch
  unbroken : ∀ ch ∈ (Python.strip c.text).toList, isLineBreak ch → ch = '\n'

section

variable {c : Constitution}

/-- A ref without blanks makes no quoted line. -/
theorem unquoted_refLines {ref : String} {lines : List (List Char)} (hspace : ' ' ∉ ref.toList)
    (h : ∀ line ∈ lines, line ∈ refLines ref) : unquoted lines = [] := by
  have hnone : lines.filter (['>', ' '].isPrefixOf ·) = [] := by
    rw [List.filter_eq_nil_iff]
    intro line hline hprefix
    obtain ⟨rest, rfl⟩ := List.isPrefixOf_iff_prefix.mp hprefix
    have hmem := (mem_of_mem_splitlines (List.mem_of_mem_tail (h _ hline)) ' ' (by simp)).1
    rcases List.mem_append.mp hmem with hm | hm
    · exact hspace hm
    · exact absurd hm (by decide)
  rw [unquoted, hnone]
  rfl

/-- Lines without visible marks are read as they are cut. -/
theorem readLines_eq (href : endConstitution ∉ refLines c.memoryRef) (hspace : ' ' ∉ c.memoryRef.toList)
    (hmark : ∀ line ∈ textLinesOf c.text.toList, '>' ∉ cutPart line)
    (hend : ∀ line ∈ textLinesOf c.text.toList, 'E' ∉ cutPart line) :
    ['\n'].intercalate (readLines c) = cut true c.text.toList := by
  have hrefs : unquoted (refLines c.memoryRef) = [] := unquoted_refLines hspace fun _ h => h
  have hno : ∀ line ∈ refLines c.memoryRef ++ (textLinesOf c.text.toList).flatMap quotedLine,
      (line != endConstitution) = true := by
    intro line hline
    rw [bne_iff_ne]
    rintro rfl
    rcases List.mem_append.mp hline with hm | hm
    · exact href hm
    · obtain ⟨source, hsource, hm⟩ := List.mem_flatMap.mp hm
      obtain ⟨parts, hparts, hflat⟩ := quotedLine_eq source
      rw [hparts] at hm
      rcases List.mem_cons.mp hm with heq | hm
      · have hmem : '>' ∈ endConstitution := by
          rw [heq]
          exact List.mem_cons_self
        exact absurd hmem not_mem_endConstitution
      · exact hend source hsource (mem_cutPart hflat hm 'E' mem_endConstitution)
  have hquoted : ∀ lines : List (List Char), (∀ line ∈ lines, '>' ∉ cutPart line) →
      unquoted (lines.flatMap quotedLine) = lines.map shownPart := by
    intro lines
    induction lines with
    | nil => exact fun _ => rfl
    | cons line rest ih =>
      intro h
      rw [List.flatMap_cons, unquoted_append, unquoted_quotedLine (h line List.mem_cons_self),
        ih fun other ho => h other (List.mem_cons_of_mem _ ho)]
      rfl
  rw [readLines, List.takeWhile_eq_self_iff.mpr hno, unquoted_append, hrefs, List.nil_append,
    hquoted _ hmark, intercalate_shownPart]

/-- Fewer visible characters are read when some are cut off. -/
theorem countP_readLines (hspace : ' ' ∉ c.memoryRef.toList)
    (hcut : ∃ line ∈ textLinesOf c.text.toList, ∃ ch ∈ cutPart line, visible ch) :
    (['\n'].intercalate (readLines c)).countP visible < c.text.toList.countP visible := by
  have hsplit := List.takeWhile_append_dropWhile (p := (· != endConstitution))
    (l := refLines c.memoryRef ++ (textLinesOf c.text.toList).flatMap quotedLine)
  have hall := congrArg (fun lines => (unquoted lines).flatten.countP visible) hsplit
  simp only [unquoted_append, List.flatten_append, List.countP_append] at hall
  rw [unquoted_refLines hspace fun _ h => h] at hall
  have hlines := (countP_quotedLines (textLinesOf c.text.toList)).2 hcut
  rw [countP_textLinesOf] at hlines
  rw [countP_intercalate, readLines]
  simp only [List.flatten_nil, List.countP_nil, Nat.zero_add] at hall
  omega

/-- No line boundary but `\n` is read. -/
theorem break_of_mem_readLines {ch : Char} (h : ch ∈ ['\n'].intercalate (readLines c))
    (hbreak : isLineBreak ch = true) : ch = '\n' := by
  have hlines : ∀ line ∈ readLines c, ∀ d ∈ line, isLineBreak d = false := by
    intro line hline d hd
    obtain ⟨source, hsource, rfl⟩ := List.mem_map.mp hline
    have hmem := (List.takeWhile_sublist _).subset (List.mem_of_mem_filter hsource)
    have hd := List.mem_of_mem_drop hd
    rcases List.mem_append.mp hmem with hm | hm
    · exact (mem_of_mem_splitlines (List.mem_of_mem_tail hm) d hd).2
    · obtain ⟨text, _, hm⟩ := List.mem_flatMap.mp hm
      exact (mem_of_mem_splitlines hm d hd).2
  rcases mem_intercalate_newline h with hm | ⟨line, hline, hm⟩
  · exact hm
  · rw [hlines line hline ch hm] at hbreak
    cases hbreak

theorem countP_blank {a : List Char} (h : ∀ ch ∈ a, Python.isSpace ch = true) :
    a.countP visible = 0 := by
  rw [List.countP_eq_zero]
  intro ch hch
  simp [visible, h ch hch]

theorem countP_strip (text : List Char) :
    (Text.strip Python.isSpace text).countP visible = text.countP visible := by
  obtain ⟨a, b, htext, ha, hb⟩ := strip_spec Python.isSpace text
  have hcount := congrArg (List.countP visible) htext
  rw [List.countP_append, List.countP_append, countP_blank ha, countP_blank hb] at hcount
  omega

/-- All of a tidy text's visible characters stay when it is cut. -/
theorem countP_cut {text : List Char}
    (htidy : ∀ line ∈ textLinesOf text, ∀ ch ∈ cutPart line, Python.isSpace ch) :
    (cut true text).countP visible = text.countP visible := by
  have hlines : ∀ lines : List (List Char), (∀ line ∈ lines, ∀ ch ∈ cutPart line, Python.isSpace ch) →
      (lines.map shownPart).flatten.countP visible = lines.flatten.countP visible := by
    intro lines
    induction lines with
    | nil => exact fun _ => rfl
    | cons line rest ih =>
      intro h
      have hline : line.countP visible = (shownPart line).countP visible := by
        conv_lhs => rw [← List.takeWhile_append_dropWhile (p := fun ch => !isLineBreak ch) (l := line)]
        rw [List.countP_append]
        show (shownPart line).countP visible + (cutPart line).countP visible = _
        rw [countP_blank (h line List.mem_cons_self), Nat.add_zero]
      rw [List.map_cons, List.flatten_cons, List.flatten_cons, List.countP_append,
        List.countP_append, ih fun other ho => h other (List.mem_cons_of_mem _ ho), hline]
  rw [← intercalate_shownPart, countP_intercalate, hlines _ htidy, countP_textLinesOf]

/-- Cutting around the stripped text: it is kept, or its first line is cut off. -/
theorem cut_stripped {text : List Char}
    (hunbroken : ∀ ch ∈ Text.strip Python.isSpace text, isLineBreak ch = true → ch = '\n') :
    Text.strip Python.isSpace (cut true text) = Text.strip Python.isSpace text ∨
      ∃ a b, (∀ ch ∈ a, Python.isSpace ch = true) ∧ (∀ ch ∈ b, Python.isSpace ch = true) ∧
        cut true text = a ++ cut false (Text.strip Python.isSpace text ++ b) := by
  obtain ⟨a, b, htext, ha, hb⟩ := strip_spec Python.isSpace text
  obtain ⟨shown, hshown⟩ := cut_append true a
  have hcut : cut true text = cut true a ++ cut shown (Text.strip Python.isSpace text ++ b) := by
    rw [← hshown, ← List.append_assoc, ← htext]
  have ha' : ∀ ch ∈ cut true a, Python.isSpace ch = true := fun ch hch =>
    ha ch ((cut_sublist true a).subset hch)
  cases shown with
  | true =>
    left
    rw [cut_unbroken hunbroken, ← List.append_assoc] at hcut
    rw [hcut, strip_append_blank ha' fun ch hch => hb ch ((cut_sublist true b).subset hch),
      strip_strip]
  | false => exact .inr ⟨cut true a, b, ha', hb, hcut⟩

/-- A tidy text is the same once it is cut, the white space around it apart. -/
theorem strip_cut {text : List Char}
    (htidy : ∀ line ∈ textLinesOf text, ∀ ch ∈ cutPart line, Python.isSpace ch)
    (hunbroken : ∀ ch ∈ Text.strip Python.isSpace text, isLineBreak ch = true → ch = '\n') :
    Text.strip Python.isSpace (cut true text) = Text.strip Python.isSpace text := by
  rcases cut_stripped hunbroken with h | ⟨a, b, ha, hb, hcut⟩
  · exact h
  · have hcount := countP_cut htidy
    rw [hcut, List.countP_append, countP_blank ha, ← countP_strip text] at hcount
    cases hstripped : Text.strip Python.isSpace text with
    | nil =>
      rw [hstripped] at hcut
      rw [hcut, strip_eq_nil]
      intro ch hch
      rcases List.mem_append.mp hch with hm | hm
      · exact ha ch hm
      · exact hb ch ((cut_sublist false _).subset hm)
    | cons first rest =>
      have hfirst : Python.isSpace first = false := (stripped_strip text).1 first (by rw [hstripped]; rfl)
      have hvisible : visible first = true := by rw [visible, hfirst]; rfl
      have hne : first ≠ '\n' := by
        intro heq
        rw [heq] at hfirst
        cases hfirst
      rw [hstripped, List.cons_append, cut, if_neg hne] at hcount
      have hle := (cut_sublist false (rest ++ b)).countP_le (p := visible)
      rw [List.countP_append, countP_blank hb] at hle
      rw [List.countP_cons_of_pos hvisible] at hcount
      simp only [Bool.false_and, Bool.false_eq_true, if_false] at hcount
      omega

/-- A text `UNKNOWN` is read as itself or as nothing. -/
theorem strip_cut_unknown {text : List Char}
    (h : Text.strip Python.isSpace text = ['U', 'N', 'K', 'N', 'O', 'W', 'N']) :
    Text.strip Python.isSpace (cut true text) = ['U', 'N', 'K', 'N', 'O', 'W', 'N'] ∨
      Text.strip Python.isSpace (cut true text) = [] := by
  have hunbroken : ∀ ch ∈ Text.strip Python.isSpace text, isLineBreak ch = true → ch = '\n' := by
    intro ch hch hbreak
    rw [h] at hch
    rw [unbroken_of_all (by decide) ch hch] at hbreak
    cases hbreak
  rcases cut_stripped hunbroken with heq | ⟨a, b, ha, hb, hcut⟩
  · exact .inl (heq.trans h)
  · right
    have hnone : cut false (['U', 'N', 'K', 'N', 'O', 'W', 'N'] ++ b) = cut false b := by
      simp [cut]
    rw [hcut, h, hnone, strip_eq_nil]
    intro ch hch
    rcases List.mem_append.mp hch with hm | hm
    · exact ha ch hm
    · exact hb ch ((cut_sublist false b).subset hm)

theorem mem_line {text line : List Char} (h : line ∈ textLinesOf text) : ∀ ch ∈ line, ch ∈ text := by
  intro ch hch
  induction text generalizing line with
  | nil =>
    rw [List.mem_singleton.mp h] at hch
    cases hch
  | cons c rest ih =>
    obtain ⟨first, lines, hlines⟩ := List.exists_cons_of_ne_nil (textLinesOf_ne_nil rest)
    rw [textLinesOf_cons] at h
    rw [hlines] at h ih
    by_cases hc : c = '\n'
    · rw [if_pos hc] at h
      rcases List.mem_cons.mp h with rfl | hm
      · cases hch
      · exact List.mem_cons_of_mem _ (ih hm hch)
    · rw [if_neg hc, List.modifyHead_cons] at h
      rcases List.mem_cons.mp h with rfl | hm
      · rcases List.mem_cons.mp hch with rfl | hm
        · exact List.mem_cons_self
        · exact List.mem_cons_of_mem _ (ih List.mem_cons_self hm)
      · exact List.mem_cons_of_mem _ (ih (List.mem_cons_of_mem _ hm) hch)

/-- What is read of a constitution, its white space stripped. -/
def readText (c : Constitution) : List Char :=
  Text.strip Python.isSpace (['\n'].intercalate (readLines c))

/-- A plain constitution is read back. -/
theorem readText_of_plain (hspace : ' ' ∉ c.memoryRef.toList) (h : c.Plain) :
    readText c = Text.strip Python.isSpace c.text.toList := by
  have hcut : ∀ mark : Char, Python.isSpace mark = false →
      ∀ line ∈ textLinesOf c.text.toList, mark ∉ cutPart line := by
    intro mark hmark line hline hmem
    rw [h.tidy line hline mark hmem] at hmark
    cases hmark
  rw [readText, readLines_eq h.ref hspace (hcut '>' rfl) (hcut 'E' rfl)]
  exact strip_cut h.tidy fun ch hch => h.unbroken ch (by rw [strip_toList]; exact hch)

/-- Where the ref makes a line that looks like the marker, nothing is read. -/
theorem readText_of_ref (hspace : ' ' ∉ c.memoryRef.toList)
    (href : endConstitution ∈ refLines c.memoryRef) : readText c = [] := by
  obtain ⟨before, after, hsplit⟩ := List.append_of_mem href
  have hlines : readLines c = unquoted (before.takeWhile (· != endConstitution)) := by
    rw [readLines, hsplit, List.append_assoc, List.cons_append, takeWhile_append_self]
  have hnone : readLines c = [] := by
    rw [hlines]
    refine unquoted_refLines hspace fun line hline => ?_
    rw [hsplit]
    exact List.mem_append_left _ ((List.takeWhile_sublist _).subset hline)
  rw [readText, hnone]
  rfl

/-- A text `UNKNOWN` is read as itself or as nothing, whatever surrounds it. -/
theorem readText_of_unknown (hspace : ' ' ∉ c.memoryRef.toList)
    (h : Text.strip Python.isSpace c.text.toList = ['U', 'N', 'K', 'N', 'O', 'W', 'N']) :
    readText c = ['U', 'N', 'K', 'N', 'O', 'W', 'N'] ∨ readText c = [] := by
  by_cases href : endConstitution ∈ refLines c.memoryRef
  · exact .inr (readText_of_ref hspace href)
  · have hcut : ∀ mark : Char, Python.isSpace mark = false →
        mark ∉ ['U', 'N', 'K', 'N', 'O', 'W', 'N'] →
          ∀ line ∈ textLinesOf c.text.toList, mark ∉ cutPart line := by
      intro mark hmark hnot line hline hmem
      obtain ⟨a, b, htext, ha, hb⟩ := strip_spec Python.isSpace c.text.toList
      have hin := mem_line hline mark ((List.dropWhile_suffix _).subset hmem)
      rw [htext, h] at hin
      rcases List.mem_append.mp hin with hm | hm
      · rcases List.mem_append.mp hm with hm | hm
        · rw [ha mark hm] at hmark
          cases hmark
        · exact hnot hm
      · rw [hb mark hm] at hmark
        cases hmark
    rw [readText, readLines_eq href hspace (hcut '>' rfl (by decide)) (hcut 'E' rfl (by decide))]
    exact strip_cut_unknown h

/-- A constitution that is read back is plain. -/
theorem plain_of_readText (hspace : ' ' ∉ c.memoryRef.toList) (hne : readText c ≠ [])
    (h : readText c = Text.strip Python.isSpace c.text.toList) : c.Plain := by
  refine ⟨?_, ?_, ?_, ?_⟩
  · intro href
    exact hne (readText_of_ref hspace href)
  · intro hempty
    rw [h, ← strip_toList, hempty] at hne
    exact hne rfl
  · intro line hline ch hch
    by_contra hspace'
    have hvisible : visible ch = true := by
      rw [visible, eq_false_of_ne_true hspace']
      rfl
    have hlt := countP_readLines hspace ⟨line, hline, ch, hch, hvisible⟩
    rw [← countP_strip, ← countP_strip c.text.toList, ← h] at hlt
    exact Nat.lt_irrefl _ hlt
  · intro ch hch hbreak
    rw [strip_toList, ← h, readText] at hch
    obtain ⟨a, b, htext, _, _⟩ := strip_spec Python.isSpace (['\n'].intercalate (readLines c))
    refine break_of_mem_readLines (c := c) ?_ hbreak
    rw [htext]
    exact List.mem_append_left _ (List.mem_append_right _ hch)

theorem blank_not_mem_ref (h : validateConstitution c = .ok ()) : ' ' ∉ c.memoryRef.toList := by
  intro hmem
  have hspace : containsSpace c.memoryRef = true := List.any_eq_true.mpr ⟨' ', hmem, rfl⟩
  have hne : (c.memoryRef != "") = true := by
    rw [bne_iff_ne]
    intro hempty
    rw [hempty] at hmem
    cases hmem
  unfold validateConstitution at h
  simp only [hspace, hne, Bool.or_true, Bool.and_true, Bool.true_or, if_true, bind, Except.bind] at h
  by_cases hnul : (c.memoryRef.toList.any (· == '\x00') || c.text.toList.any (· == '\x00')) = true
  · rw [if_pos hnul] at h
    cases h
  · rw [if_neg hnul] at h
    cases h

end

/-- Without a text the Worker reads `UNKNOWN`. -/
theorem constitutionText_ne_empty (windowText : String) : constitutionText windowText ≠ "" := by
  have hunknown : "UNKNOWN" ≠ "" := by decide
  unfold constitutionText
  rcases splitlines windowText.toList with _ | ⟨first, _ | ⟨second, rest⟩⟩
  · exact hunknown
  · exact hunknown
  · by_cases hfirst : first ≠ "CONSTITUTION".toList
    · simp only [if_pos hfirst]
      exact hunknown
    · by_cases hsecond : second = "UNKNOWN".toList
      · simp only [if_neg hfirst, if_pos hsecond]
        exact hunknown
      · simp only [if_neg hfirst, if_neg hsecond]
        by_cases hend : rest.contains endConstitution = true
        · rw [if_pos hend]
          by_cases htext : Python.strip (String.ofList (['\n'].intercalate
              (unquoted (rest.takeWhile (· != endConstitution))))) = ""
          · rw [if_pos htext]
            exact hunknown
          · rw [if_neg htext]
            exact htext
        · rw [if_neg hend]
          exact hunknown

/-- The Worker reads back the text of a constitution, whatever follows, exactly when the
text is `UNKNOWN` or the constitution is plain. -/
theorem constitutionText_iff {c : Constitution} (hvalid : validateConstitution c = .ok ())
    (continuation : String) :
    constitutionText (renderConstitution c ++ continuation) = Python.strip c.text ↔
      Python.strip c.text = "UNKNOWN" ∨ c.Plain := by
  have hspace := blank_not_mem_ref hvalid
  by_cases hempty : c = {}
  · have hstrip : Python.strip c.text = "" := by
      rw [hempty]
      rfl
    rw [hstrip]
    constructor
    · intro h
      exact absurd h (constitutionText_ne_empty _)
    · intro h
      rcases h with h | h
      · exact absurd h (by decide)
      · exact absurd hstrip h.text
  · have hread : Python.strip (String.ofList (['\n'].intercalate (readLines c))) =
        String.ofList (readText c) := by
      rw [Python.strip, String.toList_ofList]
      rfl
    have hnil : String.ofList (readText c) = "" ↔ readText c = [] := by
      rw [← String.toList_inj, String.toList_ofList]
      rfl
    have htext : String.ofList (readText c) = Python.strip c.text ↔
        readText c = Text.strip Python.isSpace c.text.toList := by
      rw [← String.toList_inj, String.toList_ofList, strip_toList]
    rw [constitutionText_render hempty, hread]
    show (if _ then _ else _) = _ ↔ _
    by_cases hblank : readText c = []
    · rw [if_pos (hnil.mpr hblank)]
      constructor
      · intro h
        exact .inl h.symm
      · intro h
        rcases h with h | h
        · exact h.symm
        · have hplain := readText_of_plain hspace h
          rw [hblank, ← strip_toList] at hplain
          exact absurd (String.toList_inj.mp hplain.symm) h.text
    · rw [if_neg fun h => hblank (hnil.mp h), htext]
      constructor
      · intro h
        exact .inr (plain_of_readText hspace hblank h)
      · intro h
        rcases h with h | h
        · have hunknown : Text.strip Python.isSpace c.text.toList = ['U', 'N', 'K', 'N', 'O', 'W', 'N'] := by
            rw [← strip_toList, h]
            rfl
          rcases readText_of_unknown hspace hunknown with hr | hr
          · rw [hr, hunknown]
          · exact absurd hr hblank
        · exact readText_of_plain hspace h

/-- Two lines that Core and the Worker cut alike. -/
theorem constitutionText_iff_twoLines :
    validateConstitution ⟨"c1", "Be kind.\nBe brief."⟩ = .ok () ∧
      (constitutionText (renderConstitution ⟨"c1", "Be kind.\nBe brief."⟩ ++ "EPISODE e1") =
          Python.strip "Be kind.\nBe brief." ↔
        Python.strip "Be kind.\nBe brief." = "UNKNOWN" ∨
          Constitution.Plain ⟨"c1", "Be kind.\nBe brief."⟩) :=
  ⟨by decide, constitutionText_iff (by decide) _⟩

/-- A line separator of Unicode ends what the Worker reads of a line. -/
theorem constitutionText_loses_separator :
    ¬∀ c continuation, validateConstitution c = .ok () → trimSpace c.text ≠ "" →
      constitutionText (renderConstitution c ++ continuation) = Python.strip c.text := by
  intro hall
  have h := hall ⟨"c1", "Be kind.\u2028Be brief."⟩ "" (by decide) (by decide)
  revert h
  decide

end ChoraMem
