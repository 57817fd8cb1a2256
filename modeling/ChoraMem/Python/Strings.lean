/-
Python strings.

What `str.strip` takes off and where `str.splitlines` cuts.  A text is cut at every line
boundary of Unicode, of which `\r\n` counts once, and an end of the text right after a
boundary starts no further line.
-/
import ChoraMem.Text.Lines
import ChoraMem.Text.Utf8

namespace Python

/-! ## Classes -/

/-- `str.isspace` of one character. -/
def isSpace (c : Char) : Bool :=
  let n := c.toNat
  (9 ≤ n && n ≤ 13) || (0x1C ≤ n && n ≤ 0x20) || n = 0x85 || n = 0xA0 || n = 0x1680 ||
    (0x2000 ≤ n && n ≤ 0x200A) || n = 0x2028 || n = 0x2029 || n = 0x202F || n = 0x205F || n = 0x3000

/-- The characters at which `str.splitlines` cuts. -/
def isLineBreak (c : Char) : Bool :=
  let n := c.toNat
  (0xA ≤ n && n ≤ 0xD) || (0x1C ≤ n && n ≤ 0x1E) || n = 0x85 || n = 0x2028 || n = 0x2029

/-- `str.strip`. -/
def strip (text : String) : String := String.ofList (Text.strip isSpace text.toList)

/-- `str.splitlines`. -/
def splitlines : List Char → List (List Char)
  | [] => []
  | '\r' :: '\n' :: rest => [] :: splitlines rest
  | c :: rest =>
    if isLineBreak c then [] :: splitlines rest
    else
      match splitlines rest with
      | [] => [[c]]
      | line :: lines => (c :: line) :: lines

/-- A line boundary is white space. -/
theorem isSpace_of_isLineBreak {c : Char} (h : isLineBreak c = true) : isSpace c = true := by
  simp only [isLineBreak, isSpace, Bool.or_eq_true, Bool.and_eq_true, decide_eq_true_eq] at h ⊢
  omega

theorem strip_toList (text : String) : (strip text).toList = Text.strip isSpace text.toList :=
  String.toList_ofList

/-! ## Cutting -/

/-- The ways to cut at the first character. -/
theorem splitlines_eqns :
    (∀ rest, splitlines ('\r' :: '\n' :: rest) = [] :: splitlines rest) ∧
    (∀ c rest, isLineBreak c = true → (∀ tail, c = '\r' → rest ≠ '\n' :: tail) →
      splitlines (c :: rest) = [] :: splitlines rest) ∧
    (∀ c rest, isLineBreak c = false → splitlines rest = [] → splitlines (c :: rest) = [[c]]) ∧
    ∀ c rest line lines, isLineBreak c = false → splitlines rest = line :: lines →
      splitlines (c :: rest) = (c :: line) :: lines := by
  have hplain : ∀ c : Char, isLineBreak c = false → c ≠ '\r' := by
    intro c hc hr
    rw [hr] at hc
    cases hc
  refine ⟨fun rest => by rw [splitlines], fun c rest hc hcut => ?_, fun c rest hc h => ?_,
    fun c rest line lines hc h => ?_⟩
  · rw [splitlines, if_pos hc]
    exact hcut
  · rw [splitlines, hc, h]
    · rfl
    · exact fun _ hr _ => hplain c hc hr
  · rw [splitlines, hc, h]
    · rfl
    · exact fun _ hr _ => hplain c hc hr

/-- A `\r\n` is one boundary. -/
theorem splitlines_crlf (rest : List Char) :
    splitlines ('\r' :: '\n' :: rest) = [] :: splitlines rest :=
  splitlines_eqns.1 rest

theorem splitlines_break {c : Char} (hc : isLineBreak c = true) (hr : c ≠ '\r') (rest : List Char) :
    splitlines (c :: rest) = [] :: splitlines rest :=
  splitlines_eqns.2.1 c rest hc fun _ h => absurd h hr

theorem splitlines_return {rest : List Char} (h : ∀ tail, rest ≠ '\n' :: tail) :
    splitlines ('\r' :: rest) = [] :: splitlines rest :=
  splitlines_eqns.2.1 '\r' rest rfl fun tail _ => h tail

/-- A text that starts with a boundary starts with an empty line. -/
theorem splitlines_head_break {c : Char} (hc : isLineBreak c = true) (rest : List Char) :
    ∃ lines, splitlines (c :: rest) = [] :: lines := by
  by_cases hr : c = '\r'
  · subst hr
    by_cases hn : ∃ tail, rest = '\n' :: tail
    · obtain ⟨tail, rfl⟩ := hn
      exact ⟨splitlines tail, splitlines_crlf tail⟩
    · exact ⟨splitlines rest, splitlines_return fun tail h => hn ⟨tail, h⟩⟩
  · exact ⟨splitlines rest, splitlines_break hc hr rest⟩

theorem splitlines_cons {c : Char} {rest line : List Char} {lines : List (List Char)}
    (hc : isLineBreak c = false) (h : splitlines rest = line :: lines) :
    splitlines (c :: rest) = (c :: line) :: lines :=
  splitlines_eqns.2.2.2 c rest line lines hc h

theorem splitlines_cons_nil {c : Char} {rest : List Char} (hc : isLineBreak c = false)
    (h : splitlines rest = []) : splitlines (c :: rest) = [[c]] :=
  splitlines_eqns.2.2.1 c rest hc h

theorem splitlines_ne_nil {text : List Char} (h : text ≠ []) : splitlines text ≠ [] := by
  cases text with
  | nil => exact absurd rfl h
  | cons c rest =>
    by_cases hc : isLineBreak c = true
    · obtain ⟨lines, hlines⟩ := splitlines_head_break hc rest
      rw [hlines]
      exact List.cons_ne_nil _ _
    · have hc := eq_false_of_ne_true hc
      cases hrest : splitlines rest with
      | nil =>
        rw [splitlines_cons_nil hc hrest]
        exact List.cons_ne_nil _ _
      | cons line lines =>
        rw [splitlines_cons hc hrest]
        exact List.cons_ne_nil _ _

/-- The lines have all the characters of the text but its boundaries. -/
theorem splitlines_flatten (text : List Char) :
    (splitlines text).flatten = text.filter fun c => !isLineBreak c := by
  induction text using splitlines.induct with
  | case1 => rfl
  | case2 text ih =>
    rw [splitlines_crlf, List.flatten_cons, List.nil_append, ih, List.filter_cons_of_neg (by decide),
      List.filter_cons_of_neg (by decide)]
  | case3 c text hrn hc ih =>
    rw [splitlines_eqns.2.1 c text hc hrn, List.flatten_cons, List.nil_append, ih,
      List.filter_cons_of_neg (by simp [hc])]
  | case4 c text hrn hc hnil ih =>
    rw [hnil] at ih
    rw [splitlines_cons_nil (eq_false_of_ne_true hc) hnil, List.filter_cons_of_pos (by simp [hc]),
      ← ih]
    rfl
  | case5 c text hrn hc line lines hlines ih =>
    rw [hlines, List.flatten_cons] at ih
    rw [splitlines_cons (eq_false_of_ne_true hc) hlines, List.filter_cons_of_pos (by simp [hc]),
      ← ih]
    rfl

theorem mem_of_mem_splitlines {text line : List Char} (h : line ∈ splitlines text) :
    ∀ c ∈ line, c ∈ text ∧ isLineBreak c = false := by
  intro c hc
  have hflat : c ∈ (splitlines text).flatten := List.mem_flatten.mpr ⟨line, h, hc⟩
  rw [splitlines_flatten, List.mem_filter] at hflat
  exact ⟨hflat.1, by simpa using hflat.2⟩

/-- What has no boundary is added to the first line. -/
theorem splitlines_append_line {a rest line : List Char} {lines : List (List Char)}
    (ha : ∀ c ∈ a, isLineBreak c = false) (h : splitlines rest = line :: lines) :
    splitlines (a ++ rest) = (a ++ line) :: lines := by
  induction a with
  | nil => exact h
  | cons c a ih =>
    exact splitlines_cons (ha c List.mem_cons_self) (ih fun d hd => ha d (List.mem_cons_of_mem _ hd))

/-- A line is cut off at its `\n`. -/
theorem splitlines_line {a : List Char} (ha : ∀ c ∈ a, isLineBreak c = false) (rest : List Char) :
    splitlines (a ++ '\n' :: rest) = a :: splitlines rest := by
  have h := splitlines_append_line ha (splitlines_break (c := '\n') rfl (by decide) rest)
  rw [List.append_nil] at h
  exact h

/-- A text that ends with `\n` is cut apart from what follows. -/
theorem splitlines_append (text rest : List Char) :
    splitlines (text ++ '\n' :: rest) = splitlines (text ++ ['\n']) ++ splitlines rest := by
  induction text using splitlines.induct with
  | case1 =>
    rw [List.nil_append, List.nil_append, splitlines_break rfl (by decide),
      splitlines_break rfl (by decide)]
    rfl
  | case2 text ih =>
    show splitlines ('\r' :: '\n' :: (text ++ '\n' :: rest)) = _ ++ splitlines rest
    rw [splitlines_crlf, ih]
    show _ = splitlines ('\r' :: '\n' :: (text ++ ['\n'])) ++ _
    rw [splitlines_crlf]
    rfl
  | case3 c text hrn hc ih =>
    by_cases hr : c = '\r'
    · subst hr
      cases text with
      | nil =>
        show splitlines ('\r' :: '\n' :: rest) = splitlines ['\r', '\n'] ++ _
        rw [splitlines_crlf, splitlines_crlf]
        rfl
      | cons d text =>
        have hd : ∀ {x : List Char} tail, (d :: text) ++ x ≠ '\n' :: tail := fun tail h =>
          hrn text rfl (by rw [(List.cons.inj h).1])
        show splitlines ('\r' :: (d :: text ++ '\n' :: rest)) =
          splitlines ('\r' :: (d :: text ++ ['\n'])) ++ _
        rw [splitlines_return hd, splitlines_return hd, ih]
        rfl
    · rw [List.cons_append, List.cons_append, splitlines_break hc hr, splitlines_break hc hr, ih]
      rfl
  | case4 c text hrn hc hnil ih | case5 c text hrn hc line lines hlines ih =>
    obtain ⟨line, lines, hline⟩ := List.exists_cons_of_ne_nil
      (splitlines_ne_nil (List.append_ne_nil_of_right_ne_nil text (List.cons_ne_nil '\n' [])))
    have hc := eq_false_of_ne_true hc
    rw [hline] at ih
    rw [List.cons_append, List.cons_append, splitlines_cons hc hline, splitlines_cons hc ih]
    rfl

/-! ## The lines that are not blank -/

/-- The first line ends at the first boundary, and behind it the lines are those between
boundaries but for empty ones. -/
def CutAlike (text : List Char) (lines cut : List (List Char)) : Prop :=
  (lines = [] ∧ text = []) ∨ ∃ line rest more, lines = line :: rest ∧ cut = line :: more ∧
    rest.filter (fun l => !l.isEmpty) = more.filter fun l => !l.isEmpty

theorem CutAlike.filter {text : List Char}
    (h : CutAlike text (splitlines text) (text.splitOnP isLineBreak)) :
    (splitlines text).filter (fun line => !line.isEmpty) =
      (text.splitOnP isLineBreak).filter fun line => !line.isEmpty := by
  rcases h with ⟨_, rfl⟩ | ⟨line, lines, more, hl, hm, heq⟩
  · rfl
  · rw [hl, hm, List.filter_cons, List.filter_cons, heq]

theorem cutAlike_splitlines (text : List Char) :
    CutAlike text (splitlines text) (text.splitOnP isLineBreak) := by
  induction text using splitlines.induct with
  | case1 => exact Or.inl ⟨rfl, rfl⟩
  | case2 text ih =>
    refine Or.inr ⟨[], splitlines text, [] :: text.splitOnP isLineBreak, splitlines_crlf text, ?_, ?_⟩
    · rw [List.splitOnP_cons_eq_if_modifyHead, if_pos (by decide),
        List.splitOnP_cons_eq_if_modifyHead, if_pos (by decide)]
    · rw [ih.filter]
      rfl
  | case3 c text hrn hc ih =>
    refine Or.inr ⟨[], splitlines text, text.splitOnP isLineBreak,
      splitlines_eqns.2.1 c text hc hrn, ?_, ih.filter⟩
    rw [List.splitOnP_cons_eq_if_modifyHead, if_pos hc]
  | case4 c text hrn hc hnil ih =>
    rcases ih with ⟨_, rfl⟩ | ⟨line, lines, _, hl, _⟩
    · refine Or.inr ⟨[c], [], [], splitlines_cons_nil (eq_false_of_ne_true hc) rfl, ?_, rfl⟩
      rw [List.splitOnP_cons_eq_if_modifyHead, if_neg hc]
      rfl
    · rw [hnil] at hl
      cases hl
  | case5 c text hrn hc line lines hlines ih =>
    rcases ih with ⟨hnil, _⟩ | ⟨line', lines', more, hl, hm, heq⟩
    · rw [hnil] at hlines
      cases hlines
    · rw [hlines] at hl
      obtain ⟨rfl, rfl⟩ := List.cons.inj hl
      refine Or.inr ⟨c :: line, lines, more, splitlines_cons (eq_false_of_ne_true hc) hlines, ?_,
        heq⟩
      rw [List.splitOnP_cons_eq_if_modifyHead, if_neg hc, hm, List.modifyHead_cons]

theorem splitlines_pieces (ws : Char → Bool) (text : List Char) :
    ((splitlines text).map (Text.strip ws)).filter (fun line => !line.isEmpty) =
      Text.pieces isLineBreak ws text := by
  have hblank : ∀ lines : List (List Char),
      (lines.map (Text.strip ws)).filter (fun line => !line.isEmpty) =
        ((lines.filter fun line => !line.isEmpty).map (Text.strip ws)).filter
          fun line => !line.isEmpty := by
    intro lines
    induction lines with
    | nil => rfl
    | cons line lines ih =>
      cases line with
      | nil => exact ih
      | cons c line =>
        have hline : ((c :: line) :: lines).filter (fun line => !line.isEmpty) =
            (c :: line) :: lines.filter fun line => !line.isEmpty := rfl
        rw [hline, List.map_cons, List.map_cons, List.filter_cons, List.filter_cons, ih]
  rw [Text.pieces, hblank, (cutAlike_splitlines text).filter, ← hblank]

/-! ## Bytes -/

/-- A boundary takes a byte at least. -/
theorem splitlines_bytes (text : List Char) :
    ((splitlines text).map Text.bytes).sum + (splitlines text).length ≤ Text.bytes text + 1 := by
  have hcons : ∀ (c : Char) (rest : List Char), Text.bytes (c :: rest) = c.utf8Size + Text.bytes rest :=
    fun _ _ => rfl
  have hnil : Text.bytes [] = 0 := rfl
  induction text using splitlines.induct with
  | case1 => exact Nat.zero_le _
  | case2 text ih =>
    have hr := '\r'.utf8Size_pos
    rw [splitlines_crlf, List.map_cons, List.sum_cons, List.length_cons, hcons, hcons, hnil]
    omega
  | case3 c text hrn hc ih =>
    have hpos := c.utf8Size_pos
    have hline : splitlines (c :: text) = [] :: splitlines text :=
      splitlines_eqns.2.1 c text hc hrn
    rw [hline, List.map_cons, List.sum_cons, List.length_cons, hcons, hnil]
    omega
  | case4 c text hrn hc hnil' ih =>
    rw [splitlines_cons_nil (eq_false_of_ne_true hc) hnil', List.map_cons, List.sum_cons,
      List.length_cons, hcons, hcons, hnil]
    simp
  | case5 c text hrn hc line lines hlines ih =>
    rw [hlines, List.map_cons, List.sum_cons, List.length_cons] at ih
    rw [splitlines_cons (eq_false_of_ne_true hc) hlines, List.map_cons, List.sum_cons,
      List.length_cons, hcons, hcons]
    omega

end Python
