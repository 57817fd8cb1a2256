/-
Lines of a text.

A text is cut at the separators of one class of characters, and each line is stripped
of the characters of another.  Two readers of one text agree on its lines that are not
blank when the one's separators are blank to both, whatever either does with the ends
of the text or with the blank lines.
-/
import Mathlib.Data.List.DropRight

namespace Text

variable {sep sep' ws ws' : Char → Bool}

/-! ## Stripping -/

/-- Drop the characters of a class from both ends. -/
def strip (ws : Char → Bool) (cs : List Char) : List Char := (cs.dropWhile ws).rdropWhile ws

theorem strip_nil : strip ws [] = [] := by
  simp [strip]

theorem strip_eq_nil {cs : List Char} : strip ws cs = [] ↔ ∀ c ∈ cs, ws c := by
  unfold strip
  rw [List.rdropWhile_eq_nil_iff]
  constructor
  · intro h
    by_contra hne
    simp only [not_forall] at hne
    obtain ⟨c, hc, hws⟩ := hne
    have hdrop : cs.dropWhile ws ≠ [] := fun hnil =>
      hws (List.dropWhile_eq_nil_iff.mp hnil c hc)
    have hhead := List.head_dropWhile_not ws hdrop
    have := h _ (List.head_mem hdrop)
    rw [this] at hhead
    cases hhead
  · intro h c hc
    exact h c ((List.dropWhile_suffix ws).subset hc)

/-- A stripped text neither starts nor ends with a character of the class. -/
def Stripped (ws : Char → Bool) (cs : List Char) : Prop :=
  (∀ c ∈ cs.head?, ws c = false) ∧ ∀ c ∈ cs.getLast?, ws c = false

theorem strip_eq_self {cs : List Char} (h : Stripped ws cs) : strip ws cs = cs := by
  have hdrop : cs.dropWhile ws = cs := by
    cases cs with
    | nil => rfl
    | cons c rest => simp [h.1 c rfl]
  unfold strip
  rw [hdrop, List.rdropWhile_eq_self_iff]
  intro hne
  simp [h.2 _ (List.getLast?_eq_getLast_of_ne_nil hne)]

theorem stripped_strip (cs : List Char) : Stripped ws (strip ws cs) := by
  constructor
  · intro c hc
    have hne : strip ws cs ≠ [] := by
      intro hnil
      rw [hnil] at hc
      cases hc
    have hhead := List.head?_eq_some_head hne
    have hp : strip ws cs <+: cs.dropWhile ws := List.rdropWhile_prefix _ _
    obtain ⟨t, ht⟩ := hp
    have hcs : cs.dropWhile ws ≠ [] := by
      intro hnil
      rw [hnil] at ht
      exact hne (List.append_eq_nil_iff.mp ht).1
    have hnot := List.head_dropWhile_not ws hcs
    have heq : (cs.dropWhile ws).head? = (strip ws cs).head? := by
      rw [← ht, List.head?_append, hhead]
      rfl
    rw [List.head?_eq_some_head hcs, hhead, Option.some.injEq] at heq
    rw [hhead, Option.mem_def, Option.some.injEq] at hc
    rw [← hc, ← heq]
    exact hnot
  · intro c hc
    have hne : strip ws cs ≠ [] := by
      intro hnil
      rw [hnil] at hc
      cases hc
    rw [List.getLast?_eq_getLast_of_ne_nil hne, Option.mem_def, Option.some.injEq] at hc
    rw [← hc]
    exact eq_false_of_ne_true (List.rdropWhile_last_not ws (cs.dropWhile ws) hne)

/-- What is dropped is of the class. -/
theorem strip_spec (ws : Char → Bool) (cs : List Char) :
    ∃ a b, cs = a ++ strip ws cs ++ b ∧ (∀ c ∈ a, ws c) ∧ ∀ c ∈ b, ws c := by
  refine ⟨cs.takeWhile ws, (cs.dropWhile ws).rtakeWhile ws, ?_, fun c hc => ?_, fun c hc => ?_⟩
  · unfold strip
    rw [List.append_assoc, List.rdropWhile_append_rtakeWhile, List.takeWhile_append_dropWhile]
  · exact List.mem_takeWhile_imp hc
  · exact List.mem_rtakeWhile_imp hc

theorem dropWhile_append_blank {a cs : List Char} (h : ∀ c ∈ a, ws c) :
    (a ++ cs).dropWhile ws = cs.dropWhile ws := by
  induction a with
  | nil => rfl
  | cons c rest ih =>
    rw [List.cons_append, List.dropWhile_cons_of_pos (h c List.mem_cons_self)]
    exact ih fun d hd => h d (List.mem_cons_of_mem _ hd)

theorem strip_append_blank {a b cs : List Char} (ha : ∀ c ∈ a, ws c) (hb : ∀ c ∈ b, ws c) :
    strip ws (a ++ cs ++ b) = strip ws cs := by
  have hrev : ∀ x : List Char, x.rdropWhile ws = (x.reverse.dropWhile ws).reverse := fun _ => rfl
  unfold strip
  rw [List.append_assoc, dropWhile_append_blank ha]
  by_cases hcs : ∀ c ∈ cs, ws c
  · rw [dropWhile_append_blank hcs, List.dropWhile_eq_nil_iff.mpr hb,
      List.dropWhile_eq_nil_iff.mpr hcs]
  · have hne : (cs.dropWhile ws) ≠ [] := fun h => hcs (List.dropWhile_eq_nil_iff.mp h)
    rw [List.dropWhile_append, if_neg (by simpa using hne), hrev, hrev, List.reverse_append,
      dropWhile_append_blank fun c hc => hb c (List.mem_reverse.mp hc)]

theorem strip_strip (cs : List Char) : strip ws (strip ws cs) = strip ws cs :=
  strip_eq_self (stripped_strip cs)

/-- A text that two classes strip to what the other would leave is stripped alike. -/
theorem strip_eq_of_stripped {cs : List Char} (h : Stripped ws' (strip ws cs))
    (h' : Stripped ws (strip ws' cs)) : strip ws cs = strip ws' cs := by
  have hboth : ∀ {v v' : Char → Bool}, Stripped v' (strip v cs) →
      strip (fun c => v c || v' c) cs = strip v cs := by
    intro v v' hstripped
    obtain ⟨a, b, hcs, ha, hb⟩ := strip_spec v cs
    have hself : Stripped (fun c => v c || v' c) (strip v cs) := by
      constructor
      · intro c hc
        show (v c || v' c) = false
        rw [(stripped_strip cs).1 c hc, hstripped.1 c hc]
        rfl
      · intro c hc
        show (v c || v' c) = false
        rw [(stripped_strip cs).2 c hc, hstripped.2 c hc]
        rfl
    calc strip (fun c => v c || v' c) cs
        = strip (fun c => v c || v' c) (a ++ strip v cs ++ b) := by rw [← hcs]
      _ = strip (fun c => v c || v' c) (strip v cs) :=
          strip_append_blank (fun c hc => by rw [ha c hc]; rfl) fun c hc => by rw [hb c hc]; rfl
      _ = strip v cs := strip_eq_self hself
  have hswap : (fun c => ws' c || ws c) = fun c => ws c || ws' c :=
    funext fun c => Bool.or_comm _ _
  rw [← hboth h, ← hboth h', hswap]

/-! ## Cutting -/

/-- A character that does not separate goes to the last line. -/
theorem splitOnP_concat {c : Char} (hc : sep c = false) (cs : List Char) :
    ∃ lines line, cs.splitOnP sep = lines ++ [line] ∧
      (cs ++ [c]).splitOnP sep = lines ++ [line ++ [c]] := by
  induction cs with
  | nil => exact ⟨[], [], rfl, by simp [List.splitOnP_cons_eq_if_modifyHead, hc]⟩
  | cons d rest ih =>
    obtain ⟨lines, line, hrest, hconcat⟩ := ih
    rw [List.cons_append, List.splitOnP_cons_eq_if_modifyHead,
      List.splitOnP_cons_eq_if_modifyHead, hrest, hconcat]
    by_cases hd : sep d
    · rw [if_pos hd, if_pos hd]
      exact ⟨[] :: lines, line, rfl, rfl⟩
    · rw [if_neg hd, if_neg hd]
      cases lines with
      | nil => exact ⟨[], d :: line, rfl, rfl⟩
      | cons l lines => exact ⟨(d :: l) :: lines, line, rfl, rfl⟩

/-- The lines of a text that are not blank, each stripped. -/
def pieces (sep ws : Char → Bool) (cs : List Char) : List (List Char) :=
  ((cs.splitOnP sep).map (strip ws)).filter fun line => !line.isEmpty

theorem pieces_nil : pieces sep ws [] = [] := by
  simp [pieces, strip_nil]

theorem pieces_append_sep {c : Char} (hc : sep c) (a b : List Char) :
    pieces sep ws (a ++ c :: b) = pieces sep ws a ++ pieces sep ws b := by
  unfold pieces
  rw [List.splitOnP_append_cons a b hc, List.map_append, List.filter_append]

theorem pieces_single {cs : List Char} (h : ∀ c ∈ cs, sep c = false) :
    pieces sep ws cs = [strip ws cs].filter fun line => !line.isEmpty := by
  unfold pieces
  rw [List.splitOnP_eq_singleton h]
  rfl

theorem mem_pieces {cs line : List Char} (h : line ∈ pieces sep ws cs) :
    line ≠ [] ∧ Stripped ws line := by
  obtain ⟨hm, hne⟩ := List.mem_filter.mp h
  obtain ⟨raw, _, rfl⟩ := List.mem_map.mp hm
  exact ⟨by simpa using hne, stripped_strip raw⟩

/-- No line has a separator. -/
theorem not_sep_of_mem_splitOnP {cs line : List Char} (h : line ∈ cs.splitOnP sep) :
    ∀ c ∈ line, sep c = false := by
  induction cs generalizing line with
  | nil =>
    rw [List.splitOnP_nil, List.mem_singleton] at h
    subst h
    simp
  | cons d rest ih =>
    rw [List.splitOnP_cons_eq_if_modifyHead] at h
    split at h
    · rcases List.mem_cons.mp h with rfl | h
      · simp
      · exact ih h
    · rename_i hd
      obtain ⟨l, lines, hl⟩ := List.exists_cons_of_ne_nil (List.splitOnP_ne_nil sep rest)
      rw [hl, List.modifyHead_cons] at h
      rcases List.mem_cons.mp h with rfl | h
      · intro c hc
        rcases List.mem_cons.mp hc with rfl | hc
        · simpa using hd
        · exact ih (by rw [hl]; exact List.mem_cons_self) c hc
      · exact ih (by rw [hl]; exact List.mem_cons_of_mem _ h)

theorem not_sep_of_mem_pieces {cs line : List Char} (h : line ∈ pieces sep ws cs) :
    ∀ c ∈ line, sep c = false := by
  obtain ⟨raw, hraw, rfl⟩ := List.mem_map.mp (List.mem_filter.mp h).1
  intro c hc
  obtain ⟨a, b, heq, _, _⟩ := strip_spec ws raw
  refine not_sep_of_mem_splitOnP hraw c ?_
  rw [heq]
  simp [hc]

theorem pieces_cons_blank {c : Char} (hc : ws c) (cs : List Char) :
    pieces sep ws (c :: cs) = pieces sep ws cs := by
  unfold pieces
  rw [List.splitOnP_cons_eq_if_modifyHead]
  split
  · simp [strip_nil]
  · obtain ⟨l, lines, hl⟩ := List.exists_cons_of_ne_nil (List.splitOnP_ne_nil sep cs)
    have hstrip : strip ws (c :: l) = strip ws l := by
      have ha : ∀ d ∈ [c], ws d := by simp [hc]
      have hb : ∀ d ∈ ([] : List Char), ws d := by simp
      simpa using strip_append_blank ha hb
    rw [hl, List.modifyHead_cons, List.map_cons, List.map_cons, hstrip]

theorem pieces_concat_blank {c : Char} (hc : ws c) (cs : List Char) :
    pieces sep ws (cs ++ [c]) = pieces sep ws cs := by
  by_cases hsep : sep c
  · rw [pieces_append_sep hsep, pieces_nil, List.append_nil]
  · obtain ⟨lines, line, hcs, hconcat⟩ := splitOnP_concat (eq_false_of_ne_true hsep) cs
    have hstrip : strip ws (line ++ [c]) = strip ws line := by
      have ha : ∀ d ∈ ([] : List Char), ws d := by simp
      have hb : ∀ d ∈ [c], ws d := by simp [hc]
      simpa using strip_append_blank ha hb
    unfold pieces
    rw [hcs, hconcat, List.map_append, List.map_append, List.map_singleton, List.map_singleton, hstrip]

/-- Blank ends do not matter, whether they are lines of their own or not. -/
theorem pieces_append_blank {a b cs : List Char} (ha : ∀ c ∈ a, ws c) (hb : ∀ c ∈ b, ws c) :
    pieces sep ws (a ++ cs ++ b) = pieces sep ws cs := by
  have hright : pieces sep ws (cs ++ b) = pieces sep ws cs := by
    induction b generalizing cs with
    | nil => rw [List.append_nil]
    | cons c rest ih =>
      have hrest : ∀ d ∈ rest, ws d := fun d hd => hb d (List.mem_cons_of_mem _ hd)
      have hcons : cs ++ c :: rest = (cs ++ [c]) ++ rest := by simp
      rw [hcons, ih hrest, pieces_concat_blank (hb c List.mem_cons_self)]
  rw [List.append_assoc]
  induction a with
  | nil => exact hright
  | cons c rest ih =>
    rw [List.cons_append, pieces_cons_blank (ha c List.mem_cons_self)]
    exact ih fun d hd => ha d (List.mem_cons_of_mem _ hd)

theorem pieces_strip (hws : ∀ c, ws' c → ws c) (cs : List Char) :
    pieces sep ws (strip ws' cs) = pieces sep ws cs := by
  obtain ⟨a, b, heq, ha, hb⟩ := strip_spec ws' cs
  conv_rhs => rw [heq]
  rw [pieces_append_blank (fun c hc => hws c (ha c hc)) fun c hc => hws c (hb c hc)]

/-- Cutting at more separators cuts the lines further. -/
theorem splitOnP_refine (hsep : ∀ c, sep c → sep' c) (cs : List Char) :
    cs.splitOnP sep' = (cs.splitOnP sep).flatMap (List.splitOnP sep') := by
  induction cs with
  | nil => simp
  | cons c rest ih =>
    obtain ⟨l, lines, hl⟩ := List.exists_cons_of_ne_nil (List.splitOnP_ne_nil sep rest)
    rw [List.splitOnP_cons_eq_if_modifyHead, List.splitOnP_cons_eq_if_modifyHead (p := sep)]
    by_cases hc : sep c
    · rw [if_pos hc, if_pos (hsep c hc), ih]
      simp
    · rw [if_neg hc, ih, hl, List.modifyHead_cons, List.flatMap_cons, List.flatMap_cons,
        List.splitOnP_cons_eq_if_modifyHead]
      obtain ⟨m, ms, hm⟩ := List.exists_cons_of_ne_nil (List.splitOnP_ne_nil sep' l)
      split
      · rfl
      · rw [hm]
        rfl

/-- A finer reading reads the lines of a coarser one. -/
theorem pieces_refine (hsep : ∀ c, sep c → sep' c) (hws : ∀ c, ws c → ws' c) (cs : List Char) :
    pieces sep' ws' cs = (pieces sep ws cs).flatMap (pieces sep' ws') := by
  have hline : ∀ line : List Char,
      ((line.splitOnP sep').map (strip ws')).filter (fun l => !l.isEmpty) =
        pieces sep' ws' (strip ws line) := fun line => (pieces_strip hws line).symm
  unfold pieces
  rw [splitOnP_refine hsep]
  generalize cs.splitOnP sep = raws
  induction raws with
  | nil => rfl
  | cons raw raws ih =>
    rw [List.flatMap_cons, List.map_append, List.filter_append, ih, List.map_cons, hline]
    by_cases hraw : strip ws raw = []
    · rw [hraw, pieces_nil, List.filter_cons_of_neg (by simp)]
      rfl
    · rw [List.filter_cons_of_pos (by simpa using hraw), List.flatMap_cons]
      rfl

/-- The lines of joined texts are the lines of each. -/
theorem pieces_intercalate {c : Char} (hc : sep c) (texts : List (List Char)) :
    pieces sep ws ([c].intercalate texts) = texts.flatMap (pieces sep ws) := by
  induction texts with
  | nil => simp [pieces_nil]
  | cons text rest ih =>
    cases rest with
    | nil => simp
    | cons next rest =>
      rw [List.intercalate_cons_cons, List.append_assoc, List.singleton_append,
        pieces_append_sep hc, ih]
      rfl

/-- Lists are equal when they are equal around the first place of an element. -/
theorem append_cons_inj {α : Type} {a : α} {xs xs' ys ys' : List α} (h : a ∉ xs) (h' : a ∉ xs')
    (heq : xs ++ a :: ys = xs' ++ a :: ys') : xs = xs' ∧ ys = ys' := by
  induction xs generalizing xs' with
  | nil =>
    cases xs' with
    | nil => exact ⟨rfl, (List.cons.inj heq).2⟩
    | cons b rest =>
      obtain ⟨rfl, _⟩ := List.cons.inj heq
      exact absurd List.mem_cons_self h'
  | cons b rest ih =>
    cases xs' with
    | nil =>
      obtain ⟨rfl, _⟩ := List.cons.inj heq
      exact absurd List.mem_cons_self h
    | cons b' rest' =>
      obtain ⟨rfl, htail⟩ := List.cons.inj heq
      obtain ⟨rfl, hys⟩ := ih (fun hm => h (List.mem_cons_of_mem _ hm))
        (fun hm => h' (List.mem_cons_of_mem _ hm)) htail
      exact ⟨rfl, hys⟩

end Text
