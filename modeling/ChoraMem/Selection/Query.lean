/-
The query of a window.

The query joins the Situation texts of a window and is cut at a number of bytes.  The code
writes bytes and looks for the last place before the limit where what it keeps of a text is
well formed; that place is where the longest head of the text ends, so the bytes are those
of a text again.
-/
import ChoraMem.Text.Utf8
import ChoraMem.Storage.ActiveMemory

namespace ChoraMem

/-! ## The code -/

/-- `for cut > 0 && !utf8.ValidString(text[:cut])`. -/
def validCut (text : ByteArray) : Nat → Nat
  | 0 => 0
  | cut + 1 => if (text.extract 0 (cut + 1)).validateUTF8 then cut + 1 else validCut text cut

/-- What the loop writes of one trimmed text. -/
def writeQueryText (query text : ByteArray) : ByteArray :=
  if text.size = 0 ∨ maxRecollectionQueryBytes ≤ query.size then query
  else
    let remaining := maxRecollectionQueryBytes - query.size
    if 0 < query.size ∧ remaining = 0 then query
    else
      let remaining := if 0 < query.size then remaining - 1 else remaining
      let query := if 0 < query.size then query ++ "\n".toByteArray else query
      if remaining < text.size then query ++ text.extract 0 (validCut text remaining)
      else query ++ text

/-- The bytes of `recollectionWindowQuery`. -/
def windowQueryBytes (episodes : List EpisodeEvidence) : ByteArray :=
  episodes.foldl (fun query episode => episode.sources.foldl (fun query source =>
    if source.role != .situation then query
    else writeQueryText query (trimSpace source.text).toByteArray) query) ByteArray.empty

/-! ## The longest head -/

theorem takeBytes_longest (n : Nat) (text : List Char) : Text.LongestHead n text (takeBytes n text) := by
  have hnil : Text.bytes [] = 0 := rfl
  induction text generalizing n with
  | nil =>
    have htake : takeBytes n [] = [] := by cases n <;> rfl
    rw [htake]
    exact ⟨List.prefix_refl [], Nat.zero_le n, fun other hother _ => Text.bytes_le hother⟩
  | cons c text ih =>
    rw [takeBytes]
    by_cases hc : c.utf8Size ≤ n
    · rw [if_pos hc]
      obtain ⟨hhead, hwithin, hlongest⟩ := ih (n - c.utf8Size)
      refine ⟨(List.prefix_cons_inj c).mpr hhead, ?_, fun other hother hn => ?_⟩
      · rw [Text.bytes_cons]
        omega
      · cases other with
        | nil => exact Nat.zero_le _
        | cons d other =>
          obtain ⟨hcd, hrest⟩ := List.cons_prefix_cons.mp hother
          subst hcd
          rw [Text.bytes_cons] at hn
          have hle := hlongest other hrest (by omega)
          rw [Text.bytes_cons, Text.bytes_cons]
          omega
    · rw [if_neg hc]
      refine ⟨List.nil_prefix, Nat.zero_le n, fun other hother hn => ?_⟩
      cases other with
      | nil => exact Nat.le_refl _
      | cons d other =>
        obtain ⟨rfl, _⟩ := List.cons_prefix_cons.mp hother
        rw [Text.bytes_cons] at hn
        omega

/-- The cut is where the longest head ends. -/
theorem validCut_longest {n : Nat} {text front : List Char} (h : Text.LongestHead n text front)
    (hn : n ≤ Text.bytes text) : validCut text.utf8Encode n = Text.bytes front := by
  induction n with
  | zero => exact (Nat.le_zero.mp h.within).symm
  | succ n ih =>
    rw [validCut]
    by_cases hvalid : (text.utf8Encode.extract 0 (n + 1)).validateUTF8 = true
    · rw [if_pos hvalid]
      obtain ⟨other, hother, hsize⟩ :=
        (Text.valid_extract_iff hn).mp (ByteArray.validateUTF8_eq_true_iff.mp hvalid)
      have hle := h.longest other hother (Nat.le_of_eq hsize)
      have hwithin := h.within
      omega
    · rw [if_neg hvalid]
      have hne : Text.bytes front ≠ n + 1 := fun hsize =>
        hvalid (ByteArray.validateUTF8_eq_true_iff.mpr
          ((Text.valid_extract_iff hn).mpr ⟨front, h.head, hsize⟩))
      have hwithin := h.within
      exact ih ⟨h.head, by omega, fun other hother hle => h.longest other hother (by omega)⟩ (by omega)

/-! ## The bytes are those of the text -/

theorem writeQueryText_eq (query text : String) :
    writeQueryText query.toByteArray (trimSpace text).toByteArray =
      (appendQueryText query text).toByteArray := by
  rw [writeQueryText, appendQueryText, String.size_toByteArray, String.size_toByteArray]
  generalize trimSpace text = text
  have hempty : ∀ s : String, (s == "") = decide (s.utf8ByteSize = 0) := fun s => by
    rw [Bool.eq_iff_iff, beq_iff_eq, decide_eq_true_eq, String.utf8ByteSize_eq_zero_iff]
  simp only [hempty, Bool.or_eq_true, decide_eq_true_eq]
  by_cases hskip : text.utf8ByteSize = 0 ∨ maxRecollectionQueryBytes ≤ query.utf8ByteSize
  · rw [if_pos hskip, if_pos hskip]
  · rw [if_neg hskip, if_neg hskip, if_neg (by omega)]
    have hcut : ∀ (front : String) (n : Nat),
        (if n < text.utf8ByteSize then
          front.toByteArray ++ text.toByteArray.extract 0 (validCut text.toByteArray n)
        else front.toByteArray ++ text.toByteArray) =
          (front ++ String.ofList (takeBytes n text.toList)).toByteArray := by
      intro front n
      have hlongest := takeBytes_longest n text.toList
      rw [Text.utf8ByteSize_eq, String.toByteArray_append, String.toByteArray_ofList,
        show text.toByteArray = text.toList.utf8Encode from String.utf8Encode_toList.symm]
      by_cases hn : n < Text.bytes text.toList
      · rw [if_pos hn, validCut_longest hlongest (Nat.le_of_lt hn), Text.extract_utf8Encode hlongest.head]
      · rw [if_neg hn, hlongest.whole (Nat.le_of_not_lt hn)]
    by_cases hzero : query.utf8ByteSize = 0
    · have hpos : ¬0 < query.utf8ByteSize := by omega
      rw [if_neg hpos, if_neg hpos, if_pos hzero]
      exact hcut query _
    · have hpos : 0 < query.utf8ByteSize := Nat.pos_of_ne_zero hzero
      have hnewline : "\n".utf8ByteSize = 1 := rfl
      rw [if_pos hpos, if_pos hpos, if_neg hzero, ← String.toByteArray_append, hcut,
        String.utf8ByteSize_append, hnewline, Nat.sub_sub]

theorem windowQueryBytes_eq (episodes : List EpisodeEvidence) :
    windowQueryBytes episodes = (recollectionWindowQuery episodes).toByteArray := by
  have hsources : ∀ (sources : List SourceEvidence) (query : String),
      sources.foldl (fun query source => if source.role != .situation then query
        else writeQueryText query (trimSpace source.text).toByteArray) query.toByteArray =
        (((sources.filter (·.role == .situation)).map (·.text)).foldl appendQueryText
          query).toByteArray := by
    intro sources
    induction sources with
    | nil => exact fun query => rfl
    | cons source sources ih =>
      intro query
      by_cases hrole : source.role = .situation
      · rw [List.foldl_cons, hrole, List.filter_cons_of_pos (by rw [hrole]; rfl), List.map_cons,
          List.foldl_cons, ← ih, ← writeQueryText_eq]
        rfl
      · rw [List.foldl_cons, if_pos (bne_iff_ne.mpr hrole),
          List.filter_cons_of_neg (by simpa using hrole), ih]
  have hepisodes : ∀ (episodes : List EpisodeEvidence) (query : String),
      episodes.foldl (fun query episode => episode.sources.foldl (fun query source =>
        if source.role != .situation then query
        else writeQueryText query (trimSpace source.text).toByteArray) query) query.toByteArray =
        (((situationSources episodes).map (·.text)).foldl appendQueryText query).toByteArray := by
    intro episodes
    induction episodes with
    | nil => exact fun query => rfl
    | cons episode episodes ih =>
      intro query
      have hcons : situationSources (episode :: episodes) =
          episode.sources.filter (·.role == .situation) ++ situationSources episodes := rfl
      rw [List.foldl_cons, hsources, ih, hcons, List.map_append, List.foldl_append]
  exact hepisodes episodes ""

/-! ## The form of the query -/

/-- The texts that the query joins. -/
def queryTexts (episodes : List EpisodeEvidence) : List String :=
  ((situationSources episodes).map fun source => trimSpace source.text).filter (· != "")

/-- What the loop keeps of the texts it has seen: heads of them until there is no room, and all of
them unless they are too long. -/
structure QueryOf (texts : List String) (query : String) : Prop where
  start : query = "" → texts = []
  size : query.utf8ByteSize ≤ maxRecollectionQueryBytes
  heads : ∃ heads front, query = "\n".intercalate heads ∧ front <+: texts ∧
    List.Forall₂ (fun head text => head.toList <+: text.toList) heads front ∧
      (front = texts ∨ query.utf8ByteSize = maxRecollectionQueryBytes)
  whole : query = "\n".intercalate texts ∨
    maxRecollectionQueryBytes < ("\n".intercalate texts).utf8ByteSize ∧
      maxRecollectionQueryBytes ≤ query.utf8ByteSize + 3

theorem intercalate_snoc (texts : List String) (text : String) :
    "\n".intercalate (texts ++ [text]) =
      if texts = [] then text else "\n".intercalate texts ++ "\n" ++ text := by
  by_cases hnil : texts = []
  · rw [if_pos hnil, hnil, List.nil_append, String.intercalate_singleton]
  · rw [if_neg hnil, String.intercalate_append_of_ne_nil hnil (List.cons_ne_nil _ _),
      String.intercalate_singleton]

theorem size_intercalate_snoc (texts : List String) (text : String) :
    ("\n".intercalate (texts ++ [text])).utf8ByteSize =
      ("\n".intercalate texts).utf8ByteSize + (if texts = [] then 0 else 1) + text.utf8ByteSize := by
  have hnewline : "\n".utf8ByteSize = 1 := rfl
  rw [intercalate_snoc]
  by_cases hnil : texts = []
  · rw [if_pos hnil, if_pos hnil, hnil, String.intercalate_nil]
    show text.utf8ByteSize = 0 + 0 + text.utf8ByteSize
    omega
  · rw [if_neg hnil, if_neg hnil, String.utf8ByteSize_append, String.utf8ByteSize_append, hnewline]

/-- One text more. -/
theorem queryOf_append {texts : List String} {query text : String} (h : QueryOf texts query)
    (htext : trimSpace text ≠ "") : QueryOf (texts ++ [trimSpace text]) (appendQueryText query text) := by
  have hblank : (trimSpace text == "") = false := beq_eq_false_iff_ne.mpr htext
  rw [appendQueryText, hblank, Bool.false_or]
  generalize trimSpace text = text at htext
  have hpos : 0 < text.utf8ByteSize := Nat.pos_of_ne_zero fun hzero =>
    htext (String.utf8ByteSize_eq_zero_iff.mp hzero)
  obtain ⟨hstart, hsize, ⟨heads, front, hquery, hfront, hheads, hroom⟩, hwhole⟩ := h
  have hmore := size_intercalate_snoc texts text
  by_cases hfull : maxRecollectionQueryBytes ≤ query.utf8ByteSize
  · rw [if_pos (decide_eq_true hfull)]
    refine ⟨fun hempty => ?_, hsize, ⟨heads, front, hquery,
      hfront.trans (List.prefix_append _ _), hheads, .inr (Nat.le_antisymm hsize hfull)⟩, .inr ⟨?_, ?_⟩⟩
    · rw [hempty] at hfull
      exact absurd hfull (by decide)
    · rcases hwhole with hwhole | ⟨hlong, _⟩
      · rw [hmore, ← hwhole]
        omega
      · omega
    · omega
  · rw [if_neg (by simpa using hfull)]
    have hall : front = texts := hroom.resolve_right fun heq => hfull (Nat.le_of_eq heq.symm)
    rw [hall] at hheads
    have hnil : heads = [] ↔ texts = [] := by
      rw [← List.length_eq_zero_iff, ← List.length_eq_zero_iff, hheads.length_eq]
    have hempty : query = "" ↔ texts = [] := by
      refine ⟨hstart, fun htexts => ?_⟩
      rw [hquery, hnil.mpr htexts, String.intercalate_nil]
    have hjoin : (if query == "" then query else query ++ "\n").utf8ByteSize =
        query.utf8ByteSize + if texts = [] then 0 else 1 := by
      by_cases htexts : texts = []
      · rw [if_pos htexts, if_pos (beq_iff_eq.mpr (hempty.mpr htexts)), Nat.add_zero]
      · rw [if_neg htexts, if_neg fun heq => htexts (hempty.mp (beq_iff_eq.mp heq)),
          String.utf8ByteSize_append]
        rfl
    have hsep : (if texts = [] then 0 else 1) ≤ 1 := by
      by_cases htexts : texts = [] <;> simp [htexts]
    show QueryOf (texts ++ [text]) ((if query == "" then query else query ++ "\n") ++
      String.ofList (takeBytes (maxRecollectionQueryBytes -
        (if query == "" then query else query ++ "\n").utf8ByteSize) text.toList))
    rw [hjoin]
    generalize hn : maxRecollectionQueryBytes - (query.utf8ByteSize + if texts = [] then 0 else 1) = n
    have hlongest := takeBytes_longest n text.toList
    have hform : (if query == "" then query else query ++ "\n") ++
        String.ofList (takeBytes n text.toList) =
          "\n".intercalate (heads ++ [String.ofList (takeBytes n text.toList)]) := by
      rw [intercalate_snoc, ← hquery]
      by_cases htexts : texts = []
      · rw [if_pos (hnil.mpr htexts), if_pos (beq_iff_eq.mpr (hempty.mpr htexts)), hempty.mpr htexts,
          String.empty_append]
      · rw [if_neg fun h => htexts (hnil.mp h),
          if_neg fun heq => htexts (hempty.mp (beq_iff_eq.mp heq))]
    have hbytes : ((if query == "" then query else query ++ "\n") ++
        String.ofList (takeBytes n text.toList)).utf8ByteSize =
          query.utf8ByteSize + (if texts = [] then 0 else 1) + Text.bytes (takeBytes n text.toList) := by
      rw [String.utf8ByteSize_append, hjoin, Text.utf8ByteSize_ofList]
    have hwithin := hlongest.within
    have hmax : maxRecollectionQueryBytes = 32768 := rfl
    rw [Text.utf8ByteSize_eq text] at hmore hpos
    have hpiece : takeBytes n text.toList = text.toList ∧ Text.bytes text.toList ≤ n ∨
        n < Text.bytes text.toList ∧ n ≤ Text.bytes (takeBytes n text.toList) + 3 := by
      by_cases hfits : Text.bytes text.toList ≤ n
      · exact .inl ⟨hlongest.whole hfits, hfits⟩
      · exact .inr ⟨Nat.lt_of_not_le hfits, hlongest.slack (Nat.lt_of_not_le hfits)⟩
    refine ⟨fun h => ?_, by omega, ⟨_, _, hform, List.prefix_refl _,
      List.rel_append hheads (.cons ?_ .nil), .inl rfl⟩, ?_⟩
    · have hzero : Text.bytes (takeBytes n text.toList) = 0 ∧ query.utf8ByteSize = 0 := by
        rw [h] at hbytes
        have hnone : "".utf8ByteSize = 0 := rfl
        omega
      rcases hpiece with ⟨heq, _⟩ | ⟨_, hslack⟩
      · rw [heq] at hzero
        omega
      · omega
    · rw [String.toList_ofList]
      exact hlongest.head
    · rcases hwhole with hwhole | ⟨hlong, hroom⟩
      · rcases hpiece with ⟨heq, _⟩ | ⟨hlt, hslack⟩
        · left
          rw [heq, String.ofList_toList, intercalate_snoc, ← hwhole]
          by_cases htexts : texts = []
          · rw [if_pos htexts, if_pos (beq_iff_eq.mpr (hempty.mpr htexts)), hempty.mpr htexts,
              String.empty_append]
          · rw [if_neg htexts, if_neg fun heq => htexts (hempty.mp (beq_iff_eq.mp heq))]
        · right
          rw [hmore, ← hwhole]
          omega
      · right
        omega

theorem queryOf_foldl (sources : List SourceEvidence) {texts : List String} {query : String}
    (h : QueryOf texts query) :
    QueryOf (texts ++ (sources.map fun source => trimSpace source.text).filter (· != ""))
      ((sources.map (·.text)).foldl appendQueryText query) := by
  induction sources generalizing texts query with
  | nil =>
    rw [List.map_nil, List.filter_nil, List.append_nil]
    exact h
  | cons source sources ih =>
    rw [List.map_cons, List.map_cons, List.foldl_cons]
    by_cases hblank : trimSpace source.text = ""
    · have hsame : appendQueryText query source.text = query := by
        rw [appendQueryText, hblank]
        rfl
      rw [hsame, List.filter_cons_of_neg (by simpa using hblank)]
      exact ih h
    · rw [List.filter_cons_of_pos (by simpa using hblank), ← List.singleton_append, ← List.append_assoc]
      exact ih (queryOf_append h hblank)

theorem queryOf_window (episodes : List EpisodeEvidence) :
    QueryOf (queryTexts episodes) (recollectionWindowQuery episodes) :=
  queryOf_foldl (situationSources episodes) ⟨fun _ => rfl, Nat.zero_le _,
    ⟨[], [], rfl, List.prefix_refl _, .nil, .inl rfl⟩, .inl rfl⟩

/-- The query is a text of no more bytes than the limit: the join of the Situation texts when that
fits, and else heads of them in order that leave at most three bytes over. -/
theorem window_query_formed (episodes : List EpisodeEvidence) :
    (windowQueryBytes episodes).IsValidUTF8 ∧
      (windowQueryBytes episodes).size ≤ maxRecollectionQueryBytes ∧
      if ("\n".intercalate (queryTexts episodes)).utf8ByteSize ≤ maxRecollectionQueryBytes then
        windowQueryBytes episodes = ("\n".intercalate (queryTexts episodes)).toByteArray
      else
        ∃ heads front, windowQueryBytes episodes = ("\n".intercalate heads).toByteArray ∧
          front <+: queryTexts episodes ∧
          List.Forall₂ (fun head text => head.toList <+: text.toList) heads front ∧
          maxRecollectionQueryBytes - 3 ≤ (windowQueryBytes episodes).size := by
  obtain ⟨_, hsize, ⟨heads, front, hquery, hfront, hheads, _⟩, hwhole⟩ := queryOf_window episodes
  rw [windowQueryBytes_eq, String.size_toByteArray]
  refine ⟨(recollectionWindowQuery episodes).isValidUTF8, hsize, ?_⟩
  by_cases hfits : ("\n".intercalate (queryTexts episodes)).utf8ByteSize ≤ maxRecollectionQueryBytes
  · rw [if_pos hfits]
    rcases hwhole with hwhole | ⟨hlong, _⟩
    · rw [← hwhole]
    · omega
  · rw [if_neg hfits]
    refine ⟨heads, front, by rw [hquery], hfront, hheads, ?_⟩
    rcases hwhole with hwhole | ⟨_, hroom⟩
    · rw [hwhole] at hsize
      omega
    · omega

end ChoraMem
