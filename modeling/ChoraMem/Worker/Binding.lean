/-
Blocks that the Worker writes itself.

For a recollection or a new disposition the model gives a plain text only, and the Worker
puts it into a block with the target, the application and the basis that Core offered.
Each block it emits parses to that one change.  Blocks are put behind a primary text, the
white space at its end taken off; as Python takes off no more than Core leaves out, the
batch parses to the changes of the primary text and of the blocks.
-/
import ChoraMem.Core.Grammar
import ChoraMem.Python.Strings

namespace ChoraMem

open Text

/-! ## Materials -/

structure RecollectionMaterial where
  episodeRef : String
  sourceRef : String
  text : String
  contextText : String
  basisRefs : List String
  existingRecollections : List String
  deriving DecidableEq, Repr

structure DispositionExperience where
  condition : String
  response : String
  outcome : String
  deriving DecidableEq, Repr

structure DispositionFormationMaterial where
  application : Application
  constitution : String
  experiences : List DispositionExperience
  existingDispositions : List String
  basisRefs : List String
  deriving DecidableEq, Repr

def reservedProtocolLines : List String :=
  ["TARGET", "APPLICATION", "CHANGE", "TEXT", "BASIS", "NEW_RECOLLECTION", "NEW_DISPOSITION",
    "SELF", "OTHER", "RELATION", "SITUATION", "NO_MEMORY", "NO_CHANGE"]

def reservedBasisRefs : List String :=
  ["TARGET", "APPLICATION", "CHANGE", "BASIS", "NEW", "NEW_RECOLLECTION", "NEW_DISPOSITION"]

def reservedOutputLines : List String :=
  ["TARGET", "APPLICATION", "CHANGE", "TEXT", "BASIS", "NEW_RECOLLECTION", "NEW_DISPOSITION"]

/-- White space or a control character, category `Cc` of Unicode. -/
def unfitForRef (ref : String) : Bool := ref.toList.any fun c => Python.isSpace c || isControl c

/-- The lines of a text that are not blank, stripped. -/
def meaningfulLines (text : String) : List String :=
  ((Python.splitlines text.toList).map fun line => Python.strip (String.ofList line)).filter (· != "")

def contains (part text : String) : Bool := decide (part.toList <:+: text.toList)

/-! ## Binding -/

/-- `_validate_basis_ref` of recollections. -/
def validateRecollectionRef (ref label : String) : Except String Unit :=
  if ref = "" then .error (label ++ " is required")
  else if maxStableRefBytes < ref.utf8ByteSize then .error (label ++ " exceeds 384 bytes")
  else if unfitForRef ref then .error (label ++ " is not a valid tagged-text ref")
  else if reservedBasisRefs.contains ref then .error (label ++ " is reserved tagged-text syntax")
  else .ok ()

/-- `_validate_basis_ref` of dispositions, which reserves no ref. -/
def validateDispositionRef (ref : String) : Except String Unit :=
  if ref = "" || maxStableRefBytes < ref.utf8ByteSize then .error "invalid disposition Basis ref"
  else if unfitForRef ref then .error "invalid disposition Basis ref"
  else .ok ()

/-- The text of a recollection: the lines of the body behind each other. -/
def recollectionText (body : String) : String := String.intercalate " " (meaningfulLines body)

def RecollectionMaterial.block (material : RecollectionMaterial) (body : String) : String :=
  "TARGET\nNEW_RECOLLECTION\nAPPLICATION\nOTHER\nCHANGE\nTEXT\n" ++ recollectionText body ++
    "\nBASIS\n" ++ String.intercalate "\n" material.basisRefs

def RecollectionMaterial.bindRecollection (material : RecollectionMaterial) (body : String) :
    Except String String :=
  let stripped := Python.strip body
  let meaningful := meaningfulLines body
  if stripped = "NO_MEMORY" then .ok ""
  else if stripped = "" then .error "recollection body is required"
  else if contains "```" body then .error "recollection body must not contain a code fence"
  else if meaningful.contains "NO_MEMORY" then
    .error "NO_MEMORY cannot be mixed with recollection text"
  else if meaningful.any (reservedProtocolLines.contains ·) then
    .error "recollection body must not contain protocol lines"
  else if recollectionText body = "" then .error "recollection body is required"
  else if maxChangeTextBytes < (recollectionText body).utf8ByteSize then
    .error "recollection body exceeds 4 KiB"
  else if material.basisRefs.isEmpty || !decide material.basisRefs.Nodup then
    .error "recollection material requires unique Episode Basis refs"
  else do
    material.basisRefs.forM (validateRecollectionRef · "basis ref")
    if maxTaggedTextBytes < (material.block body).utf8ByteSize then
      throw "bound tagged text exceeds 64 KiB"
    return material.block body

def DispositionFormationMaterial.block (material : DispositionFormationMaterial) (body : String) :
    String :=
  "TARGET\nNEW_DISPOSITION\nAPPLICATION\n" ++ material.application.text ++ "\nCHANGE\nTEXT\n" ++
    Python.strip body ++ "\nBASIS\n" ++ String.intercalate "\n" material.basisRefs

def DispositionFormationMaterial.bindDisposition (material : DispositionFormationMaterial)
    (body : String) : Except String String :=
  let value := Python.strip body
  if value = "NO_CHANGE" then .ok ""
  else if value = "" then .error "disposition body is required"
  else if (Python.splitlines value.toList).length ≠ 1 then
    .error "disposition body must contain exactly one line"
  else if reservedOutputLines.contains value || ["\x7b", "[", "```"].any (·.toList.isPrefixOf value.toList) then
    .error "disposition body must be plain text"
  else if maxChangeTextBytes < value.utf8ByteSize then .error "disposition body exceeds 4 KiB"
  else if material.basisRefs.isEmpty || !decide material.basisRefs.Nodup then
    .error "disposition material requires unique Basis refs"
  else do
    material.basisRefs.forM validateDispositionRef
    if maxTaggedTextBytes < (material.block body).utf8ByteSize then
      throw "bound tagged disposition exceeds 64 KiB"
    return material.block body

/-! ## Appending -/

def rstrip (text : String) : String := String.ofList (text.toList.rdropWhile Python.isSpace)

/-- The primary text with an addition on a line of its own. -/
def joinedText (primary addition : String) : String :=
  if primary = "" then addition else rstrip primary ++ "\n" ++ addition

def appendTaggedText (primary addition : String) : String :=
  if addition = "" then primary
  else if maxTaggedTextBytes < (joinedText primary addition).utf8ByteSize then primary
  else joinedText primary addition

def maxPlainRecollections : Nat := 32

/-- The loop over the lines of the model: each is bound once, and no more than the maximum. -/
def bindLines (material : RecollectionMaterial) :
    List String → List String → List String → Except String (List String)
  | _, result, [] => .ok result
  | seen, result, line :: rest =>
    if seen.contains line then bindLines material seen result rest
    else if result.length = maxPlainRecollections then .ok result
    else do
      let block ← material.bindRecollection line
      bindLines material (seen ++ [line]) (result ++ [block]) rest

def bindPlainRecollections (material : RecollectionMaterial) (body : String) :
    Except String (List String) :=
  if Python.strip body = "NO_MEMORY" then .ok []
  else if (meaningfulLines body).isEmpty then
    .error "plain Recollection output must contain at least one line"
  else if (meaningfulLines body).contains "NO_MEMORY" then
    .error "NO_MEMORY cannot be mixed with Recollection text"
  else bindLines material [] [] (meaningfulLines body)

/-- `_append_plain_recollection`, once the materials are read from the request and the model
has answered its input. -/
def appendPlainRecollection (materials : Except String (List RecollectionMaterial))
    (modelInput : String) (maxModelInputBytes : Nat) (body primary : String) : String :=
  match materials with
  | .error _ | .ok [] => primary
  | .ok (material :: _) =>
    if maxModelInputBytes < modelInput.utf8ByteSize then primary
    else
      match bindPlainRecollections material body with
      | .error _ | .ok [] => primary
      | .ok recollections =>
        let appended := String.intercalate "\n" recollections
        if maxTaggedTextBytes < (joinedText primary appended).utf8ByteSize then primary
        else joinedText primary appended

/-! ## Bound blocks -/

def RecollectionMaterial.change (material : RecollectionMaterial) (body : String) : Change :=
  ⟨targetNewRecollection, .other, .text, recollectionText body, material.basisRefs⟩

def DispositionFormationMaterial.change (material : DispositionFormationMaterial) (body : String) :
    Change :=
  ⟨targetNewDisposition, material.application, .text, Python.strip body, material.basisRefs⟩

theorem isSpace_python {c : Char} (h : isSpace c = true) : Python.isSpace c = true := by
  simp only [isSpace, Python.isSpace, Bool.or_eq_true, Bool.and_eq_true, decide_eq_true_eq] at h ⊢
  omega

/-- What Python alone strips is a control character. -/
theorem isSpace_of_python {c : Char} (h : Python.isSpace c = true) (hc : isControl c = false) :
    isSpace c = true := by
  simp only [isSpace, Python.isSpace, Bool.or_eq_true, Bool.and_eq_true, decide_eq_true_eq] at h ⊢
  simp only [isControl, Bool.or_eq_false_iff, Bool.and_eq_false_iff, decide_eq_false_iff_not] at hc
  omega

theorem stableRef_of_fit {ref : String} (hne : ref ≠ "") (h : unfitForRef ref = false) :
    stableRef ref := by
  have hnone : (ref.toList.any fun c => isSpace c || isControl c) = false := by
    rw [List.any_eq_false]
    intro c hc
    have hfit := List.any_eq_false.mp h c hc
    simp only [Bool.or_eq_true, not_or] at hfit ⊢
    exact ⟨fun hs => hfit.1 (isSpace_python hs), hfit.2⟩
  simp [stableRef, hne, hnone]

theorem stripped_go {text : List Char} (h : Stripped Python.isSpace text) : Stripped isSpace text := by
  have hpython : ∀ c, Python.isSpace c = false → isSpace c = false := by
    intro c hc
    by_contra hs
    rw [isSpace_python (eq_true_of_ne_false hs)] at hc
    cases hc
  exact ⟨fun c hc => hpython c (h.1 c hc), fun c hc => hpython c (h.2 c hc)⟩

/-- A stripped line is clean. -/
theorem cleanLine_of_stripped {line : String} (hne : line ≠ "")
    (h : Stripped Python.isSpace line.toList) (hnl : '\n' ∉ line.toList) : CleanLine line := by
  refine ⟨hne, ?_, hnl⟩
  rw [← String.toList_inj, toList_trimSpace, strip_eq_self (stripped_go h)]

theorem cleanLine_append {a b : String} (ha : CleanLine a) (hb : CleanLine b) :
    CleanLine (a ++ " " ++ b) := by
  have hstripped : ∀ {line : String}, CleanLine line → line.toList ≠ [] ∧ Stripped isSpace line.toList := by
    intro line h
    refine ⟨fun hnil => h.1 (String.toList_inj.mp hnil), ?_⟩
    rw [← h.2.1, toList_trimSpace]
    exact stripped_strip _
  obtain ⟨hane, has⟩ := hstripped ha
  obtain ⟨hbne, hbs⟩ := hstripped hb
  have htext : (a ++ " " ++ b).toList = a.toList ++ ' ' :: b.toList := by
    rw [String.toList_append, String.toList_append, List.append_assoc]
    rfl
  refine ⟨?_, ?_, ?_⟩
  · rw [← String.toList_inj.ne, htext]
    exact List.append_ne_nil_of_left_ne_nil hane _
  · rw [← String.toList_inj, toList_trimSpace, strip_eq_self]
    rw [htext]
    constructor
    · intro c hc
      rw [List.head?_append_of_ne_nil _ hane] at hc
      exact has.1 c hc
    · intro c hc
      rw [← List.singleton_append, ← List.append_assoc, List.getLast?_append_of_ne_nil _ hbne] at hc
      exact hbs.2 c hc
  · rw [htext]
    intro hn
    rcases List.mem_append.mp hn with hm | hm
    · exact ha.2.2 hm
    · rcases List.mem_cons.mp hm with heq | hm
      · exact absurd heq (by decide)
      · exact hb.2.2 hm

theorem cleanLine_intercalate {lines : List String} (hne : lines ≠ [])
    (h : ∀ line ∈ lines, CleanLine line) : CleanLine (String.intercalate " " lines) := by
  induction lines with
  | nil => exact absurd rfl hne
  | cons line rest ih =>
    by_cases hrest : rest = []
    · rw [hrest, String.intercalate_singleton]
      exact h line List.mem_cons_self
    · rw [String.intercalate_cons_of_ne_nil hrest]
      exact cleanLine_append (h line List.mem_cons_self)
        (ih hrest fun l hl => h l (List.mem_cons_of_mem _ hl))

theorem cleanLine_of_mem_meaningful {text line : String} (h : line ∈ meaningfulLines text) :
    CleanLine line := by
  obtain ⟨hmem, hne⟩ := List.mem_filter.mp h
  obtain ⟨cs, hcs, rfl⟩ := List.mem_map.mp hmem
  refine cleanLine_of_stripped (by simpa using hne) ?_ ?_
  · rw [Python.strip_toList]
    exact stripped_strip _
  · rw [Python.strip_toList, String.toList_ofList]
    intro hn
    obtain ⟨a, b, htext, _, _⟩ := strip_spec Python.isSpace cs
    have hin : '\n' ∈ cs := by
      rw [htext]
      exact List.mem_append_left _ (List.mem_append_right _ hn)
    exact absurd (Python.mem_of_mem_splitlines hcs '\n' hin).2 (by decide)

theorem cleanLine_recollectionText {body : String} (h : recollectionText body ≠ "") :
    CleanLine (recollectionText body) := by
  refine cleanLine_intercalate ?_ fun line hline => cleanLine_of_mem_meaningful hline
  intro hnil
  exact h (by rw [recollectionText, hnil, String.intercalate_nil])

/-- A body of one line is clean once it is stripped. -/
theorem cleanLine_strip {body : String} (hne : Python.strip body ≠ "")
    (hone : (Python.splitlines (Python.strip body).toList).length = 1) :
    CleanLine (Python.strip body) := by
  have hstripped : Stripped Python.isSpace (Python.strip body).toList := by
    rw [Python.strip_toList]
    exact stripped_strip _
  refine cleanLine_of_stripped hne hstripped fun hn => ?_
  obtain ⟨before, after, hsplit⟩ := List.append_of_mem hn
  have hafter : after ≠ [] := by
    intro hnil
    have hlast := hstripped.2 '\n' (by rw [hsplit, hnil]; simp)
    exact absurd hlast (by decide)
  rw [hsplit, Python.splitlines_append, List.length_append] at hone
  have hleft := List.length_pos_of_ne_nil (Python.splitlines_ne_nil
    (List.append_ne_nil_of_right_ne_nil before (List.cons_ne_nil '\n' [])))
  have hright := List.length_pos_of_ne_nil (Python.splitlines_ne_nil hafter)
  omega

/-- A change with its own lines, its basis apart. -/
theorem renderChanges_text {target text : String} {application : Application} {refs : List String}
    (hrefs : refs ≠ []) : renderChanges [⟨target, application, .text, text, refs⟩] =
      "TARGET" ++ "\n" ++ (target ++ "\n" ++ ("APPLICATION" ++ "\n" ++ (application.text ++ "\n" ++
        ("CHANGE" ++ "\n" ++ ("TEXT" ++ "\n" ++ (text ++ "\n" ++ ("BASIS" ++ "\n" ++
          String.intercalate "\n" refs))))))) := by
  rw [renderChanges, List.flatMap_singleton]
  simp only [Change.lines, Operation.line, Operation.hasText, if_true, List.cons_append,
    List.nil_append, String.intercalate_cons_cons, String.intercalate_cons_of_ne_nil hrefs]

theorem RecollectionMaterial.block_eq {material : RecollectionMaterial} {body : String}
    (hrefs : material.basisRefs ≠ []) : material.block body = renderChanges [material.change body] := by
  have hhead : "TARGET\nNEW_RECOLLECTION\nAPPLICATION\nOTHER\nCHANGE\nTEXT\n" =
      "TARGET" ++ "\n" ++ ("NEW_RECOLLECTION" ++ "\n" ++ ("APPLICATION" ++ "\n" ++ ("OTHER" ++ "\n" ++
        ("CHANGE" ++ "\n" ++ ("TEXT" ++ "\n"))))) := by decide
  have hbasis : "\nBASIS\n" = "\n" ++ ("BASIS" ++ "\n") := by decide
  refine Eq.trans ?_ (renderChanges_text hrefs).symm
  unfold RecollectionMaterial.block
  simp only [hhead, hbasis]
  simp only [String.append_assoc, targetNewRecollection, Application.text]

theorem DispositionFormationMaterial.block_eq {material : DispositionFormationMaterial} {body : String}
    (hrefs : material.basisRefs ≠ []) : material.block body = renderChanges [material.change body] := by
  have hhead : "TARGET\nNEW_DISPOSITION\nAPPLICATION\n" =
      "TARGET" ++ "\n" ++ ("NEW_DISPOSITION" ++ "\n" ++ ("APPLICATION" ++ "\n")) := by decide
  have hchange : "\nCHANGE\nTEXT\n" = "\n" ++ ("CHANGE" ++ "\n" ++ ("TEXT" ++ "\n")) := by decide
  have hbasis : "\nBASIS\n" = "\n" ++ ("BASIS" ++ "\n") := by decide
  refine Eq.trans ?_ (renderChanges_text hrefs).symm
  unfold DispositionFormationMaterial.block
  simp only [hhead, hchange, hbasis]
  simp only [String.append_assoc, targetNewDisposition]

theorem forM_ok {α : Type} {check : α → Except String Unit} {l : List α}
    (h : l.forM check = .ok ()) : ∀ a ∈ l, check a = .ok () := by
  induction l with
  | nil => exact nofun
  | cons a rest ih =>
    change (check a >>= fun _ => rest.forM check) = .ok () at h
    cases ha : check a with
    | error e =>
      rw [ha] at h
      cases h
    | ok u =>
      rw [ha] at h
      intro b hb
      rcases List.mem_cons.mp hb with rfl | hb
      · exact ha
      · exact ih h b hb

theorem validateRecollectionRef_ok {ref label : String} (h : validateRecollectionRef ref label = .ok ()) :
    stableBasisRef ref := by
  unfold validateRecollectionRef at h
  split at h
  · cases h
  rename_i hne
  split at h
  · cases h
  split at h
  · cases h
  rename_i hfit
  split at h
  · cases h
  rename_i hreserved
  have hstable := stableRef_of_fit hne (eq_false_of_ne_true hfit)
  have hnot : (["TARGET", "APPLICATION", "CHANGE", "BASIS", "NEW", targetNewRecollection,
      targetNewDisposition].contains ref) = false := eq_false_of_ne_true hreserved
  rw [stableBasisRef, hstable, hnot]
  rfl

theorem validateDispositionRef_ok {ref : String} (h : validateDispositionRef ref = .ok ())
    (hkey : ref ∉ reservedBasisRefs) : stableBasisRef ref := by
  unfold validateDispositionRef at h
  split at h
  · cases h
  rename_i hne
  split at h
  · cases h
  rename_i hfit
  have hstable := stableRef_of_fit (fun hempty => hne (by simp [hempty])) (eq_false_of_ne_true hfit)
  have hnot : (["TARGET", "APPLICATION", "CHANGE", "BASIS", "NEW", targetNewRecollection,
      targetNewDisposition].contains ref) = false := by
    rw [← Bool.not_eq_true, List.contains_iff_mem]
    exact hkey
  rw [stableBasisRef, hstable, hnot]
  rfl

/-- A change that a block of the Worker's own writes. -/
structure Change.Own (change : Change) : Prop extends change.Valid where
  new : change.isNew
  fits : (renderChanges [change]).utf8ByteSize ≤ maxTaggedTextBytes

theorem Change.Own.parsed {change : Change} (h : change.Own) :
    parseTaggedText (renderChanges [change]) = .ok [change] :=
  parseTaggedText_single h.toWritable h.body h.fits

theorem bindRecollection_ok {material : RecollectionMaterial} {body block : String}
    (h : material.bindRecollection body = .ok block) :
    Python.strip body = "NO_MEMORY" ∧ block = "" ∨
      block = renderChanges [material.change body] ∧ (material.change body).Own := by
  unfold RecollectionMaterial.bindRecollection at h
  simp only at h
  split at h
  · rename_i hnone
    exact .inl ⟨hnone, (Except.ok.inj h).symm⟩
  iterate 4
    split at h
    · cases h
  split at h
  · cases h
  rename_i htext
  split at h
  · cases h
  rename_i hbounded
  split at h
  · cases h
  rename_i hrefs
  simp only [Bool.or_eq_true, List.isEmpty_iff, Bool.not_eq_true', decide_eq_false_iff_not, not_or,
    not_not] at hrefs
  cases hvalidate : material.basisRefs.forM (validateRecollectionRef · "basis ref") with
  | error e =>
    rw [hvalidate] at h
    cases h
  | ok u =>
    rw [hvalidate] at h
    simp only [bind, Except.bind] at h
    split at h
    · cases h
    rename_i hsize
    have hblock := Except.ok.inj h
    rw [RecollectionMaterial.block_eq hrefs.1] at hblock hsize
    exact .inr ⟨hblock.symm,
      { target := .inl rfl
        basis := hrefs.1
        nodup := hrefs.2
        refs := fun ref href => validateRecollectionRef_ok (forM_ok hvalidate ref href)
        bounded := Nat.not_lt.mp hbounded
        plain := nofun
        body := fun _ => cleanLine_recollectionText htext
        new := rfl
        fits := Nat.not_lt.mp hsize }⟩

theorem bindDisposition_ok {material : DispositionFormationMaterial} {body block : String}
    (hkeys : ∀ ref ∈ material.basisRefs, ref ∉ reservedBasisRefs)
    (h : material.bindDisposition body = .ok block) :
    Python.strip body = "NO_CHANGE" ∧ block = "" ∨
      block = renderChanges [material.change body] ∧ (material.change body).Own := by
  unfold DispositionFormationMaterial.bindDisposition at h
  simp only at h
  split at h
  · rename_i hnone
    exact .inl ⟨hnone, (Except.ok.inj h).symm⟩
  split at h
  · cases h
  rename_i hne
  split at h
  · cases h
  rename_i hone
  split at h
  · cases h
  split at h
  · cases h
  rename_i hbounded
  split at h
  · cases h
  rename_i hrefs
  simp only [Bool.or_eq_true, List.isEmpty_iff, Bool.not_eq_true', decide_eq_false_iff_not, not_or,
    not_not] at hrefs
  cases hvalidate : material.basisRefs.forM validateDispositionRef with
  | error e =>
    rw [hvalidate] at h
    cases h
  | ok u =>
    rw [hvalidate] at h
    simp only [bind, Except.bind] at h
    split at h
    · cases h
    rename_i hsize
    have hblock := Except.ok.inj h
    rw [DispositionFormationMaterial.block_eq hrefs.1] at hblock hsize
    exact .inr ⟨hblock.symm,
      { target := .inl rfl
        basis := hrefs.1
        nodup := hrefs.2
        refs := fun ref href => validateDispositionRef_ok (forM_ok hvalidate ref href) (hkeys ref href)
        bounded := Nat.not_lt.mp hbounded
        plain := nofun
        body := fun _ => cleanLine_strip hne (not_not.mp hone)
        new := rfl
        fits := Nat.not_lt.mp hsize }⟩

/-! ## Joined texts -/

/-- A text ends with its last line and with blanks, or is blank. -/
theorem Spaced.ends {lines : List String} {cs : List Char} (h : Spaced lines cs) :
    (lines = [] ∧ ∀ c ∈ cs, isSpace c) ∨ ∃ line ∈ lines.getLast?, ∃ before after,
      cs = before ++ line.toList ++ after ∧ ∀ c ∈ after, isSpace c := by
  induction h with
  | blank h => exact .inl ⟨rfl, h⟩
  | @last line w w' h h' => exact .inr ⟨line, rfl, w, w', rfl, h'⟩
  | @cons line lines w w' rest h h' hrest ih =>
    right
    rcases ih with ⟨rfl, hblank⟩ | ⟨last, hlast, before, after, hrest', hafter⟩
    · refine ⟨line, rfl, w, w' ++ '\n' :: rest, by simp, ?_⟩
      intro c hc
      rcases List.mem_append.mp hc with hm | hm
      · exact h' c hm
      · rcases List.mem_cons.mp hm with rfl | hm
        · decide
        · exact hblank c hm
    · refine ⟨last, ?_, w ++ line.toList ++ w' ++ '\n' :: before, after, ?_, hafter⟩
      · rw [List.getLast?_cons_of_ne_nil]
        · exact hlast
        · intro hnil
          rw [hnil] at hlast
          cases hlast
      · rw [hrest']
        simp

/-- A batch ends with a basis ref. -/
theorem BatchLines.last {changes : List Change} {lines : List String} (h : BatchLines changes lines)
    (hvalid : ∀ change ∈ changes, change.Valid) : ∀ line ∈ lines.getLast?, stableBasisRef line := by
  induction h with
  | nil => exact nofun
  | @cons change changes ls rest hblock hrest ih =>
    intro line hline
    by_cases hnil : rest = []
    · obtain ⟨own, _, rfl⟩ := hblock
      have hchange := hvalid change List.mem_cons_self
      rw [hnil, List.append_nil, List.getLast?_append_of_ne_nil _ (List.cons_ne_nil _ _),
        List.getLast?_cons_of_ne_nil hchange.basis] at hline
      exact hchange.refs line (List.mem_of_getLast? hline)
    · rw [List.getLast?_append_of_ne_nil _ hnil] at hline
      exact ih (fun c hc => hvalid c (List.mem_cons_of_mem _ hc)) line hline

/-- No character of a basis ref is stripped by Python. -/
theorem not_isSpace_of_stableBasisRef {ref : String} (h : stableBasisRef ref) :
    ref ≠ "" ∧ ∀ c ∈ ref.toList, Python.isSpace c = false := by
  obtain ⟨hne, hall⟩ := not_isSpace_of_stableRef (stableRef_of_stableBasisRef h)
  refine ⟨hne, fun c hc => ?_⟩
  obtain ⟨hspace, hcontrol⟩ := hall c hc
  by_contra hpython
  rw [isSpace_of_python (eq_true_of_ne_false hpython) hcontrol] at hspace
  cases hspace

/-- What Python takes off the end of a text that parses is blank to Core. -/
theorem rstrip_blank {text : String} {changes : List Change} (h : parseTaggedText text = .ok changes) :
    ∃ blank, text.toList = (rstrip text).toList ++ blank ∧ ∀ c ∈ blank, isSpace c := by
  obtain ⟨_, hvalid, lines, hbatch, hspaced⟩ := parseTaggedText_iff.mp h
  have hsplit := List.rdropWhile_append_rtakeWhile (p := Python.isSpace) (l := text.toList)
  refine ⟨text.toList.rtakeWhile Python.isSpace, ?_, ?_⟩
  · rw [rstrip, String.toList_ofList, hsplit]
  rcases hspaced.ends with ⟨_, hblank⟩ | ⟨line, hline, before, after, htext, hafter⟩
  · exact fun c hc => hblank c ((List.rtakeWhile_suffix _ _).subset hc)
  · obtain ⟨hne, hpython⟩ := not_isSpace_of_stableBasisRef (hbatch.last hvalid.valid line hline)
    have hlist : line.toList ≠ [] := fun hnil => hne (String.toList_inj.mp hnil)
    rcases List.suffix_or_suffix_of_suffix (List.rtakeWhile_suffix Python.isSpace text.toList)
        (⟨_, htext.symm⟩ : after <:+ text.toList) with hs | ⟨more, hmore⟩
    · exact fun c hc => hafter c (hs.subset hc)
    · by_cases hmore' : more = []
      · rw [← hmore, hmore']
        exact hafter
      · -- the blanks would reach into the last ref
        have hsame : text.toList.rdropWhile Python.isSpace ++ more = before ++ line.toList := by
          refine @List.append_cancel_right _ _ after _ ?_
          rw [List.append_assoc, hmore, hsplit, htext]
        have hlast := congrArg List.getLast? hsame
        rw [List.getLast?_append_of_ne_nil _ hmore', List.getLast?_append_of_ne_nil _ hlist,
          List.getLast?_eq_some_getLast hmore', List.getLast?_eq_some_getLast hlist,
          Option.some.injEq] at hlast
        have hstripped : Python.isSpace (more.getLast hmore') = true := by
          refine List.mem_rtakeWhile_imp (l := text.toList) ?_
          rw [← hmore]
          exact List.mem_append_left _ (List.getLast_mem hmore')
        rw [hlast, hpython _ (List.getLast_mem hlist)] at hstripped
        cases hstripped

theorem parseTaggedText_rstrip {text : String} {changes : List Change}
    (h : parseTaggedText text = .ok changes) : parseTaggedText (rstrip text) = .ok changes := by
  obtain ⟨blank, htext, hblank⟩ := rstrip_blank h
  obtain ⟨hsize, hvalid, lines, hbatch, hspaced⟩ := parseTaggedText_iff.mp h
  have heq : text = rstrip text ++ String.ofList blank := by
    rw [← String.toList_inj, String.toList_append, String.toList_ofList, htext]
  have hlines : textLines (rstrip text) = textLines text := by
    have hpieces := @pieces_append_blank isNewline isSpace [] blank (rstrip text).toList
      nofun hblank
    rw [List.nil_append, ← htext] at hpieces
    rw [textLines_eq, textLines_eq, hpieces]
  refine parseTaggedText_iff.mpr ⟨?_, hvalid, textLines (rstrip text), ?_, spaced_textLines _⟩
  · rw [heq, String.utf8ByteSize_append] at hsize
    omega
  · rw [hlines, textLines_spaced hspaced (hbatch.clean hvalid.valid)]
    exact hbatch

theorem existingTargets_own {changes : List Change} (h : ∀ change ∈ changes, change.Own) :
    existingTargets changes = [] := by
  induction changes with
  | nil => rfl
  | cons change rest ih =>
    rw [existingTargets_cons, if_pos (h change List.mem_cons_self).new,
      ih fun c hc => h c (List.mem_cons_of_mem _ hc)]
    rfl

/-- A primary text with the Worker's own blocks behind it. -/
theorem parseTaggedText_joined {primary : String} {changes own : List Change}
    (h : parseTaggedText primary = .ok changes) (hown : ∀ change ∈ own, change.Own)
    (hsize : (joinedText primary (renderChanges own)).utf8ByteSize ≤ maxTaggedTextBytes) :
    parseTaggedText (joinedText primary (renderChanges own)) = .ok (changes ++ own) := by
  have hparse : (renderChanges own).utf8ByteSize ≤ maxTaggedTextBytes →
      parseTaggedText (renderChanges own) = .ok own := fun hfits =>
    parseTaggedText_renderChanges (fun c hc => (hown c hc).toWritable) (fun c hc => (hown c hc).body)
      (by rw [existingTargets_own hown]; exact List.nodup_nil) hfits
  unfold joinedText at hsize ⊢
  by_cases hempty : primary = ""
  · rw [if_pos hempty] at hsize ⊢
    rw [hempty, show parseTaggedText "" = .ok [] from rfl] at h
    rw [← Except.ok.inj h]
    exact hparse hsize
  · rw [if_neg hempty] at hsize ⊢
    have hfits : (renderChanges own).utf8ByteSize ≤ maxTaggedTextBytes := by
      rw [String.utf8ByteSize_append] at hsize
      omega
    exact parseTaggedText_append (parseTaggedText_rstrip h) (hparse hfits)
      (List.all_eq_true.mp (by decide)) (by decide)
      (by rw [existingTargets_own hown]; exact fun _ _ => List.not_mem_nil) hsize

/-! ## Appended blocks -/

theorem bindLines_ok {material : RecollectionMaterial} {seen result lines blocks : List String}
    (hlines : ∀ line ∈ lines, Python.strip line ≠ "NO_MEMORY")
    (h : bindLines material seen result lines = .ok blocks) :
    ∃ own : List Change, (∀ change ∈ own, change.Own) ∧
      blocks = result ++ own.map fun change => renderChanges [change] := by
  induction lines generalizing seen result with
  | nil => exact ⟨[], nofun, by rw [← Except.ok.inj h]; simp⟩
  | cons line rest ih =>
    have ih := fun {seen result} => @ih seen result fun l hl => hlines l (List.mem_cons_of_mem _ hl)
    unfold bindLines at h
    by_cases hseen : seen.contains line = true
    · rw [if_pos hseen] at h
      exact ih h
    · rw [if_neg hseen] at h
      by_cases hfull : result.length = maxPlainRecollections
      · rw [if_pos hfull] at h
        exact ⟨[], nofun, by rw [← Except.ok.inj h]; simp⟩
      · rw [if_neg hfull] at h
        cases hbind : material.bindRecollection line with
        | error e =>
          rw [hbind] at h
          cases h
        | ok block =>
          rw [hbind] at h
          obtain ⟨own, hown, hblocks⟩ := ih h
          rcases bindRecollection_ok hbind with ⟨hnone, _⟩ | ⟨rfl, hline⟩
          · exact absurd hnone (hlines line List.mem_cons_self)
          · refine ⟨material.change line :: own, ?_, by rw [hblocks]; simp⟩
            intro change hchange
            rcases List.mem_cons.mp hchange with rfl | hm
            · exact hline
            · exact hown change hm

theorem bindPlainRecollections_ok {material : RecollectionMaterial} {body : String}
    {blocks : List String} (h : bindPlainRecollections material body = .ok blocks) :
    ∃ own : List Change, (∀ change ∈ own, change.Own) ∧
      blocks = own.map fun change => renderChanges [change] := by
  unfold bindPlainRecollections at h
  split at h
  · exact ⟨[], nofun, (Except.ok.inj h).symm⟩
  split at h
  · cases h
  split at h
  · cases h
  rename_i hnone
  refine bindLines_ok (fun line hline hstrip => hnone ?_) h
  obtain ⟨hmem, _⟩ := List.mem_filter.mp hline
  obtain ⟨cs, _, rfl⟩ := List.mem_map.mp hmem
  have hself : Python.strip (Python.strip (String.ofList cs)) = Python.strip (String.ofList cs) := by
    rw [← String.toList_inj, Python.strip_toList, Python.strip_toList, strip_strip]
  rw [hself] at hstrip
  rw [List.contains_iff_mem, ← hstrip]
  exact hline

/-- A block that the Worker has bound, and its change.  Core's own refs are no words of the
grammar; the recollections check that themselves. -/
inductive Bound : String → Change → Prop
  | recollection {material : RecollectionMaterial} {body block : String}
      (h : material.bindRecollection body = .ok block) (hne : block ≠ "") :
      Bound block (material.change body)
  | disposition {material : DispositionFormationMaterial} {body block : String}
      (hkeys : ∀ ref ∈ material.basisRefs, ref ∉ reservedBasisRefs)
      (h : material.bindDisposition body = .ok block) (hne : block ≠ "") :
      Bound block (material.change body)

theorem Bound.own {block : String} {change : Change} (h : Bound block change) :
    block = renderChanges [change] ∧ change.Own := by
  cases h with
  | recollection h hne =>
    rcases bindRecollection_ok h with ⟨_, hempty⟩ | hown
    · exact absurd hempty hne
    · exact hown
  | disposition hkeys h hne =>
    rcases bindDisposition_ok hkeys h with ⟨_, hempty⟩ | hown
    · exact absurd hempty hne
    · exact hown

/-- What is put behind a primary text: a block, or the recollections of one answer. -/
inductive Addition
  | tagged (block : String)
  | plain (materials : Except String (List RecollectionMaterial)) (modelInput : String)
      (maxModelInputBytes : Nat) (body : String)

namespace Addition

def append (primary : String) : Addition → String
  | tagged block => appendTaggedText primary block
  | plain materials modelInput maxModelInputBytes body =>
    appendPlainRecollection materials modelInput maxModelInputBytes body primary

/-- The blocks that an addition brings. -/
def blocks : Addition → List String
  | tagged block => [block].filter (· != "")
  | plain materials modelInput maxModelInputBytes body =>
    match materials with
    | .error _ | .ok [] => []
    | .ok (material :: _) =>
      if maxModelInputBytes < modelInput.utf8ByteSize then []
      else (bindPlainRecollections material body).toOption.getD []

/-- What Core reads in the blocks, each for itself. -/
def changes (addition : Addition) : List Change :=
  addition.blocks.flatMap fun block => (parseTaggedText block).toOption.getD []

/-- A tagged addition was bound; the recollections are bound by the function itself. -/
def IsBound : Addition → Prop
  | tagged block => block = "" ∨ ∃ change, Bound block change
  | plain _ _ _ _ => True

/-- The text with all blocks, before its size is looked at. -/
def joined (primary : String) (addition : Addition) : String :=
  joinedText primary (String.intercalate "\n" addition.blocks)

end Addition

/-- The changes of the additions that are not refused for the size of the text. -/
def added (primary : String) : List Addition → List Change
  | [] => []
  | addition :: rest =>
    (if maxTaggedTextBytes < (addition.joined primary).utf8ByteSize then [] else addition.changes) ++
      added (addition.append primary) rest

theorem renderChanges_blocks (own : List Change) :
    String.intercalate "\n" (own.map fun change => renderChanges [change]) = renderChanges own := by
  induction own with
  | nil => rfl
  | cons change rest ih =>
    by_cases hrest : rest = []
    · rw [hrest]
      exact String.intercalate_singleton
    · have hlines : rest.flatMap Change.lines ≠ [] := by
        obtain ⟨next, others, rfl⟩ := List.exists_cons_of_ne_nil hrest
        exact List.cons_ne_nil _ _
      rw [List.map_cons, String.intercalate_cons_of_ne_nil (by simpa using hrest), ih, renderChanges,
        renderChanges, renderChanges, List.flatMap_singleton, List.flatMap_cons,
        String.intercalate_append_of_ne_nil (show change.lines ≠ [] from List.cons_ne_nil _ _) hlines]

theorem changes_of_blocks {addition : Addition} {own : List Change} (hown : ∀ change ∈ own, change.Own)
    (hblocks : addition.blocks = own.map fun change => renderChanges [change]) :
    addition.changes = own := by
  rw [Addition.changes, hblocks, List.flatMap_map]
  have hall : ∀ own : List Change, (∀ change ∈ own, change.Own) →
      (own.flatMap fun change => (parseTaggedText (renderChanges [change])).toOption.getD []) = own := by
    intro own
    induction own with
    | nil => exact fun _ => rfl
    | cons change rest ih =>
      intro h
      rw [List.flatMap_cons, (h change List.mem_cons_self).parsed,
        ih fun c hc => h c (List.mem_cons_of_mem _ hc)]
      rfl
  exact hall own hown

/-- Every addition brings blocks of the Worker's own. -/
theorem own_of_isBound {addition : Addition} (h : addition.IsBound) :
    ∃ own : List Change, (∀ change ∈ own, change.Own) ∧
      addition.blocks = own.map fun change => renderChanges [change] := by
  cases addition with
  | tagged block =>
    by_cases hempty : block = ""
    · exact ⟨[], nofun, by simp [Addition.blocks, hempty]⟩
    · rcases h with heq | ⟨change, hbound⟩
      · exact absurd heq hempty
      · obtain ⟨heq, hown⟩ := hbound.own
        refine ⟨[change], fun c hc => List.mem_singleton.mp hc ▸ hown, ?_⟩
        simp [Addition.blocks, hempty, ← heq]
  | plain materials modelInput maxModelInputBytes body =>
    rcases materials with e | _ | ⟨material, others⟩
    · exact ⟨[], nofun, rfl⟩
    · exact ⟨[], nofun, rfl⟩
    · unfold Addition.blocks
      by_cases hinput : maxModelInputBytes < modelInput.utf8ByteSize
      · exact ⟨[], nofun, by simp [hinput]⟩
      · simp only [if_neg hinput]
        cases hbind : bindPlainRecollections material body with
        | error e => exact ⟨[], nofun, rfl⟩
        | ok blocks => exact bindPlainRecollections_ok hbind

/-- An addition without blocks changes nothing, and one that is too long neither. -/
theorem append_eq (primary : String) (addition : Addition) : addition.append primary =
    if addition.blocks = [] then primary
    else if maxTaggedTextBytes < (addition.joined primary).utf8ByteSize then primary
    else addition.joined primary := by
  cases addition with
  | tagged block =>
    by_cases hempty : block = ""
    · simp [Addition.append, Addition.blocks, appendTaggedText, hempty]
    · simp [Addition.append, Addition.blocks, Addition.joined, appendTaggedText, hempty]
  | plain materials modelInput maxModelInputBytes body =>
    rcases materials with e | _ | ⟨material, others⟩
    · rfl
    · rfl
    · unfold Addition.append Addition.joined Addition.blocks appendPlainRecollection
      by_cases hinput : maxModelInputBytes < modelInput.utf8ByteSize
      · simp [hinput]
      · simp only [if_neg hinput]
        rcases bindPlainRecollections material body with e | _ | ⟨block, blocks⟩
        · rfl
        · rfl
        · rfl

/-- One addition: its changes follow, or the text is refused for its size. -/
theorem parseTaggedText_addition {primary : String} {changes : List Change} {addition : Addition}
    (h : parseTaggedText primary = .ok changes) (hbound : addition.IsBound) :
    parseTaggedText (addition.append primary) = .ok (changes ++
      if maxTaggedTextBytes < (addition.joined primary).utf8ByteSize then [] else addition.changes) := by
  obtain ⟨own, hown, hblocks⟩ := own_of_isBound hbound
  have hjoined : addition.joined primary = joinedText primary (renderChanges own) := by
    rw [Addition.joined, hblocks, renderChanges_blocks]
  rw [append_eq, changes_of_blocks hown hblocks, hjoined]
  by_cases hnone : own = []
  · rw [if_pos (by rw [hblocks, hnone]; rfl), hnone, ite_self, List.append_nil]
    exact h
  · rw [if_neg (by rw [hblocks]; simpa using hnone)]
    by_cases hsize : maxTaggedTextBytes < (joinedText primary (renderChanges own)).utf8ByteSize
    · rw [if_pos hsize, if_pos hsize, List.append_nil]
      exact h
    · rw [if_neg hsize, if_neg hsize]
      exact parseTaggedText_joined h hown (Nat.not_lt.mp hsize)

/-- A bound block parses to its one change, and bound blocks behind a primary text parse to
the changes of the primary text and of each addition that is not refused. -/
theorem bound_blocks_compose :
    (∀ block change, Bound block change → parseTaggedText block = .ok [change]) ∧
      ∀ primary changes additions, parseTaggedText primary = .ok changes →
        (∀ addition ∈ additions, addition.IsBound) →
        parseTaggedText (additions.foldl Addition.append primary) =
          .ok (changes ++ added primary additions) := by
  constructor
  · intro block change h
    obtain ⟨rfl, hown⟩ := h.own
    exact hown.parsed
  · intro primary changes additions
    induction additions generalizing primary changes with
    | nil =>
      intro h _
      rw [List.foldl_nil, added, List.append_nil]
      exact h
    | cons addition rest ih =>
      intro h hbound
      have hstep := parseTaggedText_addition h (hbound addition List.mem_cons_self)
      rw [List.foldl_cons, added, ← List.append_assoc]
      exact ih _ _ hstep fun a ha => hbound a (List.mem_cons_of_mem _ ha)

/-- The material of an Episode in which the user says what tea to serve. -/
def teaMaterial : RecollectionMaterial :=
  ⟨"episode_1", "source_1", "I drink green tea.", "", ["episode_1"], []⟩

/-- A recollection behind another one. -/
theorem bound_blocks_compose_twoTeas :
    parseTaggedText ([.tagged (teaMaterial.block "Drinks green tea."),
        .plain (.ok [teaMaterial]) "" 0 "Drinks it hot."].foldl Addition.append
          (teaMaterial.block "Likes\n tea. \u2028")) =
      .ok ([teaMaterial.change "Likes\n tea. \u2028"] ++ added (teaMaterial.block "Likes\n tea. \u2028")
        [.tagged (teaMaterial.block "Drinks green tea."),
          .plain (.ok [teaMaterial]) "" 0 "Drinks it hot."]) := by
  have hprimary : Bound (teaMaterial.block "Likes\n tea. \u2028")
      (teaMaterial.change "Likes\n tea. \u2028") :=
    .recollection (by decide) (by decide)
  have hblock : Bound (teaMaterial.block "Drinks green tea.") (teaMaterial.change "Drinks green tea.") :=
    .recollection (by decide) (by decide)
  refine bound_blocks_compose.2 _ _ _ (bound_blocks_compose.1 _ _ hprimary) fun addition h => ?_
  rcases List.mem_cons.mp h with rfl | h
  · exact .inr ⟨_, hblock⟩
  · rw [List.mem_singleton.mp h]
    trivial

end ChoraMem
