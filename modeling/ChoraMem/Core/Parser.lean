/-
The tagged text of the consolidation worker.

The worker answers with blocks of the form TARGET / APPLICATION / CHANGE / BASIS,
one line each except that a TEXT or ADAPT may put its text on the next line and a
basis lists one ref a line.  The parser checks the grammar only.  What a block may
target and cite is decided against the frozen window, elsewhere.

The lines are cut by a loop over an offset.  Here the loop runs on the lines that
are left, with one unit of fuel a block.  A block takes a line at least, so the number
of lines is enough fuel.
-/
import ChoraMem.Core.Ledger

namespace ChoraMem

/-! ## Changes -/

def targetNewRecollection : String := "NEW_RECOLLECTION"

def targetNewDisposition : String := "NEW_DISPOSITION"

inductive Application
  | self
  | other
  | relation
  | situation
  deriving DecidableEq, Repr

def Application.text : Application → String
  | self => "SELF"
  | other => "OTHER"
  | relation => "RELATION"
  | situation => "SITUATION"

/-- `strings.ToLower` of the application, as the tables store it. -/
def Application.lower : Application → String
  | self => "self"
  | other => "other"
  | relation => "relation"
  | situation => "situation"

inductive Operation
  | text
  | adapt
  | keep
  | reenact
  | inhibit
  deriving DecidableEq, Repr

/-- One transient semantic update. -/
structure Change where
  target : String
  application : Application
  operation : Operation
  text : String
  basisRefs : List String
  deriving DecidableEq, Repr

def Change.isNew (change : Change) : Bool :=
  change.target == targetNewRecollection || change.target == targetNewDisposition

/-! ## Lines -/

/-- Below gRPC's default message ceiling. -/
def maxTaggedTextBytes : Nat := 64 * 1024

def maxChangeTextBytes : Nat := 4 * 1024

/-- `strings.ReplaceAll(text, "\r\n", "\n")`. -/
def unixNewlines : List Char → List Char
  | [] => []
  | '\r' :: '\n' :: rest => '\n' :: unixNewlines rest
  | c :: rest => c :: unixNewlines rest

/-- `strings.Split(text, "\n")`. -/
def splitLines : List Char → List (List Char)
  | [] => [[]]
  | '\n' :: rest => [] :: splitLines rest
  | c :: rest =>
    match splitLines rest with
    | line :: lines => (c :: line) :: lines
    | [] => [[c]]

/-- The trimmed lines of a text, the blank ones left out. -/
def textLines (text : String) : List String :=
  ((splitLines (trimSpace (String.ofList (unixNewlines text.toList))).toList).map
    fun line => trimSpace (String.ofList line)).filter (· != "")

/-- `unicode.IsControl`: the C0 and C1 controls and DEL. -/
def isControl (c : Char) : Bool :=
  let n := c.toNat
  n < 0x20 || (0x7F ≤ n && n < 0xA0)

def stableRef (ref : String) : Bool :=
  ref != "" && !ref.toList.any fun c => isSpace c || isControl c

def existingStableRef (ref : String) : Bool := stableRef ref && ref != "NEW"

def stableBasisRef (ref : String) : Bool :=
  stableRef ref &&
    !(["TARGET", "APPLICATION", "CHANGE", "BASIS", "NEW", targetNewRecollection,
      targetNewDisposition].contains ref)

/-- An error at a line, counted from one. -/
def lineFault (detail : String) (line : Nat) : Fault :=
  ⟨.plain, detail ++ " at line " ++ toString line, ""⟩

def parseApplication (line : String) (lineNumber : Nat) : Except Fault Application :=
  if line == "SELF" then .ok .self
  else if line == "OTHER" then .ok .other
  else if line == "RELATION" then .ok .relation
  else if line == "SITUATION" then .ok .situation
  else .error (lineFault "invalid application" lineNumber)

/-- A text behind its operation on the same line. -/
def inlineText (operation : Operation) (text : String) (lineNumber : Nat) :
    Except Fault (Operation × String) :=
  if text == "" then .error (lineFault "text is required" lineNumber)
  else if maxChangeTextBytes < text.utf8ByteSize then
    .error (lineFault ("text exceeds " ++ toString maxChangeTextBytes ++ " bytes") lineNumber)
  else .ok (operation, text)

def parseOperation (line : String) (lineNumber : Nat) : Except Fault (Operation × String) :=
  if "TEXT ".toList.isPrefixOf line.toList then
    inlineText .text (trimSpace (String.ofList (line.toList.drop 5))) lineNumber
  else if "ADAPT ".toList.isPrefixOf line.toList then
    inlineText .adapt (trimSpace (String.ofList (line.toList.drop 6))) lineNumber
  else if line == "KEEP" then .ok (.keep, "")
  else if line == "REENACT" then .ok (.reenact, "")
  else if line == "INHIBIT" then .ok (.inhibit, "")
  else .error (lineFault "invalid change" lineNumber)

/-- The text of a bare TEXT or ADAPT is the next line. -/
def nextLineText (operation : Operation) (next : String) (lineNumber : Nat) :
    Except Fault (Operation × String) :=
  if maxChangeTextBytes < next.utf8ByteSize then
    .error (lineFault ("text exceeds " ++ toString maxChangeTextBytes ++ " bytes") lineNumber)
  else .ok (operation, next)

/-- The operation of a block, its text, and the index of the BASIS marker. -/
def parseChange (line next : String) (offset : Nat) :
    Except Fault ((Operation × String) × Nat) :=
  if line == "TEXT" then (nextLineText .text next (offset + 7)).map (·, 7)
  else if line == "ADAPT" then (nextLineText .adapt next (offset + 7)).map (·, 7)
  else (parseOperation line (offset + 6)).map (·, 6)

/-- The basis refs up to the next TARGET marker or the end. -/
def parseBasis (line : Nat) (seen : List String) : List String → Except Fault (List String)
  | [] => .ok seen
  | ref :: rest =>
    if ref == "TARGET" then .ok seen
    else if !stableBasisRef ref then .error (lineFault "invalid basis ref" line)
    else if seen.contains ref then .error (lineFault "duplicate basis ref" line)
    else parseBasis (line + 1) (seen ++ [ref]) rest

/-- The existing targets after a block that names `target`. -/
def claimTarget (target : String) (existing : List String) (line : Nat) :
    Except Fault (List String) :=
  if target == targetNewRecollection || target == targetNewDisposition then .ok existing
  else if !existingStableRef target then .error (lineFault "invalid target ref" line)
  else if existing.contains target then .error (lineFault "duplicate existing target ref" line)
  else .ok (existing ++ [target])

/-- One block from the head of the lines that are left. -/
structure Block where
  change : Change
  existing : List String
  length : Nat

def parseBlock (offset : Nat) (existing : List String) (lines : List String) :
    Except Fault Block := do
  if lines.length < 8 then throw (lineFault "incomplete change block" (offset + 1))
  if lines.getD 0 "" != "TARGET" || lines.getD 2 "" != "APPLICATION" ||
      lines.getD 4 "" != "CHANGE" then
    throw (lineFault "invalid change block markers" (offset + 1))
  let target := lines.getD 1 ""
  let claimed ← claimTarget target existing (offset + 2)
  let application ← parseApplication (lines.getD 3 "") (offset + 4)
  let (change, marker) ← parseChange (lines.getD 5 "") (lines.getD 6 "") offset
  if lines.getD marker "" != "BASIS" then
    throw (lineFault "invalid change block markers" (offset + 1))
  let basisRefs ← parseBasis (offset + marker + 2) [] (lines.drop (marker + 1))
  if basisRefs.isEmpty then throw (lineFault "basis is required" (offset + marker + 2))
  return { change := { target := target, application := application, operation := change.1,
                       text := change.2, basisRefs := basisRefs },
           existing := claimed, length := marker + 1 + basisRefs.length }

def parseBlocks : Nat → Nat → List String → List String → Except Fault (List Change)
  | _, _, _, [] => .ok []
  | 0, offset, _, _ => .error (lineFault "incomplete change block" (offset + 1))
  | fuel + 1, offset, existing, lines => do
    let block ← parseBlock offset existing lines
    let rest ← parseBlocks fuel (offset + block.length) block.existing (lines.drop block.length)
    return block.change :: rest

def parseTaggedText (text : String) : Except Fault (List Change) :=
  if maxTaggedTextBytes < text.utf8ByteSize then
    .error ⟨.plain, "tagged text exceeds " ++ toString maxTaggedTextBytes ++ " bytes", ""⟩
  else
    let lines := textLines text
    parseBlocks lines.length 0 [] lines

/-! ## What is accepted -/

structure Change.WellFormed (change : Change) : Prop where
  target : change.isNew ∨ existingStableRef change.target
  basis : change.basisRefs ≠ []
  nodup : change.basisRefs.Nodup
  refs : ∀ ref ∈ change.basisRefs, stableBasisRef ref
  bounded : change.text.utf8ByteSize ≤ maxChangeTextBytes

theorem parseBasis_ok {line : Nat} {seen lines refs : List String}
    (h : parseBasis line seen lines = .ok refs) (hnd : seen.Nodup)
    (hs : ∀ ref ∈ seen, stableBasisRef ref) :
    refs.Nodup ∧ ∀ ref ∈ refs, stableBasisRef ref := by
  induction lines generalizing line seen with
  | nil =>
    cases h
    exact ⟨hnd, hs⟩
  | cons ref rest ih =>
    unfold parseBasis at h
    split at h
    · cases h
      exact ⟨hnd, hs⟩
    split at h
    · cases h
    rename_i hstable
    split at h
    · cases h
    rename_i hnew
    refine ih h ?_ ?_
    · have hnot : ref ∉ seen := by simpa using hnew
      rw [List.nodup_append]
      refine ⟨hnd, List.nodup_singleton _, fun a ha b hb hab => hnot ?_⟩
      rw [← List.mem_singleton.mp hb, ← hab]
      exact ha
    · intro x hx
      rcases List.mem_append.mp hx with hx | hx
      · exact hs x hx
      · rw [List.mem_singleton.mp hx]
        simpa using hstable

theorem inlineText_bounded {operation : Operation} {text : String} {n : Nat}
    {change : Operation × String} (h : inlineText operation text n = .ok change) :
    change.2.utf8ByteSize ≤ maxChangeTextBytes := by
  unfold inlineText at h
  split at h
  · cases h
  split at h
  · cases h
  · cases h
    show text.utf8ByteSize ≤ _
    omega

theorem nextLineText_bounded {operation : Operation} {next : String} {n : Nat}
    {change : Operation × String} (h : nextLineText operation next n = .ok change) :
    change.2.utf8ByteSize ≤ maxChangeTextBytes := by
  unfold nextLineText at h
  split at h
  · cases h
  · cases h
    show next.utf8ByteSize ≤ _
    omega

theorem parseOperation_bounded {line : String} {n : Nat} {change : Operation × String}
    (h : parseOperation line n = .ok change) : change.2.utf8ByteSize ≤ maxChangeTextBytes := by
  unfold parseOperation at h
  split at h
  · exact inlineText_bounded h
  split at h
  · exact inlineText_bounded h
  split at h
  · cases h
    exact Nat.zero_le _
  split at h
  · cases h
    exact Nat.zero_le _
  split at h
  · cases h
    exact Nat.zero_le _
  · cases h

theorem parseChange_bounded {line next : String} {offset marker : Nat}
    {change : Operation × String} (h : parseChange line next offset = .ok (change, marker)) :
    change.2.utf8ByteSize ≤ maxChangeTextBytes := by
  have hmap : ∀ {r : Except Fault (Operation × String)} {m : Nat},
      r.map (·, m) = .ok (change, marker) → r = .ok change := by
    intro r m hr
    cases r with
    | error e => cases hr
    | ok c =>
      cases hr
      rfl
  unfold parseChange at h
  split at h
  · exact nextLineText_bounded (hmap h)
  split at h
  · exact nextLineText_bounded (hmap h)
  · exact parseOperation_bounded (hmap h)

theorem claimTarget_ok {target : String} {existing claimed : List String} {line : Nat}
    (h : claimTarget target existing line = .ok claimed) :
    (claimed = existing ∧ (target == targetNewRecollection || target == targetNewDisposition)) ∨
      (claimed = existing ++ [target] ∧ target ∉ existing ∧ existingStableRef target ∧
        (target == targetNewRecollection || target == targetNewDisposition) = false) := by
  unfold claimTarget at h
  split at h
  · rename_i hnew
    cases h
    exact Or.inl ⟨rfl, hnew⟩
  rename_i hold
  split at h
  · cases h
  rename_i hstable
  split at h
  · cases h
  rename_i hfresh
  cases h
  exact Or.inr ⟨rfl, by simpa using hfresh, by simpa using hstable, by simpa using hold⟩

theorem parseBlock_ok {offset : Nat} {existing lines : List String} {block : Block}
    (h : parseBlock offset existing lines = .ok block) :
    block.change.WellFormed ∧ 0 < block.length ∧
      ((block.change.isNew ∧ block.existing = existing) ∨
        (block.change.isNew = false ∧ block.existing = existing ++ [block.change.target] ∧
          block.change.target ∉ existing)) := by
  unfold parseBlock at h
  simp only [bind, Except.bind, throw, throwThe, MonadExceptOf.throw, pure, Except.pure] at h
  split at h
  · cases h
  split at h
  · cases h
  split at h
  · cases h
  rename_i claimed hclaim
  split at h
  · cases h
  split at h
  · cases h
  rename_i change hchange
  split at h
  · cases h
  split at h
  · cases h
  rename_i basisRefs hbasis
  split at h
  · cases h
  rename_i hne
  cases h
  have hrefs := parseBasis_ok hbasis List.nodup_nil fun ref hr => by cases hr
  have htarget := claimTarget_ok hclaim
  refine ⟨⟨?_, by simpa using hne, hrefs.1, hrefs.2, parseChange_bounded hchange⟩,
    show 0 < change.2 + 1 + basisRefs.length by omega, ?_⟩
  · rcases htarget with ⟨_, hnew⟩ | ⟨_, _, hstable, _⟩
    · exact Or.inl hnew
    · exact Or.inr hstable
  · rcases htarget with ⟨hc, hnew⟩ | ⟨hc, hfresh, _, hold⟩
    · exact Or.inl ⟨hnew, hc⟩
    · exact Or.inr ⟨hold, hc, hfresh⟩

/-- Every accepted change is well formed, and no existing target comes twice or was
claimed before. -/
theorem parseBlocks_ok {fuel offset : Nat} {existing lines : List String} {changes : List Change}
    (h : parseBlocks fuel offset existing lines = .ok changes) :
    (∀ change ∈ changes, change.WellFormed) ∧
      ((changes.filter (!·.isNew)).map (·.target)).Nodup ∧
        ∀ change ∈ changes, change.isNew = false → change.target ∉ existing := by
  induction fuel generalizing offset existing lines changes with
  | zero =>
    cases lines with
    | nil =>
      cases h
      simp
    | cons line rest => cases h
  | succ fuel ih =>
    cases lines with
    | nil =>
      cases h
      simp
    | cons line rest =>
      unfold parseBlocks at h
      simp only [bind, Except.bind, pure, Except.pure] at h
      split at h
      · cases h
      rename_i block hblock
      split at h
      · cases h
      rename_i later hlater
      cases h
      obtain ⟨hwf, _, htarget⟩ := parseBlock_ok hblock
      obtain ⟨hall, hnd, hfresh⟩ := ih hlater
      refine ⟨fun change hc => ?_, ?_, fun change hc hold => ?_⟩
      · rcases List.mem_cons.mp hc with rfl | hc
        · exact hwf
        · exact hall change hc
      · rcases htarget with ⟨hnew, _⟩ | ⟨hold, hex, _⟩
        · simpa [hnew] using hnd
        · simp only [List.filter_cons, hold, Bool.not_false, if_true, List.map_cons,
            List.nodup_cons]
          refine ⟨fun hm => ?_, hnd⟩
          obtain ⟨change, hc, heq⟩ := List.mem_map.mp hm
          have hc' := List.mem_filter.mp hc
          refine hfresh change hc'.1 (by simpa using hc'.2) ?_
          rw [hex, heq]
          simp
      · rcases List.mem_cons.mp hc with rfl | hc
        · rcases htarget with ⟨hnew, _⟩ | ⟨_, _, hnot⟩
          · rw [hnew] at hold
            cases hold
          · exact hnot
        · have hnot := hfresh change hc hold
          rcases htarget with ⟨_, hex⟩ | ⟨_, hex, _⟩
          · rw [hex] at hnot
            exact hnot
          · rw [hex] at hnot
            exact fun hm => hnot (List.mem_append_left _ hm)

/-- What the parser accepts is well formed. -/
theorem parseTaggedText_ok {text : String} {changes : List Change}
    (h : parseTaggedText text = .ok changes) :
    (∀ change ∈ changes, change.WellFormed) ∧
      ((changes.filter (!·.isNew)).map (·.target)).Nodup := by
  unfold parseTaggedText at h
  split at h
  · cases h
  · have hok := parseBlocks_ok h
    exact ⟨hok.1, hok.2.1⟩

end ChoraMem
