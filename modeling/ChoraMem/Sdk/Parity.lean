/-
The two SDKs render alike up to white space.

The renderers differ only in the characters that they strip.  So they agree on a context
whatever the budget exactly when both refuse it, or both take it and strip every memory
of it to the same text, and find the same evidence blank.  A budget that admits a single
text tells any other two apart.
-/
import ChoraMem.Sdk.Rendering

namespace ChoraMem

open Text

/-! ## Agreement from equal entries -/

section

variable {sdk sdk' : Sdk} {context : ContextMessage} {budget : RenderBudget}

/-- The loop over the items is the same in both SDKs, its message apart. -/
theorem foldlM_renderItem_toOption (items : List RenderItem)
    (state : List (String × List String) × List String) :
    (items.foldlM (sdk.renderItem budget) state).toOption =
      (items.foldlM (sdk'.renderItem budget) state).toOption := by
  induction items generalizing state with
  | nil => rfl
  | cons item rest ih =>
    rw [List.foldlM_cons, List.foldlM_cons]
    simp only [Sdk.renderItem]
    cases hadmits : budget.admits (joinSections (withItem state.1 item)) with
    | none => rfl
    | some shown =>
      cases shown with
      | true => exact ih _
      | false => exact ih _

theorem validateBudgetOptions_toOption :
    (sdk.validateBudgetOptions budget).toOption = (sdk'.validateBudgetOptions budget).toOption := by
  unfold Sdk.validateBudgetOptions
  by_cases htogether : budget.maxTokens.isSome != budget.countTokens.isSome
  · rw [if_pos htogether, if_pos htogether]
    rfl
  · rw [if_neg htogether, if_neg htogether]
    by_cases hnatural : budget.maxTokens.any (· < 0)
    · rw [if_pos hnatural, if_pos hnatural]
      rfl
    · rw [if_neg hnatural, if_neg hnatural]

/-- A context that is not accepted is not rendered. -/
theorem render_refused (h : ¬sdk.Accepts context) :
    (sdk.renderMemoryContext context budget).toOption = none := by
  cases hr : sdk.renderMemoryContext context budget with
  | error e => rfl
  | ok rendered => exact absurd (renderMemoryContext_ok hr).2.1 h

theorem toOption_bind {α β : Type} (x : Except String α) (f : α → Except String β) :
    (x >>= f).toOption = x.toOption.bind fun a => (f a).toOption := by
  cases x with
  | error e => rfl
  | ok a => rfl

theorem render_accepted (h : sdk.Accepts context) :
    (sdk.renderMemoryContext context budget).toOption =
      (sdk.validateBudgetOptions budget).toOption.bind fun _ =>
        ((sdk.items context).foldlM (sdk.renderItem budget) ([], [])).toOption.map fun state =>
          ⟨joinSections state.1, state.2⟩ := by
  unfold Sdk.renderMemoryContext
  rw [toOption_bind]
  refine congrArg _ (funext fun _ => ?_)
  rw [validatedItems_ok.mpr ⟨h, rfl⟩]
  show ((sdk.items context).foldlM (sdk.renderItem budget) ([], []) >>= fun state =>
    Except.ok (RenderedMemoryContext.mk (joinSections state.1) state.2)).toOption = _
  rw [toOption_bind]
  exact Option.map_eq_bind.symm

theorem render_of_items {context' : ContextMessage} (h : sdk.Accepts context)
    (h' : sdk'.Accepts context') (hitems : sdk.items context = sdk'.items context') :
    (sdk.renderMemoryContext context budget).toOption =
      (sdk'.renderMemoryContext context' budget).toOption := by
  rw [render_accepted h, render_accepted h', hitems,
    @validateBudgetOptions_toOption sdk sdk']
  exact congrArg _ (funext fun _ => congrArg _ (foldlM_renderItem_toOption _ _))

end

/-! ## One text admitted -/

/-- The budget that only one text keeps to. -/
def RenderBudget.only (text : String) : RenderBudget :=
  ⟨some 0, some fun shown => if shown = text then 0 else 1⟩

theorem RenderBudget.only_admits {text shown : String} :
    (RenderBudget.only text).admits shown = some (decide (shown = text)) := by
  unfold RenderBudget.only RenderBudget.admits
  by_cases h : shown = text
  · simp [h]
  · simp [h]

/-- The text of an item that is shown alone. -/
def aloneText (item : RenderItem) : String := item.heading ++ "\n" ++ item.text

theorem joinSections_alone (item : RenderItem) : joinSections (withItem [] item) = aloneText item := by
  apply String.toList_inj.mp
  simp [withItem, joinSections, aloneText]

/-- The first item that is kept was tried alone. -/
theorem first_kept {marks : List (RenderItem × Bool)} (h : keptOf marks ≠ []) :
    ∃ before item after, marks = before ++ (item, true) :: after ∧ keptOf before = [] := by
  induction marks with
  | nil => exact absurd rfl h
  | cons mark rest ih =>
    obtain ⟨item, shown⟩ := mark
    cases shown with
    | true => exact ⟨[], item, rest, rfl, rfl⟩
    | false =>
      obtain ⟨before, first, after, hrest, hbefore⟩ := ih h
      exact ⟨(item, false) :: before, first, after, by rw [hrest]; rfl, hbefore⟩

section

variable {sdk : Sdk} {context : ContextMessage}

/-- Where only one text is admitted, an item is kept when it is one that shows it alone. -/
theorem render_only {text : String} {rendered : RenderedMemoryContext}
    (h : sdk.renderMemoryContext context (.only text) = .ok rendered) :
    rendered.memoryRefs = [] ↔ ∀ item ∈ sdk.items context, aloneText item ≠ text := by
  obtain ⟨_, _, marks, hmarks, hkept, rfl⟩ := renderMemoryContext_ok h
  have htried : ∀ before item shown after, marks = before ++ (item, shown) :: after →
      keptOf before = [] → shown = decide (aloneText item = text) := by
    intro before item shown after heq hbefore
    have hadmits := hkept.tried before item shown after heq
    rw [hbefore] at hadmits
    rw [List.foldl_nil, joinSections_alone, RenderBudget.only_admits] at hadmits
    exact (Option.some.inj hadmits).symm
  constructor
  · intro hnil item hitem htext
    have hnone : keptOf marks = [] := List.map_eq_nil_iff.mp hnil
    rw [← hmarks] at hitem
    obtain ⟨⟨item, shown⟩, hmark, rfl⟩ := List.mem_map.mp hitem
    obtain ⟨before, after, heq⟩ := List.append_of_mem hmark
    have hsplit : keptOf marks = keptOf before ++ keptOf ((item, shown) :: after) := by
      rw [heq]
      simp [keptOf]
    rw [hnone] at hsplit
    obtain ⟨hbefore, hafter⟩ := List.append_eq_nil_iff.mp hsplit.symm
    have hshown := htried before item shown after heq hbefore
    rw [decide_eq_true htext] at hshown
    rw [hshown] at hafter
    cases hafter
  · intro hall
    by_contra hne
    have hkeeps : keptOf marks ≠ [] := fun hnil => hne (by rw [hnil]; rfl)
    obtain ⟨before, item, after, heq, hbefore⟩ := first_kept hkeeps
    have hmem : item ∈ sdk.items context := by
      rw [← hmarks, heq]
      simp
    exact hall item hmem (of_decide_eq_true (htried before item true after heq hbefore).symm)

/-- An accepted context is rendered when no count is negative. -/
theorem render_total {budget : RenderBudget} (haccepts : sdk.Accepts context)
    (hbudget : sdk.validateBudgetOptions budget = .ok ())
    (hcount : ∀ text, budget.admits text ≠ none) :
    ∃ rendered, sdk.renderMemoryContext context budget = .ok rendered := by
  have hloop : ∀ (items : List RenderItem) state,
      ∃ state', items.foldlM (sdk.renderItem budget) state = .ok state' := by
    intro items
    induction items with
    | nil => exact fun state => ⟨state, rfl⟩
    | cons item rest ih =>
      intro state
      rw [List.foldlM_cons]
      simp only [Sdk.renderItem]
      cases hadmits : budget.admits (joinSections (withItem state.1 item)) with
      | none => exact absurd hadmits (hcount _)
      | some shown =>
        cases shown with
        | true => exact ih _
        | false => exact ih _
  obtain ⟨state, hstate⟩ := hloop (sdk.items context) ([], [])
  unfold Sdk.renderMemoryContext
  rw [hbudget, validatedItems_ok.mpr ⟨haccepts, rfl⟩]
  show ∃ rendered, ((sdk.items context).foldlM (sdk.renderItem budget) ([], []) >>= _) = .ok rendered
  rw [hstate]
  exact ⟨_, rfl⟩

theorem render_only_total (text : String) (haccepts : sdk.Accepts context) :
    ∃ rendered, sdk.renderMemoryContext context (.only text) = .ok rendered :=
  render_total haccepts rfl fun shown => by
    rw [RenderBudget.only_admits]
    exact Option.some_ne_none _

end

/-! ## Agreement exactly -/

/-- What the SDKs must strip alike: every memory, and evidence as far as it is blank. -/
structure ContextMessage.TrimmedAlike (context : ContextMessage) : Prop where
  memories : ∀ item ∈ context.constitution.toList ++ context.recollections ++ context.dispositions,
    typescriptSdk.trim item.text = pythonSdk.trim item.text
  evidence : ∀ item ∈ context.episodeEvidence,
    typescriptSdk.trim item.text = "" ↔ pythonSdk.trim item.text = ""

section

variable {sdk sdk' : Sdk} {context : ContextMessage}

theorem trim_toList (text : String) : (sdk.trim text).toList = strip sdk.space text.toList :=
  String.toList_ofList

/-- Entries are shown alike when what is stripped of them is. -/
theorem shown_of_trimmedAlike (h : context.TrimmedAlike) {entry : Section × MemoryText}
    (hentry : entry ∈ context.placed) : typescriptSdk.shown entry = pythonSdk.shown entry := by
  obtain ⟨place, item⟩ := entry
  simp only [ContextMessage.placed, List.mem_append, List.mem_map] at hentry
  have hmemory : item ∈ context.constitution.toList ++ context.recollections ++ context.dispositions →
      place ≠ .episodeEvidence → typescriptSdk.shown (place, item) = pythonSdk.shown (place, item) := by
    intro hitem hplace
    have htrim := h.memories item hitem
    have htext : typescriptSdk.textOfEntry (place, item) = pythonSdk.textOfEntry (place, item) := by
      cases place with
      | episodeEvidence => exact absurd rfl hplace
      | constitution => exact htrim
      | _ => exact congrArg (_ ++ ": " ++ ·) htrim
    unfold Sdk.shown
    rw [htrim, htext]
  rcases hentry with ⟨_, hm, heq⟩ | ⟨_, hm, heq⟩ | ⟨_, hm, heq⟩ | ⟨_, hm, heq⟩
  · obtain ⟨rfl, rfl⟩ := Prod.mk.inj heq
    exact hmemory (by simp [Option.mem_toList.mp hm]) (by decide)
  · obtain ⟨rfl, rfl⟩ := Prod.mk.inj heq
    exact hmemory (by simp [hm]) (by decide)
  · obtain ⟨rfl, rfl⟩ := Prod.mk.inj heq
    exact hmemory (by simp [hm]) (by decide)
  · cases heq
    unfold Sdk.shown
    by_cases hblank : typescriptSdk.trim item.text = ""
    · rw [if_pos hblank, if_pos ((h.evidence item hm).mp hblank)]
    · rw [if_neg hblank, if_neg fun hb => hblank ((h.evidence item hm).mpr hb)]
      rfl

theorem items_of_trimmedAlike (h : context.TrimmedAlike) :
    typescriptSdk.items context = pythonSdk.items context :=
  List.filterMap_congr fun _ hentry => shown_of_trimmedAlike h hentry

/-- No heading and no label has the character that ends it. -/
theorem newline_not_mem_heading (place : Section) : '\n' ∉ place.heading.toList := by
  cases place <;> decide

theorem colon_not_mem_label (scope : ApplicationScope) :
    ':' ∉ ((applicationScopeLabel scope).getD "").toList := by
  cases scope with
  | unrecognized number => exact List.not_mem_nil
  | _ => decide

theorem aloneText_inj {place place' : Section} {text text' ref ref' : String}
    (h : aloneText ⟨place.heading, text, ref⟩ = aloneText ⟨place'.heading, text', ref'⟩) :
    place = place' ∧ text = text' := by
  have hl := congrArg String.toList h
  simp only [aloneText, String.toList_append, List.append_assoc] at hl
  obtain ⟨hheading, htext⟩ := append_cons_inj (newline_not_mem_heading place)
    (newline_not_mem_heading place') hl
  exact ⟨Section.heading_inj (String.toList_inj.mp hheading), String.toList_inj.mp htext⟩

/-- An entry that is shown is an item. -/
theorem item_of_placed {entry : Section × MemoryText} (hentry : entry ∈ context.placed)
    (hblank : sdk.trim entry.2.text ≠ "") :
    ⟨entry.1.heading, sdk.textOfEntry entry, entry.2.memoryRef⟩ ∈ sdk.items context :=
  List.mem_filterMap.mpr ⟨entry, hentry, if_neg hblank⟩

theorem placed_of_item {item : RenderItem} (h : item ∈ sdk.items context) :
    ∃ entry ∈ context.placed, sdk.trim entry.2.text ≠ "" ∧
      item = ⟨entry.1.heading, sdk.textOfEntry entry, entry.2.memoryRef⟩ := by
  obtain ⟨entry, hentry, hshown⟩ := List.mem_filterMap.mp h
  by_cases hblank : sdk.trim entry.2.text = ""
  · rw [Sdk.shown, if_pos hblank] at hshown
    cases hshown
  · rw [Sdk.shown, if_neg hblank] at hshown
    exact ⟨entry, hentry, hblank, (Option.some.inj hshown).symm⟩

/-- What one SDK shows of an entry, the other shows of some entry of that section. -/
theorem other_entry (hsame : ∀ item ∈ sdk.items context, ∃ item' ∈ sdk'.items context,
      aloneText item' = aloneText item) {entry : Section × MemoryText}
    (hentry : entry ∈ context.placed) (hblank : sdk.trim entry.2.text ≠ "") :
    ∃ other ∈ context.placed, other.1 = entry.1 ∧ sdk'.trim other.2.text ≠ "" ∧
      sdk'.textOfEntry other = sdk.textOfEntry entry := by
  obtain ⟨item', hitem', halone⟩ := hsame _ (item_of_placed hentry hblank)
  obtain ⟨other, hother, hblank', rfl⟩ := placed_of_item hitem'
  obtain ⟨hplace, htext⟩ := aloneText_inj halone
  exact ⟨other, hother, hplace, hblank', htext⟩

/-- So the other SDK finds nothing more to strip from a memory. -/
theorem stripped_of_other (hsame : ∀ item ∈ sdk.items context, ∃ item' ∈ sdk'.items context,
      aloneText item' = aloneText item) {entry : Section × MemoryText}
    (hentry : entry ∈ context.placed) (hplace : entry.1 ≠ .episodeEvidence) :
    Stripped sdk'.space (strip sdk.space entry.2.text.toList) := by
  by_cases hblank : sdk.trim entry.2.text = ""
  · have hnil : strip sdk.space entry.2.text.toList = [] := by
      rw [← trim_toList, hblank]
      rfl
    rw [hnil]
    exact ⟨nofun, nofun⟩
  · obtain ⟨⟨place, other⟩, _, hsection, _, htext⟩ := other_entry hsame hentry hblank
    have htrim : sdk'.trim other.text = sdk.trim entry.2.text := by
      obtain ⟨place', item⟩ := entry
      obtain rfl : place = place' := hsection
      cases place with
      | episodeEvidence => exact absurd rfl hplace
      | constitution => exact htext
      | _ =>
        have hl := congrArg String.toList htext
        simp only [Sdk.textOfEntry, String.toList_append, List.append_assoc] at hl
        obtain ⟨_, hrest⟩ := append_cons_inj (colon_not_mem_label _) (colon_not_mem_label _) hl
        exact String.toList_inj.mp (List.cons.inj hrest).2
    rw [← trim_toList, ← htrim, trim_toList]
    exact stripped_strip _

/-- Evidence that one SDK shows, the other does. -/
theorem evidence_of_other (hsame : ∀ item ∈ sdk.items context, ∃ item' ∈ sdk'.items context,
      aloneText item' = aloneText item) {item : MemoryText}
    (hitem : item ∈ context.episodeEvidence) (hblank : sdk.trim item.text ≠ "") :
    sdk'.trim item.text ≠ "" := by
  have hentry : (Section.episodeEvidence, item) ∈ context.placed := by
    simp [ContextMessage.placed, hitem]
  obtain ⟨⟨place, other⟩, _, hsection, hblank', htext⟩ := other_entry hsame hentry hblank
  obtain rfl : place = .episodeEvidence := hsection
  have hraw := congrArg unquoteRawLines htext
  simp only [Sdk.textOfEntry, unquoteRawLines_quote] at hraw
  rw [← hraw]
  exact hblank'

/-- SDKs that show the same texts strip alike. -/
theorem trimmedAlike_of_items
    (hts : ∀ item ∈ typescriptSdk.items context, ∃ item' ∈ pythonSdk.items context,
      aloneText item' = aloneText item)
    (hpy : ∀ item ∈ pythonSdk.items context, ∃ item' ∈ typescriptSdk.items context,
      aloneText item' = aloneText item) : context.TrimmedAlike := by
  have htrim : ∀ entry ∈ context.placed, entry.1 ≠ .episodeEvidence →
      typescriptSdk.trim entry.2.text = pythonSdk.trim entry.2.text := fun entry hentry hplace =>
    congrArg String.ofList (strip_eq_of_stripped (stripped_of_other hts hentry hplace)
      (stripped_of_other hpy hentry hplace))
  constructor
  · intro item hitem
    simp only [List.mem_append] at hitem
    rcases hitem with (hm | hm) | hm
    · exact htrim (.constitution, item) (by simp [ContextMessage.placed, Option.mem_toList.mp hm]) (by simp)
    · exact htrim (.recollections, item) (by simp [ContextMessage.placed, hm]) (by simp)
    · exact htrim (.dispositions, item) (by simp [ContextMessage.placed, hm]) (by simp)
  · intro item hitem
    constructor
    · intro hblank
      by_contra hne
      exact evidence_of_other hpy hitem hne hblank
    · intro hblank
      by_contra hne
      exact evidence_of_other hts hitem hne hblank

/-- An empty constitution changes nothing about what is accepted. -/
theorem accepts_getD : sdk.Accepts
      { context with constitution := some (context.constitution.getD ⟨"", "", .unspecified⟩) } ↔
    sdk.Accepts context := by
  have hitems := items_getD sdk context
  constructor
  · intro h
    refine ⟨fun entry hentry => h.fit entry ?_, hitems ▸ h.nodup⟩
    cases hset : context.constitution with
    | none => simp_all [ContextMessage.placed]
    | some constitution => simp_all [ContextMessage.placed]
  · intro h
    refine ⟨fun entry hentry hblank => ?_, hitems.symm ▸ h.nodup⟩
    cases hset : context.constitution with
    | some constitution =>
      refine h.fit entry ?_ hblank
      simp_all [ContextMessage.placed]
    | none =>
      have hor : entry = (.constitution, ⟨"", "", .unspecified⟩) ∨ entry ∈ context.placed := by
        simp_all [ContextMessage.placed]
      rcases hor with rfl | hm
      · exact absurd (trim_empty sdk) hblank
      · exact h.fit entry hm hblank

theorem renderPy_toOption {budget : RenderBudget} :
    (renderMemoryContextPy context budget).toOption =
      (pythonSdk.renderMemoryContext context budget).toOption := by
  by_cases haccepts : pythonSdk.Accepts context
  · exact render_of_items (accepts_getD.mpr haccepts) haccepts (items_getD pythonSdk context)
  · rw [render_refused haccepts]
    exact render_refused fun h => haccepts (accepts_getD.mp h)

/-- What one SDK shows the other shows, when they agree on every budget. -/
theorem shown_of_agree (haccepts : sdk.Accepts context) (haccepts' : sdk'.Accepts context)
    (hagree : ∀ budget, (sdk.renderMemoryContext context budget).toOption =
      (sdk'.renderMemoryContext context budget).toOption) :
    ∀ item ∈ sdk.items context, ∃ item' ∈ sdk'.items context, aloneText item' = aloneText item := by
  intro item hitem
  obtain ⟨rendered, hrendered⟩ := render_only_total (aloneText item) haccepts
  obtain ⟨rendered', hrendered'⟩ := render_only_total (aloneText item) haccepts'
  have hsame := hagree (.only (aloneText item))
  rw [hrendered, hrendered'] at hsame
  obtain rfl := Option.some.inj hsame
  by_contra hnone
  have hnil := (render_only hrendered').mpr fun item' hitem' halone =>
    hnone ⟨item', hitem', halone⟩
  exact (render_only hrendered).mp hnil item hitem rfl

theorem accepts_of_agree (hagree : ∀ budget, (sdk.renderMemoryContext context budget).toOption =
    (sdk'.renderMemoryContext context budget).toOption) (haccepts : sdk.Accepts context) :
    sdk'.Accepts context := by
  obtain ⟨rendered, hrendered⟩ := render_only_total "" haccepts
  by_contra hrefused
  have hsame := hagree (.only "")
  rw [hrendered, render_refused hrefused] at hsame
  cases hsame

end

/-- The SDKs agree on a context, whatever the budget, exactly when both refuse it, or both
accept it and strip it alike. -/
theorem renderMemoryContext_agree_iff (context : ContextMessage) :
    (∀ budget, (renderMemoryContextTs context budget).toOption =
        (renderMemoryContextPy context budget).toOption) ↔
      (¬typescriptSdk.Accepts context ∧ ¬pythonSdk.Accepts context) ∨
        (typescriptSdk.Accepts context ∧ pythonSdk.Accepts context ∧ context.TrimmedAlike) := by
  simp only [renderPy_toOption]
  show (∀ budget, (typescriptSdk.renderMemoryContext context budget).toOption = _) ↔ _
  constructor
  · intro hagree
    have hagree' := fun budget => (hagree budget).symm
    by_cases hts : typescriptSdk.Accepts context
    · have hpy := accepts_of_agree hagree hts
      exact .inr ⟨hts, hpy,
        trimmedAlike_of_items (shown_of_agree hts hpy hagree) (shown_of_agree hpy hts hagree')⟩
    · exact .inl ⟨hts, fun hpy => hts (accepts_of_agree hagree' hpy)⟩
  · intro h budget
    rcases h with ⟨hts, hpy⟩ | ⟨hts, hpy, hsame⟩
    · rw [render_refused hts, render_refused hpy]
    · exact render_of_items hts hpy (items_of_trimmedAlike hsame)

/-- A memory that starts with a byte order mark keeps it in one of the SDKs only. -/
theorem renderMemoryContext_differs_byteOrderMark :
    ¬∀ context budget, (renderMemoryContextTs context budget).toOption =
      (renderMemoryContextPy context budget).toOption := by
  intro hagree
  have h := hagree ⟨none, [⟨"m1", "\ufeffKeep the door closed", .self⟩], [], []⟩ .none
  revert h
  decide

end ChoraMem
