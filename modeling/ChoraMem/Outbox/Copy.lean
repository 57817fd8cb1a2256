/-
A disposable copy behind an outbox.

A content changes in commits, and every commit that changes what a key has leaves an
operation in the outbox with the key and without its text.  A worker takes an operation,
reads the text again, tells the copy and acknowledges, or fails anywhere in between and
leaves the operation where it is.  It may also throw the copy away and fill it again from a
listing of the keys, while the commits go on.

A key is sound when the copy has what the content has, when an operation that is still to
be read is about it, or when the listing has yet to come to it.  Every step keeps all keys
sound, so a copy is exact once nothing is left to do.
-/
import Mathlib.Data.Set.Insert
import Mathlib.Logic.Function.Basic

namespace Outbox

variable {Key Text Op : Type}

/-- What an operation is about, and whether it adds the key or takes it away. -/
structure Feed (Key Op : Type) where
  about : Op → Key
  adds : Op → Bool

/-- Where the worker is. -/
inductive Phase (Key Text Op : Type)
  | idle
  | took (op : Op)
  | read (op : Op) (found : Option Text)
  | told (op : Op)
  /-- Filling the copy again: the keys still to be listed or loaded, and what was loaded
  and is not yet in the copy. -/
  | copying (toCome : Set Key) (page : List (Key × Text))

structure State (Key Text Op : Type) where
  content : Key → Option Text
  pending : Set Op
  copy : Key → Option Text
  phase : Phase Key Text Op
  /-- The copy was thrown away and never filled to the end. -/
  damaged : Prop

/-- What was loaded of a key, as a page has it. -/
def entryOf (k : Key) (found : Option Text) : List (Key × Text) :=
  (found.map fun text => (k, text)).toList

theorem mem_entryOf {k k' : Key} {found : Option Text} {text : Text} :
    (k', text) ∈ entryOf k found ↔ k' = k ∧ found = some text := by
  cases found with
  | none => simp [entryOf]
  | some text' =>
    simp only [entryOf, Option.map_some, Option.toList_some, List.mem_singleton, Prod.mk.injEq,
      Option.some.injEq]
    exact and_congr_right fun _ => eq_comm

section

variable [DecidableEq Key]

/-- The texts of a page, put into the copy in their order. -/
def fill (copy : Key → Option Text) (page : List (Key × Text)) : Key → Option Text :=
  page.foldl (fun c entry => Function.update c entry.1 (some entry.2)) copy

/-- A copy after an upload has a text of the page, or what it had. -/
theorem fill_cases (copy : Key → Option Text) (page : List (Key × Text)) (k : Key) :
    (∃ text, (k, text) ∈ page ∧ fill copy page k = some text) ∨
      ((∀ text, (k, text) ∉ page) ∧ fill copy page k = copy k) := by
  induction page generalizing copy with
  | nil => exact Or.inr ⟨fun _ h => absurd h List.not_mem_nil, rfl⟩
  | cons entry rest ih =>
    have hfill : fill copy (entry :: rest) =
        fill (Function.update copy entry.1 (some entry.2)) rest := rfl
    rw [hfill]
    rcases ih (Function.update copy entry.1 (some entry.2)) with ⟨text, hmem, heq⟩ | ⟨hnone, heq⟩
    · exact Or.inl ⟨text, List.mem_cons_of_mem _ hmem, heq⟩
    · by_cases hk : k = entry.1
      · left
        refine ⟨entry.2, ?_, ?_⟩
        · rw [hk]
          exact List.mem_cons_self
        · rw [heq, hk, Function.update_self]
      · right
        refine ⟨fun text hmem => ?_, ?_⟩
        · rcases List.mem_cons.mp hmem with h | h
          · exact hk (congrArg Prod.fst h)
          · exact hnone text h
        · rw [heq, Function.update_of_ne hk]

variable (F : Feed Key Op)

/-- One step of the commits or of the worker. -/
inductive Step (s : State Key Text Op) : State Key Text Op → Prop
  | commit (content : Key → Option Text) (pending : Set Op) (hkeep : s.pending ⊆ pending)
      (hnew : ∀ k, content k ≠ s.content k →
        ∃ op ∈ pending, op ∉ s.pending ∧ F.about op = k ∧ F.adds op = (content k).isSome)
      (hgone : ∀ op ∈ pending, F.adds op = false → content (F.about op) = none) :
      Step s { s with content := content, pending := pending }
  | take (op : Op) (h : s.phase = .idle) (hop : op ∈ s.pending) : Step s { s with phase := .took op }
  | look (op : Op) (h : s.phase = .took op) (hadds : F.adds op = true) :
      Step s { s with phase := .read op (s.content (F.about op)) }
  | put (op : Op) (text : Text) (h : s.phase = .read op (some text)) :
      Step s { s with
        copy := Function.update s.copy (F.about op) (some text), phase := .told op }
  | pass (op : Op) (h : s.phase = .read op none) : Step s { s with phase := .told op }
  | drop (op : Op) (h : s.phase = .took op) (hadds : F.adds op = false) :
      Step s { s with copy := Function.update s.copy (F.about op) none, phase := .told op }
  | acknowledge (op : Op) (h : s.phase = .told op) :
      Step s { s with pending := s.pending \ {op}, phase := .idle }
  | quit (h : ∀ toCome page, s.phase ≠ .copying toCome page) : Step s { s with phase := .idle }
  | reset (h : s.phase = .idle) :
      Step s { s with
        copy := fun _ => none, phase := .copying Set.univ [], damaged := False }
  | list (toCome toCome' : Set Key) (page : List (Key × Text)) (h : s.phase = .copying toCome page)
      (hlist : ∀ k ∈ toCome, s.content k ≠ none → k ∈ toCome') :
      Step s { s with phase := .copying toCome' page }
  | load (k : Key) (toCome : Set Key) (page : List (Key × Text)) (h : s.phase = .copying toCome page) :
      Step s { s with phase := .copying (toCome \ {k}) (page ++ entryOf k (s.content k)) }
  | upload (toCome : Set Key) (page : List (Key × Text)) (h : s.phase = .copying toCome page) :
      Step s { s with copy := fill s.copy page, phase := .copying toCome [] }
  | finish (h : s.phase = .copying ∅ []) : Step s { s with phase := .idle }
  | abandon (toCome : Set Key) (page : List (Key × Text)) (h : s.phase = .copying toCome page) :
      Step s { s with phase := .idle, damaged := True }

/-- Any number of steps. -/
inductive Run (s₀ : State Key Text Op) : State Key Text Op → Prop
  | start : Run s₀ s₀
  | step {s s' : State Key Text Op} (h : Run s₀ s) (hstep : Step F s s') : Run s₀ s'

variable {F} in
theorem Run.trans {s₀ s s' : State Key Text Op} (h : Run F s₀ s) (h' : Run F s s') : Run F s₀ s' := by
  induction h' with
  | start => exact h
  | step _ hstep ih => exact ih.step hstep

end

/-! ## Sound states -/

variable (F : Feed Key Op) (s : State Key Text Op)

/-- An operation other than `but` is pending that will bring the copy of a key up to date. -/
def Announced (but : Op → Prop) (k : Key) : Prop :=
  ∃ op ∈ s.pending, ¬but op ∧ F.about op = k ∧ F.adds op = (s.content k).isSome

/-- What the worker holds of the operation is out of date, or given away already. -/
def Phase.Spent (content : Key → Option Text) : Phase Key Text Op → Op → Prop
  | .read op' found, op => op = op' ∧ found ≠ content (F.about op')
  | .told op', op => op = op'
  | _, _ => False

/-- The worker holds the operation. -/
def Phase.Holds : Phase Key Text Op → Op → Prop
  | .took op', op | .read op' _, op | .told op', op => op = op'
  | _, _ => False

/-- The listing has yet to bring the key into the copy. -/
def ToCome (k : Key) : Prop :=
  ∃ toCome page, s.phase = .copying toCome page ∧ s.content k ≠ none ∧
    (k ∈ toCome ∨ ∃ text, (k, text) ∈ page ∧ s.content k = some text)

structure Sound : Prop where
  gone : ∀ op ∈ s.pending, F.adds op = false → s.content (F.about op) = none
  held : ∀ op, s.phase.Holds op → op ∈ s.pending
  looked : ∀ op found, s.phase = .read op found → F.adds op = true
  stale : ∀ op found, s.phase = .read op found → found ≠ s.content (F.about op) →
    Announced F s (fun x => x = op) (F.about op)
  paged : ∀ toCome page, s.phase = .copying toCome page → ∀ k text, (k, text) ∈ page →
    s.content k ≠ some text → Announced F s (fun _ => False) k
  exact : ¬s.damaged → ∀ k, s.copy k = s.content k ∨ Announced F s (s.phase.Spent F s.content) k ∨
    ToCome s k

variable {F s} {but but' : Op → Prop} {k : Key}

theorem Announced.mono (h : Announced F s but k) (hbut : ∀ op, but' op → but op) :
    Announced F s but' k := by
  obtain ⟨op, hop, hno, habout, hadds⟩ := h
  exact ⟨op, hop, fun hb => hno (hbut op hb), habout, hadds⟩

theorem sound_empty (content : Key → Option Text) (hnone : ∀ k, content k = none) :
    Sound F (⟨content, ∅, fun _ => none, .idle, False⟩ : State Key Text Op) where
  gone := fun _ hop => hop.elim
  held := fun _ hop => hop.elim
  looked := fun _ _ h => by cases h
  stale := fun _ _ h => by cases h
  paged := fun _ _ h => by cases h
  exact := fun _ k => Or.inl (hnone k).symm

/-! ## Steps keep states sound -/

/-- A commit announces what it changes and leaves the rest announced. -/
theorem Sound.commit (h : Sound F s) {content : Key → Option Text} {pending : Set Op}
    (hkeep : s.pending ⊆ pending)
    (hnew : ∀ k, content k ≠ s.content k →
      ∃ op ∈ pending, op ∉ s.pending ∧ F.about op = k ∧ F.adds op = (content k).isSome)
    (hgone : ∀ op ∈ pending, F.adds op = false → content (F.about op) = none) :
    Sound F { s with content := content, pending := pending } := by
  have hannounced : ∀ {but but' : Op → Prop} {k : Key}, content k = s.content k →
      Announced F s but k → (∀ op, F.about op = k → but' op → but op) →
      Announced F { s with content := content, pending := pending } but' k := by
    intro but but' k hsame ha hbut
    obtain ⟨op, hop, hno, habout, hadds⟩ := ha
    refine ⟨op, hkeep hop, fun hb => hno (hbut op habout hb), habout, ?_⟩
    show F.adds op = (content k).isSome
    rw [hsame, hadds]
  have hchanged : ∀ {but : Op → Prop} {k : Key}, content k ≠ s.content k →
      (∀ op, but op → op ∈ s.pending) →
      Announced F { s with content := content, pending := pending } but k := by
    intro but k hne hbut
    obtain ⟨op, hop, hfresh, habout, hadds⟩ := hnew k hne
    exact ⟨op, hop, fun hb => hfresh (hbut op hb), habout, hadds⟩
  have hspent : ∀ op, s.phase.Spent F content op → op ∈ s.pending := by
    intro op hop
    refine h.held op ?_
    cases hphase : s.phase with
    | read op' found =>
      rw [hphase] at hop
      exact hop.1
    | told op' =>
      rw [hphase] at hop
      exact hop
    | _ =>
      rw [hphase] at hop
      exact hop.elim
  constructor
  · exact hgone
  · exact fun op hop => hkeep (h.held op hop)
  · exact h.looked
  · intro op found hphase hne
    by_cases hsame : content (F.about op) = s.content (F.about op)
    · have hold : found ≠ s.content (F.about op) := by
        rw [← hsame]
        exact hne
      exact hannounced hsame (h.stale op found hphase hold) fun _ _ hb => hb
    · refine hchanged hsame fun x hx => ?_
      rw [hx]
      refine h.held op ?_
      have hread : s.phase = .read op found := hphase
      rw [hread]
      exact rfl
  · intro toCome page hphase k text hmem hne
    by_cases hsame : content k = s.content k
    · have hold : s.content k ≠ some text := by
        rw [← hsame]
        exact hne
      exact hannounced hsame (h.paged toCome page hphase k text hmem hold) fun _ _ hb => hb
    · exact hchanged hsame fun _ hx => hx.elim
  · intro hwhole k
    by_cases hsame : content k = s.content k
    · rcases h.exact hwhole k with heq | ha | ⟨toCome, page, hphase, hsome, hcome⟩
      · exact Or.inl (heq.trans hsame.symm)
      · right; left
        refine hannounced hsame ha fun op habout hb => ?_
        show s.phase.Spent F s.content op
        have hb : s.phase.Spent F content op := hb
        cases hphase : s.phase with
        | read op' found =>
          rw [hphase] at hb
          refine ⟨hb.1, ?_⟩
          have hk : F.about op' = k := by
            rw [← hb.1]
            exact habout
          rw [hk, ← hsame, ← hk]
          exact hb.2
        | told op' =>
          rw [hphase] at hb
          exact hb
        | _ =>
          rw [hphase] at hb
          exact hb.elim
      · right; right
        refine ⟨toCome, page, hphase, ?_, ?_⟩
        · show content k ≠ none
          rw [hsame]
          exact hsome
        · show k ∈ toCome ∨ ∃ text, (k, text) ∈ page ∧ content k = some text
          rw [hsame]
          exact hcome
    · exact Or.inr (Or.inl (hchanged hsame hspent))

/-- A state in which the worker only moved on. -/
theorem Sound.moved (h : Sound F s) {phase : Phase Key Text Op}
    (hheld : ∀ op, phase.Holds op → op ∈ s.pending)
    (hread : ∀ op found, phase ≠ .read op found)
    (hpaged : ∀ toCome page, phase = .copying toCome page → ∀ k text, (k, text) ∈ page →
      s.content k ≠ some text → Announced F s (fun _ => False) k)
    (hexact : ¬s.damaged → ∀ k, s.copy k = s.content k ∨
      Announced F s (phase.Spent F s.content) k ∨ ToCome { s with phase := phase } k) :
    Sound F { s with phase := phase } where
  gone := h.gone
  held := hheld
  looked := fun op found hphase => absurd hphase (hread op found)
  stale := fun op found hphase => absurd hphase (hread op found)
  paged := hpaged
  exact := hexact

theorem not_toCome (h : ∀ toCome page, s.phase ≠ .copying toCome page) : ¬ToCome s k := by
  intro hcome
  obtain ⟨toCome, page, hphase, _⟩ := hcome
  exact h toCome page hphase

/-- What the copy says of a key once the worker has told it what it read. -/
theorem Sound.answered (h : Sound F s) {op : Op} {found : Option Text}
    (hphase : s.phase = .read op found) {copy : Key → Option Text}
    (hcopy : copy (F.about op) = found ∨ found = none ∧ copy (F.about op) = s.copy (F.about op))
    (hrest : ∀ k, k ≠ F.about op → copy k = s.copy k) :
    Sound F { s with copy := copy, phase := .told op } := by
  have hmine : op ∈ s.pending := h.held op (by rw [hphase]; exact rfl)
  constructor
  · exact h.gone
  · intro x hx
    have hx : x = op := hx
    rw [hx]
    exact hmine
  · intro _ _ hno
    cases hno
  · intro _ _ hno
    cases hno
  · intro _ _ hno
    cases hno
  · intro hwhole k
    have hnot : ¬ToCome s k := not_toCome fun toCome page hno => by
      rw [hphase] at hno
      cases hno
    by_cases hk : k = F.about op
    · subst hk
      by_cases hnow : found = s.content (F.about op)
      · rcases hcopy with hcopy | ⟨hnone, hcopy⟩
        · exact Or.inl (hcopy.trans hnow)
        · rcases h.exact hwhole (F.about op) with heq | ha | hcome
          · exact Or.inl (hcopy.trans heq)
          · right; left
            obtain ⟨x, hx, _, habout, hadds⟩ := ha
            refine ⟨x, hx, fun hop => ?_, habout, hadds⟩
            have hop : x = op := hop
            rw [hop, h.looked op found hphase, ← hnow, hnone] at hadds
            cases hadds
          · exact absurd hcome hnot
      · exact Or.inr (Or.inl (h.stale op found hphase hnow))
    · rcases h.exact hwhole k with heq | ha | hcome
      · exact Or.inl ((hrest k hk).trans heq)
      · right; left
        obtain ⟨x, hx, _, habout, hadds⟩ := ha
        refine ⟨x, hx, fun hop => hk ?_, habout, hadds⟩
        have hop : x = op := hop
        rw [← habout, hop]
      · exact absurd hcome hnot

/-- An acknowledged operation was no longer needed. -/
theorem Sound.acknowledged (h : Sound F s) {op : Op} (hphase : s.phase = .told op) :
    Sound F { s with pending := s.pending \ {op}, phase := .idle } := by
  constructor
  · exact fun x hx => h.gone x hx.1
  · intro x hx
    exact hx.elim
  · intro _ _ hno
    cases hno
  · intro _ _ hno
    cases hno
  · intro _ _ hno
    cases hno
  · intro hwhole k
    rcases h.exact hwhole k with heq | ha | hcome
    · exact Or.inl heq
    · right; left
      obtain ⟨x, hx, hno, habout, hadds⟩ := ha
      rw [hphase] at hno
      exact ⟨x, ⟨hx, hno⟩, fun hb => hb.elim, habout, hadds⟩
    · refine absurd hcome (not_toCome fun toCome page hno => ?_)
      rw [hphase] at hno
      cases hno

theorem Sound.loaded (h : Sound F s) {toCome : Set Key} {page : List (Key × Text)}
    (hphase : s.phase = .copying toCome page) (k : Key) :
    Sound F { s with phase := .copying (toCome \ {k}) (page ++ entryOf k (s.content k)) } := by
  have hentry : ∀ k' text, (k', text) ∈ entryOf k (s.content k) → s.content k' = some text := by
    intro k' text hmem
    obtain ⟨hk, hsome⟩ := mem_entryOf.mp hmem
    rw [hk, hsome]
  refine h.moved (fun op hop => hop.elim) (fun op found hno => by cases hno) ?_ ?_
  · intro toCome' page' heq k' text hmem hne
    obtain ⟨_, rfl⟩ := Phase.copying.inj heq
    rcases List.mem_append.mp hmem with hmem | hmem
    · exact h.paged toCome page hphase k' text hmem hne
    · exact absurd (hentry k' text hmem) hne
  · intro hwhole k'
    rcases h.exact hwhole k' with heq | ha | ⟨toCome', page', hphase', hsome, hcome⟩
    · exact Or.inl heq
    · exact Or.inr (Or.inl (ha.mono fun _ hb => hb.elim))
    · right; right
      rw [hphase] at hphase'
      obtain ⟨rfl, rfl⟩ := Phase.copying.inj hphase'
      refine ⟨_, _, rfl, hsome, ?_⟩
      rcases hcome with hcome | ⟨text, hmem, htext⟩
      · by_cases hk : k' = k
        · right
          obtain ⟨text, htext⟩ := Option.ne_none_iff_exists'.mp hsome
          exact ⟨text, List.mem_append_right _ (mem_entryOf.mpr ⟨hk, by rw [← hk, htext]⟩), htext⟩
        · exact Or.inl ⟨hcome, hk⟩
      · exact Or.inr ⟨text, List.mem_append_left _ hmem, htext⟩

section

variable [DecidableEq Key] {s' : State Key Text Op}

/-- A key that is taken away. -/
theorem Sound.dropped (h : Sound F s) {op : Op} (hphase : s.phase = .took op)
    (hadds : F.adds op = false) :
    Sound F { s with copy := Function.update s.copy (F.about op) none, phase := .told op } := by
  have hmine : op ∈ s.pending := h.held op (by rw [hphase]; exact rfl)
  constructor
  · exact h.gone
  · intro x hx
    have hx : x = op := hx
    rw [hx]
    exact hmine
  · intro _ _ hno
    cases hno
  · intro _ _ hno
    cases hno
  · intro _ _ hno
    cases hno
  · intro hwhole k
    by_cases hk : k = F.about op
    · left
      show Function.update s.copy (F.about op) none k = s.content k
      rw [hk, Function.update_self, h.gone op hmine hadds]
    · rcases h.exact hwhole k with heq | ha | hcome
      · left
        show Function.update s.copy (F.about op) none k = s.content k
        rw [Function.update_of_ne hk, heq]
      · right; left
        obtain ⟨x, hx, _, habout, hadds'⟩ := ha
        refine ⟨x, hx, fun hop => hk ?_, habout, hadds'⟩
        have hop : x = op := hop
        rw [← habout, hop]
      · refine absurd hcome (not_toCome fun toCome page hno => ?_)
        rw [hphase] at hno
        cases hno

theorem Sound.uploaded (h : Sound F s) {toCome : Set Key} {page : List (Key × Text)}
    (hphase : s.phase = .copying toCome page) :
    Sound F { s with copy := fill s.copy page, phase := .copying toCome [] } := by
  constructor
  · exact h.gone
  · intro op hop
    exact hop.elim
  · intro _ _ hno
    cases hno
  · intro _ _ hno
    cases hno
  · intro toCome' page' heq k text hmem
    obtain ⟨_, rfl⟩ := Phase.copying.inj heq
    exact absurd hmem List.not_mem_nil
  · intro hwhole k
    show fill s.copy page k = s.content k ∨ _
    rcases fill_cases s.copy page k with ⟨text, hmem, heq⟩ | ⟨hnone, heq⟩
    · by_cases hsame : s.content k = some text
      · exact Or.inl (heq.trans hsame.symm)
      · exact Or.inr (Or.inl (h.paged toCome page hphase k text hmem hsame))
    · rw [heq]
      rcases h.exact hwhole k with heq | ha | ⟨toCome', page', hphase', hsome, hcome⟩
      · exact Or.inl heq
      · exact Or.inr (Or.inl (ha.mono fun _ hb => hb.elim))
      · right; right
        rw [hphase] at hphase'
        obtain ⟨rfl, rfl⟩ := Phase.copying.inj hphase'
        refine ⟨_, _, rfl, hsome, ?_⟩
        rcases hcome with hcome | ⟨text, hmem, _⟩
        · exact Or.inl hcome
        · exact absurd hmem (hnone text)

theorem Sound.step (h : Sound F s) (hstep : Step F s s') : Sound F s' := by
  cases hstep with
  | commit content pending hkeep hnew hgone => exact h.commit hkeep hnew hgone
  | take op hphase hop =>
    refine h.moved (fun x hx => ?_) (fun _ _ hno => by cases hno) (fun _ _ hno => by cases hno) ?_
    · have hx : x = op := hx
      rw [hx]
      exact hop
    · intro hwhole k
      rcases h.exact hwhole k with heq | ha | hcome
      · exact Or.inl heq
      · exact Or.inr (Or.inl (ha.mono fun _ hb => hb.elim))
      · refine absurd hcome (not_toCome fun toCome page hno => ?_)
        rw [hphase] at hno
        cases hno
  | look op hphase hadds =>
    have hmine : op ∈ s.pending := h.held op (by rw [hphase]; exact rfl)
    constructor
    · exact h.gone
    · intro x hx
      have hx : x = op := hx
      rw [hx]
      exact hmine
    · intro op' found hread
      obtain ⟨rfl, _⟩ := Phase.read.inj hread
      exact hadds
    · intro op' found hread hne
      obtain ⟨rfl, rfl⟩ := Phase.read.inj hread
      exact absurd rfl hne
    · intro _ _ hno
      cases hno
    · intro hwhole k
      rcases h.exact hwhole k with heq | ha | hcome
      · exact Or.inl heq
      · exact Or.inr (Or.inl (ha.mono fun x hb => absurd rfl hb.2))
      · refine absurd hcome (not_toCome fun toCome page hno => ?_)
        rw [hphase] at hno
        cases hno
  | put op text hphase =>
    exact h.answered hphase (Or.inl (Function.update_self _ _ _)) fun k hk => Function.update_of_ne hk _ _
  | pass op hphase => exact h.answered hphase (Or.inr ⟨rfl, rfl⟩) fun _ _ => rfl
  | drop op hphase hadds => exact h.dropped hphase hadds
  | acknowledge op hphase => exact h.acknowledged hphase
  | quit hphase =>
    refine h.moved (fun _ hx => hx.elim) (fun _ _ hno => by cases hno) (fun _ _ hno => by cases hno) ?_
    intro hwhole k
    rcases h.exact hwhole k with heq | ha | hcome
    · exact Or.inl heq
    · exact Or.inr (Or.inl (ha.mono fun _ hb => hb.elim))
    · exact absurd hcome (not_toCome hphase)
  | reset hphase =>
    constructor
    · exact h.gone
    · intro x hx
      exact hx.elim
    · intro _ _ hno
      cases hno
    · intro _ _ hno
      cases hno
    · intro toCome page heq k text hmem
      obtain ⟨_, rfl⟩ := Phase.copying.inj heq
      exact absurd hmem List.not_mem_nil
    · intro _ k
      by_cases hnone : s.content k = none
      · exact Or.inl hnone.symm
      · exact Or.inr (Or.inr ⟨Set.univ, [], rfl, hnone, Or.inl (Set.mem_univ k)⟩)
  | list toCome toCome' page hphase hlist =>
    refine h.moved (fun _ hx => hx.elim) (fun _ _ hno => by cases hno) ?_ ?_
    · intro _ page' heq k text hmem hne
      obtain ⟨_, rfl⟩ := Phase.copying.inj heq
      exact h.paged toCome page hphase k text hmem hne
    · intro hwhole k
      rcases h.exact hwhole k with heq | ha | ⟨toCome₀, page₀, hphase₀, hsome, hcome⟩
      · exact Or.inl heq
      · exact Or.inr (Or.inl (ha.mono fun _ hb => hb.elim))
      · right; right
        rw [hphase] at hphase₀
        obtain ⟨rfl, rfl⟩ := Phase.copying.inj hphase₀
        exact ⟨toCome', page, rfl, hsome, hcome.imp_left fun hk => hlist k hk hsome⟩
  | load k toCome page hphase => exact h.loaded hphase k
  | upload toCome page hphase => exact h.uploaded hphase
  | finish hphase =>
    refine h.moved (fun _ hx => hx.elim) (fun _ _ hno => by cases hno) (fun _ _ hno => by cases hno) ?_
    intro hwhole k
    rcases h.exact hwhole k with heq | ha | ⟨toCome, page, hphase', _, hcome⟩
    · exact Or.inl heq
    · exact Or.inr (Or.inl (ha.mono fun _ hb => hb.elim))
    · rw [hphase] at hphase'
      obtain ⟨rfl, rfl⟩ := Phase.copying.inj hphase'
      rcases hcome with hcome | ⟨_, hmem, _⟩
      · exact hcome.elim
      · exact absurd hmem List.not_mem_nil
  | abandon toCome page hphase =>
    constructor
    · exact h.gone
    · intro x hx
      exact hx.elim
    · intro _ _ hno
      cases hno
    · intro _ _ hno
      cases hno
    · intro _ _ hno
      cases hno
    · intro hwhole
      exact absurd trivial hwhole

theorem Sound.run {s₀ : State Key Text Op} (h₀ : Sound F s₀) (h : Run F s₀ s) : Sound F s := by
  induction h with
  | start => exact h₀
  | step _ hstep ih => exact ih.step hstep

end

end Outbox
