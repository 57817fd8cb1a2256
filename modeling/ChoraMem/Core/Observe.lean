/-
The in-memory ledger.

`Ledger.observe` admits one immutable source event and, when its binding is complete,
one link of an exact group; a group whose links have a situation and an agent act of
distinct sources is an Episode.  A Go map is here the function it denotes, so two ledgers
with the same entries are equal.

A command is taken or refused.  What is taken is kept: a source event never changes,
the links of a group only grow, and those of an Episode only by Outcomes.  So a ledger is
what the set of its taken commands says, in whatever order they came.
-/
import Mathlib.Data.Finset.Sort
import Mathlib.Logic.Function.Basic
import ChoraMem.Core.Ledger

namespace ChoraMem

/-! ## Links -/

/-- A typed provenance edge of a group.  `groupOf` lets no unknown role in. -/
structure SourceLink where
  sourceEventRef : String
  role : SourceRole
  known : validRole role = true
  deriving DecidableEq, Repr

def roleOrder : SourceRole → Nat
  | .situation => 0
  | .agentAct => 1
  | .outcome => 2
  | .other _ _ => 3

/-- The canonical order: by role, then by source. -/
def SourceLink.upTo (a b : SourceLink) : Prop :=
  roleOrder a.role < roleOrder b.role ∨
    roleOrder a.role = roleOrder b.role ∧ a.sourceEventRef ≤ b.sourceEventRef

instance (a b : SourceLink) : Decidable (a.upTo b) := inferInstanceAs (Decidable (_ ∨ _))

theorem roleOrder_injective {r r' : SourceRole} (h : validRole r = true) (h' : validRole r' = true)
    (he : roleOrder r = roleOrder r') : r = r' := by
  cases r <;> cases r' <;> simp_all [roleOrder, validRole]

instance : IsTrans SourceLink SourceLink.upTo where
  trans a b c hab hbc := by
    unfold SourceLink.upTo at *
    rcases hab with hab | ⟨hab, hs⟩
    · left; omega
    · rcases hbc with hbc | ⟨hbc, hs'⟩
      · left; omega
      · exact Or.inr ⟨hab.trans hbc, String.le_trans hs hs'⟩

instance : Std.Total SourceLink.upTo where
  total a b := by
    unfold SourceLink.upTo
    rcases String.le_total a.sourceEventRef b.sourceEventRef with h | h <;> simp only [h, and_true] <;> omega

instance : Std.Antisymm SourceLink.upTo where
  antisymm a b hab hba := by
    unfold SourceLink.upTo at *
    have hrole : roleOrder a.role = roleOrder b.role := by omega
    have hab' : a.sourceEventRef ≤ b.sourceEventRef := (hab.resolve_left (by omega)).2
    have hba' : b.sourceEventRef ≤ a.sourceEventRef := (hba.resolve_left (by omega)).2
    obtain ⟨ra, ka, va⟩ := a
    obtain ⟨rb, kb, vb⟩ := b
    obtain rfl := roleOrder_injective va vb hrole
    obtain rfl : ra = rb := String.le_antisymm hab' hba'
    rfl

/-- The deterministic envelope of one exact group. -/
structure Episode where
  ref : String
  group : StableGroupRef
  links : List SourceLink
  deriving DecidableEq, Repr

def hasDistinctSituationAndAgentAct (situations agentActs : Finset String) : Bool :=
  decide (∃ s ∈ situations, ∃ a ∈ agentActs, s ≠ a)

/-- The sources a group's links give one role. -/
def sourcesOf (role : SourceRole) (links : Finset SourceLink) : Finset String :=
  (links.filter (·.role = role)).image (·.sourceEventRef)

def episodeRefOf (hashFields : List String → String) (g : StableGroupRef) : String :=
  "episode_" ++ hashFields
    ["episode.v1", g.scope.kind.text, g.scope.tenantRef, g.scope.agentRef, g.scope.relationshipRef,
      g.scope.sessionRef, g.runRef, g.sourceGroupRef]

def snapshot (hashFields : List String → String) (g : StableGroupRef) (links : Finset SourceLink) :
    Option Episode :=
  if hasDistinctSituationAndAgentAct (sourcesOf .situation links) (sourcesOf .agentAct links) then
    some { ref := episodeRefOf hashFields g, group := g, links := links.sort SourceLink.upTo }
  else none

/-! ## The ledger -/

structure Command where
  event : SourceEvent
  binding : EpisodeBinding
  deriving DecidableEq, Repr

structure Ledger where
  events : Scope × String → Option SourceEvent
  groups : StableGroupRef → Option (Finset SourceLink)

namespace Ledger

def new : Ledger := { events := fun _ => none, groups := fun _ => none }

end Ledger

def Command.key (c : Command) : Scope × String := (c.event.scope, c.event.ref)

/-- The group and the link a command asks for, when its binding is complete. -/
def Command.link (c : Command) : Option (StableGroupRef × SourceLink) :=
  match groupOf c.event c.binding with
  | .ok (some g) =>
    if h : validRole c.binding.role = true then some (g, ⟨c.event.ref, c.binding.role, h⟩) else none
  | _ => none

namespace Ledger

/-- Admit the source event of a command. -/
def admitEvent (l : Ledger) (c : Command) : Ledger :=
  match l.events c.key with
  | some _ => l
  | none => { l with events := Function.update l.events c.key (some c.event) }

/-- Append a link to its group. -/
def append (l : Ledger) (g : StableGroupRef) (link : SourceLink) : Ledger :=
  { l with groups := Function.update l.groups g (some (insert link ((l.groups g).getD ∅))) }

variable (hashFields : List String → String)

/-- The Episode of a group, when its links make it one. -/
def episode (l : Ledger) (g : StableGroupRef) : Option Episode :=
  (l.groups g).bind (snapshot hashFields g)

/-- A link that the group does not have and that its Episode no longer takes. -/
def sealedAgainst (l : Ledger) (g : StableGroupRef) (link : SourceLink) : Bool :=
  (l.groups g).any fun links =>
    decide (link ∉ links) && (snapshot hashFields g links).isSome && link.role != .outcome

def observe (l : Ledger) (c : Command) : Except Fault (Option Episode) × Ledger :=
  match validate c.event c.binding with
  | .error e => (.error e, l)
  | .ok _ =>
    if (l.events c.key).any (· != c.event) then
      (.error ⟨.sourceEventConflict, c.event.ref, ""⟩, l)
    else
      match c.link with
      | none => (.ok none, l.admitEvent c)
      | some (g, link) =>
        if l.sealedAgainst hashFields g link then (.error ⟨.episodeSealed, "", ""⟩, l)
        else
          let l' := (l.admitEvent c).append g link
          (.ok (l'.episode hashFields g), l')

def run (l : Ledger) (commands : List Command) : Ledger :=
  commands.foldl (fun l c => (l.observe hashFields c).2) l

/-- The commands of a run that were taken, in order. -/
def accepted : Ledger → List Command → List Command
  | _, [] => []
  | l, c :: rest =>
    if (l.observe hashFields c).1.toBool then c :: accepted (l.observe hashFields c).2 rest
    else accepted (l.observe hashFields c).2 rest

end Ledger

/-! ## What is taken

`Takes` says when a command is taken, and `add` what it leaves. -/

namespace Ledger

section

variable {hashFields : List String → String} {l l' : Ledger} {c : Command} {g : StableGroupRef}
  {link : SourceLink} {commands : List Command}

/-- A valid command, whose source event is new or the same, and whose link is there
already or is one its group still takes. -/
structure Takes (hashFields : List String → String) (l : Ledger) (c : Command) : Prop where
  valid : validate c.event c.binding = .ok ()
  same : ∀ event, l.events c.key = some event → event = c.event
  takesLink : ∀ g link, c.link = some (g, link) → l.sealedAgainst hashFields g link = false

/-- The ledger with a command's event and link. -/
def add (l : Ledger) (c : Command) : Ledger :=
  match c.link with
  | none => l.admitEvent c
  | some (g, link) => (l.admitEvent c).append g link

/-- The Episode a taken command reports. -/
def report (hashFields : List String → String) (l : Ledger) (c : Command) : Option Episode :=
  c.link.bind fun edge => l.episode hashFields edge.1

theorem observe_of_takes (h : l.Takes hashFields c) :
    l.observe hashFields c = (.ok ((l.add c).report hashFields c), l.add c) := by
  have hsame : (l.events c.key).any (· != c.event) = false := by
    cases he : l.events c.key with
    | none => rfl
    | some event => simp [h.same event he]
  unfold observe add report
  rw [h.valid]
  simp only [hsame, Bool.false_eq_true, if_false]
  cases hlink : c.link with
  | none => rfl
  | some edge => simp [h.takesLink edge.1 edge.2 hlink]

theorem takes_of_observe {r : Option Episode} (h : (l.observe hashFields c).1 = .ok r) :
    l.Takes hashFields c := by
  unfold observe at h
  split at h
  · cases h
  rename_i hvalid
  split at h
  · cases h
  rename_i hsame
  refine ⟨hvalid, fun event he => ?_, fun g link hlink => ?_⟩
  · rw [he] at hsame
    simpa using hsame
  · simp only [hlink] at h
    split at h
    · cases h
    · rename_i hno
      simpa using hno

theorem observe_refused {e : Fault} (h : (l.observe hashFields c).1 = .error e) :
    (l.observe hashFields c).2 = l := by
  unfold observe at h ⊢
  split at h
  · rfl
  simp only
  split at h
  · rename_i hconflict
    rw [if_pos hconflict]
  rename_i hsame
  rw [if_neg hsame]
  split at h
  · cases h
  split at h
  · rename_i hsealed
    rw [if_pos hsealed]
  · cases h

/-- A command is taken or refused. -/
theorem observe_cases (hashFields : List String → String) (l : Ledger) (c : Command) :
    (l.Takes hashFields c ∧
      l.observe hashFields c = (.ok ((l.add c).report hashFields c), l.add c)) ∨
    ∃ e, l.observe hashFields c = (.error e, l) := by
  cases h : (l.observe hashFields c).1 with
  | ok r =>
    have htakes := takes_of_observe h
    exact Or.inl ⟨htakes, observe_of_takes htakes⟩
  | error e => exact Or.inr ⟨e, Prod.ext h (observe_refused h)⟩

/-! ## Entries of a ledger -/

theorem admit_events (l : Ledger) (c : Command) (k : Scope × String) :
    (l.admitEvent c).events k = if k = c.key then some ((l.events c.key).getD c.event) else l.events k := by
  unfold admitEvent
  cases he : l.events c.key with
  | none =>
    by_cases hk : k = c.key
    · simp [hk]
    · simp [hk, Function.update]
  | some event =>
    by_cases hk : k = c.key
    · simp [hk, he]
    · simp [hk]

theorem admit_groups (l : Ledger) (c : Command) : (l.admitEvent c).groups = l.groups := by
  unfold admitEvent
  split <;> rfl

theorem append_groups (l : Ledger) (g g' : StableGroupRef) (link : SourceLink) :
    (l.append g link).groups g' =
      if g' = g then some (insert link ((l.groups g).getD ∅)) else l.groups g' := by
  simp [append, Function.update]

theorem add_events (l : Ledger) (c : Command) (k : Scope × String) :
    (l.add c).events k = if k = c.key then some ((l.events c.key).getD c.event) else l.events k := by
  unfold add
  split
  · exact admit_events l c k
  · exact admit_events l c k

theorem add_groups (l : Ledger) (c : Command) (g : StableGroupRef) :
    (l.add c).groups g = match c.link with
      | none => l.groups g
      | some (g', link) => if g = g' then some (insert link ((l.groups g).getD ∅)) else l.groups g := by
  unfold add
  cases c.link with
  | none => simp [admit_groups]
  | some edge =>
    obtain ⟨g', link⟩ := edge
    by_cases hg : g = g'
    · simp [append_groups, admit_groups, hg]
    · simp [append_groups, admit_groups, hg]

/-! ## Growth -/

theorem sourcesOf_mono {role : SourceRole} {links links' : Finset SourceLink} (h : links ⊆ links') :
    sourcesOf role links ⊆ sourcesOf role links' :=
  Finset.image_subset_image (Finset.filter_subset_filter _ h)

/-- More links leave an Episode an Episode. -/
theorem isSome_snapshot_mono {links links' : Finset SourceLink} (h : links ⊆ links')
    (hs : (snapshot hashFields g links).isSome) : (snapshot hashFields g links').isSome := by
  have hgate : hasDistinctSituationAndAgentAct (sourcesOf .situation links)
      (sourcesOf .agentAct links) = true := by
    unfold snapshot at hs
    split at hs
    · assumption
    · cases hs
  obtain ⟨s, hsit, a, hact, hne⟩ := of_decide_eq_true hgate
  have hgate' : hasDistinctSituationAndAgentAct (sourcesOf .situation links')
      (sourcesOf .agentAct links') = true :=
    decide_eq_true ⟨s, sourcesOf_mono h hsit, a, sourcesOf_mono h hact, hne⟩
  simp [snapshot, hgate']

/-- What later commands keep: source events, links, and all links of an Episode that are
no Outcomes. -/
structure Grows (hashFields : List String → String) (l l' : Ledger) : Prop where
  events : ∀ k event, l.events k = some event → l'.events k = some event
  links : ∀ g links, l.groups g = some links → ∃ links', l'.groups g = some links' ∧
    links ⊆ links' ∧ ((snapshot hashFields g links).isSome →
      ∀ link ∈ links', link.role ≠ .outcome → link ∈ links)

theorem Grows.refl (l : Ledger) : Grows hashFields l l :=
  ⟨fun _ _ h => h, fun _ links h => ⟨links, h, fun _ hl => hl, fun _ _ hl _ => hl⟩⟩

theorem Grows.trans {l'' : Ledger} (h : Grows hashFields l l') (h' : Grows hashFields l' l'') :
    Grows hashFields l l'' := by
  refine ⟨fun k event he => h'.events k event (h.events k event he), fun g links hl => ?_⟩
  obtain ⟨links', hl', hsub, hsealed⟩ := h.links g links hl
  obtain ⟨links'', hl'', hsub', hsealed'⟩ := h'.links g links' hl'
  refine ⟨links'', hl'', hsub.trans hsub', fun hs link hlink hrole => ?_⟩
  exact hsealed hs link (hsealed' (isSome_snapshot_mono hsub hs) link hlink hrole) hrole

/-- A taken command keeps what was there. -/
theorem Takes.grows (h : l.Takes hashFields c) : Grows hashFields l (l.add c) := by
  constructor
  · intro k event he
    rw [add_events]
    by_cases hk : k = c.key
    · rw [if_pos hk, ← hk, he, Option.getD_some]
    · rw [if_neg hk, he]
  · intro g links hl
    rw [add_groups]
    have hkeep : ∃ links', l.groups g = some links' ∧ links ⊆ links' ∧
        ((snapshot hashFields g links).isSome → ∀ link ∈ links', link.role ≠ .outcome → link ∈ links) :=
      ⟨links, hl, fun _ hin => hin, fun _ _ hin _ => hin⟩
    cases hlink : c.link with
    | none => exact hkeep
    | some edge =>
      obtain ⟨g', link⟩ := edge
      by_cases hg : g = g'
      · subst hg
        simp only [if_true, hl, Option.getD_some]
        refine ⟨_, rfl, Finset.subset_insert link links, fun hs link' hin hrole => ?_⟩
        rcases Finset.mem_insert.mp hin with rfl | hin
        · have hopen := h.takesLink g link' hlink
          simp only [sealedAgainst, hl, Option.any_some, hs, Bool.and_true, Bool.and_eq_false_iff,
            decide_eq_false_iff_not, not_not, bne_eq_false_iff_eq] at hopen
          exact hopen.resolve_right hrole
        · exact hin
      · simp only [if_neg hg]
        exact hkeep

theorem run_cons (l : Ledger) (c : Command) (commands : List Command) :
    l.run hashFields (c :: commands) = (l.observe hashFields c).2.run hashFields commands := rfl

theorem grows_run (l : Ledger) (commands : List Command) :
    Grows hashFields l (l.run hashFields commands) := by
  induction commands generalizing l with
  | nil => exact Grows.refl l
  | cons c rest ih =>
    rw [run_cons]
    rcases observe_cases hashFields l c with ⟨htakes, hobs⟩ | ⟨e, hobs⟩
    · rw [hobs]
      exact htakes.grows.trans (ih (l.add c))
    · rw [hobs]
      exact ih l

/-! ## Sealing -/

theorem mem_episode_links {e : Episode} {links : Finset SourceLink} (hl : l.groups g = some links)
    (h : l.episode hashFields g = some e) :
    e = ⟨episodeRefOf hashFields g, g, links.sort SourceLink.upTo⟩ := by
  unfold episode snapshot at h
  rw [hl, Option.bind_some] at h
  split at h
  · exact (Option.some.inj h).symm
  · cases h

/-- The same Episode with at most more Outcomes. -/
structure Extends (e e' : Episode) : Prop where
  ref : e'.ref = e.ref
  group : e'.group = e.group
  kept : ∀ link ∈ e.links, link ∈ e'.links
  sealed : ∀ link ∈ e'.links, link.role ≠ .outcome → link ∈ e.links

theorem Grows.episode (h : Grows hashFields l l') {e : Episode}
    (he : l.episode hashFields g = some e) :
    ∃ e', l'.episode hashFields g = some e' ∧ Extends e e' := by
  cases hl : l.groups g with
  | none => simp [Ledger.episode, hl] at he
  | some links =>
    obtain ⟨links', hl', hsub, hsealed⟩ := h.links g links hl
    have hs : (snapshot hashFields g links).isSome := by
      rw [Ledger.episode, hl, Option.bind_some] at he
      rw [he, Option.isSome_some]
    obtain ⟨e', he'⟩ := Option.isSome_iff_exists.mp (isSome_snapshot_mono hsub hs)
    have heps : l'.episode hashFields g = some e' := by
      rw [Ledger.episode, hl', Option.bind_some, he']
    refine ⟨e', heps, ?_⟩
    rw [mem_episode_links hl he, mem_episode_links hl' heps]
    refine ⟨rfl, rfl, fun link hin => ?_, fun link hin hrole => ?_⟩
    · rw [Finset.mem_sort] at hin ⊢
      exact hsub hin
    · rw [Finset.mem_sort] at hin ⊢
      exact hsealed hs link hin hrole

/-! ## Replay -/

/-- The ledger has a command's event and link. -/
structure Has (l : Ledger) (c : Command) : Prop where
  event : l.events c.key = some c.event
  link : ∀ g link, c.link = some (g, link) → ∃ links, l.groups g = some links ∧ link ∈ links

theorem Takes.has (h : l.Takes hashFields c) : (l.add c).Has c := by
  constructor
  · rw [add_events, if_pos rfl]
    cases he : l.events c.key with
    | none => rfl
    | some event => rw [h.same event he, Option.getD_some]
  · intro g link hlink
    rw [add_groups, hlink]
    simp only [if_true]
    exact ⟨_, rfl, Finset.mem_insert_self _ _⟩

theorem Has.grows (h : l.Has c) (hgrows : Grows hashFields l l') : l'.Has c := by
  refine ⟨hgrows.events _ _ h.event, fun g link hlink => ?_⟩
  obtain ⟨links, hl, hin⟩ := h.link g link hlink
  obtain ⟨links', hl', hsub, _⟩ := hgrows.links g links hl
  exact ⟨links', hl', hsub hin⟩

/-- A command whose event and link are there is taken and changes nothing. -/
theorem Has.takes (h : l.Has c) (hvalid : validate c.event c.binding = .ok ()) :
    l.Takes hashFields c ∧ l.add c = l := by
  constructor
  · refine ⟨hvalid, fun event he => ?_, fun g link hlink => ?_⟩
    · rw [h.event] at he
      exact (Option.some.inj he).symm
    · obtain ⟨links, hl, hin⟩ := h.link g link hlink
      simp [sealedAgainst, hl, hin]
  · have hevents : (l.add c).events = l.events := by
      funext k
      rw [add_events]
      by_cases hk : k = c.key
      · rw [if_pos hk, hk, h.event, Option.getD_some]
      · rw [if_neg hk]
    have hgroups : (l.add c).groups = l.groups := by
      funext g
      rw [add_groups]
      cases hlink : c.link with
      | none => rfl
      | some edge =>
        obtain ⟨g', link⟩ := edge
        by_cases hg : g = g'
        · subst hg
          obtain ⟨links, hl, hin⟩ := h.link g link hlink
          simp [hl, Finset.insert_eq_of_mem hin]
        · simp [hg]
    rcases hadd : l.add c with ⟨events, groups⟩
    rw [hadd] at hevents hgroups
    cases l
    simp_all

/-! ## A ledger from its taken commands -/

/-- The ledger holds the events and links of these commands, and no others. -/
structure Records (l : Ledger) (taken : Set Command) : Prop where
  events : ∀ k event, l.events k = some event ↔ ∃ c ∈ taken, c.key = k ∧ c.event = event
  group : ∀ g, (l.groups g).isSome ↔ ∃ c ∈ taken, ∃ link, c.link = some (g, link)
  links : ∀ g links, l.groups g = some links →
    ∀ link, link ∈ links ↔ ∃ c ∈ taken, c.link = some (g, link)

theorem records_new : new.Records ∅ := by
  constructor
  · intro k event
    simp [new]
  · intro g
    simp [new]
  · intro g links h
    cases h

theorem Records.unique {taken : Set Command} (h : l.Records taken) (h' : l'.Records taken) :
    l = l' := by
  have hevents : l.events = l'.events := by
    funext k
    refine Option.ext fun event => ?_
    rw [h.events k event, h'.events k event]
  have hgroups : l.groups = l'.groups := by
    funext g
    have hsome : (l.groups g).isSome ↔ (l'.groups g).isSome := by rw [h.group g, h'.group g]
    cases hl : l.groups g with
    | none => cases hl' : l'.groups g with
      | none => rfl
      | some links' => simp [hl, hl'] at hsome
    | some links => cases hl' : l'.groups g with
      | none => simp [hl, hl'] at hsome
      | some links' =>
        have hset : links = links' := by
          ext link
          rw [h.links g links hl link, h'.links g links' hl' link]
        rw [hset]
  cases l
  cases l'
  simp_all

/-- A taken command is recorded beside the others. -/
theorem Records.add {taken : Set Command} (h : l.Records taken) (htakes : l.Takes hashFields c) :
    (l.add c).Records (insert c taken) := by
  constructor
  · intro k event
    rw [add_events]
    by_cases hk : k = c.key
    · rw [if_pos hk]
      have hsame : (l.events c.key).getD c.event = c.event := by
        cases he : l.events c.key with
        | none => rfl
        | some event' => exact htakes.same event' he
      rw [hsame]
      constructor
      · intro he
        exact ⟨c, Set.mem_insert _ _, hk.symm, Option.some.inj he⟩
      · intro ⟨c', hc', hkey, hevent⟩
        rcases hc' with rfl | hc'
        · rw [hevent]
        · have hold := (h.events k event).mpr ⟨c', hc', hkey, hevent⟩
          rw [hk] at hold
          rw [htakes.same event hold]
    · rw [if_neg hk, h.events k event]
      constructor
      · intro ⟨c', hc', hrest⟩
        exact ⟨c', Set.mem_insert_of_mem _ hc', hrest⟩
      · intro ⟨c', hc', hkey, hevent⟩
        rcases hc' with rfl | hc'
        · exact absurd hkey.symm hk
        · exact ⟨c', hc', hkey, hevent⟩
  · intro g
    rw [add_groups]
    have hold : (l.groups g).isSome → ∃ c' ∈ insert c taken, ∃ link, c'.link = some (g, link) := by
      intro hs
      obtain ⟨c', hc', hlink⟩ := (h.group g).mp hs
      exact ⟨c', Set.mem_insert_of_mem _ hc', hlink⟩
    have hnew : (∀ link, c.link ≠ some (g, link)) →
        (∃ c' ∈ insert c taken, ∃ link, c'.link = some (g, link)) → (l.groups g).isSome := by
      intro hno ⟨c', hc', link, hlink⟩
      rcases hc' with rfl | hc'
      · exact absurd hlink (hno link)
      · exact (h.group g).mpr ⟨c', hc', link, hlink⟩
    cases hlink : c.link with
    | none => exact ⟨hold, hnew fun link he => by rw [hlink] at he; cases he⟩
    | some edge =>
      obtain ⟨g', link⟩ := edge
      by_cases hg : g = g'
      · subst hg
        simp only [if_true, Option.isSome_some, true_iff]
        exact ⟨c, Set.mem_insert _ _, link, hlink⟩
      · simp only [if_neg hg]
        refine ⟨hold, hnew fun link' he => ?_⟩
        rw [hlink] at he
        exact hg (congrArg Prod.fst (Option.some.inj he)).symm
  · intro g links hl link'
    rw [add_groups] at hl
    have hskip : (∀ link, c.link ≠ some (g, link)) → l.groups g = some links →
        (link' ∈ links ↔ ∃ c' ∈ insert c taken, c'.link = some (g, link')) := by
      intro hno hl
      rw [h.links g links hl link']
      constructor
      · intro ⟨c', hc', he⟩
        exact ⟨c', Set.mem_insert_of_mem _ hc', he⟩
      · intro ⟨c', hc', he⟩
        rcases hc' with rfl | hc'
        · exact absurd he (hno link')
        · exact ⟨c', hc', he⟩
    cases hlink : c.link with
    | none =>
      rw [hlink] at hl
      exact hskip (fun link he => by rw [hlink] at he; cases he) hl
    | some edge =>
      obtain ⟨g', link⟩ := edge
      rw [hlink] at hl
      by_cases hg : g = g'
      · subst hg
        simp only [if_true] at hl
        obtain rfl := Option.some.inj hl
        have hbefore : link' ∈ (l.groups g).getD ∅ ↔ ∃ c' ∈ taken, c'.link = some (g, link') := by
          cases hgroup : l.groups g with
          | none =>
            have hno := (h.group g).not.mp (by rw [hgroup]; simp)
            simp only [Option.getD_none, Finset.notMem_empty, false_iff]
            intro ⟨c', hc', he⟩
            exact hno ⟨c', hc', link', he⟩
          | some links => exact h.links g links hgroup link'
        rw [Finset.mem_insert, hbefore]
        constructor
        · intro hor
          rcases hor with rfl | ⟨c', hc', he⟩
          · exact ⟨c, Set.mem_insert _ _, hlink⟩
          · exact ⟨c', Set.mem_insert_of_mem _ hc', he⟩
        · intro ⟨c', hc', he⟩
          rcases hc' with rfl | hc'
          · rw [hlink] at he
            exact Or.inl (congrArg Prod.snd (Option.some.inj he)).symm
          · exact Or.inr ⟨c', hc', he⟩
      · simp only [if_neg hg] at hl
        refine hskip (fun link' he => ?_) hl
        rw [hlink] at he
        exact hg (congrArg Prod.fst (Option.some.inj he)).symm

theorem accepted_cons (l : Ledger) (c : Command) (commands : List Command) :
    l.accepted hashFields (c :: commands) =
      if (l.observe hashFields c).1.toBool then
        c :: (l.observe hashFields c).2.accepted hashFields commands
      else (l.observe hashFields c).2.accepted hashFields commands := rfl

/-- A run records what it takes. -/
theorem Records.run {taken : Set Command} (h : l.Records taken) (commands : List Command) :
    (l.run hashFields commands).Records
      {c | c ∈ l.accepted hashFields commands ∨ c ∈ taken} := by
  induction commands generalizing l taken with
  | nil =>
    have hset : {c | c ∈ l.accepted hashFields [] ∨ c ∈ taken} = taken := by
      ext c
      simp [accepted]
    rw [hset]
    exact h
  | cons c rest ih =>
    rw [run_cons, accepted_cons]
    rcases observe_cases hashFields l c with ⟨htakes, hobs⟩ | ⟨e, hobs⟩
    · rw [hobs]
      have hset : {c' | c' ∈ (if (Except.ok ((l.add c).report hashFields c) :
          Except Fault (Option Episode)).toBool then c :: (l.add c).accepted hashFields rest
          else (l.add c).accepted hashFields rest) ∨ c' ∈ taken} =
          {c' | c' ∈ (l.add c).accepted hashFields rest ∨ c' ∈ insert c taken} := by
        ext c'
        simp only [Except.toBool, if_true, Set.mem_ofPred_eq, List.mem_cons, Set.mem_insert_iff]
        tauto
      simp only
      rw [hset]
      exact ih (h.add htakes)
    · rw [hobs]
      simp only [Except.toBool, Bool.false_eq_true, if_false]
      exact ih h

end

/-! ## The laws of the ledger -/

/-- An Episode keeps its ref and all its links but Outcomes; a taken command is taken
again and changes nothing; a refused command changes nothing; and two runs that take the
same commands end in the same ledger, with the same Episodes. -/
theorem observe_laws (hashFields : List String → String) :
    (∀ (l : Ledger) (commands : List Command) (g : StableGroupRef) (e : Episode),
      l.episode hashFields g = some e →
        ∃ e', (l.run hashFields commands).episode hashFields g = some e' ∧ Extends e e') ∧
    (∀ (l : Ledger) (c : Command) (r : Option Episode) (commands : List Command),
      (l.observe hashFields c).1 = .ok r →
        ∃ r', ((l.observe hashFields c).2.run hashFields commands).observe hashFields c =
          (.ok r', (l.observe hashFields c).2.run hashFields commands)) ∧
    (∀ (l : Ledger) (c : Command) (e : Fault),
      (l.observe hashFields c).1 = .error e → (l.observe hashFields c).2 = l) ∧
    (∀ commands commands' : List Command,
      (∀ c, c ∈ new.accepted hashFields commands ↔ c ∈ new.accepted hashFields commands') →
        new.run hashFields commands = new.run hashFields commands' ∧
        ∀ g, (new.run hashFields commands).episode hashFields g =
          (new.run hashFields commands').episode hashFields g) := by
  refine ⟨fun l commands g e he => (grows_run l commands).episode he, ?_,
    fun l c e he => observe_refused he, ?_⟩
  · intro l c r commands hr
    have htakes := takes_of_observe hr
    have hobs := observe_of_takes htakes
    rw [hobs]
    have hgrown : Grows hashFields (l.add c) _ := grows_run (l.add c) commands
    have hhas := htakes.has.grows hgrown
    obtain ⟨hagain, hsame⟩ : Takes hashFields _ c ∧ _ := hhas.takes htakes.valid
    rw [observe_of_takes hagain, hsame]
    exact ⟨_, rfl⟩
  · intro commands commands' hsame
    have h : (new.run hashFields commands).Records _ := records_new.run commands
    have h' : (new.run hashFields commands').Records _ := records_new.run commands'
    have hset : {c | c ∈ new.accepted hashFields commands ∨ c ∈ (∅ : Set Command)} =
        {c | c ∈ new.accepted hashFields commands' ∨ c ∈ (∅ : Set Command)} := by
      ext c
      simp only [Set.mem_ofPred_eq, hsame c]
    rw [hset] at h
    have heq := h.unique h'
    exact ⟨heq, fun g => by rw [heq]⟩

/-! ## A run

A situation, an agent act that makes the group an Episode, a situation too late, and a
late Outcome. -/

def sampleDigestOf (fields : List String) : String := ",".intercalate fields

def sampleLedgerScope : Scope := ⟨.agent, "tenant", "agent", "", "session"⟩

def sampleLedgerCommand (role : SourceRole) (actor : ActorKind) (ref : String) : Command :=
  ⟨⟨ref, sampleLedgerScope, actor, "agent", "text of " ++ ref, {}⟩, ⟨"run", "group", role⟩⟩

def sampleLedgerCommands : List Command :=
  [sampleLedgerCommand .situation .user "asked", sampleLedgerCommand .agentAct .agent "answered",
    sampleLedgerCommand .situation .user "too-late"]

def sampleLedger : Ledger := new.run sampleDigestOf sampleLedgerCommands

def sampleGroup : StableGroupRef := ⟨sampleLedgerScope, "run", "group"⟩

theorem sampleLedger_episode : (sampleLedger.episode sampleDigestOf sampleGroup).isSome := by
  decide

theorem observe_laws_sample :
    (∃ e', (sampleLedger.run sampleDigestOf
      [sampleLedgerCommand .outcome .user "praised"]).episode sampleDigestOf sampleGroup = some e' ∧
        Extends ((sampleLedger.episode sampleDigestOf sampleGroup).get sampleLedger_episode) e') ∧
    (sampleLedger.observe sampleDigestOf (sampleLedgerCommand .situation .user "other")).2 =
      sampleLedger ∧
    new.run sampleDigestOf sampleLedgerCommands =
      new.run sampleDigestOf (sampleLedgerCommands.take 2) := by
  obtain ⟨hkeeps, _, hrefused, hsame⟩ := observe_laws sampleDigestOf
  refine ⟨hkeeps sampleLedger _ sampleGroup _ (Option.some_get _).symm, ?_, ?_⟩
  · exact hrefused sampleLedger _ ⟨.episodeSealed, "", ""⟩ (by decide)
  · have htaken : new.accepted sampleDigestOf sampleLedgerCommands =
        new.accepted sampleDigestOf (sampleLedgerCommands.take 2) := by decide
    exact (hsame sampleLedgerCommands _ fun c => by rw [htaken]).1

end Ledger

end ChoraMem
