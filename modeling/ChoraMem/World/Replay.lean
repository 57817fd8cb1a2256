/-
Applying a change among other transactions.

Under the locks of the owners whose Memory a change may touch, each statement of the
change reads from the committed store what it would read from the store its transaction
commits in.  So a change that goes through did there what it does alone, one deed, and
the outbox beside it.
-/
import ChoraMem.World.Agreement

namespace ChoraMem

open Txn Versions

/-- What a transaction has gathered when it applies changes: the locks of the owners,
rows that can be read by owner, and Episodes that it knows of. -/
structure Ready (store : Store) (o : OwnerScope → Prop) (d : Db) (known : String → String → Prop)
    (l : Local Write String) (e : Db) : Prop where
  locked : ∀ owner, o owner → store.Locked l.held owner
  rows : ∀ w ∈ l.log, RowOk d w
  cited : ∀ b, .insertSeedBasis b ∈ l.log → known b.tenantRef b.basisRef
  known : ∀ tenantRef ref, known tenantRef ref → Known tenantRef ref e

section

variable {store : Store} {o : OwnerScope → Prop} {d : Db} {known : String → String → Prop}
variable {l : Local Write String} {e e' : Db}

theorem Ready.later (h : Ready store o d known l e) (hb : (memoryPact store).Between l e e' d) :
    Ready store o d known l e' :=
  ⟨h.locked, h.rows, h.cited, fun t r hk => (h.known t r hk).mono hb.since.gains⟩

theorem Ready.agree (h : Ready store o d known l e) (hd : WorldLaw store d)
    (hb : (memoryPact store).Between l e e' d) :
    Agree o d (applyAll e' l.log) (applyAll d l.log) := by
  have hinv : WorldLaw store e' := hb.inv
  have hsame : SameMemory o e' d := hb.before.same.mono h.locked
  exact (hsame.agree hinv.memory hd.memory hb.before.gains).applyAll l.log

theorem Ready.readable (h : Ready store o d known l e) (hd : WorldLaw store d)
    (hb : (memoryPact store).Between l e e' d) : Readable o d (applyAll e' l.log) := by
  have hinv : WorldLaw store e' := hb.inv
  exact (hinv.memory.readable hd.memory hb.before.gains).applyAll h.rows

theorem Ready.readable_end (h : Ready store o d known l e) (hd : WorldLaw store d) :
    Readable o d (applyAll d l.log) :=
  (hd.memory.readable hd.memory (Gains.refl d)).applyAll h.rows

theorem episodes_of_rows {x : Db} {ws : List Write} (h : ∀ w ∈ ws, RowOk d w) :
    (applyAll x ws).episodes = x.episodes := by
  induction ws generalizing x with
  | nil => rfl
  | cons w rest ih =>
    rw [applyAll_cons, ih fun w' hw' => h w' (List.mem_cons_of_mem _ hw')]
    have hw := h w List.mem_cons_self
    cases w with
    | insertEpisode r => exact hw.elim
    | _ => rfl

theorem of_mem_seedBasis {x : Db} {ws : List Write} {b : BasisRow}
    (h : b ∈ (applyAll x ws).seedBasis) : b ∈ x.seedBasis ∨ .insertSeedBasis b ∈ ws := by
  induction ws generalizing x with
  | nil => exact Or.inl h
  | cons w rest ih =>
    rcases ih h with hb | hb
    · cases w with
      | insertSeedBasis r =>
        rcases mem_insertRow_id.mp (show b ∈ insertRow id r x.seedBasis from hb) with hb | rfl
        · exact Or.inl hb
        · exact Or.inr List.mem_cons_self
      | _ => exact Or.inl hb
    · exact Or.inr (List.mem_cons_of_mem _ hb)

/-- Every basis that a statement sees cites an Episode that it sees. -/
theorem Ready.knownBasis (h : Ready store o d known l e)
    (hb : (memoryPact store).Between l e e' d) :
    ∀ b ∈ (applyAll e' l.log).seedBasis, Known b.tenantRef b.basisRef (applyAll e' l.log) := by
  have hinv : WorldLaw store e' := hb.inv
  have hgains := gains_applyAll e' l.log
  intro b hmem
  rcases of_mem_seedBasis hmem with hmem | hmem
  · exact (hinv.cited b hmem).mono hgains
  · exact ((h.later hb).known _ _ (h.cited b hmem)).mono hgains

/-- Rows that may follow. -/
theorem Ready.write (h : Ready store o d known l e) {ws : List Write} (hws : ∀ w ∈ ws, RowOk d w)
    (hcite : ∀ b, .insertSeedBasis b ∈ ws → known b.tenantRef b.basisRef) :
    Ready store o d known { l with log := l.log ++ ws } e where
  locked := h.locked
  rows := fun w hw => (List.mem_append.mp hw).elim (h.rows w) (hws w)
  cited := fun b hb => (List.mem_append.mp hb).elim (h.cited b) (hcite b)
  known := h.known

theorem Ready.write_one (h : Ready store o d known l e) {w : Write} (hw : RowOk d w)
    (hcite : ∀ b, w = .insertSeedBasis b → known b.tenantRef b.basisRef) :
    Ready store o d known { l with log := l.log ++ [w] } e :=
  h.write (fun _ hw' => (List.mem_singleton.mp hw') ▸ hw)
    fun b hb => hcite b (List.mem_singleton.mp hb).symm

/-! ## Statements -/

/-- A run that goes through among others, judged by what it does alone. -/
theorem ends_of_replays {α : Type} {p : Tx α} {Q : α → Db → Prop}
    {R : Local Write String → Db → Prop} (h : (memoryPact store).Replays d p R l e)
    (hp : Achieves p Q (applyAll d l.log)) :
    (memoryPact store).Ends d p (fun a l' e' => Q a (applyAll d l'.log) ∧ R l' e') l e := by
  refine h.conseq fun a l' e' hrun => ⟨?_, hrun.2⟩
  have hwp := (Prog.wp_exec l.log).mp hp
  rw [hrun.1] at hwp
  exact hwp

/-- A query that cannot tell the stores apart. -/
theorem Ready.select {α β : Type} (h : Ready store o d known l e)
    {q : Db → α} {f : α → Tx β} {R : Local Write String → Db → Prop}
    (hq : ∀ e', (memoryPact store).Between l e e' d →
      q (applyAll e' l.log) = q (applyAll d l.log))
    (hf : ∀ e', Ready store o d known l e' →
      (memoryPact store).Replays d (f (q (applyAll d l.log))) R l e') :
    (memoryPact store).Replays d (Prog.select q >>= f) R l e :=
  Pact.Replays.select hq fun e' hb => hf e' (h.later hb)

/-- An insert that goes through, where its key is free in the last store too. -/
theorem replays_insertFresh {taken : Db → Bool} {w : Write} {operation : String}
    (h : Ready store o d known l e) (hcite : ∀ b, w = .insertSeedBasis b → known b.tenantRef b.basisRef)
    (hfree : ∀ e', (memoryPact store).Between l e e' d → Keyed w e' d →
      taken (applyAll e' l.log) = false → RowOk d w ∧ taken (applyAll d l.log) = false) :
    (memoryPact store).Replays d (insertFresh taken w operation)
      (fun l' e' => Ready store o d known l' e' ∧ l' = { l with log := l.log ++ [w] }) l e := by
  intro e' hb hrel
  dsimp only at hrel ⊢
  cases ht : taken (applyAll e' l.log) with
  | true => exact trivial
  | false =>
    simp only [ht, Bool.false_eq_true, if_false] at hrel ⊢
    obtain ⟨hrow, hd⟩ := hfree e' hb
      (hrel.keyed w (List.mem_append_right _ (List.mem_singleton.mpr rfl))).1 ht
    refine ⟨?_, (h.later hb).write_one hrow hcite, rfl⟩
    simp [insertFresh, Prog.exec, hd]

theorem replays_insertBasis {table : Db → List BasisRow} {w : BasisRow → Write} {row : BasisRow}
    (h : Ready store o d known l e) (hd : WorldLaw store d)
    (hmem : ∀ x y, Agree o d x y → (row ∈ table x ↔ row ∈ table y)) (hrow : RowOk d (w row))
    (hcite : ∀ b, w row = .insertSeedBasis b → known b.tenantRef b.basisRef) :
    (memoryPact store).Replays d (insertBasis table w row) (Ready store o d known) l e := by
  refine Pact.Replays.write fun e' hb hrel => ?_
  have hiff := hmem _ _ (h.agree hd hb)
  dsimp only
  refine ⟨by simp only [hiff], by simp only [hiff], ?_⟩
  refine Pact.Replays.ret ?_
  by_cases hx : row ∈ table (applyAll e' l.log)
  · simp only [hx, if_true, List.append_nil]
    exact h.later hb
  · simp only [hx, if_false]
    exact (h.later hb).write_one hrow hcite

theorem replays_insertBases {table : Db → List BasisRow} {w : BasisRow → Write}
    {tenantRef versionRef : String} {role : BasisRole} {refs : List String} {applied : Bool}
    (h : Ready store o d known l e) (hd : WorldLaw store d)
    (hmem : ∀ row : BasisRow, row.versionRef = versionRef → ∀ x y, Agree o d x y →
      (row ∈ table x ↔ row ∈ table y))
    (hrow : ∀ row, RowOk d (w row))
    (hcite : ∀ ref ∈ refs, ∀ b, w ⟨tenantRef, versionRef, ref, role⟩ = .insertSeedBasis b →
      known b.tenantRef b.basisRef) :
    (memoryPact store).Replays d (insertBases table w tenantRef versionRef role refs applied)
      (Ready store o d known) l e := by
  induction refs generalizing applied l e with
  | nil => exact Pact.Replays.ret h
  | cons ref rest ih =>
    refine Pact.Replays.bind (replays_insertBasis h hd (hmem _ rfl) (hrow _)
      (hcite ref List.mem_cons_self)) fun a l' e' _ h' => ?_
    exact ih h' fun r hr => hcite r (List.mem_cons_of_mem _ hr)

/-- A basis of Episodes that are known. -/
theorem replays_insertEpisodeBasis {tenantRef versionRef : String} {refs : List String}
    {role : BasisRole} (h : Ready store o d known l e) (hd : WorldLaw store d)
    (hfree : FreeSeedVersion o d versionRef) (hknown : ∀ ref ∈ refs, known tenantRef ref) :
    (memoryPact store).Replays d (insertEpisodeBasis tenantRef versionRef refs role)
      (Ready store o d known) l e := by
  refine replays_insertBases h hd (fun row hrow x y hagree => ?_) (fun _ => trivial) ?_
  · exact hagree.seedBasis row (by subst hrow; exact hfree)
  · intro ref href b hb
    obtain rfl := Write.insertSeedBasis.inj hb
    exact hknown ref href

theorem replays_insertOutcomeBasis {tenantRef versionRef : String} {refs : List String}
    {role : BasisRole} (h : Ready store o d known l e) (hd : WorldLaw store d)
    (hfree : FreeSeedVersion o d versionRef) :
    (memoryPact store).Replays d (insertOutcomeBasis tenantRef versionRef refs role)
      (Ready store o d known) l e := by
  refine replays_insertBases h hd (fun row hrow x y hagree => ?_) (fun _ => trivial) ?_
  · exact hagree.seedOutcomeBasis row (by subst hrow; exact hfree)
  · intro ref _ b hb
    cases hb

theorem replays_insertRecollectionBasis {tenantRef versionRef : String} {refs : List String}
    {role : BasisRole} (h : Ready store o d known l e) (hd : WorldLaw store d)
    (hfree : FreeRecollectionVersion o d versionRef) :
    (memoryPact store).Replays d (insertRecollectionBasis tenantRef versionRef refs role)
      (Ready store o d known) l e := by
  refine replays_insertBases h hd (fun row hrow x y hagree => ?_) (fun _ => trivial) ?_
  · exact hagree.recollectionBasis row (by subst hrow; exact hfree)
  · intro ref _ b hb
    cases hb

theorem replays_insertFormationBasis {tenantRef versionRef : String} {refs : List String}
    (h : Ready store o d known l e) (hd : WorldLaw store d) (hfree : FreeSeedVersion o d versionRef)
    (hknown : ∀ ref ∈ refs, known tenantRef ref) :
    (memoryPact store).Replays d (insertFormationBasis tenantRef versionRef refs)
      (Ready store o d known) l e := by
  unfold insertFormationBasis
  induction refs generalizing l e with
  | nil => exact Pact.Replays.ret h
  | cons ref rest ih =>
    refine Pact.Replays.bind (replays_insertFresh h ?_ fun e' hb _ ht => ⟨trivial, ?_⟩)
      fun _ l' e' _ h' => ih h'.1 fun r hr => hknown r (List.mem_cons_of_mem _ hr)
    · intro b hb
      obtain rfl := Write.insertSeedBasis.inj hb
      exact hknown ref List.mem_cons_self
    · rw [decide_eq_false_iff_not] at ht ⊢
      exact fun hmem => ht (((h.agree hd hb).seedBasis _ hfree).mpr hmem)

/-- A row under a fresh root. -/
theorem any_of_keyed {ρ : Type} {key : ρ → String} {k : String} {t u : List ρ}
    (h : SameRows (fun x => key x = k) t u) :
    (t.any fun x => decide (key x = k)) = u.any fun x => decide (key x = k) := by
  rw [Bool.eq_iff_iff]
  simp only [List.any_eq_true, decide_eq_true_eq]
  constructor
  · exact fun ⟨x, hx, hk⟩ => ⟨x, (h x hk).mp hx, hk⟩
  · exact fun ⟨x, hx, hk⟩ => ⟨x, (h x hk).mpr hx, hk⟩

theorem Keyed.applyAll {w : Write} {x y : Db} (h : Keyed w x y) (ws : List Write) :
    Keyed w (Txn.applyAll x ws) (Txn.applyAll y ws) := by
  have hkey : ∀ {ρ κ : Type} {key : ρ → κ} {k : κ} (a b : ρ), key a = key b →
      (key a = k ↔ key b = k) := by
    intro ρ κ key k a b hab
    rw [hab]
  induction ws generalizing x y with
  | nil => exact h
  | cons w' rest ih =>
    refine ih ?_
    cases w with
    | insertSeed r =>
      cases w' with
      | insertSeed r' => exact SameRows.insertRow hkey h r'
      | _ => exact h
    | insertSeedVersion r | updateSeedVersion r =>
      cases w' with
      | insertSeedVersion r' => exact SameRows.insertRow hkey h r'
      | updateSeedVersion r' => exact SameRows.updateRow h r'
      | _ => exact h
    | insertRecollection r =>
      cases w' with
      | insertRecollection r' => exact SameRows.insertRow hkey h r'
      | _ => exact h
    | insertRecollectionVersion r | updateRecollectionVersion r =>
      cases w' with
      | insertRecollectionVersion r' => exact SameRows.insertRow hkey h r'
      | updateRecollectionVersion r' => exact SameRows.updateRow h r'
      | _ => exact h
    | insertReceipt r =>
      cases w' with
      | insertReceipt r' => exact SameRows.insertRow hkey h r'
      | _ => exact h
    | insertContext r =>
      cases w' with
      | insertContext r' => exact SameRows.insertRow hkey h r'
      | _ => exact h
    | _ => exact trivial

/-! ## Seeds -/

theorem freeSeed_of_row {ref : String} {owner : OwnerScope} (h : RowOk d (.insertSeed ⟨owner, ref⟩)) :
    FreeSeed o d ref :=
  fun s hs href => absurd href (h s hs)

theorem freeRecollection_of_row {ref : String} {owner : OwnerScope}
    (h : RowOk d (.insertRecollection ⟨owner, ref⟩)) : FreeRecollection o d ref :=
  fun s hs href => absurd href (h s hs)

/-- The root and the first version of a Seed that nobody has. -/
theorem replays_insertSeed {owner : OwnerScope} {jobRef tendency ref : String}
    (h : Ready store o d known l e) (hd : WorldLaw store d) :
    (memoryPact store).Replays d (Store.insertSeed owner jobRef tendency ref)
      (fun l' e' => Ready store o d known l' e' ∧ FreeSeed o d ref) l e := by
  refine Pact.Replays.bind (replays_insertFresh h (fun b hb => by cases hb) fun e' hb hk ht => ?_) ?_
  · have hany := any_of_keyed (hk.applyAll l.log)
    have hfresh := any_of_keyed hk
    have hrow : (e'.seeds.any fun s => decide (s.ref = ref)) = false := by
      rw [List.any_eq_false] at ht ⊢
      exact fun s hs => ht s ((gains_applyAll e' l.log).seeds hs)
    refine ⟨fun s hs => ?_, hany ▸ ht⟩
    have hno := List.any_eq_false.mp (hfresh ▸ hrow) s hs
    simpa using hno
  rintro _ l₁ e₁ _ ⟨h₁, rfl⟩
  have hfree : FreeSeed o d ref :=
    freeSeed_of_row (h₁.rows _ (List.mem_append_right _ (List.mem_singleton.mpr rfl)))
  refine Pact.Ends.conseq (replays_insertFresh h₁ (fun b hb => by cases hb) fun e' hb _ ht =>
    ⟨rfl, ?_⟩) fun _ l₂ e₂ h₂ => ⟨h₂.1, h₂.2.1, hfree⟩
  rw [← (h₁.agree hd hb).seedVersionConflict (h₁.readable hd hb) (h₁.readable_end hd) rfl hfree]
  exact ht

theorem replays_insertRecollection {env : Ambient} {owner : OwnerScope}
    {jobRef application text ref : String} (h : Ready store o d known l e) (hd : WorldLaw store d) :
    (memoryPact store).Replays d
      (Store.insertRecollection env owner jobRef application text ref)
      (fun l' e' => Ready store o d known l' e' ∧ FreeRecollection o d ref) l e := by
  refine Pact.Replays.bind (replays_insertFresh h (fun b hb => by cases hb) fun e' hb hk ht => ?_) ?_
  · have hany := any_of_keyed (hk.applyAll l.log)
    have hfresh := any_of_keyed hk
    have hrow : (e'.recollections.any fun s => decide (s.ref = ref)) = false := by
      rw [List.any_eq_false] at ht ⊢
      exact fun s hs => ht s ((gains_applyAll e' l.log).recollections hs)
    refine ⟨fun s hs => ?_, hany ▸ ht⟩
    have hno := List.any_eq_false.mp (hfresh ▸ hrow) s hs
    simpa using hno
  rintro _ l₁ e₁ _ ⟨h₁, rfl⟩
  have hfree : FreeRecollection o d ref :=
    freeRecollection_of_row (h₁.rows _ (List.mem_append_right _ (List.mem_singleton.mpr rfl)))
  refine Pact.Ends.conseq (replays_insertFresh h₁ (fun b hb => by cases hb) fun e' hb _ ht =>
    ⟨rfl, ?_⟩) fun _ l₂ e₂ h₂ => ⟨h₂.1, h₂.2.1, hfree⟩
  rw [← (h₁.agree hd hb).recollectionVersionConflict (h₁.readable hd hb) (h₁.readable_end hd) rfl
    hfree]
  exact ht

theorem replays_formSeed {owner : OwnerScope} {jobRef tendency : String}
    {episodes outcomes : List String} (h : Ready store o d known l e) (hd : WorldLaw store d)
    (ho : o owner) (hknown : ∀ ref ∈ episodes, known owner.tenantRef ref) :
    (memoryPact store).Replays d (store.formSeed owner jobRef tendency episodes outcomes)
      (Ready store o d known) l e := by
  refine h.select (fun e' hb =>
    (h.agree hd hb).activeTendency (h.readable hd hb) (h.readable_end hd) ho _ _) fun e₁ h₁ => ?_
  split
  · exact Pact.Replays.ret h₁
  refine Pact.Replays.bind (replays_insertSeed h₁ hd) fun _ l₂ e₂ _ h₂ => ?_
  obtain ⟨h₂, hfree⟩ := h₂
  refine Pact.Replays.bind (replays_insertFormationBasis h₂ hd ⟨_, _, rfl, hfree⟩ hknown)
    fun _ l₃ e₃ _ h₃ => ?_
  exact Pact.Replays.bind (replays_insertOutcomeBasis h₃ hd ⟨_, _, rfl, hfree⟩)
    fun _ l₄ e₄ _ h₄ => Pact.Replays.ret h₄

theorem replays_formRecollection {env : Ambient} {owner : OwnerScope}
    {jobRef application text : String} {basis : List String} (h : Ready store o d known l e)
    (hd : WorldLaw store d) (ho : o owner) :
    (memoryPact store).Replays d
      (store.formRecollection env owner jobRef application text basis) (Ready store o d known) l e := by
  refine h.select (fun e' hb =>
    (h.agree hd hb).activeText (h.readable hd hb) (h.readable_end hd) ho _ _ _) fun e₁ h₁ => ?_
  split
  · exact Pact.Replays.ret h₁
  refine Pact.Replays.bind (replays_insertRecollection h₁ hd) fun _ l₂ e₂ _ h₂ => ?_
  obtain ⟨h₂, hfree⟩ := h₂
  exact Pact.Replays.bind (replays_insertRecollectionBasis h₂ hd ⟨_, _, rfl, hfree⟩)
    fun _ l₃ e₃ _ h₃ => Pact.Replays.ret h₃

/-- The old version of a revision. -/
theorem replays_supersedeSeedVersion {tenantRef versionRef : String}
    (h : Ready store o d known l e) (hd : WorldLaw store d)
    (hfree : FreeSeedVersion o d versionRef) :
    (memoryPact store).Replays d (supersedeSeedVersion tenantRef versionRef)
      (Ready store o d known) l e := by
  intro e' hb hrel
  dsimp only [Prog.bind, Prog.bind_def] at hrel ⊢
  by_cases hone : (activeSeedVersions tenantRef versionRef (applyAll e' l.log)).length = 1
  · obtain ⟨u, hu⟩ := List.length_eq_one_iff.mp hone
    have huy := (h.agree hd hb).activeSeedVersions (h.readable_end hd) hfree hu
    simp only [hu, List.length_singleton, if_true, List.map_cons, List.map_nil]
    have hname := (h.readable hd hb).seedNames u (ref_of_activeSeedVersions hu).1
    refine ⟨?_, (h.later hb).write_one hname fun b hb' => by cases hb'⟩
    simp [supersedeSeedVersion, Prog.exec, huy]
  · simp only [hone, if_false]
    exact trivial

theorem replays_supersedeRecollectionVersion {tenantRef versionRef : String}
    (h : Ready store o d known l e) (hd : WorldLaw store d)
    (hfree : FreeRecollectionVersion o d versionRef) :
    (memoryPact store).Replays d (supersedeRecollectionVersion tenantRef versionRef)
      (Ready store o d known) l e := by
  intro e' hb hrel
  dsimp only [Prog.bind, Prog.bind_def] at hrel ⊢
  by_cases hone : (activeRecollectionVersions tenantRef versionRef (applyAll e' l.log)).length = 1
  · obtain ⟨u, hu⟩ := List.length_eq_one_iff.mp hone
    have huy := (h.agree hd hb).activeRecollectionVersions (h.readable_end hd) hfree hu
    simp only [hu, List.length_singleton, if_true, List.map_cons, List.map_nil]
    have hname := (h.readable hd hb).recollectionNames u (ref_of_activeRecollectionVersions hu).1
    refine ⟨?_, (h.later hb).write_one hname fun b hb' => by cases hb'⟩
    simp [supersedeRecollectionVersion, Prog.exec, huy]
  · simp only [hone, if_false]
    exact trivial

end

end ChoraMem
