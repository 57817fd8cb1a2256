/-
Which canonical records can be projected.

The ledger admits a ref by its length, the projector by its characters.  In a reached store
the refs and the texts of documents are what the projector asks for, so what is left is the
owner: a record is projected when the tenant, agent and relationship refs of its owner have
no white space, and a rebuild ends with an index when this holds of every document.
-/
import ChoraMem.Projection.Pages
import ChoraMem.World.Documents

namespace ChoraMem

open Txn

/-! ## Documents of a printed store -/

/-- No ref of the lane has white space. -/
structure IndexScope.Plain (scope : IndexScope) : Prop where
  tenant : containsSpace scope.tenantRef = false
  agent : containsSpace scope.agentRef = false
  relationship : containsSpace scope.relationshipRef = false

/-- The operation and the document of a record are what the projector asks for. -/
structure Db.Projects (d : Db) (r : DocumentRef) : Prop where
  identity : validOperationIdentity r = true
  document : ∀ document, memoryIndexDocument r d = some document → validDocument document = true

section

variable {store : Store} {d : Db}

theorem validProjectionScope_iff {scope : IndexScope} (htenant : scope.tenantRef ≠ "")
    (hagent : scope.agentRef ≠ "") : validProjectionScope scope = true ↔ scope.Plain := by
  simp only [validProjectionScope, validProjectionRef, Bool.and_eq_true, Bool.or_eq_true, bne_iff_ne,
    Bool.not_eq_true', htenant, hagent, ne_eq, not_false_eq_true, or_true, true_and, true_or]
  exact ⟨fun h => ⟨h.1.1, h.1.2, h.2⟩, fun h => ⟨⟨h.tenant, h.agent⟩, h.relationship⟩⟩

theorem trimSpace_ne_empty {text : String} {c : Char} {rest : List Char}
    (htext : text.toList = c :: rest) (hc : isSpace c = false) : trimSpace text ≠ "" := by
  intro hempty
  have hnil : Text.strip isSpace text.toList = [] := by
    rw [← toList_trimSpace, hempty]
    rfl
  have hall := Text.strip_eq_nil.mp hnil c (by rw [htext]; exact List.mem_cons_self)
  rw [hc] at hall
  cases hall

/-- The document of an Episode begins with its marker. -/
theorem renderDocument_ne_blank (ref sessionRef : String) (sources : List SourceEvidence) :
    trimSpace (renderDocument ref sessionRef sources) ≠ "" := by
  have htext : ∃ rest, (renderDocument ref sessionRef sources).toList = 'E' :: rest := by
    simp only [renderDocument, joinLines, List.cons_append, List.map_cons, String.join_cons,
      String.toList_append]
    exact ⟨_, rfl⟩
  obtain ⟨rest, htext⟩ := htext
  exact trimSpace_ne_empty htext (by decide)

theorem documentText_ne_blank (hd : store.Printed d) {r : DocumentRef} {text : String}
    (h : documentText r d = some text) : trimSpace text ≠ "" := by
  unfold documentText at h
  split at h
  · split at h
    · cases h
    · dsimp only at h
      split at h
      · cases h
      · obtain rfl := Option.some.inj h
        exact renderDocument_ne_blank _ _ _
  · obtain ⟨v, hv, rfl⟩ := Option.map_eq_some_iff.mp h
    have hactive := List.find?_some hv
    simp only [Bool.and_eq_true, beq_iff_eq] at hactive
    exact (hd.recollectionVersions v (List.mem_of_find?_eq_some hv)).2 hactive.1.2
  · obtain ⟨v, hv, rfl⟩ := Option.map_eq_some_iff.mp h
    have hactive := List.find?_some hv
    simp only [Bool.and_eq_true, beq_iff_eq] at hactive
    exact (hd.seedVersions v (List.mem_of_find?_eq_some hv)).2 hactive.1.2

/-- With a ref and an owner that are printed only white space in the owner's refs is left. -/
theorem projects_iff (hd : store.Printed d) {r : DocumentRef} (href : PlainRef r.ref)
    (htenant : r.scope.tenantRef ≠ "") (hagent : r.scope.agentRef ≠ "") :
    d.Projects r ↔ r.scope.Plain := by
  have hscope := validProjectionScope_iff htenant hagent
  constructor
  · intro h
    have hidentity := h.identity
    rw [validOperationIdentity, Bool.and_eq_true] at hidentity
    exact hscope.mp hidentity.2
  · intro h
    refine ⟨?_, fun document hdocument => ?_⟩
    · rw [validOperationIdentity, Bool.and_eq_true]
      exact ⟨href, hscope.mpr h⟩
    · obtain ⟨text, htext, rfl⟩ := Option.map_eq_some_iff.mp hdocument
      have htext := documentText_ne_blank hd htext
      rw [validDocument, Bool.and_eq_true, Bool.and_eq_true]
      exact ⟨⟨href, hscope.mpr h⟩, by simpa using htext⟩

/-- What the rows of `document_refs` name. -/
theorem printed_of_documentRefs (hdigest : PlainDigest store) (hd : store.Printed d)
    {r : DocumentRef} (h : r ∈ documentRefs d) :
    PlainRef r.ref ∧ r.scope.tenantRef ≠ "" ∧ r.scope.agentRef ≠ "" := by
  rcases List.mem_append.mp h with h | h
  · rcases List.mem_append.mp h with h | h
    · obtain ⟨e, he, rfl⟩ := List.mem_map.mp h
      obtain ⟨href, howner⟩ := hd.episodes e he
      refine ⟨?_, howner⟩
      show PlainRef e.ref
      rw [href]
      exact plainRef_episodeRef hdigest _
    · obtain ⟨v, hv, hversion⟩ := List.mem_flatMap.mp h
      obtain ⟨root, hroot, rfl⟩ := List.mem_map.mp hversion
      exact ⟨(hd.recollectionVersions v (List.mem_of_mem_filter hv)).1,
        (hd.recollections root (List.mem_of_mem_filter hroot)).2⟩
  · obtain ⟨v, hv, hversion⟩ := List.mem_flatMap.mp h
    obtain ⟨root, hroot, rfl⟩ := List.mem_map.mp hversion
    exact ⟨(hd.seedVersions v (List.mem_of_mem_filter hv)).1,
      (hd.seeds root (List.mem_of_mem_filter hroot)).2⟩

/-- A queued operation is carried out when its record can be projected. -/
theorem applied_iff (hd : store.Printed d) {o : IndexOperationRow} (ho : o ∈ d.indexOperations) :
    (d.Projects o.document ∧ ∀ index, ∃ index', applyOperation o d index = .ok index') ↔
      o.document.scope.Plain := by
  obtain ⟨href, howner⟩ := hd.operations o ho
  rw [← projects_iff hd (r := o.document) href howner.1 howner.2]
  refine ⟨fun h => h.1, fun h => ⟨h, fun index => ?_⟩⟩
  unfold applyOperation
  dsimp only
  split
  · cases hdocument : memoryIndexDocument o.document d with
    | none => exact ⟨index, rfl⟩
    | some document =>
      have hvalid := h.document document hdocument
      obtain ⟨text, _, rfl⟩ := Option.map_eq_some_iff.mp hdocument
      dsimp only
      rw [hvalid]
      simp only [bne_self_eq_false, Bool.not_true, Bool.or_self, Bool.false_eq_true, if_false]
      exact ⟨_, rfl⟩
  · rw [h.identity]
    exact ⟨_, rfl⟩

/-! ## Enumeration of a printed store -/

theorem length_le_one_of_ref {ρ : Type} {ref : ρ → String} {k : String} {t : List ρ}
    (h : (t.map ref).Nodup) (hk : ∀ x ∈ t, ref x = k) : t.length ≤ 1 := by
  match t with
  | [] => exact Nat.zero_le 1
  | [_] => exact Nat.le_refl 1
  | a :: b :: rest =>
    have hab : ref a = ref b := (hk a (by simp)).trans (hk b (by simp)).symm
    rw [List.map_cons, List.map_cons, hab] at h
    exact absurd List.mem_cons_self (List.nodup_cons.mp h).1

/-- Each version comes once with its root. -/
theorem sublist_flatMap {ν ρ β : Type} {roots : ν → List ρ} {g : ν → β} {t : List ν}
    (h : ∀ v ∈ t, (roots v).length ≤ 1) :
    List.Sublist (t.flatMap fun v => (roots v).map fun _ => g v) (t.map g) := by
  induction t with
  | nil => exact List.Sublist.slnil
  | cons v rest ih =>
    have hrest := ih fun w hw => h w (List.mem_cons_of_mem _ hw)
    rw [List.flatMap_cons, List.map_cons]
    have hv := h v List.mem_cons_self
    match hroots : roots v with
    | [] => exact hrest.cons _
    | [_] => exact hrest.cons_cons _
    | _ :: _ :: _ =>
      rw [hroots] at hv
      simp at hv

theorem nodup_versionRefs {ν ρ : Type} {kind : DocumentKind} {ref : ν → String} {key : ρ → String}
    {root : ν → String} {owner : ρ → OwnerScope} {versions : List ν} {roots : List ρ}
    {active : ν → Bool} {tenant : ν → ρ → Bool} (hversions : KeysUnique ref versions)
    (hroots : KeysUnique key roots) :
    (((versions.filter active).flatMap fun v => (roots.filter fun r => tenant v r &&
      decide (key r = root v)).map fun r => (⟨kind, ref v, (owner r).index⟩ : DocumentRef)).map
        fun r => (r.kind, r.ref)).Nodup := by
  have hmap : ∀ v, ((roots.filter fun r => tenant v r && decide (key r = root v)).map
      fun r => (⟨kind, ref v, (owner r).index⟩ : DocumentRef)).map (fun r => (r.kind, r.ref)) =
        (roots.filter fun r => tenant v r && decide (key r = root v)).map fun _ => (kind, ref v) := by
    intro v
    rw [List.map_map]
    rfl
  rw [List.map_flatMap, funext hmap]
  refine (sublist_flatMap fun v _ => ?_).nodup ?_
  · refine length_le_one_of_ref (k := root v) ((List.filter_sublist.map key).nodup hroots) fun r hr => ?_
    have hkey := (List.mem_filter.mp hr).2
    rw [Bool.and_eq_true, decide_eq_true_eq] at hkey
    exact hkey.2
  · have hnodup : ((versions.filter active).map ref).Nodup :=
      (List.filter_sublist.map ref).nodup hversions
    have hpair : ((versions.filter active).map fun v => (kind, ref v)) =
        ((versions.filter active).map ref).map fun x => (kind, x) := by
      rw [List.map_map]
      rfl
    rw [hpair]
    exact hnodup.map fun _ _ heq => (Prod.mk.inj heq).2

theorem kind_of_versions {ν ρ : Type} {kind : DocumentKind} {ref : ν → String}
    {owner : ρ → OwnerScope} {t : List ν} {roots : ν → List ρ} {r : DocumentRef}
    (h : r ∈ t.flatMap fun v => (roots v).map fun root =>
      (⟨kind, ref v, (owner root).index⟩ : DocumentRef)) : r.kind = kind := by
  obtain ⟨v, _, hversion⟩ := List.mem_flatMap.mp h
  obtain ⟨root, _, rfl⟩ := List.mem_map.mp hversion
  rfl

/-- A reached store has one document of a kind under a ref. -/
theorem documented_of_printed (hhash : Collisionless store) (hdigest : PlainDigest store)
    (hd : store.Printed d) (hmemory : UniqueMemory d) : d.Documented where
  named := fun r hr => (plainRef_iff.mp (printed_of_documentRefs hdigest hd hr).1).1
  unique := by
    have hepisodes : ((d.episodes.map fun e =>
        (⟨.episode, e.ref, e.group.scope.owner.index⟩ : DocumentRef)).map
          fun r => (r.kind, r.ref)).Nodup := by
      rw [List.map_map]
      refine List.Nodup.map_on (fun e he e' he' heq => ?_) (List.Nodup.of_map _ hd.groups)
      have href : e.ref = e'.ref := (Prod.mk.inj heq).2
      rw [(hd.episodes e he).1, (hd.episodes e' he').1] at href
      exact hd.groups.eq he he' (episodeRef_injective hhash href)
    have hkind : ∀ (kind : DocumentKind) {l : List DocumentRef} {p : DocumentKind × String},
        (∀ r ∈ l, r.kind = kind) → p ∈ l.map (fun r => (r.kind, r.ref)) → p.1 = kind := by
      intro kind l p hl hp
      obtain ⟨r, hr, rfl⟩ := List.mem_map.mp hp
      exact hl r hr
    unfold documentRefs
    rw [List.map_append, List.map_append, List.nodup_append, List.nodup_append]
    refine ⟨⟨hepisodes, nodup_versionRefs hmemory.recollectionVersions hmemory.recollections, ?_⟩,
      nodup_versionRefs hmemory.seedVersions hmemory.seeds, ?_⟩
    · intro a ha b hb hab
      have h₁ := hkind .episode (by simp) ha
      have h₂ := hkind .recollection (by exact fun r hr => kind_of_versions hr) hb
      rw [hab, h₂] at h₁
      cases h₁
    · intro a ha b hb hab
      have h₂ := hkind .disposition (by exact fun r hr => kind_of_versions hr) hb
      rcases List.mem_append.mp ha with ha | ha
      · have h₁ := hkind .episode (by simp) ha
        rw [hab, h₂] at h₁
        cases h₁
      · have h₁ := hkind .recollection (by exact fun r hr => kind_of_versions hr) ha
        rw [hab, h₂] at h₁
        cases h₁

end

/-! ## Rebuild -/

section

variable {d : Db} {pageSize : Int}

/-- A rebuild takes the pages one after the other, and stops at a document that is not valid. -/
theorem rebuildFrom_paged {cursor : String} {run : List (String × List Document)}
    (h : Paged d pageSize cursor run) (hcursors : (run.map Prod.fst).Nodup) (index : List Document) :
    (∃ pages index', rebuildFrom pageSize d pages cursor index = some (.ok index')) ↔
      ∀ document ∈ run.flatMap Prod.snd, validDocument document = true := by
  induction h generalizing index with
  | @last cursor documents hpage =>
    constructor
    · rintro ⟨pages, index', heq⟩ document hdocument
      cases pages with
      | zero => cases heq
      | succ pages =>
        rw [rebuildFrom, hpage] at heq
        by_contra hinvalid
        have hall : documents.all validDocument = false := by
          rw [Bool.eq_false_iff]
          intro hall
          exact hinvalid (List.all_eq_true.mp hall document (by simpa using hdocument))
        simp [hall] at heq
    · intro hvalid
      refine ⟨1, documents.foldl upsertDocument index, ?_⟩
      have hall : documents.all validDocument = true :=
        List.all_eq_true.mpr fun document hdocument => hvalid document (by simpa using hdocument)
      rw [rebuildFrom, hpage]
      simp [hall]
  | @more cursor next documents rest hpage hnext hrest ih =>
    rw [List.map_cons, List.nodup_cons] at hcursors
    have hmem : next ∈ rest.map Prod.fst := by
      cases hrest <;> simp
    have hadvance : next ≠ cursor := by
      rintro rfl
      exact hcursors.1 hmem
    constructor
    · rintro ⟨pages, index', heq⟩
      cases pages with
      | zero => cases heq
      | succ pages =>
        rw [rebuildFrom, hpage] at heq
        by_cases hall : documents.all validDocument = true
        · simp only [hall, Bool.not_true, Bool.false_eq_true, if_false, beq_iff_eq, hnext, hadvance]
            at heq
          have hbehind := (ih hcursors.2 _).mp ⟨pages, index', heq⟩
          intro document hdocument
          rw [List.flatMap_cons, List.mem_append] at hdocument
          rcases hdocument with hdocument | hdocument
          · exact List.all_eq_true.mp hall document hdocument
          · exact hbehind document hdocument
        · simp [Bool.not_eq_true _ ▸ hall] at heq
    · intro hvalid
      have hall : documents.all validDocument = true :=
        List.all_eq_true.mpr fun document hdocument =>
          hvalid document (by rw [List.flatMap_cons]; exact List.mem_append_left _ hdocument)
      obtain ⟨pages, index', heq⟩ := (ih hcursors.2 (documents.foldl upsertDocument index)).mpr
        fun document hdocument =>
          hvalid document (by rw [List.flatMap_cons]; exact List.mem_append_right _ hdocument)
      refine ⟨pages + 1, index', ?_⟩
      rw [rebuildFrom, hpage]
      simp only [hall, Bool.not_true, Bool.false_eq_true, if_false, beq_iff_eq, hnext, hadvance]
      exact heq

end

/-- In every reached state a record can be projected exactly when no ref of its owner has white
space, whether it is enumerated or queued, and a rebuild ends with an index exactly when this
holds of every document. -/
theorem projection_valid_iff (store : Store) (hhash : Collisionless store)
    (hdigest : PlainDigest store) {s : MemorySys} (h : MemoryReach store s) :
    (∀ r ∈ documentRefs s.db, s.db.Projects r ↔ r.scope.Plain) ∧
    (∀ o ∈ s.db.indexOperations, (s.db.Projects o.document ∧
      ∀ index, ∃ index', applyOperation o s.db index = .ok index') ↔ o.document.scope.Plain) ∧
    ∀ pageSize : Int, 1 ≤ pageSize → pageSize ≤ 1000 →
      ((∃ pages index, rebuild pageSize pages s.db = some (.ok index)) ↔
        ∀ r ∈ documentRefs s.db, (memoryIndexDocument r s.db).isSome → r.scope.Plain) := by
  have hd := printed_reach hdigest h
  have hrecord : ∀ r ∈ documentRefs s.db, s.db.Projects r ↔ r.scope.Plain := by
    intro r hr
    obtain ⟨href, htenant, hagent⟩ := printed_of_documentRefs hdigest hd hr
    exact projects_iff hd href htenant hagent
  refine ⟨hrecord, fun o ho => applied_iff hd ho, fun pageSize hlow hhigh => ?_⟩
  obtain ⟨run, hpaged, hcursors, _, hdocuments⟩ := pages_complete s.db
    (documented_of_printed hhash hdigest hd (worldLaw_reach hhash h).memory.keys) pageSize hlow hhigh
  rw [show (∃ pages index, rebuild pageSize pages s.db = some (.ok index)) ↔ _ from
    rebuildFrom_paged hpaged hcursors []]
  constructor
  · intro hvalid r hr hsome
    obtain ⟨document, hdocument⟩ := Option.isSome_iff_exists.mp hsome
    have hv := hvalid document ((hdocuments document).mpr ⟨r, hr, hdocument⟩)
    obtain ⟨text, _, rfl⟩ := Option.map_eq_some_iff.mp hdocument
    rw [validDocument, Bool.and_eq_true, Bool.and_eq_true] at hv
    obtain ⟨_, htenant, hagent⟩ := printed_of_documentRefs hdigest hd hr
    exact (validProjectionScope_iff htenant hagent).mp hv.1.2
  · intro hplain document hmem
    obtain ⟨r, hr, hdocument⟩ := (hdocuments document).mp hmem
    exact ((hrecord r hr).mpr (hplain r hr (by rw [hdocument]; rfl))).document document hdocument

/-! An agent whose ref has white space, in a store whose digests have none. -/

def spacedScope : Scope := { agentScope with agentRef := "agent one" }

def spacedCall (n : Nat) (ref : String) (kind : ActorKind) (role : SourceRole) : MemoryCommand :=
  .intake (.observe (plainAmbient n) ref
    { ref := ref, scope := spacedScope, actorRef := "agent one", text := ref, constitution := {},
      actorKind := kind } ⟨"1", "g", role⟩)

def spacedMet : MemorySys :=
  sampleStore.calls [spacedCall 1 "x" .user .situation, spacedCall 2 "y" .agent .agentAct] ⟨{}, []⟩

theorem spacedMet_reach : MemoryReach sampleStore spacedMet :=
  (reach_calls (fun _ ht => absurd ht List.not_mem_nil) .start _).1

theorem projection_valid_iff_spaced :
    (∀ r ∈ documentRefs spacedMet.db,
      spacedMet.db.Projects r ↔ r.scope.Plain) ∧
    (∀ o ∈ spacedMet.db.indexOperations,
      (spacedMet.db.Projects o.document ∧ ∀ index, ∃ index',
        applyOperation o spacedMet.db index = .ok index') ↔ o.document.scope.Plain) ∧
    ∀ pageSize : Int, 1 ≤ pageSize → pageSize ≤ 1000 →
      ((∃ pages index, rebuild pageSize pages spacedMet.db = some (.ok index)) ↔
        ∀ r ∈ documentRefs spacedMet.db,
          (memoryIndexDocument r spacedMet.db).isSome → r.scope.Plain) :=
  projection_valid_iff sampleStore sampleStore_collisionless sampleStore_plain
    spacedMet_reach

theorem spacedMet_run :
    (documentRefs spacedMet.db).any (fun r => !validOperationIdentity r) = true ∧
    spacedMet.db.indexOperations.any (fun o =>
      decide (applyOperation o spacedMet.db [] = .error documentMismatch)) = true ∧
    rebuild 1000 1 spacedMet.db = some (.error invalidEnumeration) := by
  decide +kernel

/-- The Episode of this agent is admitted and queued, its operation fails, and a rebuild stops,
though no digest has white space. -/
theorem projection_refused_spaced :
    Collisionless sampleStore ∧ PlainDigest sampleStore ∧
    ∃ s : MemorySys, MemoryReach sampleStore s ∧ (∃ r ∈ documentRefs s.db, ¬s.db.Projects r) ∧
      (∃ o ∈ s.db.indexOperations, applyOperation o s.db [] = .error documentMismatch) ∧
      rebuild 1000 1 s.db = some (.error invalidEnumeration) := by
  obtain ⟨hrefs, hrefused, hrebuild⟩ := spacedMet_run
  refine ⟨sampleStore_collisionless, sampleStore_plain, spacedMet, spacedMet_reach, ?_, ?_, hrebuild⟩
  · obtain ⟨r, hr, hinvalid⟩ := List.any_eq_true.mp hrefs
    refine ⟨r, hr, fun h => ?_⟩
    rw [h.identity] at hinvalid
    cases hinvalid
  · obtain ⟨o, ho, heq⟩ := List.any_eq_true.mp hrefused
    exact ⟨o, ho, of_decide_eq_true heq⟩

end ChoraMem
