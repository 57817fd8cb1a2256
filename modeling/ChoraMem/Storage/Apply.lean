/-
Applying accepted changes.

Each function here is the statements of one kind of change.  It checks again what
another change of the batch may have made untrue, and reports the version it made, if
it made one.  Nothing is applied twice: a basis that is there is left as it is.
-/
import ChoraMem.Storage.Changes
import ChoraMem.Storage.MemoryIndex

namespace ChoraMem

open Txn

/-- The effect of one change.  `versionRef` is empty when no version was made. -/
structure Applied where
  versionRef : String := ""
  applied : Bool := false
  deriving DecidableEq, Repr

/-! ## Basis rows -/

/-- `INSERT ... ON CONFLICT DO NOTHING`, and whether it inserted. -/
def insertBasis (table : Db → List BasisRow) (w : BasisRow → Write) (row : BasisRow) : Tx Bool :=
  Prog.statement (fun d => if row ∈ table d then [] else [w row]) fun d => decide (row ∉ table d)

/-- One insert for each ref, and whether any inserted. -/
def insertBases (table : Db → List BasisRow) (w : BasisRow → Write) (tenantRef versionRef : String)
    (role : BasisRole) : List String → Bool → Tx Bool
  | [], applied => .ret applied
  | ref :: rest, applied => do
    let inserted ← insertBasis table w
      { tenantRef := tenantRef, versionRef := versionRef, basisRef := ref, role := role }
    insertBases table w tenantRef versionRef role rest (applied || inserted)

def insertEpisodeBasis (tenantRef versionRef : String) (refs : List String) (role : BasisRole) :
    Tx Bool :=
  insertBases Db.seedBasis .insertSeedBasis tenantRef versionRef role refs false

def insertOutcomeBasis (tenantRef versionRef : String) (refs : List String) (role : BasisRole) :
    Tx Bool :=
  insertBases Db.seedOutcomeBasis .insertSeedOutcomeBasis tenantRef versionRef role refs false

def insertRecollectionBasis (tenantRef versionRef : String) (refs : List String)
    (role : BasisRole) : Tx Bool :=
  insertBases Db.recollectionBasis .insertRecollectionBasis tenantRef versionRef role (sortRefs refs)
    false

/-- A formation inserts its basis without `ON CONFLICT`. -/
def insertFormationBasis (tenantRef versionRef : String) (refs : List String) : Tx Unit :=
  Prog.forEach
    (fun ref =>
      let row : BasisRow :=
        { tenantRef := tenantRef, versionRef := versionRef, basisRef := ref, role := .formation }
      insertFresh (fun d => decide (row ∈ d.seedBasis)) (.insertSeedBasis row)
        "insert formation Basis")
    refs

/-! ## Duplicates -/

/-- Another active version of the owner has the text. -/
def activeTendency (owner : OwnerScope) (revised text : String) (d : Db) : Bool :=
  (ownedDispositions owner d).any fun a => a.versionRef != revised && a.tendency == text

def activeText (owner : OwnerScope) (revised application text : String) (d : Db) : Bool :=
  (ownedRecollections owner d).any fun r =>
    r.versionRef != revised && r.application == application && r.text == text

/-! ## New versions -/

def seedVersionConflict (row : SeedVersionRow) (d : Db) : Bool :=
  d.seedVersions.any fun v => v.ref = row.ref ||
    (v.tenantRef = row.tenantRef && v.seedRef = row.seedRef && v.number = row.number)

def recollectionVersionConflict (row : RecollectionVersionRow) (d : Db) : Bool :=
  d.recollectionVersions.any fun v => v.ref = row.ref ||
    (v.tenantRef = row.tenantRef && v.recollectionRef = row.recollectionRef &&
      (v.number = row.number || v.status == .active))

/-- The active rows of a version. -/
def activeSeedVersions (tenantRef versionRef : String) (d : Db) : List SeedVersionRow :=
  d.seedVersions.filter fun v =>
    decide (v.tenantRef = tenantRef) && decide (v.ref = versionRef) && v.status == .active

def activeRecollectionVersions (tenantRef versionRef : String) (d : Db) :
    List RecollectionVersionRow :=
  d.recollectionVersions.filter fun v =>
    decide (v.tenantRef = tenantRef) && decide (v.ref = versionRef) && v.status == .active

def windowStale : Fault := ⟨.windowStale, "", ""⟩

/-- The update must hit one active row. -/
def supersedeSeedVersion (tenantRef versionRef : String) : Tx Unit := do
  let affected ← Prog.statement
    (fun d => (activeSeedVersions tenantRef versionRef d).map fun v =>
      .updateSeedVersion { v with status := .superseded })
    fun d => (activeSeedVersions tenantRef versionRef d).length
  if affected = 1 then .ret () else .fail windowStale

def supersedeRecollectionVersion (tenantRef versionRef : String) : Tx Unit := do
  let affected ← Prog.statement
    (fun d => (activeRecollectionVersions tenantRef versionRef d).map fun v =>
      .updateRecollectionVersion { v with status := .superseded })
    fun d => (activeRecollectionVersions tenantRef versionRef d).length
  if affected = 1 then .ret () else .fail windowStale

def versionRefOf (rootRef : String) (number : Nat) : String := rootRef ++ "@" ++ toString number

namespace Store

variable (store : Store)

/-! ## Recollections -/

def recollectionFormationRef (owner : OwnerScope) (jobRef application text : String)
    (basisRefs : List String) : String :=
  "recollection_" ++ store.shortHash
    (["recollection-form.v1", owner.kind.text, owner.tenantRef, owner.agentRef,
      owner.relationshipRef, jobRef, application, text] ++ basisRefs)

def insertRecollection (env : Ambient) (owner : OwnerScope) (jobRef application text ref : String) :
    Tx Unit := do
  insertFresh (fun d => d.recollections.any (·.ref = ref)) (.insertRecollection ⟨owner, ref⟩)
    "insert Recollection"
  let row : RecollectionVersionRow :=
    { tenantRef := owner.tenantRef, recollectionRef := ref, ref := versionRefOf ref 1, number := 1,
      text := text, application := application, status := .active, originJobRef := jobRef,
      createdAt := env.now }
  insertFresh (recollectionVersionConflict row) (.insertRecollectionVersion row)
    "insert RecollectionVersion v1"

/-- Form a Recollection unless an active one has its text. -/
def formRecollection (env : Ambient) (owner : OwnerScope) (jobRef application text : String)
    (basis : List String) : Tx Applied := do
  let duplicate ← Prog.select (activeText owner "" application text)
  if duplicate then .ret {}
  else do
    let ref := store.recollectionFormationRef owner jobRef application text basis
    insertRecollection env owner jobRef application text ref
    let _ ← insertRecollectionBasis owner.tenantRef (versionRefOf ref 1) basis .formation
    .ret ⟨versionRefOf ref 1, true⟩

def applyRecollectionFormation (env : Ambient) (w : WindowState) (jobRef : String)
    (change : Change) : Tx Applied :=
  match eligibleRecollectionBasis change.basisRefs w.episodeOf with
  | none => .ret {}
  | some basis =>
    if change.operation != .text || change.blank then .ret {}
    else store.formRecollection env (windowOwner w.episodes) jobRef change.application.lower
      (trimSpace change.text) basis

def applyRecollectionKeep (target : ActiveRecollection) (refs : List String) : Tx Applied := do
  let applied ← insertRecollectionBasis target.owner.tenantRef target.versionRef refs .support
  .ret ⟨"", applied⟩

def insertRevisedRecollection (env : Ambient) (jobRef text : String) (target : ActiveRecollection) :
    Tx Unit := do
  supersedeRecollectionVersion target.owner.tenantRef target.versionRef
  let number := target.versionNumber + 1
  let row : RecollectionVersionRow :=
    { tenantRef := target.owner.tenantRef, recollectionRef := target.recollection,
      ref := versionRefOf target.recollection number, number := number, text := text,
      application := target.application, status := .active, originJobRef := jobRef,
      createdAt := env.now }
  insertFresh (recollectionVersionConflict row) (.insertRecollectionVersion row)
    "insert revised RecollectionVersion"

def applyRecollectionRevision (env : Ambient) (jobRef : String) (target : ActiveRecollection)
    (change : Change) : Tx Applied := do
  let text := trimSpace change.text
  if text == "" || text == target.text then .ret {}
  else do
    let duplicate ← Prog.select (activeText target.owner target.versionRef target.application text)
    if duplicate then .ret {}
    else do
      insertRevisedRecollection env jobRef text target
      let ref := versionRefOf target.recollection (target.versionNumber + 1)
      let _ ← insertRecollectionBasis target.owner.tenantRef ref change.basisRefs .revision
      .ret ⟨ref, true⟩

/-! ## Dispositions -/

def seedFormationRef (owner : OwnerScope) (jobRef tendency : String)
    (episodeRefs outcomeRefs : List String) : String :=
  "seed_" ++ store.shortHash
    (["seed-form.v1", owner.kind.text, owner.tenantRef, owner.agentRef, owner.relationshipRef,
      jobRef, tendency] ++ episodeRefs ++
      if outcomeRefs.isEmpty then [] else "OUTCOMES" :: outcomeRefs)

def insertSeed (owner : OwnerScope) (jobRef tendency ref : String) : Tx Unit := do
  insertFresh (fun d => d.seeds.any (·.ref = ref)) (.insertSeed ⟨owner, ref⟩)
    "insert DispositionSeed"
  let row : SeedVersionRow :=
    { tenantRef := owner.tenantRef, seedRef := ref, ref := versionRefOf ref 1, number := 1,
      tendency := tendency, status := .active, originJobRef := jobRef }
  insertFresh (seedVersionConflict row) (.insertSeedVersion row) "insert SeedVersion v1"

/-- Form a Seed unless an active version has its text. -/
def formSeed (owner : OwnerScope) (jobRef tendency : String)
    (episodeBasis outcomeBasis : List String) : Tx Applied := do
  let duplicate ← Prog.select (activeTendency owner "" tendency)
  if duplicate then .ret {}
  else do
    let ref := store.seedFormationRef owner jobRef tendency episodeBasis outcomeBasis
    insertSeed owner jobRef tendency ref
    insertFormationBasis owner.tenantRef (versionRefOf ref 1) episodeBasis
    let _ ← insertOutcomeBasis owner.tenantRef (versionRefOf ref 1) outcomeBasis .formation
    .ret ⟨versionRefOf ref 1, true⟩

end Store

/-- The Episodes and Outcomes of a formation; the batch's own check has bound an
ADAPT to a current Episode already. -/
def formationBasis (w : WindowState) (change : Change) : Option (List String × List String) :=
  if change.operation = .adapt then
    (eligibleAdaptationBasis change.basisRefs w.episodeOf none).map (·, [])
  else eligibleDispositionFormationBasis change.basisRefs w.episodeOf w.outcomes

namespace Store

variable (store : Store)

def applyDispositionFormation (w : WindowState) (jobRef : String) (change : Change) : Tx Applied :=
  let owner := windowOwner w.episodes
  if (change.operation != .text && change.operation != .adapt) ||
      change.application != dispositionApplication owner || change.blank then .ret {}
  else
    match formationBasis w change with
    | none => .ret {}
    | some (episodes, outcomes) =>
      store.formSeed owner jobRef (trimSpace change.text) episodes outcomes

end Store

/-- The Episode is a basis of the version already. -/
def alreadyBasis (t : FeedbackTarget) (ref : String) (d : Db) : Bool :=
  (versionBasis t.owner.tenantRef t.versionRef d.seedBasis).any (·.basisRef == ref)

/-- Every ref is feedback and none is a basis yet. -/
def reenactable (t : FeedbackTarget) : List String → Tx Bool
  | [] => .ret true
  | ref :: rest =>
    if !t.episodes.contains ref then .ret false
    else do
      let already ← Prog.select (alreadyBasis t ref)
      if already then .ret false else reenactable t rest

/-- The Episodes of a ref in the tenant. -/
def tenantEpisodes (tenantRef ref : String) (d : Db) : List EpisodeRow :=
  d.episodes.filter fun e => decide (e.group.scope.tenantRef = tenantRef) && decide (e.ref = ref)

/-- An Episode of the same run is a reenactment of the version already. -/
def alreadyContributed (t : FeedbackTarget) (ref : String) (d : Db) : Bool :=
  (versionBasis t.owner.tenantRef t.versionRef d.seedBasis).any fun b => b.role == .reenactment &&
    (tenantEpisodes t.owner.tenantRef b.basisRef d).any fun prior =>
      (tenantEpisodes t.owner.tenantRef ref d).any fun candidate =>
        decide (prior.group.scope = candidate.group.scope) &&
          decide (prior.group.runRef = candidate.group.runRef)

/-- A run counts once. -/
def appendReenactments (t : FeedbackTarget) : List String → Bool → Tx Bool
  | [], applied => .ret applied
  | ref :: rest, applied => do
    let contributed ← Prog.select (alreadyContributed t ref)
    if contributed then appendReenactments t rest applied
    else do
      let inserted ← insertBasis Db.seedBasis .insertSeedBasis
        { tenantRef := t.owner.tenantRef, versionRef := t.versionRef, basisRef := ref,
          role := .reenactment }
      appendReenactments t rest (applied || inserted)

def applyReenactment (t : FeedbackTarget) (refs : List String) : Tx Applied := do
  let allowed ← reenactable t refs
  if !allowed then .ret {}
  else do
    let applied ← appendReenactments t (sortRefs refs) false
    .ret ⟨"", applied⟩

def applyInhibition (t : FeedbackTarget) (refs : List String) : Tx Applied :=
  match feedbackBasis t refs false with
  | none => .ret {}
  | some (episodes, outcomes) => do
    let applied ← insertEpisodeBasis t.owner.tenantRef t.versionRef episodes .inhibition
    let outcomeApplied ← insertOutcomeBasis t.owner.tenantRef t.versionRef outcomes .inhibition
    .ret ⟨"", applied || outcomeApplied⟩

/-- The Episodes and Outcomes a revision cites: a direct requirement cites its one
Episode. -/
def revisionBasis (t : FeedbackTarget) (change : Change) : Option (List String × List String) :=
  match change.operation with
  | .adapt =>
    if change.basisRefs.length != 1 ||
        !basisIncludesCurrentEpisode change.basisRefs t.directEpisodes then none
    else some (sortRefs change.basisRefs, [])
  | .text => feedbackBasis t change.basisRefs true
  | _ => none

def insertRevisedSeed (jobRef text : String) (t : FeedbackTarget) : Tx Unit := do
  supersedeSeedVersion t.owner.tenantRef t.versionRef
  let number := t.versionNumber + 1
  let row : SeedVersionRow :=
    { tenantRef := t.owner.tenantRef, seedRef := t.seedRef, ref := versionRefOf t.seedRef number,
      number := number, tendency := text, status := .active, originJobRef := jobRef }
  insertFresh (seedVersionConflict row) (.insertSeedVersion row) "insert revised SeedVersion"

def applyRevision (jobRef : String) (t : FeedbackTarget) (change : Change) : Tx Applied :=
  if change.text == "" || change.text == t.tendency then .ret {}
  else
    match revisionBasis t change with
    | none => .ret {}
    | some (episodes, outcomes) => do
      let duplicate ← Prog.select (activeTendency t.owner t.versionRef change.text)
      if duplicate then .ret {}
      else do
        insertRevisedSeed jobRef change.text t
        let ref := versionRefOf t.seedRef (t.versionNumber + 1)
        let _ ← insertEpisodeBasis t.owner.tenantRef ref episodes .revision
        let _ ← insertOutcomeBasis t.owner.tenantRef ref outcomes .revision
        .ret ⟨ref, true⟩

end ChoraMem
