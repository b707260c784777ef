import CodeMoniker.CodeIndexDiff

/-!
# The linkage store

The store keeps one decision for each reference and maps that lead from names, source roots,
source symbols and targets to the positions of references. A refresh moves positions
(`rebaseReferenceOrdinals`), drops what is stale and adds what was resolved again
(`applyRefresh`), and brings the maps of the targets up to date (`refreshResolvedTargetIndex`).
The decisions are published as a snapshot (`projectDecisions`).

Every variant of a decision carries its reference and the position of it; here the two stand
beside the outcome.
-/

namespace CodeMoniker

open ByteCodec

/-! ## Decisions -/

inductive BlockReason where
  | manifestPolicy
  | visibility
  | languageBoundary
  deriving DecidableEq, Repr

inductive UnknownReason where
  | missingQuery
  | noCandidate
  | ambiguous
  | unsupportedLanguageRule
  | incompleteExtractorMetadata
  deriving DecidableEq, Repr

def BlockReason.unresolvedReason : BlockReason → UnresolvedReason
  | manifestPolicy => .manifestBlocked
  | visibility => .visibility
  | languageBoundary => .languageBoundary

def UnknownReason.unresolvedReason : UnknownReason → UnresolvedReason
  | missingQuery => .missingQuery
  | noCandidate => .noCandidate
  | ambiguous => .ambiguous
  | unsupportedLanguageRule => .unsupportedLanguageRule
  | incompleteExtractorMetadata => .incompleteExtractorMetadata

inductive LinkageOutcome where
  | unique (targets : SymbolSet)
  | candidate (reason : CandidateReason) (targets : SymbolSet)
  | external (target : Option Moniker)
  | blocked (reason : BlockReason)
  | dynamic (reason : DynamicReason) (candidates : SymbolSet)
  | unknown (reason : UnknownReason)

def LinkageOutcome.linkageTargets : LinkageOutcome → Option SymbolSet
  | unique targets => some targets
  | candidate _ targets => some targets
  | dynamic _ candidates => some candidates
  | external _ | blocked _ | unknown _ => none

/-- The targets as a list, empty where the outcome has none. -/
def LinkageOutcome.targets (o : LinkageOutcome) : List SymbolOrdinal :=
  (o.linkageTargets.map (·.elems)).getD []

structure LinkageDecision where
  reference : ReferenceId
  referenceIdx : ReferenceOrdinal
  outcome : LinkageOutcome

/-! ## Maps to positions of references -/

namespace Postings

variable {κ : Type} [DecidableEq κ]

/-- `retain` : every set goes through `f`, and one that becomes empty goes. -/
def retain (f : ReferenceSet → ReferenceSet) (m : Postings κ) : Postings κ :=
  collectMap (m.entries.filterMap fun e =>
    if (f e.2).card = 0 then none else some (e.1, f e.2))

/-- `remove_references`. -/
def removeReferences (m : Postings κ) (stale : ReferenceSet) : Postings κ := m.retain (· \ stale)

/-- `rebase_reference_maps`. -/
def rebaseReferences (m : Postings κ) (rebase : ReferenceOrdinal → Option ReferenceOrdinal) :
    Postings κ :=
  m.retain fun s => OrdSet.ofList (s.elems.filterMap rebase)

/-- One position for each reference, under all of its keys. -/
def indexReferences (keys : IndexedReference → List κ) (references : List IndexedReference) :
    Postings κ :=
  references.zipIdx.foldl (fun m r => insertPosting m (keys r.1) r.2) ∅

end Postings

/-- `for_query_key` : the name of the call, and the bare name of the target where it is another
one. -/
def forQueryKey (callName : Option String) (targetLast : Option Segment) : List Bytes :=
  let first := (callName.map byteString).filter (· ≠ [])
  let bare := (targetLast.map fun s => bareCallableName s.name).filter fun name =>
    name ≠ [] ∧ first ≠ some name
  first.toList ++ bare.toList

variable (m : CodeIndexMaterial)

/-- `query_keys` of the query for a reference, none where the reference has no query. -/
def queryKeys (r : IndexedReference) : List Bytes :=
  match m.files[r.id.file]?.bind fun file => file.graph.refs[r.id.reference]? with
  | none => []
  | some record => forQueryKey r.callName record.target.segments.getLast?

def referenceSourceRoot (r : IndexedReference) : List ℕ :=
  (m.files[r.id.file]?.map (·.sourceRoot)).toList

def callNameKey (r : IndexedReference) : List Bytes := (r.callName.map byteString).toList

structure ResolvedTargetSourceIndex where
  referencesBySource : Postings ℕ
  referencesBySymbol : Postings SymbolOrdinal

structure LinkageStoreIndexes where
  referenceIndexes : AList fun _ : ReferenceId => ReferenceOrdinal
  referencesBySourceRoot : Postings ℕ
  referencesByName : Postings Bytes
  referencesBySourceSymbol : Postings SymbolId
  referencesByCallName : Postings Bytes
  resolvedByTargetSource : Option ResolvedTargetSourceIndex

/-- `CodeIndexMaterial::symbol_source`. -/
def CodeIndexMaterial.symbolSource (id : SymbolId) : Option ℕ :=
  m.files[id.file]?.bind fun file => if id.defIdx < file.graph.defCount then some id.file else none

/-- The sources that hold the targets of a decision. -/
def targetSources (symbols : SymbolOrdinalCatalog) (o : LinkageOutcome) :
    List ℕ :=
  o.targets.filterMap fun target => (symbols.id target).bind m.symbolSource

namespace ResolvedTargetSourceIndex

def addDecision (symbols : SymbolOrdinalCatalog)
    (index : ResolvedTargetSourceIndex) (d : LinkageDecision) : ResolvedTargetSourceIndex where
  referencesBySource :=
    insertPosting index.referencesBySource (targetSources m symbols d.outcome) d.referenceIdx
  referencesBySymbol := insertPosting index.referencesBySymbol d.outcome.targets d.referenceIdx

def fromDecisions (symbols : SymbolOrdinalCatalog)
    (decisions : List LinkageDecision) : ResolvedTargetSourceIndex :=
  decisions.foldl (addDecision m symbols) ⟨∅, ∅⟩

def removeReferences (index : ResolvedTargetSourceIndex) (stale : ReferenceSet) :
    ResolvedTargetSourceIndex :=
  ⟨index.referencesBySource.removeReferences stale, index.referencesBySymbol.removeReferences stale⟩

def rebaseReferences (index : ResolvedTargetSourceIndex)
    (rebase : ReferenceOrdinal → Option ReferenceOrdinal) : ResolvedTargetSourceIndex :=
  ⟨index.referencesBySource.rebaseReferences rebase, index.referencesBySymbol.rebaseReferences rebase⟩

end ResolvedTargetSourceIndex

/-- `reference_indexes`. -/
def referenceIndexes (references : List IndexedReference) :
    AList fun _ : ReferenceId => ReferenceOrdinal :=
  collectMap (references.zipIdx.map fun r => (r.1.id, r.2))

namespace LinkageStoreIndexes

def new (references : List IndexedReference) : LinkageStoreIndexes where
  referenceIndexes := CodeMoniker.referenceIndexes references
  referencesBySourceRoot := Postings.indexReferences (referenceSourceRoot m) references
  referencesByName := Postings.indexReferences (queryKeys m) references
  referencesBySourceSymbol := Postings.indexReferences (fun r => [r.sourceSymbol]) references
  referencesByCallName := Postings.indexReferences callNameKey references
  resolvedByTargetSource := none

def addReference (x : LinkageStoreIndexes) (r : IndexedReference) :
    LinkageStoreIndexes :=
  match x.referenceIndexes.lookup r.id with
  | none => x
  | some o =>
    { x with
      referencesBySourceRoot :=
        insertPosting x.referencesBySourceRoot (referenceSourceRoot m r) o
      referencesBySourceSymbol := insertPosting x.referencesBySourceSymbol [r.sourceSymbol] o
      referencesByCallName := insertPosting x.referencesByCallName (callNameKey r) o
      referencesByName := insertPosting x.referencesByName (queryKeys m r) o }

variable (x : LinkageStoreIndexes)

def rebaseReferenceOrdinals
    (rebase : ReferenceOrdinal → Option ReferenceOrdinal) : LinkageStoreIndexes :=
  { x with
    referencesBySourceRoot := x.referencesBySourceRoot.rebaseReferences rebase
    referencesByName := x.referencesByName.rebaseReferences rebase
    referencesBySourceSymbol := x.referencesBySourceSymbol.rebaseReferences rebase
    referencesByCallName := x.referencesByCallName.rebaseReferences rebase
    resolvedByTargetSource := x.resolvedByTargetSource.map (·.rebaseReferences rebase) }

def removeResolvedReferences (stale : ReferenceSet) :
    LinkageStoreIndexes :=
  { x with resolvedByTargetSource := x.resolvedByTargetSource.map (·.removeReferences stale) }

def removeStaleReferences (stale : ReferenceSet) : LinkageStoreIndexes :=
  { x.removeResolvedReferences stale with
    referencesBySourceRoot := x.referencesBySourceRoot.removeReferences stale
    referencesByName := x.referencesByName.removeReferences stale
    referencesBySourceSymbol := x.referencesBySourceSymbol.removeReferences stale
    referencesByCallName := x.referencesByCallName.removeReferences stale }

def rebuildResolvedTargets (m : CodeIndexMaterial)
    (symbols : SymbolOrdinalCatalog) (decisions : List LinkageDecision) : LinkageStoreIndexes :=
  { x with resolvedByTargetSource := some (.fromDecisions m symbols decisions) }

end LinkageStoreIndexes

/-! ## The store -/

structure LinkageStore where
  decisions : List LinkageDecision
  indexes : LinkageStoreIndexes

/-- The vector of `ReferenceOrdinalRebase` : the next position of each position. -/
def ordinalRebase (diff : IndexGraphDiff)
    (previous next : AList fun _ : ReferenceId => ReferenceOrdinal) :
    ReferenceOrdinal → Option ReferenceOrdinal := fun o =>
  (collectMap (previous.entries.filterMap fun e =>
    (nextReference diff e.1).bind fun id => (next.lookup id).map (e.2, ·))).lookup o

def resolvedTargetMissingOrRetargeted (symbols : SymbolOrdinalCatalog)
    (candidate : SymbolOrdinal → Option LinkageCandidate) (target : SymbolOrdinal) : Bool :=
  match symbols.id target, candidate target with
  | some id, some found => (m.symbolMoniker id).join ≠ some found.moniker
  | _, _ => true

namespace LinkageStore

def new (m : CodeIndexMaterial) (symbols : SymbolOrdinalCatalog)
    (references : List IndexedReference) (decisions : List LinkageDecision) : LinkageStore where
  decisions := decisions
  indexes := (LinkageStoreIndexes.new m references).rebuildResolvedTargets m symbols decisions

variable (store : LinkageStore)

def ensureResolvedTargetIndex (m : CodeIndexMaterial)
    (symbols : SymbolOrdinalCatalog) : LinkageStore :=
  match store.indexes.resolvedByTargetSource with
  | some _ => store
  | none => { store with indexes := store.indexes.rebuildResolvedTargets m symbols store.decisions }

/-- `rebase_store_reference_ordinals`. -/
def rebaseReferenceOrdinals (store : LinkageStore) (diff : IndexGraphDiff)
    (next : AList fun _ : ReferenceId => ReferenceOrdinal) : LinkageStore where
  decisions := store.decisions.filterMap fun d =>
    (nextReference diff d.reference).bind fun id =>
      (next.lookup id).map fun i => ⟨id, i, d.outcome⟩
  indexes :=
    { store.indexes.rebaseReferenceOrdinals
        (ordinalRebase diff store.indexes.referenceIndexes next) with referenceIndexes := next }

/-- One position for each changed reference : the number of references in the slots before its
own, and its place there. -/
def insertReferenceOrdinals (reader : RecordReader) (m : CodeIndexMaterial)
    (changed : List ReferenceId) : LinkageStore :=
  let base := fun slot => ((List.range slot).map fun s => (fileReferences reader m s).length).sum
  { store with
    indexes :=
      { store.indexes with
        referenceIndexes := (changed.filter (·.file ≤ m.files.length)).foldl
          (fun indexes id => indexes.insert id (base id.file + id.reference))
          store.indexes.referenceIndexes } }

def missingResolvedReferences (m : CodeIndexMaterial)
    (symbols : SymbolOrdinalCatalog) (candidate : SymbolOrdinal → Option LinkageCandidate) :
    List ReferenceId :=
  (store.decisions.filter fun d =>
    (store.indexes.referenceIndexes.lookup d.reference).isNone ||
      d.outcome.targets.any (resolvedTargetMissingOrRetargeted m symbols candidate)).map
    (·.reference)

/-- `references_for_ids`. -/
def referencesForIds (ids : List ReferenceId) : ReferenceSet :=
  OrdSet.ofList (ids.filterMap fun id => store.indexes.referenceIndexes.lookup id)

def removeStaleDecisions (stale : ReferenceSet) : LinkageStore :=
  { store with
    decisions := store.decisions.filterMap fun d =>
      (store.indexes.referenceIndexes.lookup d.reference).bind fun i =>
        if i ∈ stale then none else some { d with referenceIdx := i } }

def addChangedDecision (references : List IndexedReference) (m : CodeIndexMaterial)
    (store : LinkageStore) (d : LinkageDecision) : LinkageStore :=
  match references[d.referenceIdx]? with
  | none => store
  | some r => ⟨store.decisions ++ [d], store.indexes.addReference m r⟩

/-- `apply_store_refresh`. -/
def applyRefresh (references : List IndexedReference)
    (m : CodeIndexMaterial) (stale : ReferenceSet) (changed : List LinkageDecision) :
    LinkageStore :=
  changed.foldl (addChangedDecision references m)
    ({ store with indexes := store.indexes.removeStaleReferences stale }.removeStaleDecisions stale)

def addResolvedTarget (symbols : SymbolOrdinalCatalog)
    (x : LinkageStoreIndexes) (d : LinkageDecision) : LinkageStoreIndexes :=
  { x with
    resolvedByTargetSource := x.resolvedByTargetSource.map
      (ResolvedTargetSourceIndex.addDecision m symbols · d) }

/-- The maps of the targets for the decisions on `references`, taken out and added again. -/
def refreshResolvedTargetIndex (references : ReferenceSet)
    (m : CodeIndexMaterial) (symbols : SymbolOrdinalCatalog) : LinkageStore :=
  let ensured := store.ensureResolvedTargetIndex m symbols
  { ensured with
    indexes := (ensured.decisions.filter fun d =>
        (ensured.indexes.referenceIndexes.lookup d.reference).any (· ∈ references)).foldl
      (addResolvedTarget m symbols) (ensured.indexes.removeResolvedReferences references) }

end LinkageStore

/-! ## The published snapshot -/

structure LinkageReportProjection where
  resolved : List LinkageEdge := []
  candidates : List CandidateReference := []
  external : List ExternalReference := []
  dynamic : List DynamicReference := []
  blocked : List UnresolvedReference := []
  unresolved : List UnresolvedReference := []

/-- `SymbolOrdinalCatalog::ids`. -/
def SymbolOrdinalCatalog.idsOf (symbols : SymbolOrdinalCatalog) (s : SymbolSet) : List SymbolId :=
  s.elems.filterMap symbols.id

namespace LinkageReportProjection

/-- `project_unique_decision` : what a unique target is published as depends on the number of
its ids. -/
def projectUnique (p : LinkageReportProjection) (r : IndexedReference) (targets : List SymbolId) :
    LinkageReportProjection :=
  match targets with
  | [] => { p with unresolved := p.unresolved ++ [⟨r.id, r.targetIdentity, .noCandidate⟩] }
  | [target] => { p with resolved := p.resolved ++ [⟨r.id, target⟩] }
  | targets => { p with candidates := p.candidates ++ [⟨r.id, targets, .multipleTargets⟩] }

/-- One decision, on a reference of the table. -/
def project (scheme : List Char) (symbols : SymbolOrdinalCatalog) (r : IndexedReference)
    (p : LinkageReportProjection) : LinkageOutcome → LinkageReportProjection
  | .unique targets => p.projectUnique r (symbols.idsOf targets)
  | .candidate reason targets =>
    { p with candidates := p.candidates ++ [⟨r.id, symbols.idsOf targets, reason⟩] }
  | .blocked reason =>
    { p with blocked := p.blocked ++ [⟨r.id, r.targetIdentity, reason.unresolvedReason⟩] }
  | .unknown reason =>
    { p with unresolved := p.unresolved ++ [⟨r.id, r.targetIdentity, reason.unresolvedReason⟩] }
  | .external target =>
    { p with external := p.external ++
        [⟨r.id, (target.map (monikerUri scheme)).getD r.targetIdentity⟩] }
  | .dynamic reason candidates =>
    { p with dynamic := p.dynamic ++ [⟨r.id, r.targetIdentity, reason, symbols.idsOf candidates⟩] }

/-- The references of the six lists. -/
def references (p : LinkageReportProjection) : List ReferenceId :=
  p.resolved.map (·.reference) ++ p.candidates.map (·.reference) ++ p.external.map (·.reference) ++
    p.dynamic.map (·.reference) ++ p.blocked.map (·.reference) ++ p.unresolved.map (·.reference)

end LinkageReportProjection

/-- `project_decisions`. `none` is the panic on a position past the table. -/
def projectDecisions (scheme : List Char) (symbols : SymbolOrdinalCatalog)
    (references : List IndexedReference) (decisions : List LinkageDecision) :
    Option LinkageReportProjection :=
  decisions.foldlM (fun p d =>
    (references[d.referenceIdx]?).map fun r => p.project scheme symbols r d.outcome) {}

end CodeMoniker
