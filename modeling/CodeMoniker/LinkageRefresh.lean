import CodeMoniker.LinkageStore

/-!
# Linkage runs over the store

A linked workspace is the indexed material, its symbol inventory, the linkage store and the
published snapshot. It starts with a full linkage, and each edit updates the index and
refreshes the linkage with the diff of that update.

What the resolver, the refinements and the plan of a refresh answer is left open
(`LinkageAnswers`) : the resolver decides on the reference it is given, a refinement replaces
outcomes of the decisions it may touch, and the plan may find any further reference stale. So
what is proved holds whatever they answer.

`Covers` says which references have a decision. A rebase leaves those that the diff keeps
(`covers_rebase`), and once the stale ones are resolved again every reference has one
(`covers_applyRefresh`), which refinements leave as it is (`Covers.of_refines`).
-/

namespace CodeMoniker

open List LinkageStore
open Option (map_eq_some_iff)

/-! ## Passes -/

/-- What a pass is told, over a catalog of symbols. A target is an ordinal that the catalog has
given out. -/
structure LinkageAnswers (symbols : SymbolOrdinalCatalog) where
  resolveReference : ReferenceOrdinal → IndexedReference → LinkageOutcome
  /-- the refinements, in their order : what each makes of the decision at a place of the list -/
  refinements : List (List LinkageDecision → ℕ → Option LinkageOutcome)
  /-- `CandidateCatalog::candidate` -/
  candidate : SymbolOrdinal → Option LinkageCandidate
  /-- what the plan finds stale beside the edited references and those without a target -/
  stale : ReferenceSet
  known : ∀ i r, ∀ t ∈ (resolveReference i r).targets, t < symbols.nextOrdinal
  refinedKnown : ∀ pass ∈ refinements, ∀ decisions k o, pass decisions k = some o →
    ∀ t ∈ o.targets, t < symbols.nextOrdinal

/-- The published lists, and the ids over which their read index is built. -/
structure PublishedLinkage where
  report : LinkageReportProjection
  referenceIds : List ReferenceId

/-- One refinement, from the place `k` of the list on. A decision that it replaces keeps its
position and takes the id of the reference there. -/
def refineFrom (references : List IndexedReference) (selected : ReferenceId → Bool)
    (pass : ℕ → Option LinkageOutcome) : ℕ → List LinkageDecision → Option (List LinkageDecision)
  | _, [] => some []
  | k, d :: decisions => do
    let refined ←
      match if selected d.reference then pass k else none with
      | none => some d
      | some outcome =>
        (references[d.referenceIdx]?).map fun r => ⟨r.id, d.referenceIdx, outcome⟩
    return refined :: (← refineFrom references selected pass (k + 1) decisions)

namespace LinkageStore

/-- `refine_decisions`. `none` is the panic on a position past the table. -/
def refineDecisions (references : List IndexedReference) (selected : ReferenceId → Bool)
    (refinements : List (List LinkageDecision → ℕ → Option LinkageOutcome))
    (decisions : List LinkageDecision) : Option (List LinkageDecision) :=
  refinements.foldlM (fun current pass => refineFrom references selected (pass current) 0 current)
    decisions

section Passes

variable (reader : RecordReader) (m : CodeIndexMaterial) (symbols : SymbolOrdinalCatalog)

def projectSnapshot (store : LinkageStore) : Option PublishedLinkage :=
  (projectDecisions reader.scheme symbols (references reader m) store.decisions).map fun report =>
    ⟨report, referenceIds reader m⟩

/-- `run_full_linkage_with_timings`. -/
def fullLinkage (answers : LinkageAnswers symbols) : Option (LinkageStore × PublishedLinkage) := do
  let decisions := (references reader m).mapIdx fun i r => ⟨r.id, i, answers.resolveReference i r⟩
  let refined ← refineDecisions (references reader m) (fun _ => true) answers.refinements decisions
  let store := new m symbols (references reader m) refined
  return (store, ← store.projectSnapshot reader m symbols)

/-- `resolve_reference_decisions` : the references at some positions, past the table none. -/
def resolveReferenceDecisions (answers : LinkageAnswers symbols)
    (indexes : List ReferenceOrdinal) : List LinkageDecision :=
  indexes.filterMap fun i => ((references reader m)[i]?).map fun r =>
    ⟨r.id, i, answers.resolveReference i r⟩

variable (diff : IndexGraphDiff)

/-- No reference has moved or gone, and none is new. -/
def positionsStable (store : LinkageStore) : Bool :=
  diff.referenceIdRemaps.isEmpty && diff.removedReferences.isEmpty &&
    store.indexes.referenceIndexes.entries.length = (references reader m).length

/-- The store with the positions of the new index. -/
def reposition (store : LinkageStore) : LinkageStore :=
  if store.positionsStable reader m diff then
    store.insertReferenceOrdinals reader m diff.changedReferences
  else store.rebaseReferenceOrdinals diff (referenceIndexes (references reader m))

/-- The symbol delta is `Unchanged` or `AdditiveOnly`. -/
def symbolIdsStable : Bool :=
  SymbolDelta.fromCodeIndex diff = .unchanged || SymbolDelta.fromCodeIndex diff = .additiveOnly

/-- The stale references of `RebindScope::plan`. -/
def staleReferences (answers : LinkageAnswers symbols) (store : LinkageStore) : ReferenceSet :=
  store.referencesForIds diff.changedReferences ∪
    (if symbolIdsStable diff then ∅
      else store.referencesForIds (store.missingResolvedReferences m symbols answers.candidate)) ∪
    answers.stale

/-- `refresh_incremental_linkage`, with whether the decisions are unchanged. -/
def refreshIncrementalLinkage (answers : LinkageAnswers symbols) (store : LinkageStore) :
    Option (LinkageStore × Bool) :=
  let moved := (store.reposition reader m diff).ensureResolvedTargetIndex m symbols
  let stale := moved.staleReferences m symbols diff answers
  let changed := resolveReferenceDecisions reader m symbols answers stale.elems
  let applied := moved.applyRefresh (references reader m) m stale changed
  if stale = ∅ then
    some (applied, store.positionsStable reader m diff && symbolIdsStable diff)
  else do
    let staleIds := stale.elems.filterMap fun i => ((references reader m)[i]?).map (·.id)
    let refined ← refineDecisions (references reader m) (· ∈ staleIds) answers.refinements
      applied.decisions
    let targetIndexReferences :=
      stale ∪ moved.referencesForIds (diff.referenceIdRemaps.map (·.2))
    return (({ applied with decisions := refined } : LinkageStore).refreshResolvedTargetIndex
      targetIndexReferences m symbols, false)

end Passes

end LinkageStore

/-! ## Runs -/

/-- `LinkageRefreshImpact::with_graph_delta`. -/
def linkageImpact (changed : OrdSet ℕ) (paths : List String) (diff : IndexGraphDiff) :
    LinkageRefreshImpact where
  changedSources := changed.elems
  changedPaths := paths
  references :=
    if diff.changedReferences = [] ∧ diff.removedReferences = [] ∧ diff.referenceIdRemaps = [] then
      .unchanged
    else .changed diff.changedReferences
      (diff.removedReferenceKinds.any (· ∈ ["imports_module", "imports_symbol", "reexports"]))
  symbolsUnchanged := SymbolDelta.fromCodeIndex diff = .unchanged

structure LinkedWorkspace (hash : String → ℕ) where
  material : CodeIndexMaterial
  inventory : SymbolInventory hash
  store : LinkageStore
  snapshot : PublishedLinkage

namespace LinkedWorkspace

variable {hash : String → ℕ} (reader : RecordReader) (s : LinkedWorkspace hash)

/-- The diff of an update of the index. -/
def diff (change : IndexChange) : IndexGraphDiff :=
  graphDiff reader s.material (s.material.refresh change) (s.material.changedFiles change)

/-- The inventory after an update of the index. -/
def refreshInventory (change : IndexChange) :
    Option (SymbolInventory hash) :=
  s.inventory.refresh (sourceRecords reader (s.material.refresh change))
    (symbolTable reader (s.material.refresh change)) (s.material.changedFiles change)

/-- `run_refresh_linkage_with_timings` with the diff of the update. -/
def refreshLinkage (change : IndexChange) (paths : List String)
    (symbols : SymbolOrdinalCatalog) (answers : LinkageAnswers symbols) :
    Option (LinkageStore × PublishedLinkage) :=
  let m' := s.material.refresh change
  let impact := linkageImpact (s.material.changedFiles change) paths (s.diff reader change)
  if impact.isEmpty then some (s.store, s.snapshot)
  else if changesCIncludeTopology impact m' then LinkageStore.fullLinkage reader m' symbols answers
  else do
    let (store, unchanged) ←
      s.store.refreshIncrementalLinkage reader m' symbols (s.diff reader change) answers
    if unchanged then return (store, s.snapshot)
    else return (store, ← store.projectSnapshot reader m' symbols)

/-- Every slot keeps its source root : extraction takes it from the slot of the catalog. -/
def KeepsRoots (m : CodeIndexMaterial) (change : IndexChange) : Prop :=
  ∀ i slot, m.slots[i]? = some slot → (change.extracted i).file.sourceRoot = slot.file.sourceRoot

/-- The workspaces that a full linkage and edits lead to, where each edit meets `ok`. -/
inductive Reachable
    (ok : (s : LinkedWorkspace hash) → IndexChange → List String →
      (symbols : SymbolOrdinalCatalog) → LinkageAnswers symbols → Prop) :
    LinkedWorkspace hash → Prop
  | full {files : List ExtractedFile} {x : SymbolInventory hash}
      {answers : LinkageAnswers x.catalog} {store : LinkageStore} {snapshot : PublishedLinkage}
      (hbuild : SymbolInventory.build hash (sourceRecords reader (.load files))
        (symbolTable reader (.load files)) = some x)
      (hfull : LinkageStore.fullLinkage reader (.load files) x.catalog answers =
        some (store, snapshot)) :
      Reachable ok ⟨.load files, x, store, snapshot⟩
  | edit {s : LinkedWorkspace hash} {change : IndexChange} {paths : List String}
      {y : SymbolInventory hash} {answers : LinkageAnswers y.catalog} {store : LinkageStore}
      {snapshot : PublishedLinkage} (hs : Reachable ok s)
      (hroots : KeepsRoots s.material change) (hok : ok s change paths y.catalog answers)
      (hinventory : s.refreshInventory reader change = some y)
      (hrefresh : s.refreshLinkage reader change paths y.catalog answers = some (store, snapshot)) :
      Reachable ok ⟨s.material.refresh change, y, store, snapshot⟩

end LinkedWorkspace

/-! ## Positions -/

/-- The table gives each id its position. -/
def Positions (ids : List ReferenceId) (table : AList fun _ : ReferenceId => ReferenceOrdinal) :
    Prop :=
  ∀ id i, table.lookup id = some i ↔ ids[i]? = some id

theorem positions_referenceIndexes (reader : RecordReader) (m : CodeIndexMaterial) :
    Positions (referenceIds reader m) (referenceIndexes (references reader m)) := by
  have hmem : ∀ id i, (id, i) ∈ (references reader m).zipIdx.map (fun r => (r.1.id, r.2)) ↔
      (referenceIds reader m)[i]? = some id := by
    intro id i
    simp only [mem_map, Prod.mk.injEq, Prod.exists, mk_mem_zipIdx_iff_getElem?,
      referenceIds, getElem?_map, map_eq_some_iff]
    constructor
    · rintro ⟨r, j, hr, hid, rfl⟩
      exact ⟨r, hr, hid⟩
    · rintro ⟨r, hr, hid⟩
      exact ⟨r, i, hr, hid, rfl⟩
  intro id i
  rw [referenceIndexes, lookup_collectMap, hmem]
  intro a j j' hj hj'
  rw [hmem] at hj hj'
  obtain ⟨hlt, hget⟩ := List.getElem?_eq_some_iff.mp hj
  obtain ⟨hlt', hget'⟩ := List.getElem?_eq_some_iff.mp hj'
  exact (referenceIds_nodup reader m).getElem_inj_iff.mp (hget.trans hget'.symm)

variable {ids : List ReferenceId}

theorem Positions.length_eq
    {table : AList fun _ : ReferenceId => ReferenceOrdinal} (h : Positions ids table)
    (hnd : ids.Nodup) : table.entries.length = ids.length := by
  have hperm : table.keys.Perm ids := by
    refine (perm_ext_iff_of_nodup table.keys_nodup hnd).mpr fun id => ?_
    rw [← AList.mem_keys, ← AList.lookup_isSome, Option.isSome_iff_exists, mem_iff_getElem?]
    exact exists_congr fun i => h id i
  rw [← hperm.length_eq, AList.keys, List.keys, length_map]

theorem eq_of_getElem?_ids (hnd : ids.Nodup) {i j : ℕ} {id : ReferenceId}
    (hi : ids[i]? = some id) (hj : ids[j]? = some id) : i = j := by
  obtain ⟨hlt, hget⟩ := List.getElem?_eq_some_iff.mp hi
  obtain ⟨hlt', hget'⟩ := List.getElem?_eq_some_iff.mp hj
  exact hnd.getElem_inj_iff.mp (hget.trans hget'.symm)

section Stable

variable {reader : RecordReader} {m m' : CodeIndexMaterial} {changed : OrdSet ℕ}

/-- Ids in increasing order are determined by their set. -/
theorem referenceIds_eq_of_subset (hsub : referenceIds reader m ⊆ referenceIds reader m')
    (hlen : (referenceIds reader m').length ≤ (referenceIds reader m).length) :
    referenceIds reader m = referenceIds reader m' := by
  have hperm : (referenceIds reader m).Perm (referenceIds reader m') :=
    (subperm_of_subset (referenceIds_nodup reader m) hsub).perm_of_length_le hlen
  have hsorted : ∀ m : CodeIndexMaterial, (referenceIds reader m).Pairwise ReferenceId.lt := by
    intro m
    rw [← ids_referenceTable]
    exact (referenceTable reader m).ids_sorted
  refine hperm.eq_of_pairwise (fun a b _ _ hab hba => ?_) (hsorted m) (hsorted m')
  unfold ReferenceId.lt at hab hba
  omega

/-- Where nothing is removed or moved and the number of references is the same, the ids are the
same and none is reported as changed. -/
theorem referenceIds_of_stable (hu : Updates changed m m')
    (hremaps : (graphDiff reader m m' changed).referenceIdRemaps = [])
    (hremoved : (graphDiff reader m m' changed).removedReferences = [])
    (hlen : (referenceIds reader m).length = (referenceIds reader m').length) :
    referenceIds reader m = referenceIds reader m' ∧
      (graphDiff reader m m' changed).changedReferences = [] := by
  have hnext : ∀ id, nextReference (graphDiff reader m m' changed) id = some id := by
    intro id
    simp [nextReference, hremaps, hremoved, collectMap]
  have hids : referenceIds reader m = referenceIds reader m' :=
    referenceIds_eq_of_subset (fun id hid => nextReference_mem hu hid (hnext id)) hlen.ge
  refine ⟨hids, eq_nil_iff_forall_not_mem.mpr fun id hid => ?_⟩
  obtain ⟨-, ⟨r, hr, -⟩, -⟩ := (mem_changedReferences hu).mp hid
  have hmem : id ∈ referenceIds reader m := by
    rw [hids]
    exact mem_referenceIds.mpr ⟨r, hr⟩
  exact nextReference_notMem_changed hu hmem (hnext id) hid

end Stable

/-! ## One decision for each reference -/

/-- Exactly the references at the positions in `keep` have a decision, each one. -/
structure Covers (ids : List ReferenceId) (keep : ReferenceOrdinal → Prop)
    (decisions : List LinkageDecision) : Prop where
  nodup : (decisions.map (·.reference)).Nodup
  mem : ∀ id i, (∃ d ∈ decisions, d.reference = id ∧ d.referenceIdx = i) ↔
    ids[i]? = some id ∧ keep i

theorem Covers.getElem? {keep : ReferenceOrdinal → Prop}
    {decisions : List LinkageDecision} (h : Covers ids keep decisions) {d : LinkageDecision}
    (hd : d ∈ decisions) : ids[d.referenceIdx]? = some d.reference :=
  ((h.mem _ _).mp ⟨d, hd, rfl, rfl⟩).1

theorem Covers.perm {decisions : List LinkageDecision}
    (hnd : ids.Nodup) (h : Covers ids (fun _ => True) decisions) :
    (decisions.map fun d => (d.reference, d.referenceIdx)).Perm ids.zipIdx := by
  have hzip : ids.zipIdx.Nodup := by
    refine Nodup.of_map Prod.fst ?_
    rwa [zipIdx_map_fst]
  have htags : (decisions.map fun d => (d.reference, d.referenceIdx)).Nodup := by
    refine Nodup.of_map Prod.fst ?_
    rw [map_map]
    exact h.nodup
  refine (perm_ext_iff_of_nodup htags hzip).mpr fun ⟨id, i⟩ => ?_
  rw [mk_mem_zipIdx_iff_getElem?, mem_map]
  have hmem := h.mem id i
  simp only [and_true] at hmem
  rw [← hmem]
  simp

theorem Covers.congr {keep keep' : ReferenceOrdinal → Prop}
    {decisions : List LinkageDecision} (h : Covers ids keep decisions)
    (heq : ∀ i id, ids[i]? = some id → (keep i ↔ keep' i)) : Covers ids keep' decisions where
  nodup := h.nodup
  mem id i := by
    rw [h.mem]
    exact and_congr_right fun hi => heq i id hi

section Rebase

variable {reader : RecordReader} {m m' : CodeIndexMaterial} {changed : OrdSet ℕ}

/-- The positions of the references that the diff keeps. -/
def Kept (reader : RecordReader) (m m' : CodeIndexMaterial) (changed : OrdSet ℕ)
    (i : ReferenceOrdinal) : Prop :=
  ∃ id ∈ referenceIds reader m, ∃ id',
    nextReference (graphDiff reader m m' changed) id = some id' ∧
      (referenceIds reader m')[i]? = some id'

theorem mem_rebased {store : LinkageStore} {d' : LinkageDecision} :
    d' ∈ (store.rebaseReferenceOrdinals (graphDiff reader m m' changed)
        (referenceIndexes (references reader m'))).decisions ↔ ∃ d ∈ store.decisions,
        nextReference (graphDiff reader m m' changed) d.reference = some d'.reference ∧
        (referenceIds reader m')[d'.referenceIdx]? = some d'.reference ∧
        d'.outcome = d.outcome := by
  have hlookup := positions_referenceIndexes reader m'
  simp only [rebaseReferenceOrdinals, mem_filterMap, Option.bind_eq_some_iff,
    map_eq_some_iff, hlookup _ _]
  refine ⟨?_, ?_⟩
  · rintro ⟨d, hd, id, hid, i, hi, rfl⟩
    exact ⟨d, hd, hid, hi, rfl⟩
  · rintro ⟨d, hd, hid, hi, ho⟩
    refine ⟨d, hd, _, hid, _, hi, ?_⟩
    cases d'
    simp_all

theorem covers_rebase (hu : Updates changed m m') {store : LinkageStore}
    (h : Covers (referenceIds reader m) (fun _ => True) store.decisions) :
    Covers (referenceIds reader m') (Kept reader m m' changed)
      (store.rebaseReferenceOrdinals (graphDiff reader m m' changed)
        (referenceIndexes (references reader m'))).decisions where
  nodup := by
    have hpair := pairwise_map.mp h.nodup
    refine pairwise_map.mpr (pairwise_filterMap.mpr ?_)
    refine hpair.imp_of_mem fun {d e} hd he hne => ?_
    simp only [Option.bind_eq_some_iff, map_eq_some_iff]
    rintro d' ⟨id, hid, i, -, rfl⟩ e' ⟨id', hid', i', -, rfl⟩ rfl
    exact hne (nextReference_injective hu (mem_of_getElem? (h.getElem? hd))
      (mem_of_getElem? (h.getElem? he)) hid hid')
  mem id' i := by
    refine ⟨?_, ?_⟩
    · rintro ⟨d', hd', rfl, rfl⟩
      obtain ⟨d, hd, hnext, hpos, -⟩ := mem_rebased.mp hd'
      exact ⟨hpos, d.reference, mem_of_getElem? (h.getElem? hd), _, hnext, hpos⟩
    · rintro ⟨hi, id, hid, id'', hnext, hi''⟩
      obtain rfl : id'' = id' := Option.some.inj (hi''.symm.trans hi)
      obtain ⟨p, hp⟩ := mem_iff_getElem?.mp hid
      obtain ⟨d, hd, rfl, -⟩ := (h.mem id p).mpr ⟨hp, trivial⟩
      exact ⟨⟨id'', i, d.outcome⟩, mem_rebased.mpr ⟨d, hd, hnext, hi, rfl⟩, rfl, rfl⟩

/-- A reference that is not kept is reported as changed. -/
theorem kept_or_changed (hu : Updates changed m m') (hm' : m'.Indexed) {i : ReferenceOrdinal}
    {id : ReferenceId} (hi : (referenceIds reader m')[i]? = some id) : Kept reader m m' changed i ∨
      id ∈ (graphDiff reader m m' changed).changedReferences := by
  rcases exists_nextReference hu hm' (mem_of_getElem? hi) with hin | ⟨id₀, hid₀, hnext⟩
  · exact Or.inr hin
  · exact Or.inl ⟨id₀, hid₀, id, hnext, hi⟩

end Rebase

section Apply

variable {ids : List ReferenceId} {keep : ReferenceOrdinal → Prop} {store : LinkageStore}
  {references : List IndexedReference} {m : CodeIndexMaterial} {stale : ReferenceSet}

theorem decisions_removeStaleDecisions
    (hpos : Positions ids store.indexes.referenceIndexes) (h : Covers ids keep store.decisions) :
    (store.removeStaleDecisions stale).decisions =
      store.decisions.filter (·.referenceIdx ∉ stale) := by
  rw [← filterMap_eq_filter]
  refine filterMap_congr fun d hd => ?_
  have hlookup := (hpos d.reference d.referenceIdx).mpr (h.getElem? hd)
  by_cases hstale : d.referenceIdx ∈ stale
  · simp [hlookup, hstale, Option.guard]
  · simp [hlookup, hstale, Option.guard]

theorem decisions_foldl_addChangedDecision : ∀ (changed : List LinkageDecision)
    (store : LinkageStore), (∀ d ∈ changed, d.referenceIdx < references.length) →
    (changed.foldl (addChangedDecision references m) store).decisions = store.decisions ++ changed
  | [], store, _ => by simp
  | d :: changed, store, h => by
    have hstep : (store.addChangedDecision references m d).decisions = store.decisions ++ [d] := by
      rw [addChangedDecision, getElem?_eq_getElem (h d mem_cons_self)]
    rw [foldl_cons,
      decisions_foldl_addChangedDecision changed _ fun d' hd' => h d' (mem_cons_of_mem d hd'),
      hstep, append_assoc, singleton_append]

theorem decisions_applyRefresh (hpos : Positions ids store.indexes.referenceIndexes)
    (h : Covers ids keep store.decisions) {changed : List LinkageDecision}
    (hchanged : ∀ d ∈ changed, d.referenceIdx < references.length) :
    (store.applyRefresh references m stale changed).decisions =
      store.decisions.filter (·.referenceIdx ∉ stale) ++ changed := by
  rw [applyRefresh, decisions_foldl_addChangedDecision changed _ hchanged]
  have hremoved : Positions ids ({ store with
      indexes := store.indexes.removeStaleReferences stale } : LinkageStore).indexes.referenceIndexes :=
    hpos
  rw [decisions_removeStaleDecisions hremoved h]

theorem Covers.filter (h : Covers ids keep store.decisions) (stale : ReferenceSet) :
    Covers ids (fun i => keep i ∧ i ∉ stale) (store.decisions.filter (·.referenceIdx ∉ stale)) where
  nodup := h.nodup.sublist (filter_sublist.map _)
  mem id i := by
    have hmem := h.mem id i
    refine ⟨?_, ?_⟩
    · rintro ⟨d, hd, rfl, rfl⟩
      obtain ⟨hd, hstale⟩ := mem_filter.mp hd
      obtain ⟨hi, hkeep⟩ := hmem.mp ⟨d, hd, rfl, rfl⟩
      exact ⟨hi, hkeep, by simpa using hstale⟩
    · rintro ⟨hi, hkeep, hstale⟩
      obtain ⟨d, hd, rfl, rfl⟩ := hmem.mpr ⟨hi, hkeep⟩
      exact ⟨d, mem_filter.mpr ⟨hd, by simpa using hstale⟩, rfl, rfl⟩

end Apply

section Resolve

variable {reader : RecordReader} {m : CodeIndexMaterial} {symbols : SymbolOrdinalCatalog}
  {answers : LinkageAnswers symbols}

theorem mem_resolveReferenceDecisions {indexes : List ReferenceOrdinal} {d : LinkageDecision} :
    d ∈ resolveReferenceDecisions reader m symbols answers indexes ↔
      d.referenceIdx ∈ indexes ∧ ∃ r, (references reader m)[d.referenceIdx]? = some r ∧
        d = ⟨r.id, d.referenceIdx, answers.resolveReference d.referenceIdx r⟩ := by
  simp only [resolveReferenceDecisions, mem_filterMap, map_eq_some_iff]
  refine ⟨?_, ?_⟩
  · rintro ⟨i, hi, r, hr, rfl⟩
    exact ⟨hi, r, hr, rfl⟩
  · rintro ⟨hi, r, hr, hd⟩
    exact ⟨_, hi, r, hr, hd.symm⟩

theorem covers_resolveReferenceDecisions (stale : ReferenceSet) :
    Covers (referenceIds reader m) (· ∈ stale)
      (resolveReferenceDecisions reader m symbols answers stale.elems) where
  nodup := by
    refine pairwise_map.mpr (pairwise_filterMap.mpr ?_)
    refine (OrdSet.nodup stale).imp fun {i j} hne => ?_
    simp only [map_eq_some_iff]
    rintro d ⟨r, hr, rfl⟩ d' ⟨r', hr', rfl⟩ heq
    have hid : r.id = r'.id := heq
    have hi : (referenceIds reader m)[i]? = some r.id := by simp [referenceIds, hr]
    have hj : (referenceIds reader m)[j]? = some r.id := by simp [referenceIds, hr', hid]
    exact hne (eq_of_getElem?_ids (referenceIds_nodup reader m) hi hj)
  mem id i := by
    simp only [mem_resolveReferenceDecisions, OrdSet.mem_elems, referenceIds, getElem?_map,
      map_eq_some_iff]
    refine ⟨?_, ?_⟩
    · rintro ⟨d, ⟨hstale, r, hr, hd⟩, rfl, rfl⟩
      rw [hd]
      exact ⟨⟨r, hr, rfl⟩, hstale⟩
    · rintro ⟨⟨r, hr, rfl⟩, hstale⟩
      exact ⟨⟨r.id, i, answers.resolveReference i r⟩, ⟨hstale, r, hr, rfl⟩, rfl, rfl⟩

theorem Covers.append {keep keep' : ReferenceOrdinal → Prop}
    {decisions decisions' : List LinkageDecision} (hnd : ids.Nodup)
    (h : Covers ids keep decisions) (h' : Covers ids keep' decisions')
    (hdisj : ∀ i, keep i → ¬keep' i) :
    Covers ids (fun i => keep i ∨ keep' i) (decisions ++ decisions') where
  nodup := by
    rw [map_append]
    refine nodup_append.mpr ⟨h.nodup, h'.nodup, ?_⟩
    rintro id hid id' hid' rfl
    obtain ⟨d, hd, rfl⟩ := mem_map.mp hid
    obtain ⟨d', hd', heq⟩ := mem_map.mp hid'
    obtain ⟨hi, hkeep⟩ := (h.mem _ _).mp ⟨d, hd, rfl, rfl⟩
    obtain ⟨hi', hkeep'⟩ := (h'.mem _ _).mp ⟨d', hd', rfl, rfl⟩
    rw [heq] at hi'
    rw [eq_of_getElem?_ids hnd hi hi'] at hkeep
    exact hdisj _ hkeep hkeep'
  mem id i := by
    have hmem := h.mem id i
    have hmem' := h'.mem id i
    simp only [mem_append, or_and_right, exists_or, hmem, hmem']
    tauto

/-- All references have a decision once the stale ones are resolved again. -/
theorem covers_applyRefresh {store : LinkageStore} {keep : ReferenceOrdinal → Prop}
    {stale : ReferenceSet} (hpos : Positions (referenceIds reader m) store.indexes.referenceIndexes)
    (h : Covers (referenceIds reader m) keep store.decisions)
    (hkeep : ∀ i id, (referenceIds reader m)[i]? = some id → keep i ∨ i ∈ stale) :
    Covers (referenceIds reader m) (fun _ => True) (store.applyRefresh (references reader m) m stale
        (resolveReferenceDecisions reader m symbols answers stale.elems)).decisions := by
  have hrange : ∀ d ∈ resolveReferenceDecisions reader m symbols answers stale.elems,
      d.referenceIdx < (references reader m).length := by
    intro d hd
    obtain ⟨-, r, hr, -⟩ := mem_resolveReferenceDecisions.mp hd
    exact (List.getElem?_eq_some_iff.mp hr).1
  rw [decisions_applyRefresh hpos h hrange]
  refine ((h.filter stale).append (referenceIds_nodup reader m)
    (covers_resolveReferenceDecisions stale) fun i hi => hi.2).congr fun i id hi => ?_
  have hcase := hkeep i id hi
  tauto

end Resolve

/-! ## Refinements -/

/-- What refinements do to one decision : a selected one may get another outcome. -/
structure Refines (selected : ReferenceId → Bool) (P : LinkageOutcome → Prop)
    (d d' : LinkageDecision) : Prop where
  reference : d'.reference = d.reference
  referenceIdx : d'.referenceIdx = d.referenceIdx
  outcome : d'.outcome = d.outcome ∨ selected d.reference = true ∧ P d'.outcome

section Refine

variable {references : List IndexedReference} {selected : ReferenceId → Bool}
  {P : LinkageOutcome → Prop}

theorem Refines.refl (d : LinkageDecision) : Refines selected P d d := ⟨rfl, rfl, Or.inl rfl⟩

theorem Refines.trans {a b c : LinkageDecision} (h : Refines selected P a b)
    (h' : Refines selected P b c) : Refines selected P a c where
  reference := h'.reference.trans h.reference
  referenceIdx := h'.referenceIdx.trans h.referenceIdx
  outcome := by
    rcases h'.outcome with heq | ⟨hsel, hP⟩
    · rcases h.outcome with heq' | ⟨hsel', hP'⟩
      · exact Or.inl (heq.trans heq')
      · exact Or.inr ⟨hsel', heq ▸ hP'⟩
    · exact Or.inr ⟨h.reference ▸ hsel, hP⟩

theorem forall₂_refines_trans {a b c : List LinkageDecision}
    (h : Forall₂ (Refines selected P) a b) (h' : Forall₂ (Refines selected P) b c) :
    Forall₂ (Refines selected P) a c := by
  induction h generalizing c with
  | nil => exact h'
  | cons hhead _ ih =>
    cases h' with
    | cons hhead' htail' => exact Forall₂.cons (hhead.trans hhead') (ih htail')

/-- Every decision stands at the position of its reference. -/
def Placed (references : List IndexedReference) (decisions : List LinkageDecision) : Prop :=
  ∀ d ∈ decisions, (references.map (·.id))[d.referenceIdx]? = some d.reference

theorem Placed.of_refines {decisions decisions' : List LinkageDecision}
    (h : Placed references decisions)
    (hrefines : Forall₂ (Refines selected P) decisions decisions') :
    Placed references decisions' := by
  intro d' hd'
  obtain ⟨d, hd, href⟩ : ∃ d ∈ decisions, Refines selected P d d' := by
    induction hrefines with
    | nil => simp at hd'
    | cons hhead _ ih =>
      rcases mem_cons.mp hd' with rfl | hd'
      · exact ⟨_, mem_cons_self, hhead⟩
      · obtain ⟨d, hd, href⟩ := ih (fun x hx => h x (mem_cons_of_mem _ hx)) hd'
        exact ⟨d, mem_cons_of_mem _ hd, href⟩
  rw [href.reference, href.referenceIdx]
  exact h d hd

theorem refineFrom_spec {pass : ℕ → Option LinkageOutcome}
    (hpass : ∀ k o, pass k = some o → P o) : ∀ (decisions : List LinkageDecision) (k : ℕ),
    Placed references decisions →
    ∃ refined, refineFrom references selected pass k decisions = some refined ∧
      Forall₂ (Refines selected P) decisions refined
  | [], k, _ => ⟨[], rfl, Forall₂.nil⟩
  | d :: decisions, k, h => by
    obtain ⟨rest, hrest, hforall⟩ := refineFrom_spec hpass decisions (k + 1)
      fun x hx => h x (mem_cons_of_mem d hx)
    cases hfound : (if selected d.reference then pass k else none) with
    | none =>
      refine ⟨d :: rest, ?_, Forall₂.cons (Refines.refl d) hforall⟩
      simp [refineFrom, hfound, hrest]
    | some outcome =>
      have hplace := h d mem_cons_self
      rw [getElem?_map] at hplace
      obtain ⟨r, hr, hid⟩ := map_eq_some_iff.mp hplace
      split_ifs at hfound with hsel
      refine ⟨⟨r.id, d.referenceIdx, outcome⟩ :: rest, ?_,
        Forall₂.cons ⟨hid, rfl, Or.inr ⟨hsel, hpass k outcome hfound⟩⟩ hforall⟩
      simp [refineFrom, hsel, hfound, hr, hrest]

theorem refineDecisions_spec : ∀ (refinements : List (List LinkageDecision → ℕ →
    Option LinkageOutcome)) (decisions : List LinkageDecision),
    (∀ pass ∈ refinements, ∀ decisions k o, pass decisions k = some o → P o) →
    Placed references decisions → ∃ refined,
      LinkageStore.refineDecisions references selected refinements decisions = some refined ∧
      Forall₂ (Refines selected P) decisions refined
  | [], decisions, _, _ => by
    refine ⟨decisions, rfl, ?_⟩
    exact List.forall₂_same.mpr fun d _ => Refines.refl d
  | pass :: refinements, decisions, hpass, h => by
    obtain ⟨once, honce, hforall⟩ : ∃ once,
        refineFrom references selected (pass decisions) 0 decisions = some once ∧
          Forall₂ (Refines selected P) decisions once :=
      refineFrom_spec (hpass pass mem_cons_self decisions) decisions 0 h
    obtain ⟨refined, hrefined, hforall'⟩ := refineDecisions_spec refinements once
      (fun p hp => hpass p (mem_cons_of_mem pass hp)) (h.of_refines hforall)
    refine ⟨refined, ?_, ?_⟩
    · rw [LinkageStore.refineDecisions, foldlM_cons, honce]
      exact hrefined
    · exact forall₂_refines_trans hforall hforall'

end Refine

theorem tags_of_refines {selected : ReferenceId → Bool} {P : LinkageOutcome → Prop}
    {decisions decisions' : List LinkageDecision}
    (h : Forall₂ (Refines selected P) decisions decisions') :
    decisions'.map (fun d => (d.reference, d.referenceIdx)) =
      decisions.map fun d => (d.reference, d.referenceIdx) := by
  induction h with
  | nil => rfl
  | cons hhead _ ih =>
    rw [map_cons, map_cons, ih, hhead.reference, hhead.referenceIdx]

theorem Covers.of_refines {keep : ReferenceOrdinal → Prop}
    {selected : ReferenceId → Bool} {P : LinkageOutcome → Prop}
    {decisions decisions' : List LinkageDecision} (h : Covers ids keep decisions)
    (hrefines : Forall₂ (Refines selected P) decisions decisions') :
    Covers ids keep decisions' := by
  have htags := tags_of_refines hrefines
  refine ⟨?_, fun id i => ?_⟩
  · have hfst := congrArg (List.map Prod.fst) htags
    rw [map_map, map_map] at hfst
    have hrefs : decisions'.map (·.reference) = decisions.map (·.reference) := hfst
    rw [hrefs]
    exact h.nodup
  · have hmem : ∀ l : List LinkageDecision, (∃ d ∈ l, d.reference = id ∧ d.referenceIdx = i) ↔
        (id, i) ∈ l.map fun d => (d.reference, d.referenceIdx) := by
      intro l
      simp
    rw [hmem, htags, ← hmem]
    exact h.mem id i

end CodeMoniker
