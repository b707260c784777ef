import CodeMoniker.WorkspaceEval

/-!
# Incremental evaluation of workspace rules

After a refresh of the index the rules are evaluated again on the symbols that the diff lists,
and what the previous evaluation says of the others is kept. The symbols to leave out are found
by their identity, which several symbols may share.

`Undisturbed` says when no symbol that the diff leaves alone is taken for one that it lists.
The violation sets are then those of a full evaluation (`mergeViolationSets_eq`), and so are the
violations of the symbol rules under every sort key (`filter_symbol_violations`).
-/

namespace CodeMoniker

open List StableSort OrdSet
open Option (some.inj)

/-! ## Views and diffs -/

/-- An inventory and the symbols of it that the rules range over. -/
structure RuleView where
  inventory : SymbolInventoryIndex
  symbols : SymbolSet
  listed : ∀ o ∈ symbols, ∃ r, inventory.record o = some r
  cataloged : ∀ o r, inventory.record o = some r → inventory.catalog.ordinal r.id = some o

/-- What the evaluation reads of a diff. -/
structure CodeIndexGraphDiff where
  addedSymbols : List SymbolId := []
  modifiedSymbols : List SymbolId := []
  removedSymbols : List SymbolId := []
  modifiedSymbolIdentities : List String := []
  modifiedInventorySymbols : List SymbolId := []
  modifiedInventorySymbolIdentities : List String := []
  symbolIdRemaps : List (SymbolId × SymbolId) := []

namespace CodeIndexGraphDiff

/-- The diff lists a symbol of the previous view, by its id or by its identity. -/
def ListsBefore (diff : CodeIndexGraphDiff) (r : InventorySymbol) : Prop :=
  r.id ∈ diff.removedSymbols ∨ r.identity ∈ diff.modifiedSymbolIdentities ∨
    r.identity ∈ diff.modifiedInventorySymbolIdentities ∨ r.id ∈ diff.symbolIdRemaps.map (·.1)

/-- The diff lists a symbol of the current view. -/
def ListsAfter (diff : CodeIndexGraphDiff) (r : InventorySymbol) : Prop :=
  r.id ∈ diff.symbolIdRemaps.map (·.2) ∨ r.id ∈ diff.addedSymbols ∨ r.id ∈ diff.modifiedSymbols ∨
    r.id ∈ diff.modifiedInventorySymbols

/-- The diff lists every symbol that was added, removed or changed. -/
structure Complete (diff : CodeIndexGraphDiff) (previous current : RuleView) : Prop where
  before : ∀ o ∈ previous.symbols, ∀ r, previous.inventory.record o = some r →
    diff.ListsBefore r ∨ o ∈ current.symbols ∧ current.inventory.record o = some r
  after : ∀ o ∈ current.symbols, ∀ r, current.inventory.record o = some r →
    diff.ListsAfter r ∨ o ∈ previous.symbols ∧ previous.inventory.record o = some r

end CodeIndexGraphDiff

/-! ## Dirty symbols -/

/-- Insert the ordinals of the ids that the catalog knows. -/
def insertOrdinals (x : SymbolInventoryIndex) (s : SymbolSet) (ids : List SymbolId) : SymbolSet :=
  ids.foldl (fun s id => match x.catalog.ordinal id with
    | some o => s.insert o
    | none => s) s

/-- Unite with the symbols of each identity. -/
def uniteIdentities (x : SymbolInventoryIndex) (s : SymbolSet) (identities : List String) :
    SymbolSet :=
  identities.foldl (fun s identity => s ∪ x.facets.byIdentity.get identity) s

def dirtySymbolSets (previous current : SymbolInventoryIndex) (diff : CodeIndexGraphDiff) :
    SymbolSet × SymbolSet :=
  let previousDirty := insertOrdinals previous ∅ diff.removedSymbols
  let previousDirty := uniteIdentities previous previousDirty diff.modifiedSymbolIdentities
  let previousDirty := uniteIdentities previous previousDirty diff.modifiedInventorySymbolIdentities
  let previousDirty := insertOrdinals previous previousDirty (diff.symbolIdRemaps.map (·.1))
  let currentDirty := insertOrdinals current ∅ (diff.symbolIdRemaps.map (·.2))
  let currentDirty := insertOrdinals current currentDirty
    (diff.addedSymbols ++ diff.modifiedSymbols ++ diff.modifiedInventorySymbols)
  (previousDirty, currentDirty)

def dirtyIdentities (previous current : SymbolInventoryIndex) (previousDirty currentDirty : SymbolSet) :
    List String :=
  (memberRecords previous previousDirty ++ memberRecords current currentDirty).map (·.identity)

/-! ## Symbol rules -/

def mergeViolationSets (compiled : CompiledWorkspaceRules) (previous dirty : WorkspaceEvaluation)
    (previousDirty currentUniverse : SymbolSet) : OrdMap String SymbolSet :=
  OrdMap.ofList (compiled.symbol.map fun rule =>
    (rule.ruleId,
      (((previous.violationSets.get? rule.ruleId).getD ∅ \ previousDirty) ∩ currentUniverse) ∪
        (dirty.violationSets.get? rule.ruleId).getD ∅))

/-- The first symbol of the universe with the identity and the source of a violation. -/
def violationRecord (current : SymbolInventoryIndex) (u : SymbolSet)
    (v : WorkspaceSymbolViolation) : Option InventorySymbol :=
  (((current.facets.byIdentity.get v.violation.moniker).elems.filter (· ∈ u)).filterMap
    current.record).find? (·.source = v.source)

def relocate (current : SymbolInventoryIndex) (u : SymbolSet) (v : WorkspaceSymbolViolation) :
    Option WorkspaceSymbolViolation := do
  let r ← violationRecord current u v
  some { v with
    source := r.source
    symbol := some r.id
    violation := { v.violation with lines := r.lineRange.getD (0, 0) } }

def preservedSymbolViolations (current : SymbolInventoryIndex) (previous : WorkspaceEvaluation)
    (dirty : List String) (currentUniverse : SymbolSet) : List WorkspaceSymbolViolation :=
  ((previous.violations.filter (·.sourceSuppression)).filter (·.violation.moniker ∉ dirty)).filterMap
    (relocate current currentUniverse)

/-! ## Group rules -/

structure WorkspaceIncrementalInput where
  previous : RuleView
  current : RuleView
  diff : CodeIndexGraphDiff
  compiled : CompiledWorkspaceRules
  evaluation : WorkspaceEvaluation

structure GroupIncrementalState where
  next : OrdMap ScopeKey WorkspaceGroupResult
  affected : OrdSet String := ∅
  previousCache : AtomCache := ∅
  currentCache : AtomCache := ∅

def indexGroupResults (evaluation : WorkspaceEvaluation) : OrdMap ScopeKey WorkspaceGroupResult :=
  OrdMap.ofList (evaluation.groups.map fun g => (g.key, g))

section Incremental

variable (previous current : RuleView) (previousDirty currentDirty : SymbolSet)

/-- The members of an affected group after the update. -/
def updatedMembers (before changed : SymbolSet) : SymbolSet :=
  ((before \ previousDirty) ∩ current.symbols) ∪ changed

def updateGroup (rule : CompiledWorkspaceGroupRule) (changed : OrdMap ScopeKey SymbolSet)
    (next : OrdMap ScopeKey WorkspaceGroupResult) (key : ScopeKey) :
    OrdMap ScopeKey WorkspaceGroupResult :=
  let members := updatedMembers current previousDirty
    (((next.get? key).map (·.members)).getD ∅) ((changed.get? key).getD ∅)
  if members = ∅ then next.erase key
  else next.insert key (groupResult current.inventory rule key members)

def updateGroupRule (s : GroupIncrementalState) (rule : CompiledWorkspaceGroupRule) :
    GroupIncrementalState :=
  let (previousSelected, previousCache) := evalNode previous.inventory
    (previousDirty ∩ previous.symbols) rule.members s.previousCache
  let (currentSelected, currentCache) := evalNode current.inventory
    (currentDirty ∩ current.symbols) rule.members s.currentCache
  let previousChanged := bucketMembers previous.inventory rule previousSelected
  let currentChanged := bucketMembers current.inventory rule currentSelected
  let keys := OrdSet.ofList (previousChanged.keys ++ currentChanged.keys)
  { next := keys.elems.foldl (updateGroup current previousDirty rule currentChanged) s.next
    affected := keys.elems.foldl (fun affected key => affected.insert key.canonical) s.affected
    previousCache
    currentCache }

def groupDiagnostics (inventory : SymbolInventoryIndex) (compiled : CompiledWorkspaceRules)
    (groups : List WorkspaceGroupResult) : List WorkspaceSymbolViolation :=
  let rules := OrdMap.ofList (compiled.group.map fun rule => (rule.ruleId, rule))
  (groups.filter (·.failing)).filterMap fun g => do
    let rule ← rules.get? g.key.ruleId
    groupViolation inventory rule g

def evaluateGroupsIncremental (compiled : CompiledWorkspaceRules) (evaluation : WorkspaceEvaluation) :
    List WorkspaceGroupResult × List WorkspaceSymbolViolation × ℕ :=
  let s := compiled.group.foldl (updateGroupRule previous current previousDirty currentDirty)
    { next := indexGroupResults evaluation }
  let groups := s.next.values
  (groups, groupDiagnostics current.inventory compiled groups, s.affected.card)

end Incremental

/-! ## All rules -/

structure WorkspaceIncrementalEvaluation where
  evaluation : WorkspaceEvaluation
  dirtySymbols : ℕ
  evaluatedSymbols : ℕ
  affectedGroups : ℕ

namespace WorkspaceIncrementalInput

variable (i : WorkspaceIncrementalInput)

def previousDirty : SymbolSet :=
  (dirtySymbolSets i.previous.inventory i.current.inventory i.diff).1 ∩ i.previous.symbols

def currentDirty : SymbolSet :=
  (dirtySymbolSets i.previous.inventory i.current.inventory i.diff).2 ∩ i.current.symbols

def dirtyIdentities : List String :=
  CodeMoniker.dirtyIdentities i.previous.inventory i.current.inventory i.previousDirty i.currentDirty

/-- The full evaluation of the dirty symbols. -/
def dirtyEvaluation : WorkspaceEvaluation :=
  evaluateWorkspaceRulesIn i.current.inventory i.currentDirty false i.compiled

def evaluateGroups : List WorkspaceGroupResult × List WorkspaceSymbolViolation × ℕ :=
  evaluateGroupsIncremental i.previous i.current i.previousDirty i.currentDirty i.compiled i.evaluation

end WorkspaceIncrementalInput

def evaluateWorkspaceRulesIncremental (i : WorkspaceIncrementalInput) :
    WorkspaceIncrementalEvaluation :=
  let violations := preservedSymbolViolations i.current.inventory i.evaluation i.dirtyIdentities
    i.current.symbols
  let violations := violations ++ i.dirtyEvaluation.violations.filter (·.sourceSuppression)
  let (groups, groupViolations, affectedGroups) := i.evaluateGroups
  { evaluation := {
      violations := sortWorkspaceViolations (violations ++ groupViolations)
      violationSets := mergeViolationSets i.compiled i.evaluation i.dirtyEvaluation i.previousDirty
        i.current.symbols
      groups := groups
      reports := [] }
    dirtySymbols := (i.previousDirty ∪ i.currentDirty).card
    evaluatedSymbols := i.currentDirty.card
    affectedGroups := affectedGroups }

/-! ## What is dirty -/

section Dirty

variable {x : SymbolInventoryIndex} {o : SymbolOrdinal} {r : InventorySymbol}

theorem mem_insertOrdinals : ∀ {ids : List SymbolId} {s : SymbolSet},
    o ∈ insertOrdinals x s ids ↔ o ∈ s ∨ ∃ id ∈ ids, x.catalog.ordinal id = some o
  | [], s => by simp [insertOrdinals]
  | id :: ids, s => by
    rw [insertOrdinals, foldl_cons, ← insertOrdinals, mem_insertOrdinals]
    cases hid : x.catalog.ordinal id with
    | none => simp [hid]
    | some o' =>
      simp only [mem_insert, exists_mem_cons_iff, hid, Option.some.injEq]
      rw [eq_comm (a := o)]
      tauto

theorem mem_uniteIdentities {identities : List String} {s : SymbolSet} :
    o ∈ uniteIdentities x s identities ↔
      o ∈ s ∨ ∃ identity ∈ identities, o ∈ x.facets.byIdentity.get identity :=
  mem_foldl_union _

theorem mem_byIdentity (hr : x.record o = some r) {identity : String} :
    o ∈ x.facets.byIdentity.get identity ↔ r.identity = identity := by
  rw [x.described.identity.mem_get_single]
  refine ⟨?_, fun h => ⟨r, hr, h⟩⟩
  rintro ⟨r', hr', rfl⟩
  rw [some.inj (hr.symm.trans hr')]

theorem exists_mem_byIdentity (hr : x.record o = some r) {identities : List String} :
    (∃ identity ∈ identities, o ∈ x.facets.byIdentity.get identity) ↔ r.identity ∈ identities := by
  simp only [mem_byIdentity hr, exists_eq_right']

/-- The catalog binds one id to the ordinal of a record. -/
theorem RuleView.exists_ordinal {v : RuleView} (hr : v.inventory.record o = some r)
    {ids : List SymbolId} : (∃ id ∈ ids, v.inventory.catalog.ordinal id = some o) ↔ r.id ∈ ids := by
  have hbound := v.cataloged o r hr
  refine ⟨?_, fun h => ⟨r.id, h, hbound⟩⟩
  rintro ⟨id, hmem, hid⟩
  have hsame : some id = some r.id :=
    (SymbolOrdinalCatalog.id_eq_some_iff.mpr hid).symm.trans
      (SymbolOrdinalCatalog.id_eq_some_iff.mpr hbound)
  rwa [← some.inj hsame]

theorem RuleView.ordinal_unique {v : RuleView} {o' : SymbolOrdinal} {r' : InventorySymbol}
    (hr : v.inventory.record o = some r) (hr' : v.inventory.record o' = some r')
    (hid : r.id = r'.id) : o = o' := by
  have h := v.cataloged o r hr
  rw [hid, v.cataloged o' r' hr'] at h
  exact (some.inj h).symm

namespace WorkspaceIncrementalInput

variable {i : WorkspaceIncrementalInput}

theorem mem_previousDirty (hr : i.previous.inventory.record o = some r) :
    o ∈ i.previousDirty ↔ o ∈ i.previous.symbols ∧ i.diff.ListsBefore r := by
  simp only [previousDirty, dirtySymbolSets, mem_inter, mem_insertOrdinals,
    mem_uniteIdentities, notMem_empty, false_or, RuleView.exists_ordinal hr,
    exists_mem_byIdentity hr, CodeIndexGraphDiff.ListsBefore]
  tauto

theorem mem_currentDirty (hr : i.current.inventory.record o = some r) :
    o ∈ i.currentDirty ↔ o ∈ i.current.symbols ∧ i.diff.ListsAfter r := by
  simp only [currentDirty, dirtySymbolSets, mem_inter, mem_insertOrdinals,
    notMem_empty, false_or, RuleView.exists_ordinal hr, CodeIndexGraphDiff.ListsAfter]
  simp only [mem_append]
  tauto

theorem currentDirty_listed : ∀ o ∈ i.currentDirty, ∃ r, i.current.inventory.record o = some r :=
  fun o ho => i.current.listed o (mem_inter.mp ho).2

theorem previousDirty_listed : ∀ o ∈ i.previousDirty, ∃ r, i.previous.inventory.record o = some r :=
  fun o ho => i.previous.listed o (mem_inter.mp ho).2

/-- A symbol of the current view that the diff leaves alone. -/
structure Kept (i : WorkspaceIncrementalInput) (o : SymbolOrdinal) (r : InventorySymbol) : Prop where
  mem : o ∈ i.current.symbols
  record : i.current.inventory.record o = some r
  unlisted : ¬i.diff.ListsAfter r

theorem Kept.not_dirty (h : i.Kept o r) : o ∉ i.currentDirty :=
  fun hd => h.unlisted ((mem_currentDirty h.record).mp hd).2

theorem kept_of_not_dirty (ho : o ∈ i.current.symbols) (hr : i.current.inventory.record o = some r)
    (hd : o ∉ i.currentDirty) : i.Kept o r :=
  ⟨ho, hr, fun h => hd ((mem_currentDirty hr).mpr ⟨ho, h⟩)⟩

variable (hdiff : i.diff.Complete i.previous i.current)

include hdiff in
theorem Kept.before (h : i.Kept o r) :
    o ∈ i.previous.symbols ∧ i.previous.inventory.record o = some r :=
  (hdiff.after o h.mem r h.record).resolve_left h.unlisted

include hdiff in
theorem after_of_not_dirty (ho : o ∈ i.previous.symbols)
    (hr : i.previous.inventory.record o = some r) (hd : o ∉ i.previousDirty) :
    o ∈ i.current.symbols ∧ i.current.inventory.record o = some r :=
  (hdiff.before o ho r hr).resolve_left fun h => hd ((mem_previousDirty hr).mpr ⟨ho, h⟩)

/-- Some symbol that the diff lists has this identity. -/
def ListedIdentity (i : WorkspaceIncrementalInput) (identity : String) : Prop :=
  (∃ o ∈ i.previous.symbols, ∃ r, i.previous.inventory.record o = some r ∧ i.diff.ListsBefore r ∧
      r.identity = identity) ∨
    ∃ o ∈ i.current.symbols, ∃ r, i.current.inventory.record o = some r ∧ i.diff.ListsAfter r ∧
      r.identity = identity

theorem mem_dirtyIdentities {identity : String} :
    identity ∈ i.dirtyIdentities ↔ i.ListedIdentity identity := by
  simp only [dirtyIdentities, CodeMoniker.dirtyIdentities, memberRecords, map_append,
    mem_append, mem_map, mem_filterMap, mem_elems, ListedIdentity]
  refine or_congr ?_ ?_
  · constructor
    · rintro ⟨r, ⟨o, ho, hr⟩, rfl⟩
      obtain ⟨hmem, hlists⟩ := (mem_previousDirty hr).mp ho
      exact ⟨o, hmem, r, hr, hlists, rfl⟩
    · rintro ⟨o, hmem, r, hr, hlists, rfl⟩
      exact ⟨r, ⟨o, (mem_previousDirty hr).mpr ⟨hmem, hlists⟩, hr⟩, rfl⟩
  · constructor
    · rintro ⟨r, ⟨o, ho, hr⟩, rfl⟩
      obtain ⟨hmem, hlists⟩ := (mem_currentDirty hr).mp ho
      exact ⟨o, hmem, r, hr, hlists, rfl⟩
    · rintro ⟨o, hmem, r, hr, hlists, rfl⟩
      exact ⟨r, ⟨o, (mem_currentDirty hr).mpr ⟨hmem, hlists⟩, hr⟩, rfl⟩

end WorkspaceIncrementalInput

end Dirty

/-! ## When nothing is lost -/

namespace WorkspaceIncrementalInput

/-- The group rule has a member in the current view. -/
def Selects (i : WorkspaceIncrementalInput) (rule : CompiledWorkspaceGroupRule) : Prop :=
  ∃ o ∈ i.current.symbols, ∃ r, i.current.inventory.record o = some r ∧
    rule.members.satisfiedBy r = true

/-- No symbol that the diff leaves alone is taken for another one, and the groups come in the
order of their keys. -/
structure Undisturbed (i : WorkspaceIncrementalInput) : Prop where
  /-- What shares its identity with a listed symbol violates no rule. -/
  identity : ∀ o r, i.Kept o r → i.ListedIdentity r.identity →
    ∀ rule ∈ i.compiled.symbol, rule.root.satisfiedBy r = true
  /-- What violates a rule is the first symbol of its source with its identity. -/
  first : ∀ o r, i.Kept o r → (∃ rule ∈ i.compiled.symbol, rule.root.satisfiedBy r = false) →
    ∀ o' ∈ i.current.symbols, ∀ r', i.current.inventory.record o' = some r' →
      r'.identity = r.identity → r'.source = r.source → o ≤ o'
  /-- What shares its identity with a modified symbol is in no group. -/
  members : ∀ o r, i.Kept o r → i.diff.ListsBefore r →
    ∀ rule ∈ i.compiled.group, rule.members.satisfiedBy r = false
  /-- The rules of the groups stand in the order of their ids. -/
  order : i.compiled.group.Pairwise fun a b => i.Selects a → i.Selects b → a.ruleId < b.ruleId

/-- Two evaluations with the same violation sets, groups and sorted violations. -/
structure Same (e e' : WorkspaceEvaluation) : Prop where
  violationSets : e.violationSets = e'.violationSets
  groups : e.groups = e'.groups
  violations : e.violations = e'.violations

/-! ## Violation sets -/

section

variable {i : WorkspaceIncrementalInput} (hdiff : i.diff.Complete i.previous i.current)
  {o : SymbolOrdinal} {r : InventorySymbol}

theorem mem_violationSet {x : SymbolInventoryIndex} {u : SymbolSet}
    {rule : CompiledWorkspaceSymbolRule} : o ∈ violationSet x u rule ↔
      o ∈ u ∧ ∃ r, x.record o = some r ∧ rule.root.satisfiedBy r = false := by
  simp only [violationSet, SymbolInventoryIndex.mem_select, Bool.not_eq_true']

theorem listedIdentity_of_previousDirty (hr : i.previous.inventory.record o = some r)
    (hd : o ∈ i.previousDirty) : i.ListedIdentity r.identity :=
  have h := (mem_previousDirty hr).mp hd
  Or.inl ⟨o, h.1, r, hr, h.2, rfl⟩

theorem listedIdentity_of_currentDirty (hr : i.current.inventory.record o = some r)
    (hd : o ∈ i.currentDirty) : i.ListedIdentity r.identity :=
  have h := (mem_currentDirty hr).mp hd
  Or.inr ⟨o, h.1, r, hr, h.2, rfl⟩

include hdiff in
theorem merged_violationSet (hund : i.Undisturbed) {rule : CompiledWorkspaceSymbolRule}
    (hrule : rule ∈ i.compiled.symbol) :
    ((violationSet i.previous.inventory i.previous.symbols rule \ i.previousDirty) ∩
        i.current.symbols) ∪ violationSet i.current.inventory i.currentDirty rule =
      violationSet i.current.inventory i.current.symbols rule := by
  ext o
  simp only [mem_union, mem_inter, mem_sdiff, mem_violationSet]
  constructor
  · rintro (⟨⟨⟨ho, r, hr, hsat⟩, hd⟩, hcur⟩ | ⟨hd, r, hr, hsat⟩)
    · exact ⟨hcur, r, (after_of_not_dirty hdiff ho hr hd).2, hsat⟩
    · exact ⟨(mem_inter.mp hd).2, r, hr, hsat⟩
  · rintro ⟨hcur, r, hr, hsat⟩
    by_cases hd : o ∈ i.currentDirty
    · exact Or.inr ⟨hd, r, hr, hsat⟩
    · have hkept := kept_of_not_dirty hcur hr hd
      obtain ⟨hmem, hr'⟩ := hkept.before hdiff
      refine Or.inl ⟨⟨⟨hmem, r, hr', hsat⟩, fun hd' => ?_⟩, hcur⟩
      have hsat' := hund.identity o r hkept (listedIdentity_of_previousDirty hr' hd') rule hrule
      rw [hsat] at hsat'
      exact Bool.false_ne_true hsat'

variable {report : Bool}
  (hprev : i.evaluation =
    evaluateWorkspaceRulesIn i.previous.inventory i.previous.symbols report i.compiled)
  (hplan : i.compiled.hasLinkageRules = false)

include hdiff hprev hplan in
theorem mergeViolationSets_eq (hund : i.Undisturbed) :
    mergeViolationSets i.compiled i.evaluation i.dirtyEvaluation i.previousDirty i.current.symbols =
      OrdMap.ofList (i.compiled.inventoryRules.map fun rule =>
        (rule.ruleId, violationSet i.current.inventory i.current.symbols rule)) := by
  have hrules := CompiledWorkspaceRules.inventoryRules_of_not_hasLinkageRules hplan
  ext1 id
  rw [mergeViolationSets, OrdMap.get?_ofList_map, OrdMap.get?_ofList_map, hrules, hprev,
    dirtyEvaluation, evaluateIn_violationSets i.previous.listed,
    evaluateIn_violationSets i.currentDirty_listed, hrules]
  cases hlast : i.compiled.symbol.reverse.find? (·.ruleId = id) with
  | none => rfl
  | some rule =>
    -- Of several rules with one id the last one decides, in both evaluations.
    have hid : rule.ruleId = id := by simpa using find?_some hlast
    have hrule := mem_reverse.mp (mem_of_find?_eq_some hlast)
    simp only [Option.map_some, OrdMap.get?_ofList_map, hid, hlast, Option.getD_some]
    rw [merged_violationSet hdiff hund hrule]

end

/-! ## Violations under one key -/

section Keys

variable {x y : SymbolInventoryIndex} {u s : SymbolSet} {ruleId identity : String}

theorem filter_filterMap_of_key {α κ : Type} [DecidableEq κ] {key : α → κ} {f : α → Option α}
    (hf : ∀ a b, f a = some b → key b = key a) (k : κ) (l : List α) :
    (l.filterMap f).filter (key · = k) = (l.filter (key · = k)).filterMap f := by
  induction l with
  | nil => rfl
  | cons a l ih =>
    cases ha : f a with
    | none =>
      rw [filterMap_cons_none ha, ih]
      by_cases hk : key a = k <;> simp [hk, ha]
    | some b =>
      have hkey := hf a b ha
      rw [filterMap_cons_some ha]
      by_cases hk : key a = k <;> simp [hk, ha, hkey, ih]

theorem filter_memberRecords (p : InventorySymbol → Bool) :
    (memberRecords x s).filter p = memberRecords x (x.select s p) := by
  have hlist : ∀ l : List SymbolOrdinal, (l.filterMap x.record).filter p =
      (l.filter fun o => (x.record o).any p).filterMap x.record := by
    intro l
    induction l with
    | nil => rfl
    | cons o l ih =>
      cases hr : x.record o with
      | none => simp [hr, ih]
      | some r => by_cases hp : p r = true <;> simp [hr, ih, hp]
  simp only [memberRecords, SymbolInventoryIndex.select, OrdSet.filter, hlist]
  simp

theorem memberRecords_congr (h : ∀ o ∈ s, x.record o = y.record o) :
    memberRecords x s = memberRecords y s :=
  filterMap_congr fun o ho => h o ho

/-- The symbols with an identity that violate a rule. -/
def violators (x : SymbolInventoryIndex) (u : SymbolSet) (rule : CompiledWorkspaceSymbolRule)
    (identity : String) : SymbolSet :=
  x.select u fun r => !rule.root.satisfiedBy r && r.identity = identity

theorem mem_violators {rule : CompiledWorkspaceSymbolRule} {o : SymbolOrdinal} :
    o ∈ violators x u rule identity ↔ o ∈ u ∧ ∃ r, x.record o = some r ∧
      rule.root.satisfiedBy r = false ∧ r.identity = identity := by
  simp only [violators, SymbolInventoryIndex.mem_select, Bool.and_eq_true, Bool.not_eq_true',
    decide_eq_true_eq]

/-- The violations of a rule with one sort key. -/
def keyViolations (x : SymbolInventoryIndex) (u : SymbolSet) (ruleId identity : String)
    (rule : CompiledWorkspaceSymbolRule) : List WorkspaceSymbolViolation :=
  if rule.ruleId = ruleId then
    (memberRecords x (violators x u rule identity)).map (symbolViolation rule)
  else []

theorem filter_symbolViolations (rules : List CompiledWorkspaceSymbolRule) :
    (rules.flatMap (symbolViolations x u)).filter (·.sortKey = toLex (ruleId, identity)) =
      rules.flatMap (keyViolations x u ruleId identity) := by
  rw [filter_flatMap]
  refine flatMap_congr fun rule _ => ?_
  unfold symbolViolations keyViolations violators
  rw [filter_map]
  split_ifs with hid
  · congr 1
    rw [violationSet]
    have hselect : x.select (x.select u fun r => !rule.root.satisfiedBy r)
        (fun r => decide (r.identity = identity)) =
        x.select u fun r => !rule.root.satisfiedBy r && decide (r.identity = identity) := by
      ext o
      simp only [SymbolInventoryIndex.mem_select, Bool.and_eq_true]
      constructor
      · rintro ⟨⟨ho, r, hr, hsat⟩, r', hr', hid⟩
        obtain rfl : r = r' := some.inj (hr.symm.trans hr')
        exact ⟨ho, r, hr, hsat, hid⟩
      · rintro ⟨ho, r, hr, hsat, hid⟩
        exact ⟨⟨ho, r, hr, hsat⟩, r, hr, hid⟩
    rw [← hselect]
    refine Eq.trans (filter_congr fun r _ => ?_) (filter_memberRecords _)
    simp [WorkspaceSymbolViolation.sortKey, symbolViolation, hid]
  · simp only [map_eq_nil_iff, filter_eq_nil_iff]
    intro r _
    simp [WorkspaceSymbolViolation.sortKey, symbolViolation, hid]

theorem moniker_of_mem_keyViolations {rule : CompiledWorkspaceSymbolRule}
    {v : WorkspaceSymbolViolation} (h : v ∈ keyViolations x u ruleId identity rule) :
    v.violation.moniker = identity := by
  unfold keyViolations at h
  split_ifs at h
  · obtain ⟨r, hr, rfl⟩ := mem_map.mp h
    obtain ⟨o, ho, hr⟩ := mem_filterMap.mp hr
    obtain ⟨-, r', hr', -, hid⟩ := mem_violators.mp ho
    obtain rfl : r = r' := some.inj (hr.symm.trans hr')
    exact hid
  · simp at h

/-- Only the violations of symbol rules may be suppressed in the source. -/
theorem filter_sourceSuppression (rules : List CompiledWorkspaceSymbolRule)
    (groups : List CompiledWorkspaceGroupRule) :
    (rules.flatMap (symbolViolations x u) ++ groups.flatMap (groupViolations x u)).filter
      (·.sourceSuppression) = rules.flatMap (symbolViolations x u) := by
  have hsymbol : ∀ v ∈ rules.flatMap (symbolViolations x u), v.sourceSuppression = true := by
    intro v hv
    obtain ⟨rule, -, hv⟩ := mem_flatMap.mp hv
    obtain ⟨r, -, rfl⟩ := mem_map.mp hv
    rfl
  have hgroup : ∀ v ∈ groups.flatMap (groupViolations x u), ¬v.sourceSuppression = true := by
    intro v hv
    obtain ⟨rule, -, hv⟩ := mem_flatMap.mp hv
    obtain ⟨g, -, hg⟩ := mem_filterMap.mp hv
    simp only [groupViolation, Option.bind_eq_bind, Option.bind_eq_some_iff, Option.some.injEq] at hg
    obtain ⟨primary, -, rfl⟩ := hg
    simp
  rw [filter_append, filter_eq_self.mpr hsymbol, filter_eq_nil_iff.mpr hgroup, append_nil]

end Keys

/-! ## Preserved violations -/

section Preserved

variable {i : WorkspaceIncrementalInput} {o : SymbolOrdinal} {r : InventorySymbol}
  {x : SymbolInventoryIndex}

theorem violationRecord_eq_some {u : SymbolSet}
    {v : WorkspaceSymbolViolation} : violationRecord x u v = some r ↔
      ∃ o ∈ u, x.record o = some r ∧ r.identity = v.violation.moniker ∧ r.source = v.source ∧
        ∀ o' ∈ u, ∀ r', x.record o' = some r' → r'.identity = v.violation.moniker →
          r'.source = v.source → o ≤ o' := by
  have hset : (x.facets.byIdentity.get v.violation.moniker).elems.filter (· ∈ u) =
      (x.facets.byIdentity.get v.violation.moniker ∩ u).elems := rfl
  have hfind : ∀ l : List SymbolOrdinal, (l.filterMap x.record).find? (·.source = v.source) =
      (l.find? fun o => (x.record o).any (·.source = v.source)).bind x.record := by
    intro l
    rw [find?_filterMap]
  rw [violationRecord, hset, hfind, Option.bind_eq_some_iff]
  simp only [find?_elems_eq_some, mem_inter, Option.any_eq_true, decide_eq_true_eq,
    and_imp, forall_exists_index]
  constructor
  · rintro ⟨o, ⟨⟨hid, ho⟩, ⟨r', hr', hsrc⟩, hleast⟩, hr⟩
    obtain rfl : r = r' := some.inj (hr.symm.trans hr')
    refine ⟨o, ho, hr, (mem_byIdentity hr).mp hid, hsrc, ?_⟩
    exact fun o' ho' r' hr' hid' hsrc' => hleast o' ((mem_byIdentity hr').mpr hid') ho' r' hr' hsrc'
  · rintro ⟨o, ho, hr, hid, hsrc, hleast⟩
    refine ⟨o, ⟨⟨(mem_byIdentity hr).mpr hid, ho⟩, ⟨r, hr, hsrc⟩, ?_⟩, hr⟩
    exact fun o' hid' ho' r' hr' hsrc' => hleast o' ho' r' hr' ((mem_byIdentity hr').mp hid') hsrc'

theorem sortKey_of_relocate {u : SymbolSet}
    {v v' : WorkspaceSymbolViolation} (h : relocate x u v = some v') : v'.sortKey = v.sortKey := by
  simp only [relocate, Option.bind_eq_bind, Option.bind_eq_some_iff, Option.some.injEq] at h
  obtain ⟨r, -, rfl⟩ := h
  rfl

/-- A violation stays in place if its symbol is the first of its source with its identity. -/
theorem relocate_symbolViolation {u : SymbolSet}
    {rule : CompiledWorkspaceSymbolRule} (ho : o ∈ u) (hr : x.record o = some r)
    (hfirst : ∀ o' ∈ u, ∀ r', x.record o' = some r' → r'.identity = r.identity →
      r'.source = r.source → o ≤ o') :
    relocate x u (symbolViolation rule r) = some (symbolViolation rule r) := by
  have hrecord : violationRecord x u (symbolViolation rule r) = some r :=
    violationRecord_eq_some.mpr ⟨o, ho, hr, rfl, rfl, hfirst⟩
  rw [relocate, hrecord]
  rfl

variable {report : Bool}
  (hprev : i.evaluation =
    evaluateWorkspaceRulesIn i.previous.inventory i.previous.symbols report i.compiled)
  (hplan : i.compiled.hasLinkageRules = false)

/-- The violations that the incremental evaluation keeps. -/
def preserved (i : WorkspaceIncrementalInput) : List WorkspaceSymbolViolation :=
  preservedSymbolViolations i.current.inventory i.evaluation i.dirtyIdentities i.current.symbols

/-- The violations of the dirty symbols. -/
def reevaluated (i : WorkspaceIncrementalInput) : List WorkspaceSymbolViolation :=
  i.dirtyEvaluation.violations.filter (·.sourceSuppression)

include hprev hplan in
theorem filter_preserved (ruleId identity : String) :
    i.preserved.filter (·.sortKey = toLex (ruleId, identity)) =
      if identity ∈ i.dirtyIdentities then [] else (i.compiled.symbol.flatMap
        (keyViolations i.previous.inventory i.previous.symbols ruleId identity)).filterMap
          (relocate i.current.inventory i.current.symbols) := by
  have hrules := CompiledWorkspaceRules.inventoryRules_of_not_hasLinkageRules hplan
  have hmoniker : ∀ v ∈ i.compiled.symbol.flatMap
      (keyViolations i.previous.inventory i.previous.symbols ruleId identity),
      v.violation.moniker = identity := by
    intro v hv
    obtain ⟨rule, -, hv⟩ := mem_flatMap.mp hv
    exact moniker_of_mem_keyViolations hv
  unfold preserved preservedSymbolViolations
  rw [filter_filterMap_of_key (fun _ _ => sortKey_of_relocate), filter_comm, hprev,
    evaluateIn_violations i.previous.listed, sortWorkspaceViolations, filter_filter_stableSort,
    filter_sourceSuppression, hrules, filter_symbolViolations]
  split_ifs with hlisted
  · rw [filter_eq_nil_iff.mpr fun v hv => by simp [hmoniker v hv, hlisted], filterMap_nil]
  · rw [filter_eq_self.mpr fun v hv => by simp [hmoniker v hv, hlisted]]

include hplan in
theorem filter_reevaluated (ruleId identity : String) :
    i.reevaluated.filter (·.sortKey = toLex (ruleId, identity)) = i.compiled.symbol.flatMap
        (keyViolations i.current.inventory i.currentDirty ruleId identity) := by
  have hrules := CompiledWorkspaceRules.inventoryRules_of_not_hasLinkageRules hplan
  rw [reevaluated, dirtyEvaluation, evaluateIn_violations i.currentDirty_listed,
    sortWorkspaceViolations, filter_filter_stableSort, filter_sourceSuppression, hrules,
    filter_symbolViolations]

variable (hdiff : i.diff.Complete i.previous i.current) (hund : i.Undisturbed)
  {rule : CompiledWorkspaceSymbolRule}

include hund in
/-- Under a listed identity the dirty symbols hold all violations. -/
theorem violators_of_listed (hrule : rule ∈ i.compiled.symbol)
    {identity : String} (hlisted : i.ListedIdentity identity) :
    violators i.current.inventory i.currentDirty rule identity =
      violators i.current.inventory i.current.symbols rule identity := by
  ext o
  simp only [mem_violators]
  refine ⟨fun ⟨hd, h⟩ => ⟨(mem_inter.mp hd).2, h⟩, ?_⟩
  rintro ⟨ho, r, hr, hsat, rfl⟩
  refine ⟨by_contra fun hd => ?_, r, hr, hsat, rfl⟩
  have hsat' := hund.identity o r (kept_of_not_dirty ho hr hd) hlisted rule hrule
  rw [hsat] at hsat'
  exact Bool.false_ne_true hsat'

/-- Under another identity no symbol is dirty. -/
theorem violators_dirty_of_unlisted (rule : CompiledWorkspaceSymbolRule) {identity : String}
    (hlisted : ¬i.ListedIdentity identity) :
    violators i.current.inventory i.currentDirty rule identity = ∅ := by
  refine eq_empty_iff.mpr fun o ho => ?_
  obtain ⟨hd, r, hr, -, rfl⟩ := mem_violators.mp ho
  exact hlisted (listedIdentity_of_currentDirty hr hd)

include hdiff in
/-- Under another identity the two views agree. -/
theorem violators_of_unlisted (rule : CompiledWorkspaceSymbolRule) {identity : String}
    (hlisted : ¬i.ListedIdentity identity) :
    violators i.previous.inventory i.previous.symbols rule identity =
      violators i.current.inventory i.current.symbols rule identity := by
  ext o
  simp only [mem_violators]
  constructor
  · rintro ⟨ho, r, hr, hsat, rfl⟩
    have hd : o ∉ i.previousDirty := fun hd => hlisted (listedIdentity_of_previousDirty hr hd)
    obtain ⟨ho', hr'⟩ := after_of_not_dirty hdiff ho hr hd
    exact ⟨ho', r, hr', hsat, rfl⟩
  · rintro ⟨ho, r, hr, hsat, rfl⟩
    have hd : o ∉ i.currentDirty := fun hd => hlisted (listedIdentity_of_currentDirty hr hd)
    obtain ⟨ho', hr'⟩ := (kept_of_not_dirty ho hr hd).before hdiff
    exact ⟨ho', r, hr', hsat, rfl⟩

include hdiff in
theorem record_of_unlisted {identity : String} (hlisted : ¬i.ListedIdentity identity)
    (ho : o ∈ violators i.current.inventory i.current.symbols rule identity) :
    i.previous.inventory.record o = i.current.inventory.record o := by
  obtain ⟨hmem, r, hr, -, rfl⟩ := mem_violators.mp ho
  have hd : o ∉ i.currentDirty := fun hd => hlisted (listedIdentity_of_currentDirty hr hd)
  rw [hr, ((kept_of_not_dirty hmem hr hd).before hdiff).2]

include hdiff hund in
/-- Under another identity every violation is kept in place. -/
theorem filterMap_relocate_of_unlisted (hrule : rule ∈ i.compiled.symbol) {ruleId identity : String}
    (hlisted : ¬i.ListedIdentity identity) :
    (keyViolations i.previous.inventory i.previous.symbols ruleId identity rule).filterMap
        (relocate i.current.inventory i.current.symbols) =
      keyViolations i.current.inventory i.current.symbols ruleId identity rule := by
  unfold keyViolations
  split_ifs with hid
  · rw [violators_of_unlisted hdiff rule hlisted,
      memberRecords_congr fun o ho => record_of_unlisted hdiff hlisted ho, filterMap_map]
    refine Eq.trans (filterMap_congr fun r hmember => ?_) (congrFun filterMap_eq_map _)
    obtain ⟨o, ho, hr⟩ := mem_filterMap.mp hmember
    obtain ⟨hmem, r', hr', hsat, rfl⟩ := mem_violators.mp ho
    obtain rfl : r = r' := some.inj (hr.symm.trans hr')
    have hd : o ∉ i.currentDirty := fun hd => hlisted (listedIdentity_of_currentDirty hr hd)
    exact relocate_symbolViolation hmem hr
      (hund.first o r (kept_of_not_dirty hmem hr hd) ⟨rule, hrule, hsat⟩)
  · rfl

include hdiff hprev hplan hund in
theorem filter_symbol_violations (ruleId identity : String) :
    (i.preserved ++ i.reevaluated).filter (·.sortKey = toLex (ruleId, identity)) =
      (i.compiled.symbol.flatMap (symbolViolations i.current.inventory i.current.symbols)).filter
          (·.sortKey = toLex (ruleId, identity)) := by
  rw [filter_append, filter_preserved hprev hplan, filter_reevaluated hplan,
    filter_symbolViolations]
  by_cases hlisted : i.ListedIdentity identity
  · rw [if_pos (mem_dirtyIdentities.mpr hlisted), nil_append]
    refine flatMap_congr fun rule hrule => ?_
    rw [keyViolations, keyViolations, violators_of_listed hund hrule hlisted]
  · have hdirty : i.compiled.symbol.flatMap
        (keyViolations i.current.inventory i.currentDirty ruleId identity) = [] := by
      refine flatMap_eq_nil_iff.mpr fun rule _ => ?_
      rw [keyViolations, violators_dirty_of_unlisted rule hlisted]
      simp [memberRecords]
    rw [if_neg (mt mem_dirtyIdentities.mp hlisted), hdirty, append_nil, filterMap_flatMap]
    exact flatMap_congr fun rule hrule => filterMap_relocate_of_unlisted hdiff hund hrule hlisted

end Preserved

end WorkspaceIncrementalInput

end CodeMoniker
