import CodeMoniker.MemorySources
import CodeMoniker.VerdictRealignment
import CodeMoniker.WorkspaceIncrementalSpec

/-!
# The drivers of a check

A check of files evaluates the workspace rules on the symbols of the files that it has checked,
found again in a linked snapshot by their paths (`CheckRun`). The daemon evaluates them on the
symbols of its index that no pattern excludes (`WorkspaceCheck`). Both add the violations to what
the local rules say, as far as no directive suppresses them, and count again.

The verdicts of the reports are kept if and only if the symbols evaluated are not empty, or no path
rule has `require_non_empty` (`keepsVerdicts_iff`).
-/

namespace CodeMoniker

open List StableSort LinkedEvaluation
open Option (isSome_iff_exists map_eq_some_iff some.inj)

/-! ## The check of files -/

/-- A file with its report. -/
structure CheckedSourceFile where
  path : MemoryPath
  sourceRoot : ℕ
  relPath : MemoryPath
  source : ByteCodec.Bytes
  graph : CodeGraph
  violations : List Violation
  ruleReports : List LinkedRuleReport

/-- What a snapshot says of a source. -/
structure SnapshotSource where
  file : ℕ
  path : MemoryPath
  sourceRoot : ℕ
  relPath : MemoryPath

structure CheckSnapshot extends LinkedIndex where
  sources : List SnapshotSource
  indexGeneration : ℕ
  linkageGeneration : ℕ

def linkageMismatch (linkage index : ℕ) : String :=
  s!"linkage snapshot targets index generation {linkage}, current index is {index}"

/-- The checked file that a source of the snapshot stands for : the one at its path, or else the
one at its path in its root. -/
def checkedIndex (checked : List CheckedSourceFile) (source : SnapshotSource) : Option ℕ :=
  let byPath := OrdMap.ofList (checked.zipIdx.map fun c => (c.1.path, c.2))
  let byRootRelative :=
    OrdMap.ofList (checked.zipIdx.map fun c => (toLex (c.1.sourceRoot, c.1.relPath), c.2))
  (byPath.get? source.path).or (byRootRelative.get? (toLex (source.sourceRoot, source.relPath)))

def linkedSourceMap (s : CheckSnapshot) (checked : List CheckedSourceFile) : OrdMap ℕ ℕ :=
  OrdMap.ofList (s.sources.filterMap fun source =>
    (checkedIndex checked source).map (source.file, ·))

def linkedSymbolUniverse (s : CheckSnapshot) (sourceMap : OrdMap ℕ ℕ) : SymbolSet :=
  sourceMap.keys.foldl (fun u file => u ∪ s.index.inventory.facets.bySource.get file) ∅

def countRules (kept : OrdMap String ℕ) (vs : List Violation) : OrdMap String ℕ :=
  vs.foldl (fun m v => m.update v.ruleId 0 (· + 1)) kept

/-- Add what is kept of the violations of a file to its report. -/
def mergeSource (st : List CheckedSourceFile × OrdMap String ℕ)
    (e : ℕ × List WorkspaceSymbolViolation) : List CheckedSourceFile × OrdMap String ℕ :=
  match st.1[e.1]? with
  | none => st
  | some c =>
    let violations := keptViolations c.graph c.source e.2
    (st.1.set e.1 { c with
        violations := stableSort (fun v => toLex (toLex v.lines, v.ruleId))
          (c.violations ++ violations) },
      countRules st.2 violations)

def mergeWorkspaceViolations (checked : List CheckedSourceFile)
    (vs : List WorkspaceSymbolViolation) : List CheckedSourceFile × OrdMap String ℕ :=
  (violationsBySource vs).entries.foldl mergeSource (checked, ∅)

/-- The files that have been checked, the rules, and what the workspace gives for them. -/
structure CheckRun where
  checked : List CheckedSourceFile
  rules : LinkedRules
  report : Bool
  /-- the inventory of the files themselves -/
  inventory : SymbolInventoryIndex
  linkedSnapshot : Except String (Option CheckSnapshot)

namespace CheckRun

variable (run : CheckRun)

/-- The evaluation, with the map from the sources of a linked snapshot. -/
def evaluate : Except String (LinkedEvaluation × Option (OrdMap ℕ ℕ)) :=
  if run.rules.hasLinkageRules then do
    match ← run.linkedSnapshot with
    | none => .error ("workspace linkage rules were not run: this check workspace does not " ++
        "provide a linked snapshot")
    | some s =>
      let sourceMap := linkedSourceMap s run.checked
      if s.linkageGeneration ≠ s.indexGeneration then
        .error (linkageMismatch s.linkageGeneration s.indexGeneration)
      else
        .ok (LinkedEvaluation.evaluateLinked s.toLinkedIndex (linkedSymbolUniverse s sourceMap)
          run.report run.rules, some sourceMap)
  else
    .ok ((evaluateWorkspaceRulesIn run.inventory run.inventory.allSymbols run.report
      run.rules.toCompiledWorkspaceRules).linked, none)

variable (sourceMap : Option (OrdMap ℕ ℕ))

/-- The place of a source among the checked files. -/
def place (source : ℕ) : Option ℕ :=
  match sourceMap with
  | none => some source
  | some m => m.get? source

/-- Violations at their checked files. One in no checked file is dropped. -/
def remap (vs : List WorkspaceSymbolViolation) :
    List WorkspaceSymbolViolation :=
  vs.filterMap fun v => (place sourceMap v.source).map fun idx => { v with source := idx }

/-- The report of a rule with the violations kept. -/
def realignReport (kept : OrdMap String ℕ) (r : LinkedRuleReport) : LinkedRuleReport :=
  let violations := (kept.get? r.ruleId).getD 0
  { r with
    violations := violations
    verdict := r.verdict.map fun _ => recountedVerdict violations r.inconclusive }

/-- The checked files with the violations kept, and the reports counted again. -/
def realign (e : LinkedEvaluation × Option (OrdMap ℕ ℕ)) :
    List CheckedSourceFile × List LinkedRuleReport :=
  let (checked, kept) := mergeWorkspaceViolations run.checked (remap e.2 e.1.violations)
  (checked, e.1.reports.map (realignReport kept))

/-- The reports of the workspace rules go to the first file. -/
def addReports (reports : List LinkedRuleReport) : List CheckedSourceFile → List CheckedSourceFile
  | [] => []
  | first :: rest =>
    { first with ruleReports := stableSort (·.ruleId) (first.ruleReports ++ reports) } :: rest

def applyWorkspaceRules : Except String (List CheckedSourceFile) :=
  if run.rules.symbol.isEmpty && run.rules.group.isEmpty && run.rules.path.isEmpty then
    .ok run.checked
  else do
    let (checked, reports) := run.realign (← run.evaluate)
    .ok (if run.report then addReports reports checked else checked)

/-- A directive of the checked file suppresses the violation. -/
def Suppressed (v : WorkspaceSymbolViolation) : Prop :=
  ∃ idx ∈ place sourceMap v.source, ∃ c ∈ run.checked[idx]?, v.SuppressedIn c.graph c.source

/-- The reports go to the first file, and they keep the verdicts of the evaluation. -/
def KeepsVerdicts : Prop :=
  ∀ e, run.evaluate = .ok e → run.report = true → run.checked ≠ [] →
    (∃ first rest, run.applyWorkspaceRules = .ok (first :: rest) ∧
      ∀ r ∈ (run.realign e).2, r ∈ first.ruleReports) ∧
    List.Forall₂ (fun before after => before.verdict.isSome →
        VerdictKept e.1.violations (run.Suppressed e.2) before after)
      e.1.reports (run.realign e).2

end CheckRun

/-! ## The daemon -/

/-- A file of the index, with what the local rules find in it. -/
structure MaterialFile where
  path : String
  graph : CodeGraph
  source : ByteCodec.Bytes
  raw : List Violation

structure WorkspaceRuleDiagnostic where
  ruleId : String
  severity : RuleSeverity
  symbol : Option SymbolId
  message : String
  deriving DecidableEq, Repr

/-- What a check leaves for the next one. Its reports have been taken out. -/
structure WorkspaceEvaluationState where
  indexGeneration : ℕ
  fingerprint : String
  view : RuleView
  evaluation : WorkspaceEvaluation

/-- The index with its files, the rules, and what the last check has left. Records are of files of
the index. Local rules are named by their language or by `refs`, so no rule of the workspace has
the id of one. -/
structure WorkspaceCheck extends LinkedIndex where
  files : List MaterialFile
  indexGeneration : ℕ
  linkageGeneration : ℕ
  rules : LinkedRules
  fingerprint : String
  excluded : String → Bool
  symbolByIdentity : OrdMap String SymbolId
  indexDiff : Option (ℕ × CodeIndexGraphDiff)
  previous : Option WorkspaceEvaluationState
  covered : ∀ o r, index.inventory.record o = some r → r.source < files.length
  apart : ∀ f ∈ files, ∀ v ∈ f.raw, v.ruleId ∉ rules.ruleIds

/-- What a check publishes. -/
structure WorkspaceRuleDiagnostics where
  diagnostics : List WorkspaceRuleDiagnostic
  reports : List LinkedRuleReport
  state : WorkspaceEvaluationState

namespace WorkspaceCheck

variable (i : WorkspaceCheck)

def includedWorkspaceSymbols : SymbolSet :=
  i.index.inventory.allSymbols.filter fun o =>
    (i.index.inventory.record o).any fun r => !i.excluded r.sourcePath

theorem mem_includedWorkspaceSymbols {o : SymbolOrdinal} : o ∈ i.includedWorkspaceSymbols ↔
    ∃ r, i.index.inventory.record o = some r ∧ i.excluded r.sourcePath = false := by
  rw [includedWorkspaceSymbols, OrdSet.mem_filter, i.index.inventory.listed o,
    ← AList.lookup_isSome]
  unfold SymbolInventoryIndex.record
  cases i.index.inventory.records.lookup o <;> simp

/-- The symbols that the rules range over. -/
def view : RuleView where
  inventory := i.index.inventory
  symbols := i.includedWorkspaceSymbols
  listed _ ho := (i.mem_includedWorkspaceSymbols.mp ho).imp fun _ h => h.1
  cataloged := i.named

def evaluateWorkspaceFull : LinkedEvaluation :=
  LinkedEvaluation.evaluateLinked i.toLinkedIndex i.includedWorkspaceSymbols
    i.rules.hasLinkageRules i.rules

/-- Rules over the inventory alone are evaluated again only where the index differs from that of
the last check. -/
def evaluateWorkspaceSnapshot : LinkedEvaluation :=
  if i.rules.hasLinkageRules then i.evaluateWorkspaceFull
  else
    match i.previous.filter (·.fingerprint = i.fingerprint) with
    | none => i.evaluateWorkspaceFull
    | some state =>
      if state.indexGeneration = i.indexGeneration then state.evaluation.linked
      else
        match i.indexDiff with
        | none => i.evaluateWorkspaceFull
        | some (base, diff) =>
          if base ≠ state.indexGeneration then i.evaluateWorkspaceFull
          else (evaluateWorkspaceRulesIncremental {
            previous := state.view
            current := i.view
            diff := diff
            compiled := i.rules.toCompiledWorkspaceRules
            evaluation := state.evaluation }).evaluation.linked

def diagnosticFromViolation (primary : Option SymbolId) (v : Violation) :
    WorkspaceRuleDiagnostic where
  ruleId := v.ruleId
  severity := v.severity
  symbol := primary.or (i.symbolByIdentity.get? v.moniker)
  message := v.message

def localDiagnostics : List WorkspaceRuleDiagnostic :=
  (i.files.filter fun f => !i.excluded f.path).flatMap fun f =>
    (Suppress.apply f.graph f.source f.raw).map (i.diagnosticFromViolation none)

/-- The symbols of the violations by rule and moniker. -/
def primarySymbols (vs : List WorkspaceSymbolViolation) : OrdMap (String ×ₗ String) SymbolId :=
  OrdMap.ofList (vs.filterMap fun v => v.symbol.map (v.sortKey, ·))

/-- What is left of the violations of a file. -/
def sourceDiagnostics (e : ℕ × List WorkspaceSymbolViolation) : List WorkspaceRuleDiagnostic :=
  match i.files[e.1]? with
  | none => []
  | some f =>
    (keptViolations f.graph f.source e.2).map fun v =>
      i.diagnosticFromViolation ((primarySymbols e.2).get? (toLex (v.ruleId, v.moniker))) v

def diagnostics : List WorkspaceRuleDiagnostic :=
  i.localDiagnostics ++
    (violationsBySource i.evaluateWorkspaceSnapshot.violations).entries.flatMap i.sourceDiagnostics

/-- A report with a verdict is counted again. -/
def realignReport (diagnostics : List WorkspaceRuleDiagnostic) (r : LinkedRuleReport) :
    LinkedRuleReport :=
  if r.verdict.isSome then
    let violations := diagnostics.countP (·.ruleId = r.ruleId)
    { r with
      violations := violations
      verdict := some (recountedVerdict violations r.inconclusive) }
  else r

def realignWorkspaceReports (reports : List LinkedRuleReport)
    (diagnostics : List WorkspaceRuleDiagnostic) : List LinkedRuleReport :=
  reports.map (realignReport diagnostics)

def collectDiagnostics : WorkspaceRuleDiagnostics :=
  let e := i.evaluateWorkspaceSnapshot
  { diagnostics := i.diagnostics
    reports := realignWorkspaceReports e.reports i.diagnostics
    state := {
      indexGeneration := i.indexGeneration
      fingerprint := i.fingerprint
      view := i.view
      evaluation := {
        violations := e.violations, violationSets := e.violationSets, groups := e.groups } } }

def runCheck : Except String WorkspaceRuleDiagnostics :=
  if i.linkageGeneration ≠ i.indexGeneration then
    .error (linkageMismatch i.linkageGeneration i.indexGeneration)
  else .ok i.collectDiagnostics

/-- A directive of the file suppresses the violation. -/
def Suppressed (v : WorkspaceSymbolViolation) : Prop :=
  ∃ f ∈ i.files[v.source]?, v.SuppressedIn f.graph f.source

/-- The reports that the daemon publishes keep the verdicts of the evaluation. -/
def KeepsVerdicts : Prop :=
  ∀ out, i.runCheck = .ok out →
    List.Forall₂ (fun before after => before.verdict.isSome →
        VerdictKept i.evaluateWorkspaceSnapshot.violations i.Suppressed before after)
      i.evaluateWorkspaceSnapshot.reports out.reports

end WorkspaceCheck

/-! ## The sources of a snapshot among the checked files -/

/-- A source is a checked file by its path, or by its path in its root. -/
def SnapshotSource.StandsFor (source : SnapshotSource) (c : CheckedSourceFile) : Prop :=
  c.path = source.path ∨ c.sourceRoot = source.sourceRoot ∧ c.relPath = source.relPath

section Places

variable {s : CheckSnapshot} {checked : List CheckedSourceFile}

theorem get?_byKey {κ : Type} [LinearOrder κ] (key : CheckedSourceFile → κ) {k : κ} :
    (∀ idx, (OrdMap.ofList (checked.zipIdx.map fun c => (key c.1, c.2))).get? k = some idx →
      ∃ c, checked[idx]? = some c) ∧
    ((∃ idx, (OrdMap.ofList (checked.zipIdx.map fun c => (key c.1, c.2))).get? k = some idx) ↔
      ∃ c ∈ checked, key c = k) := by
  rw [OrdMap.get?_ofList_map]
  constructor
  · intro idx h
    obtain ⟨c, hc, rfl⟩ := map_eq_some_iff.mp h
    exact ⟨c.1, mem_zipIdx_iff_getElem?.mp (mem_reverse.mp (mem_of_find?_eq_some hc))⟩
  · rw [← isSome_iff_exists, Option.isSome_map, find?_isSome]
    constructor
    · rintro ⟨c, hc, hkey⟩
      exact ⟨c.1, fst_mem_of_mem_zipIdx (mem_reverse.mp hc), by simpa using hkey⟩
    · rintro ⟨c, hc, hkey⟩
      obtain ⟨idx, hidx⟩ := getElem?_of_mem hc
      exact ⟨(c, idx), mem_reverse.mpr (mem_zipIdx_iff_getElem?.mpr hidx), by simpa using hkey⟩

theorem checkedIndex_spec (source : SnapshotSource) :
    (∀ idx, checkedIndex checked source = some idx → ∃ c, checked[idx]? = some c) ∧
    ((∃ idx, checkedIndex checked source = some idx) ↔ ∃ c ∈ checked, source.StandsFor c) := by
  obtain ⟨hpath, hpath_iff⟩ := @get?_byKey checked _ _ (·.path) source.path
  obtain ⟨hrel, hrel_iff⟩ := @get?_byKey checked _ _ (fun c => toLex (c.sourceRoot, c.relPath))
    (toLex (source.sourceRoot, source.relPath))
  unfold checkedIndex
  constructor
  · intro idx h
    rcases Option.or_eq_some_iff.mp h with h | ⟨-, h⟩
    · exact hpath idx h
    · exact hrel idx h
  · rw [← isSome_iff_exists] at hpath_iff hrel_iff ⊢
    rw [Option.isSome_or, Bool.or_eq_true, hpath_iff, hrel_iff, ← exists_or]
    refine exists_congr fun c => ?_
    rw [← and_or_left, toLex_inj, Prod.mk.injEq]
    rfl

theorem linkedSourceMap_spec {file : ℕ} :
    (∀ idx, (linkedSourceMap s checked).get? file = some idx → ∃ c, checked[idx]? = some c) ∧
    (file ∈ (linkedSourceMap s checked).keys ↔
      ∃ source ∈ s.sources, source.file = file ∧ ∃ c ∈ checked, source.StandsFor c) := by
  rw [OrdMap.mem_keys]
  unfold linkedSourceMap
  rw [OrdMap.get?_ofList]
  constructor
  · intro idx h
    obtain ⟨e, he, rfl⟩ := map_eq_some_iff.mp h
    obtain ⟨source, -, hsource⟩ :=
      mem_filterMap.mp (mem_reverse.mp (mem_of_find?_eq_some he))
    obtain ⟨idx, hidx, rfl⟩ := map_eq_some_iff.mp hsource
    exact (checkedIndex_spec source).1 idx hidx
  · rw [← isSome_iff_exists, Option.isSome_map, find?_isSome]
    simp only [mem_reverse, mem_filterMap, map_eq_some_iff, decide_eq_true_eq]
    constructor
    · rintro ⟨_, ⟨source, hsource, idx, hidx, rfl⟩, rfl⟩
      exact ⟨source, hsource, rfl, (checkedIndex_spec source).2.mp ⟨idx, hidx⟩⟩
    · rintro ⟨source, hsource, rfl, hchecked⟩
      obtain ⟨idx, hidx⟩ := (checkedIndex_spec source).2.mpr hchecked
      exact ⟨_, ⟨source, hsource, idx, hidx, rfl⟩, rfl⟩

theorem mem_linkedSymbolUniverse {m : OrdMap ℕ ℕ} {o : SymbolOrdinal} :
    o ∈ linkedSymbolUniverse s m ↔
      ∃ r, s.index.inventory.record o = some r ∧ r.source ∈ m.keys := by
  rw [linkedSymbolUniverse, OrdSet.mem_foldl_union, or_iff_right (OrdSet.notMem_empty o)]
  simp only [s.index.inventory.described.source.mem_get_single]
  constructor
  · rintro ⟨_, hfile, r, hr, rfl⟩
    exact ⟨r, hr, hfile⟩
  · rintro ⟨r, hr, hfile⟩
    exact ⟨_, hfile, r, hr, rfl⟩

end Places

/-! ## What the check of files counts -/

def CheckedSourceFile.text (c : CheckedSourceFile) : CodeGraph × ByteCodec.Bytes :=
  (c.graph, c.source)

variable {id : String}

theorem countRules_pos : ∀ {vs : List Violation} {kept : OrdMap String ℕ},
    0 < ((countRules kept vs).get? id).getD 0 ↔ 0 < (kept.get? id).getD 0 ∨ ∃ v ∈ vs, v.ruleId = id
  | [], kept => by simp [countRules]
  | v :: vs, kept => by
    rw [countRules, foldl_cons, ← countRules, countRules_pos, exists_mem_cons_iff,
      OrdMap.get?_update, ← or_assoc]
    refine or_congr_left ?_
    split_ifs with hid
    · simp [hid]
    · exact (or_iff_left (Ne.symm hid)).symm

/-- A file whose report changes keeps its text. -/
theorem text_mergeSource (st : List CheckedSourceFile × OrdMap String ℕ)
    (e : ℕ × List WorkspaceSymbolViolation) :
    (mergeSource st e).1.map (·.text) = st.1.map (·.text) := by
  unfold mergeSource
  cases hc : st.1[e.1]? with
  | none => rfl
  | some c =>
    refine ext_getElem? fun n => ?_
    rw [getElem?_map, getElem?_map, getElem?_set]
    split_ifs with hn hlt
    · rw [← hn, hc]
      rfl
    · exact absurd (List.getElem?_eq_some_iff.mp hc).1 hlt
    · rfl

theorem mergeSource_pos {st : List CheckedSourceFile × OrdMap String ℕ}
    {e : ℕ × List WorkspaceSymbolViolation} {id : String} :
    0 < ((mergeSource st e).2.get? id).getD 0 ↔
      0 < (st.2.get? id).getD 0 ∨ ∃ t ∈ (st.1.map (·.text))[e.1]?,
        ∃ v ∈ e.2, v.violation.ruleId = id ∧ ¬v.SuppressedIn t.1 t.2 := by
  unfold mergeSource
  rw [getElem?_map]
  cases st.1[e.1]? with
  | none => simp
  | some c =>
    dsimp only
    rw [countRules_pos, mem_keptViolations]
    simp [CheckedSourceFile.text]

theorem foldl_mergeSource_pos : ∀ {es : List (ℕ × List WorkspaceSymbolViolation)}
      {st : List CheckedSourceFile × OrdMap String ℕ},
    0 < ((es.foldl mergeSource st).2.get? id).getD 0 ↔
      0 < (st.2.get? id).getD 0 ∨ ∃ e ∈ es, ∃ t ∈ (st.1.map (·.text))[e.1]?,
        ∃ v ∈ e.2, v.violation.ruleId = id ∧ ¬v.SuppressedIn t.1 t.2
  | [], st => by simp
  | e :: es, st => by
    rw [foldl_cons, foldl_mergeSource_pos, mergeSource_pos, text_mergeSource,
      exists_mem_cons_iff, or_assoc]

theorem mergeWorkspaceViolations_pos {checked : List CheckedSourceFile}
    {vs : List WorkspaceSymbolViolation} {id : String} :
    0 < ((mergeWorkspaceViolations checked vs).2.get? id).getD 0 ↔
      ∃ v ∈ vs, ∃ c ∈ checked[v.source]?,
        v.violation.ruleId = id ∧ ¬v.SuppressedIn c.graph c.source := by
  rw [mergeWorkspaceViolations, foldl_mergeSource_pos, OrdMap.get?_empty, Option.getD_none,
    or_iff_right (Nat.lt_irrefl 0)]
  constructor
  · rintro ⟨⟨k, group⟩, he, t, ht, v, hmem, hkept⟩
    obtain ⟨hv, rfl⟩ := mem_violationsBySource.mp ⟨group, OrdMap.mem_entries.mp he, hmem⟩
    rw [getElem?_map] at ht
    obtain ⟨c, hc, rfl⟩ := map_eq_some_iff.mp ht
    exact ⟨v, hv, c, hc, hkept⟩
  · rintro ⟨v, hv, c, hc, hkept⟩
    obtain ⟨group, hgroup, hmem⟩ := mem_violationsBySource.mpr ⟨hv, rfl⟩
    refine ⟨(v.source, group), OrdMap.mem_entries.mpr hgroup, c.text, ?_, v, hmem, hkept⟩
    rw [getElem?_map, hc]
    rfl

theorem text_mergeWorkspaceViolations (checked : List CheckedSourceFile)
    (vs : List WorkspaceSymbolViolation) :
    (mergeWorkspaceViolations checked vs).1.map (·.text) = checked.map (·.text) := by
  let Same (st : List CheckedSourceFile × OrdMap String ℕ) :=
    st.1.map (·.text) = checked.map (·.text)
  refine foldlRecOn (motive := Same) _ _ rfl fun st h e _ => ?_
  exact (text_mergeSource st e).trans h

namespace CheckRun

variable {run : CheckRun}

theorem published {e : LinkedEvaluation × Option (OrdMap ℕ ℕ)} (he : run.evaluate = .ok e)
    (hreport : run.report = true) (hchecked : run.checked ≠ []) :
    ∃ first rest, run.applyWorkspaceRules = .ok (first :: rest) ∧
      ∀ r ∈ (run.realign e).2, r ∈ first.ruleReports := by
  unfold applyWorkspaceRules
  split_ifs with hempty
  · simp only [Bool.and_eq_true, List.isEmpty_iff] at hempty
    obtain ⟨⟨hsymbol, hgroup⟩, hpath⟩ := hempty
    obtain ⟨first, rest, hfirst⟩ := exists_cons_of_ne_nil hchecked
    refine ⟨first, rest, by rw [hfirst], fun r hr => ?_⟩
    have hlinkage : ¬run.rules.hasLinkageRules = true := by
      simp [CompiledWorkspaceRules.hasLinkageRules, hpath, hsymbol]
    rw [evaluate, if_neg hlinkage] at he
    obtain rfl := Except.ok.inj he
    simp [realign, WorkspaceEvaluation.linked, evaluateWorkspaceRulesIn, hsymbol, hgroup] at hr
  · rw [he]
    cases hmerged : (run.realign e).1 with
    | nil =>
      have htext := text_mergeWorkspaceViolations run.checked (remap e.2 e.1.violations)
      have hnil : (mergeWorkspaceViolations run.checked (remap e.2 e.1.violations)).1 = [] :=
        hmerged
      rw [hnil, map_nil, eq_comm, map_eq_nil_iff] at htext
      exact absurd htext hchecked
    | cons first rest =>
      refine ⟨{ first with
        ruleReports := stableSort (·.ruleId) (first.ruleReports ++ (run.realign e).2) }, rest, ?_,
        fun r hr => mem_stableSort.mpr (mem_append_right _ hr)⟩
      change Except.ok (addReports (run.realign e).2 (run.realign e).1) = _
      rw [hmerged, addReports]

/-- If every violation is in a checked file, the counts are those of the violations left. -/
theorem recounted {e : LinkedEvaluation × Option (OrdMap ℕ ℕ)}
    (hplaced : ∀ v ∈ e.1.violations, ∃ idx, place e.2 v.source = some idx ∧
      ∃ c, run.checked[idx]? = some c) {r : LinkedRuleReport} (hr : r.verdict.isSome) :
    Recounted e.1.violations (run.Suppressed e.2) r
      (realignReport (mergeWorkspaceViolations run.checked (remap e.2 e.1.violations)).2 r) := by
  obtain ⟨verdict, hverdict⟩ := isSome_iff_exists.mp hr
  refine ⟨_, by rw [realignReport, hverdict, Option.map_some], ?_⟩
  rw [mergeWorkspaceViolations_pos]
  constructor
  · rintro ⟨_, hmem, c, hc, hid, hkept⟩
    obtain ⟨v, hv, hplace⟩ := mem_filterMap.mp hmem
    obtain ⟨idx, hidx, rfl⟩ := map_eq_some_iff.mp hplace
    refine ⟨v, hv, hid, ?_⟩
    rintro ⟨idx', hidx', c', hc', hsuppressed⟩
    obtain rfl := some.inj (hidx.symm.trans hidx')
    obtain rfl := some.inj (hc.symm.trans hc')
    exact hkept hsuppressed
  · rintro ⟨v, hv, hid, hkept⟩
    obtain ⟨idx, hidx, c, hc⟩ := hplaced v hv
    refine ⟨{ v with source := idx }, mem_filterMap.mpr ⟨v, hv, ?_⟩, c, hc, hid, ?_⟩
    · rw [hidx]
      rfl
    · exact fun hsuppressed => hkept ⟨idx, hidx, c, hc, hsuppressed⟩

end CheckRun

/-! ## When the check of files keeps verdicts -/

def LinkedRules.RequiresSymbols (rules : LinkedRules) : Prop :=
  ∃ rule ∈ rules.paths, rule.requireNonEmpty = true

theorem LinkedRules.RequiresSymbols.hasLinkageRules {rules : LinkedRules}
    (h : rules.RequiresSymbols) : rules.hasLinkageRules = true := by
  obtain ⟨rule, hrule, -⟩ := h
  have hpath : rules.path ≠ [] := by
    rw [rules.compiled, ne_eq, map_eq_nil_iff]
    exact ne_nil_of_mem hrule
  simp [CompiledWorkspaceRules.hasLinkageRules, hpath]

/-- Without rules over the linkage only those over the inventory are evaluated. -/
theorem evaluateLinked_of_not {s : LinkedIndex} {u : SymbolSet} {rules : LinkedRules}
    (h : rules.hasLinkageRules = false) (report : Bool) :
    evaluateLinked s u report rules = (evaluateWorkspaceRulesIn s.index.inventory u report
      rules.toCompiledWorkspaceRules).linked := by
  simp only [CompiledWorkspaceRules.hasLinkageRules, Bool.or_eq_false_iff, Bool.not_eq_false',
    List.isEmpty_iff, any_eq_false, decide_eq_true_eq, not_not] at h
  obtain ⟨hpath, hsymbol⟩ := h
  have hpaths : rules.paths = [] := by
    rw [rules.compiled, map_eq_nil_iff] at hpath
    exact hpath
  have hlinkage : rules.linkageRules = [] :=
    filter_eq_nil_iff.mpr fun rule hrule => by simp [hsymbol rule hrule]
  have hstructure : rules.structureRules = [] :=
    filter_eq_nil_iff.mpr fun rule hrule => by simp [hsymbol rule hrule]
  have hsorted (vs : List WorkspaceSymbolViolation) :
      sortWorkspaceViolations (sortWorkspaceViolations vs) = sortWorkspaceViolations vs :=
    stableSort_eq_iff.mpr filter_stableSort
  unfold evaluateLinked evaluatePathRules evaluateStructureRules evaluateLinkageRules
  rw [hpaths, hstructure, hlinkage]
  simp only [foldl_nil, WorkspaceEvaluation.linked, evaluateWorkspaceRulesIn, hsorted]

/-- Without rules over the linkage no report has a verdict. -/
theorem verdict_eq_none {s : LinkedIndex} {u : SymbolSet} {rules : LinkedRules}
    (h : rules.hasLinkageRules = false) (report : Bool) :
    ∀ r ∈ (evaluateLinked s u report rules).reports, r.verdict = none := by
  rw [evaluateLinked_of_not h]
  intro r hr
  obtain ⟨r, -, rfl⟩ := mem_map.mp hr
  rfl

namespace CheckRun

variable (run : CheckRun)

/-- If the evaluation is on a linked snapshot, and its reports are wanted and have a place, then a
source that stands for a checked file has a symbol, or no path rule requires one. -/
def HasSymbols : Prop :=
  ∀ s, run.linkedSnapshot = .ok (some s) → s.linkageGeneration = s.indexGeneration →
    run.report = true → run.checked ≠ [] → run.rules.RequiresSymbols →
    ∃ source ∈ s.sources, (∃ c ∈ run.checked, source.StandsFor c) ∧
      ∃ o r, s.index.inventory.record o = some r ∧ r.source = source.file

variable {run}

theorem universe_ne_empty {s : CheckSnapshot} :
    linkedSymbolUniverse s (linkedSourceMap s run.checked) ≠ ∅ ↔
      ∃ source ∈ s.sources, (∃ c ∈ run.checked, source.StandsFor c) ∧
        ∃ o r, s.index.inventory.record o = some r ∧ r.source = source.file := by
  rw [OrdSet.ne_empty_iff]
  constructor
  · rintro ⟨o, ho⟩
    obtain ⟨r, hr, hkey⟩ := mem_linkedSymbolUniverse.mp ho
    obtain ⟨source, hsource, hfile, hchecked⟩ := linkedSourceMap_spec.2.mp hkey
    exact ⟨source, hsource, hchecked, o, r, hr, hfile.symm⟩
  · rintro ⟨source, hsource, hchecked, o, r, hr, hfile⟩
    exact ⟨o, mem_linkedSymbolUniverse.mpr ⟨r, hr,
      linkedSourceMap_spec.2.mpr ⟨source, hsource, hfile.symm, hchecked⟩⟩⟩

/-- The verdicts on a snapshot are kept if and only if there is a symbol or none is required. -/
theorem verdictKept_snapshot_iff (s : CheckSnapshot) {e : LinkedEvaluation × Option (OrdMap ℕ ℕ)}
    (he : e = (evaluateLinked s.toLinkedIndex
      (linkedSymbolUniverse s (linkedSourceMap s run.checked)) true run.rules,
        some (linkedSourceMap s run.checked))) :
    Forall₂ (fun before after => before.verdict.isSome →
        VerdictKept e.1.violations (run.Suppressed e.2) before after)
      e.1.reports (run.realign e).2 ↔
    (run.rules.RequiresSymbols → linkedSymbolUniverse s (linkedSourceMap s run.checked) ≠ ∅) := by
  have hu : ∀ o ∈ linkedSymbolUniverse s (linkedSourceMap s run.checked),
      ∃ r, s.index.inventory.record o = some r := fun o ho =>
    (mem_linkedSymbolUniverse.mp ho).imp fun _ h => h.1
  have hplaced : ∀ v ∈ e.1.violations, ∃ idx, place e.2 v.source = some idx ∧
      ∃ c, run.checked[idx]? = some c := by
    subst he
    intro v hv
    obtain ⟨o, ho, r, hr, hsource⟩ :=
      (grounded_evaluateLinked true hu).anchored v hv
    obtain ⟨r', hr', hkey⟩ := mem_linkedSymbolUniverse.mp ho
    obtain rfl := some.inj (hr.symm.trans hr')
    obtain ⟨idx, hidx⟩ := OrdMap.mem_keys.mp hkey
    rw [hsource]
    exact ⟨idx, hidx, linkedSourceMap_spec.1 idx hidx⟩
  have hrecounted := fun r (_ : r ∈ e.1.reports) hr => @recounted run e hplaced r hr
  rw [realign, List.forall₂_map_right_iff, List.forall₂_same]
  subst he
  exact verdictKept_iff hu hrecounted

theorem keepsVerdicts_iff : run.KeepsVerdicts ↔ run.HasSymbols := by
  constructor
  · intro h s hs hgeneration hreport hchecked hrequires
    rw [← universe_ne_empty]
    refine (verdictKept_snapshot_iff s rfl).mp (h _ ?_ hreport hchecked).2 hrequires
    rw [evaluate, if_pos hrequires.hasLinkageRules, hs, hreport]
    exact if_neg (not_not.mpr hgeneration)
  · intro h e he hreport hchecked
    refine ⟨published he hreport hchecked, ?_⟩
    unfold evaluate at he
    rw [hreport] at he
    split_ifs at he with hlinkage
    · cases hs : run.linkedSnapshot with
      | error m => rw [hs] at he; exact nomatch he
      | ok snapshot =>
        rw [hs] at he
        cases snapshot with
        | none => exact nomatch he
        | some s =>
          by_cases hgeneration : s.linkageGeneration = s.indexGeneration
          · have he : e = _ := (Except.ok.inj
              ((if_neg (not_not.mpr hgeneration)).symm.trans he)).symm
            exact (verdictKept_snapshot_iff s he).mpr fun hrequires =>
              universe_ne_empty.mpr (h s hs hgeneration hreport hchecked hrequires)
          · exact nomatch (if_pos hgeneration).symm.trans he
    · obtain rfl := Except.ok.inj he
      rw [realign, List.forall₂_map_right_iff, List.forall₂_same]
      intro r hr hsome
      obtain ⟨r, -, rfl⟩ := mem_map.mp hr
      exact absurd hsome (by simp)

end CheckRun

/-! ## When the daemon keeps verdicts -/

namespace WorkspaceCheck

variable (i : WorkspaceCheck)

/-- If the linkage is that of the index, a symbol is in a file that no pattern excludes, or no path
rule requires one. -/
def HasSymbols : Prop :=
  i.linkageGeneration = i.indexGeneration → i.rules.RequiresSymbols →
    ∃ o r, i.index.inventory.record o = some r ∧ i.excluded r.sourcePath = false

variable {i}

theorem mem_sourceDiagnostics {e : ℕ × List WorkspaceSymbolViolation} :
    (∃ d ∈ i.sourceDiagnostics e, d.ruleId = id) ↔ ∃ f ∈ i.files[e.1]?, ∃ v ∈ e.2,
        v.violation.ruleId = id ∧ ¬v.SuppressedIn f.graph f.source := by
  unfold sourceDiagnostics
  cases i.files[e.1]? with
  | none => simp
  | some f =>
    simp only [Option.mem_def, Option.some.injEq, exists_eq_left', mem_map,
      exists_exists_and_eq_and, ← mem_keptViolations]
    rfl

/-- The diagnostics with the id of a rule of the workspace are the violations left of it. -/
theorem mem_diagnostics (hid : id ∈ i.rules.ruleIds)
    (hplaced : ∀ v ∈ i.evaluateWorkspaceSnapshot.violations, ∃ f, i.files[v.source]? = some f) :
    (∃ d ∈ i.diagnostics, d.ruleId = id) ↔
      ∃ v ∈ i.evaluateWorkspaceSnapshot.violations, v.violation.ruleId = id ∧ ¬i.Suppressed v := by
  have hlocal : ∀ d ∈ i.localDiagnostics, d.ruleId ≠ id := by
    rintro d hd rfl
    obtain ⟨f, hf, hd⟩ := mem_flatMap.mp hd
    obtain ⟨v, hv, rfl⟩ := mem_map.mp hd
    rw [Suppress.apply_eq_filter] at hv
    exact i.apart f (mem_filter.mp hf).1 v (mem_filter.mp hv).1 hid
  constructor
  · rintro ⟨d, hd, hruleId⟩
    rcases mem_append.mp hd with hd | hd
    · exact absurd hruleId (hlocal d hd)
    · obtain ⟨⟨k, group⟩, he, hd⟩ := mem_flatMap.mp hd
      obtain ⟨f, hf, v, hmem, hruleId, hkept⟩ := mem_sourceDiagnostics.mp ⟨d, hd, hruleId⟩
      obtain ⟨hv, rfl⟩ := mem_violationsBySource.mp ⟨group, OrdMap.mem_entries.mp he, hmem⟩
      refine ⟨v, hv, hruleId, ?_⟩
      rintro ⟨f', hf', hsuppressed⟩
      obtain rfl := some.inj (hf.symm.trans hf')
      exact hkept hsuppressed
  · rintro ⟨v, hv, hruleId, hkept⟩
    obtain ⟨f, hf⟩ := hplaced v hv
    obtain ⟨group, hgroup, hmem⟩ := mem_violationsBySource.mpr ⟨hv, rfl⟩
    have hleft : ¬v.SuppressedIn f.graph f.source := fun h => hkept ⟨f, hf, h⟩
    obtain ⟨d, hd, hruleId⟩ := mem_sourceDiagnostics (e := (v.source, group)).mpr
      ⟨f, hf, v, hmem, hruleId, hleft⟩
    exact ⟨d, mem_append_right _ (mem_flatMap.mpr
      ⟨(v.source, group), OrdMap.mem_entries.mpr hgroup, hd⟩), hruleId⟩

theorem evaluateWorkspaceSnapshot_of_linkage (h : i.rules.hasLinkageRules = true) :
    i.evaluateWorkspaceSnapshot = evaluateLinked i.toLinkedIndex
      i.includedWorkspaceSymbols true i.rules := by
  rw [evaluateWorkspaceSnapshot, if_pos h, evaluateWorkspaceFull, h]

theorem recounted (h : i.rules.hasLinkageRules = true) {r : LinkedRuleReport}
    (hr : r ∈ i.evaluateWorkspaceSnapshot.reports) (hverdict : r.verdict.isSome) :
    Recounted i.evaluateWorkspaceSnapshot.violations i.Suppressed r
      (realignReport i.diagnostics r) := by
  have hgrounded := @LinkedEvaluation.grounded_evaluateLinked i.toLinkedIndex
    i.includedWorkspaceSymbols i.rules true i.view.listed
  rw [← evaluateWorkspaceSnapshot_of_linkage h] at hgrounded
  have hplaced : ∀ v ∈ i.evaluateWorkspaceSnapshot.violations,
      ∃ f, i.files[v.source]? = some f := by
    intro v hv
    obtain ⟨o, -, r, hr, hsource⟩ := hgrounded.anchored v hv
    rw [hsource]
    exact ⟨_, getElem?_eq_getElem (i.covered o r hr)⟩
  refine ⟨i.diagnostics.countP (·.ruleId = r.ruleId), ?_, ?_⟩
  · rw [realignReport, if_pos hverdict]
  · rw [countP_pos_iff, ← mem_diagnostics (hgrounded.ruled r hr hverdict) hplaced]
    simp only [decide_eq_true_eq]

/-- A check without rules over the linkage gives no verdict, be it incremental or not. -/
theorem verdict_eq_none (h : i.rules.hasLinkageRules = false) :
    ∀ r ∈ i.evaluateWorkspaceSnapshot.reports, r.verdict = none := by
  have hfull : ∀ r ∈ i.evaluateWorkspaceFull.reports, r.verdict = none :=
    CodeMoniker.verdict_eq_none h _
  have hlinked : ∀ (e : WorkspaceEvaluation), ∀ r ∈ e.linked.reports, r.verdict = none := by
    intro e r hr
    obtain ⟨r, -, rfl⟩ := mem_map.mp hr
    rfl
  unfold evaluateWorkspaceSnapshot
  rw [if_neg (by simp [h])]
  split
  · exact hfull
  · split_ifs
    · exact hlinked _
    · split
      · exact hfull
      · split_ifs
        · exact hfull
        · exact hlinked _

theorem keepsVerdicts_iff : i.KeepsVerdicts ↔ i.HasSymbols := by
  have hsome : (∃ o r, i.index.inventory.record o = some r ∧ i.excluded r.sourcePath = false) ↔
      i.includedWorkspaceSymbols ≠ ∅ := by
    simp only [OrdSet.ne_empty_iff, mem_includedWorkspaceSymbols]
  have hreports : i.KeepsVerdicts ↔ (i.linkageGeneration = i.indexGeneration →
      ∀ r ∈ i.evaluateWorkspaceSnapshot.reports, r.verdict.isSome →
        VerdictKept i.evaluateWorkspaceSnapshot.violations i.Suppressed r
          (realignReport i.diagnostics r)) := by
    unfold KeepsVerdicts runCheck
    split_ifs with hgeneration
    · simp [hgeneration]
    · simp only [Except.ok.injEq, forall_eq', not_not.mp hgeneration, forall_const]
      rw [collectDiagnostics, realignWorkspaceReports, List.forall₂_map_right_iff,
        List.forall₂_same]
  rw [hreports, HasSymbols, hsome]
  refine forall_congr' fun _ => ?_
  cases hlinkage : i.rules.hasLinkageRules with
  | true =>
    have hrecounted := fun r hr hverdict => @recounted i hlinkage r hr hverdict
    rw [evaluateWorkspaceSnapshot_of_linkage hlinkage] at hrecounted ⊢
    exact verdictKept_iff i.view.listed hrecounted
  | false =>
    refine iff_of_true (fun r hr hverdict => ?_) fun hrequires => ?_
    · rw [verdict_eq_none hlinkage r hr] at hverdict
      exact absurd hverdict (by simp)
    · exact absurd (hrequires.hasLinkageRules.symm.trans hlinkage) (by simp)

end WorkspaceCheck

/-! ## Both drivers -/

/-- The drivers keep the verdicts of an evaluation if and only if it has a symbol to attach a
failure to, or no path rule requires one. -/
theorem verdicts_kept_iff (run : CheckRun) (i : WorkspaceCheck) :
    (run.KeepsVerdicts ↔ run.HasSymbols) ∧ (i.KeepsVerdicts ↔ i.HasSymbols) :=
  ⟨run.keepsVerdicts_iff, i.keepsVerdicts_iff⟩

/-! ## Checks in a row -/

theorem reports_foldl {α : Type} {f : EvaluationState → α → EvaluationState}
    (h : ∀ s a, (f s a).1.reports = s.1.reports) :
    ∀ (l : List α) (s : EvaluationState), (l.foldl f s).1.reports = s.1.reports
  | [], _ => rfl
  | a :: l, s => (reports_foldl h l _).trans (h s a)

theorem reports_evaluateIn (x : SymbolInventoryIndex) (u : SymbolSet)
    (compiled : CompiledWorkspaceRules) :
    (evaluateWorkspaceRulesIn x u false compiled).reports = [] := by
  refine (reports_foldl (f := evaluateGroupRule x u false) (fun _ _ => rfl) _ _).trans
    (reports_foldl (f := evaluateSymbolRule x u false) (fun s rule => ?_) _ _)
  unfold evaluateSymbolRule
  split <;> rfl

/-- What the fingerprints stand for, and with a fingerprint the generations. -/
structure CheckHistory where
  rules : String → LinkedRules
  view : String → ℕ → RuleView

theorem WorkspaceIncrementalInput.Same.eq {e e' : WorkspaceEvaluation} (h : Same e e')
    (hreports : e.reports = e'.reports) : e = e' := by
  cases e
  cases e'
  obtain ⟨rfl, rfl, rfl⟩ := h
  exact congrArg _ hreports

namespace WorkspaceCheck

open WorkspaceIncrementalInput

/-- A diff lists what has changed since its base, and disturbs nothing. -/
structure Consistent (g : CheckHistory) (i : WorkspaceCheck) : Prop where
  rules : i.rules = g.rules i.fingerprint
  view : i.view = g.view i.fingerprint i.indexGeneration
  ids : (i.rules.group.map (·.ruleId)).Nodup
  diff : ∀ base diff, i.indexDiff = some (base, diff) →
    diff.Complete (g.view i.fingerprint base) i.view ∧
      (afterFull (g.view i.fingerprint base) i.view diff
        i.rules.toCompiledWorkspaceRules false).Undisturbed

/-- What a check leaves. One that reports an error leaves what it has found. -/
def left (i : WorkspaceCheck) : Option WorkspaceEvaluationState :=
  match i.runCheck with
  | .ok out => some out.state
  | .error _ => i.previous

/-- What checks in a row may leave. -/
inductive Reached (g : CheckHistory) : Option WorkspaceEvaluationState → Prop
  | new : Reached g none
  | check {i : WorkspaceCheck} (h : Reached g i.previous) (hi : i.Consistent g) : Reached g i.left

/-- The state holds a full evaluation. -/
def Full (g : CheckHistory) (previous : Option WorkspaceEvaluationState) : Prop :=
  ∀ state ∈ previous, (g.rules state.fingerprint).hasLinkageRules = false →
    state.view = g.view state.fingerprint state.indexGeneration ∧
      state.evaluation = evaluateWorkspaceRulesIn state.view.inventory state.view.symbols false
        (g.rules state.fingerprint).toCompiledWorkspaceRules

variable {g : CheckHistory} {i : WorkspaceCheck}

theorem Full.evaluateWorkspaceSnapshot_eq (h : Full g i.previous) (hi : i.Consistent g) :
    i.evaluateWorkspaceSnapshot = i.evaluateWorkspaceFull := by
  unfold evaluateWorkspaceSnapshot
  cases hlinkage : i.rules.hasLinkageRules with
  | true => rfl
  | false =>
    have hfull : i.evaluateWorkspaceFull = (evaluateWorkspaceRulesIn i.view.inventory
        i.view.symbols false i.rules.toCompiledWorkspaceRules).linked := by
      rw [evaluateWorkspaceFull, evaluateLinked_of_not hlinkage, hlinkage]
      rfl
    rw [if_neg Bool.false_ne_true]
    split
    · rfl
    · next state hstate =>
      obtain ⟨hstate, hfingerprint⟩ := Option.filter_eq_some_iff.mp hstate
      have hfingerprint := of_decide_eq_true hfingerprint
      obtain ⟨hview, hevaluation⟩ := h state hstate (by rw [hfingerprint, ← hi.rules, hlinkage])
      rw [hfingerprint] at hview hevaluation
      rw [← hi.rules] at hevaluation
      split_ifs with hgeneration
      · rw [hfull, hevaluation, hview, hgeneration, ← hi.view]
      · split
        · rfl
        · next base diff hdiff =>
          split_ifs with hbase
          · rfl
          · obtain rfl := not_not.mp hbase
            obtain ⟨hcomplete, hundisturbed⟩ := hi.diff _ diff hdiff
            rw [← hview] at hcomplete hundisturbed
            rw [hfull, hevaluation]
            exact congrArg WorkspaceEvaluation.linked ((same_of_undisturbed rfl hlinkage hi.ids
              hcomplete hundisturbed false).eq (reports_evaluateIn _ _ _).symm)

theorem Full.left (h : Full g i.previous) (hi : i.Consistent g) : Full g i.left := by
  unfold WorkspaceCheck.left runCheck
  split_ifs with hgeneration
  · exact h
  · rintro _ ⟨⟩ hlinkage
    refine ⟨hi.view, ?_⟩
    simp only [collectDiagnostics, ← hi.rules] at hlinkage ⊢
    rw [h.evaluateWorkspaceSnapshot_eq hi, evaluateWorkspaceFull, evaluateLinked_of_not hlinkage,
      hlinkage]
    exact Same.eq ⟨rfl, rfl, rfl⟩ (reports_evaluateIn _ _ _).symm

theorem Reached.full {previous : Option WorkspaceEvaluationState} (h : Reached g previous) :
    Full g previous := by
  induction h with
  | new => rintro _ ⟨⟩
  | check _ hi ih => exact ih.left hi

/-- Whatever checks have come before, a check publishes what a first one would. -/
theorem Reached.runCheck_eq (h : Reached g i.previous) (hi : i.Consistent g) :
    i.runCheck = { i with previous := none }.runCheck := by
  have hsnapshot : i.evaluateWorkspaceSnapshot =
      { i with previous := none }.evaluateWorkspaceSnapshot := by
    rw [h.full.evaluateWorkspaceSnapshot_eq hi,
      Reached.new.full.evaluateWorkspaceSnapshot_eq (i := { i with previous := none })
        ⟨hi.rules, hi.view, hi.ids, hi.diff⟩]
    rfl
  have hdiagnostics : i.diagnostics = { i with previous := none }.diagnostics := by
    rw [diagnostics, diagnostics, hsnapshot]
    rfl
  rw [runCheck, runCheck, collectDiagnostics, collectDiagnostics, hsnapshot, hdiagnostics]
  rfl

end WorkspaceCheck

/-! ## A workspace without symbols -/

def emptyIndex : LinkedIndex where
  index := {
    identityScheme := "code+moniker://"
    symbols := []
    references := ⟨[], trivial⟩
    inventory := .empty
    sourced := by simp [ReferenceTable.iter]
    inventoried := by simp }
  linkage := {
    resolved := [], candidates := [], external := [], dynamic := [], blocked := []
    unresolved := [], oneDecision := List.nodup_nil }
  readIndex := some []
  named o r h := by simp [SymbolInventoryIndex.record, SymbolInventoryIndex.empty] at h

/-- The entry points must reach the renderers, and there must be some of either. -/
def missingEntry : LinkedPathRule where
  expect := .reachable
  requireNonEmpty := true
  relation := ["calls"]
  limits := ⟨8, 1000, 1000⟩
  maxPairs := 100
  minCoverage := 100
  ruleId := "workspace.path.missing-entry"
  targetRaw := "name = 'render'"
  source := .atom (.mk (.attr .name) .eq (.str "dispatch") "name = 'dispatch'" none)
  target := .atom (.mk (.attr .name) .eq (.str "render") "name = 'render'" none)
  via := none
  severity := .error
  message := none

def missingEntryRules : LinkedRules where
  symbol := []
  group := []
  path := [missingEntry.toCompiledWorkspacePathRule]
  minLinkageCoverage := 100
  textual := by simp [Textual]
  paths := [missingEntry]
  compiled := rfl
  linkageTextual := by simp [Textual, CompiledWorkspaceRules.linkageRules]
  pathTextual := by simp [Textual, missingEntry, LinkedPathRule.atoms, Node.atoms, Atom.raw]

def emptyCheck : WorkspaceCheck where
  toLinkedIndex := emptyIndex
  files := []
  indexGeneration := 0
  linkageGeneration := 0
  rules := missingEntryRules
  fingerprint := ""
  excluded _ := false
  symbolByIdentity := ∅
  indexDiff := none
  previous := none
  covered o r h := by
    simp [emptyIndex, SymbolInventoryIndex.record, SymbolInventoryIndex.empty] at h
  apart := by simp

/-- The rule fails on a workspace without symbols, and its report passes. -/
theorem emptyCheck_passes :
    emptyCheck.evaluateWorkspaceSnapshot.reports.map (·.verdict) = [some .fail] ∧
      emptyCheck.evaluateWorkspaceSnapshot.violations = [] ∧
      emptyCheck.collectDiagnostics.reports.map (·.verdict) = [some .pass] ∧
      ¬emptyCheck.KeepsVerdicts := by
  refine ⟨by decide, by decide, by decide, ?_⟩
  rw [WorkspaceCheck.keepsVerdicts_iff]
  intro h
  obtain ⟨o, r, hr, -⟩ := h rfl ⟨missingEntry, mem_singleton_self _, rfl⟩
  simp [emptyCheck, emptyIndex, SymbolInventoryIndex.record, SymbolInventoryIndex.empty] at hr

/-! ## A class that becomes public -/

open WorkspaceIncrementalInput

def recordOf (r : InventorySymbol) : SymbolRecord :=
  { r with byteRange := none, signature := "" }

/-- Two files with a class each, the first one private. -/
def invoiceIndex (visibility : String) : LinkedIndex where
  index := { emptyIndex.index with
    symbols := [javaClass 0 "Invoice" "private", javaClass 1 "Order" visibility].map recordOf
    inventory := twoClasses "Order" visibility
    sourced := by simp [emptyIndex, ReferenceTable.iter]
    inventoried := by
      intro s hs
      obtain ⟨r, hr, rfl⟩ := mem_map.mp hs
      rcases mem_pair.mp hr with rfl | rfl
      · exact ⟨0, _, record_twoClasses.mpr (Or.inl ⟨rfl, rfl⟩), rfl, rfl⟩
      · exact ⟨1, _, record_twoClasses.mpr (Or.inr ⟨rfl, rfl⟩), rfl, rfl⟩ }
  linkage := emptyIndex.linkage
  readIndex := some []
  named := (twoClassView "Order" visibility).cataloged

variable (generation : ℕ)

/-- The second class is public from the second generation on. The only rule reads the inventory. -/
def publicCheck (previous : Option WorkspaceEvaluationState) : WorkspaceCheck where
  toLinkedIndex := invoiceIndex (if generation = 0 then "private" else "public")
  files := ["billing/Invoice.java", "sales/Invoice.java"].map fun path =>
    ⟨path, .fromRecords [] [], [], []⟩
  indexGeneration := generation
  linkageGeneration := generation
  rules := { publicOnly with
    paths := []
    compiled := rfl
    linkageTextual := by simp [Textual, CompiledWorkspaceRules.linkageRules, publicOnly]
    pathTextual := by simp [Textual] }
  fingerprint := ""
  excluded _ := false
  symbolByIdentity := ∅
  indexDiff := if generation = 0 then none else some (0, publishedClass "Order")
  previous := previous
  covered o r h := by
    rcases record_twoClasses.mp h with ⟨rfl, rfl⟩ | ⟨rfl, rfl⟩ <;> simp [javaClass]
  apart := by simp

theorem view_publicCheck (previous : Option WorkspaceEvaluationState) :
    (publicCheck generation previous).view =
      twoClassView "Order" (if generation = 0 then "private" else "public") := rfl

theorem publicCheck_consistent (previous : Option WorkspaceEvaluationState) :
    (publicCheck generation previous).Consistent ⟨fun _ => (publicCheck 0 none).rules,
      fun _ generation => (publicCheck generation none).view⟩ where
  rules := rfl
  view := rfl
  ids := nodup_nil
  diff := by
    intro base diff hdiff
    have hlater : generation ≠ 0 := by
      rintro rfl
      cases hdiff
    obtain ⟨rfl, rfl⟩ := Prod.mk.inj (some.inj ((if_neg hlater).symm.trans hdiff))
    rw [view_publicCheck, if_neg hlater]
    exact ⟨publishedClass_complete "Order", undisturbed_order⟩

/-- The second check evaluates the rule again for the class that has changed. -/
theorem publicCheck_runCheck_eq :
    (publicCheck 1 (publicCheck 0 none).left).runCheck = (publicCheck 1 none).runCheck :=
  ((WorkspaceCheck.Reached.new.check (publicCheck_consistent 0 none)).runCheck_eq
    (i := publicCheck 1 _) (publicCheck_consistent 1 _))

end CodeMoniker
