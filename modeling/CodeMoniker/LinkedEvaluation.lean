import CodeMoniker.LinkageRules
import CodeMoniker.PathAnchors
import CodeMoniker.WorkspaceEval

/-!
# Workspace rules over the linkage

`evaluateLinked` runs the rules over the inventory, then those that count references, those
over the structure and the path rules, and gives the last three kinds a verdict. What it emits
is attached to symbols of the universe (`Grounded.anchored`), and a rule that fails has emitted
a violation, unless it is a path rule with `require_non_empty` and the universe is empty
(`Grounded.failed`).
-/

namespace CodeMoniker

open List hiding set
open Option
open StableSort

/-! ## Reports -/

structure RuleCoverage where
  total : ℕ
  decided : ℕ
  resolved : ℕ
  external : ℕ
  candidate : ℕ
  dynamic : ℕ
  blocked : ℕ
  unresolved : ℕ
  percent : ℕ
  minPercent : ℕ
  deriving DecidableEq, Repr

structure RulePathStep where
  source : String
  target : String
  relation : String
  reference : ReferenceId
  file : String
  deriving DecidableEq, Repr

structure RulePathReport where
  expectation : String
  relation : List String
  maxDepth : ℕ
  maxSymbols : ℕ
  maxEdges : ℕ
  maxPairs : ℕ
  minCoverage : ℕ
  sourceSymbols : ℕ
  targetSymbols : ℕ
  viaSymbols : ℕ
  evaluatedPairs : ℕ
  exploredSymbols : ℕ
  exploredEdges : ℕ
  depthLimitReached : Bool
  symbolLimitReached : Bool
  edgeLimitReached : Bool
  pairLimitReached : Bool
  reasons : List String
  witness : List RulePathStep
  deriving DecidableEq, Repr

/-- A report with what only the rules over the linkage fill in. -/
structure LinkedRuleReport extends RuleReport where
  warning : Option String := none
  inconclusive : Option ℕ := none
  verdict : Option RuleVerdict := none
  coverage : Option RuleCoverage := none
  path : Option RulePathReport := none
  deriving DecidableEq, Repr

/-! ## Rules -/

/-- A path rule with its selectors and texts. -/
structure LinkedPathRule extends CompiledWorkspacePathRule where
  ruleId : String
  targetRaw : String
  source : Node
  target : Node
  via : Option Node
  severity : RuleSeverity
  message : Option String

def LinkedPathRule.atoms (rule : LinkedPathRule) : List Atom :=
  rule.source.atoms ++ rule.target.atoms ++ (rule.via.map (·.atoms)).getD []

def CompiledWorkspaceRules.linkageRules (rules : CompiledWorkspaceRules) :
    List CompiledWorkspaceSymbolRule :=
  rules.symbol.filter (·.plan = .linkage)

def CompiledWorkspaceRules.structureRules (rules : CompiledWorkspaceRules) :
    List CompiledWorkspaceSymbolRule :=
  rules.symbol.filter (·.plan = .structural)

/-- Compiled rules with their path rules in full. The atoms come from one parser here too. -/
structure LinkedRules extends CompiledWorkspaceRules where
  paths : List LinkedPathRule
  compiled : path = paths.map (·.toCompiledWorkspacePathRule)
  linkageTextual : Textual (toCompiledWorkspaceRules.linkageRules.flatMap (·.root.atoms))
  pathTextual : Textual (paths.flatMap (·.atoms))

/-- The ids of the rules that reports go by. -/
def LinkedRules.ruleIds (rules : LinkedRules) : List String :=
  rules.symbol.map (·.ruleId) ++ rules.group.map (·.ruleId) ++ rules.paths.map (·.ruleId)

theorem LinkedRules.ruleId_mem_of_symbol {rules : LinkedRules} {rule : CompiledWorkspaceSymbolRule}
    (h : rule ∈ rules.symbol) : rule.ruleId ∈ rules.ruleIds :=
  mem_append_left _ (mem_append_left _ (List.mem_map_of_mem h))

theorem LinkedRules.ruleId_mem_of_path {rules : LinkedRules} {rule : LinkedPathRule}
    (h : rule ∈ rules.paths) : rule.ruleId ∈ rules.ruleIds :=
  mem_append_right _ (List.mem_map_of_mem h)

/-- The index of a workspace and its linkage. The read index holds the source roots. -/
structure LinkedIndex where
  index : CodeIndex
  linkage : LinkageSnapshot
  readIndex : Option (List ℕ)
  named : ∀ o r, index.inventory.record o = some r → index.inventory.catalog.ordinal r.id = some o

structure LinkedEvaluation where
  violations : List WorkspaceSymbolViolation := []
  violationSets : OrdMap String SymbolSet := ∅
  groups : List WorkspaceGroupResult := []
  reports : List LinkedRuleReport := []

/-- The rules over the inventory give no verdict. -/
def WorkspaceEvaluation.linked (e : WorkspaceEvaluation) : LinkedEvaluation where
  violations := e.violations
  violationSets := e.violationSets
  groups := e.groups
  reports := e.reports.map fun r => { r with }

namespace LinkedEvaluation

variable (s : LinkedIndex) (u : SymbolSet) (report : Bool)

/-- `append_violations`. -/
def linkageViolation (rule : CompiledWorkspaceSymbolRule) (r : InventorySymbol) :
    WorkspaceSymbolViolation :=
  let v := symbolViolation rule r
  { v with violation := { v.violation with
      message := s!"{r.kind} `{r.name}` fails workspace linkage assertion `{rule.rawExpr}`" } }

/-- What a rule adds : its violations under its id, and its report if reports are asked for. -/
def add (e : LinkedEvaluation) (ruleId : String) (violations : List WorkspaceSymbolViolation)
    (violationSet : SymbolSet) (r : LinkedRuleReport) : LinkedEvaluation where
  violations := e.violations ++ violations
  violationSets := e.violationSets.insert ruleId violationSet
  groups := e.groups
  reports := if report then e.reports ++ [r] else e.reports

/-! ## Rules that count references -/

section Linkage

open LinkageRules

def coverageReport (c : CoverageCounts) (minPercent : ℕ) : RuleCoverage where
  total := c.total
  decided := c.decided
  resolved := c.resolved
  external := c.external
  candidate := c.candidate
  dynamic := c.dynamic
  blocked := c.blocked
  unresolved := c.unresolved
  percent := c.percent
  minPercent := minPercent

/-- How many symbols match, and how many satisfy the premise of an implication. -/
def ruleMatchCounts (ctx : EvalContext) (root : Node) (outcome : TriSet SymbolOrdinal)
    (cache : AtomCache) : (ℕ × Option ℕ) × AtomCache :=
  match root with
  | .implies antecedent _ =>
    let (set, state) := LinkageRules.evalNode ctx antecedent ⟨{}, cache⟩
    (((outcome.pass ∩ set.pass).card, some set.pass.card), state.cache)
  | _ => ((outcome.pass.card, none), cache)

def linkageReport (rule : CompiledWorkspaceSymbolRule) (outcome : TriSet SymbolOrdinal)
    (counts : ℕ × Option ℕ) (coverage : CoverageCounts) (minPercent : ℕ) : LinkedRuleReport where
  ruleId := rule.ruleId
  severity := rule.severity
  domain := "workspace linked symbols"
  evaluated := u.card
  matched := counts.1
  violations := outcome.fail.card
  antecedentMatches := counts.2
  warning :=
    if outcome.unknown = ∅ then none
    else some s!"linkage coverage is below {minPercent}% for {outcome.unknown.card} symbol(s)"
  inconclusive := some outcome.unknown.card
  verdict := some
    (if outcome.fail ≠ ∅ then .fail else if outcome.unknown ≠ ∅ then .inconclusive else .pass)
  coverage := some (coverageReport coverage minPercent)

def evaluateLinkageRule (minCoverage : ℕ) (e : LinkedEvaluation × AtomCache)
    (rule : CompiledWorkspaceSymbolRule) : LinkedEvaluation × AtomCache :=
  let ctx := EvalContext.of s.index s.linkage u minCoverage
  let (outcome, state) := LinkageRules.evalNode ctx rule.root ⟨{}, e.2⟩
  let (counts, cache) :=
    if report then ruleMatchCounts ctx rule.root outcome state.cache else ((0, none), state.cache)
  (e.1.add report rule.ruleId
      ((memberRecords s.index.inventory outcome.fail).map (linkageViolation rule)) outcome.fail
      (linkageReport u rule outcome counts state.coverage minCoverage),
    cache)

def evaluateLinkageRules (rules : CompiledWorkspaceRules) (e : LinkedEvaluation) :
    LinkedEvaluation :=
  (rules.linkageRules.foldl (evaluateLinkageRule s u report rules.minLinkageCoverage) (e, ∅)).1

end Linkage

/-! ## Rules over the structure -/

structure StructureScan where
  failures : SymbolSet := ∅
  unknown : ℕ := 0
  matched : ℕ := 0
  antecedentMatches : ℕ := 0

/-- One turn of the loop over the universe. -/
def scanStructure (p : IndexedPredicates) (x : SymbolInventoryIndex) (root : Node)
    (scan : StructureScan) (o : SymbolOrdinal) : StructureScan :=
  match x.record o with
  | none => scan
  | some r =>
    let premise :=
      match root with
      | .implies premise _ => p.evaluate premise r.id
      | _ => some true
    let scan :=
      if premise = some true then { scan with antecedentMatches := scan.antecedentMatches + 1 }
      else scan
    match p.evaluate root r.id with
    | some true => if premise = some true then { scan with matched := scan.matched + 1 } else scan
    | some false => { scan with failures := scan.failures.insert o }
    | none => { scan with unknown := scan.unknown + 1 }

def isImplication : Node → Bool
  | .implies _ _ => true
  | _ => false

def structureReport (rule : CompiledWorkspaceSymbolRule) (scan : StructureScan) :
    LinkedRuleReport where
  ruleId := rule.ruleId
  severity := rule.severity
  domain := "workspace structural symbols"
  evaluated := u.card
  matched := scan.matched
  violations := scan.failures.card
  antecedentMatches := if isImplication rule.root then some scan.antecedentMatches else none
  warning :=
    if scan.unknown = 0 then none
    else some ("Structural traversal requires resolved relations; some targets or incoming sets " ++
      "are uncertain.")
  inconclusive := some scan.unknown
  verdict := some
    (if scan.failures ≠ ∅ then .fail else if 0 < scan.unknown then .inconclusive else .pass)

def evaluateStructureRule (e : LinkedEvaluation) (rule : CompiledWorkspaceSymbolRule) :
    LinkedEvaluation :=
  let p := IndexedPredicates.new s.index s.linkage
  let scan := u.elems.foldl (scanStructure p s.index.inventory rule.root) {}
  e.add report rule.ruleId
    ((memberRecords s.index.inventory scan.failures).map (linkageViolation rule)) scan.failures
    (structureReport u rule scan)

def evaluateStructureRules (rules : CompiledWorkspaceRules) (e : LinkedEvaluation) :
    LinkedEvaluation :=
  rules.structureRules.foldl (evaluateStructureRule s u report) e

/-! ## Path rules -/

def expectationName : WorkspacePathExpectation → String
  | .reachable => "reachable"
  | .noPath => "no_path"
  | .allPathsVia => "all_paths_via"

def witnessSteps (witness : List BoundedPathEdge) : List RulePathStep :=
  witness.filterMap fun e => do
    let source ← s.index.inventory.recordById e.source
    let target ← s.index.inventory.recordById e.target
    let r ← (s.index.references.fileRecords e.reference.file)[e.reference.reference]?
    if r.id = e.reference then
      some ⟨source.identity, target.identity, r.kind, r.id, source.sourcePath⟩
    else none

def witnessLabel : List RulePathStep → String
  | [] => "no witness"
  | step :: steps => " -> ".intercalate (step.source :: (step :: steps).map (·.target))

def pathAnchor (outcome : PathOutcome) (sel : PathSelections) : Option SymbolOrdinal :=
  outcome.anchor
    |>.or (outcome.witness.head?.bind fun e => s.index.inventory.catalog.ordinal e.source)
    |>.or sel.source.elems.head?
    |>.or sel.target.elems.head?
    |>.or sel.via.elems.head?
    |>.or u.elems.head?

/-- The violation of a path rule at a symbol. -/
def pathViolation (rule : LinkedPathRule) (witness : List RulePathStep) (r : InventorySymbol) :
    WorkspaceSymbolViolation where
  source := r.source
  symbol := some r.id
  sourceSuppression := true
  violation := {
    ruleId := rule.ruleId
    severity := rule.severity
    moniker := r.identity
    srcset := if r.srcset.isEmpty then none else some r.srcset
    kind := r.kind
    lines := r.lineRange.getD (0, 0)
    message :=
      s!"workspace path expectation `{expectationName rule.expect}` failed: {witnessLabel witness}"
    explanation := rule.message.map (renderTemplate ·
      [("from", r.identity), ("to", rule.targetRaw), ("expect", expectationName rule.expect),
        ("path", witnessLabel witness)]) }

def pathReport (rule : LinkedPathRule) (sel : PathSelections) (outcome : PathOutcome)
    (witness : List RulePathStep) : LinkedRuleReport :=
  let verdict := outcome.verdict.getD .inconclusive
  let reasons := outcome.reasons.elems
  { ruleId := rule.ruleId
    severity := rule.severity
    domain := "workspace paths"
    evaluated := outcome.evaluatedPairs
    matched := if verdict = .pass then 1 else 0
    violations := if verdict = .fail then 1 else 0
    antecedentMatches := none
    warning :=
      if verdict = .inconclusive then
        some ("workspace path result is inconclusive: " ++ ", ".intercalate reasons)
      else none
    inconclusive := some (if verdict = .inconclusive then 1 else 0)
    verdict := some verdict
    coverage := some
      { total := outcome.coverage.total
        decided := outcome.coverage.decided
        resolved := outcome.coverage.resolved
        external := outcome.coverage.external
        candidate := outcome.coverage.candidate
        dynamic := outcome.coverage.dynamic
        blocked := outcome.coverage.manifestBlocked
        unresolved := outcome.coverage.unresolved
        percent := outcome.coverage.percent
        minPercent := rule.minCoverage }
    path := some
      { expectation := expectationName rule.expect
        relation := rule.relation
        maxDepth := rule.limits.maxDepth
        maxSymbols := rule.limits.maxSymbols
        maxEdges := rule.limits.maxEdges
        maxPairs := rule.maxPairs
        minCoverage := rule.minCoverage
        sourceSymbols := sel.source.card
        targetSymbols := sel.target.card
        viaSymbols := sel.via.card
        evaluatedPairs := outcome.evaluatedPairs
        exploredSymbols := outcome.exploredSymbols
        exploredEdges := outcome.exploredEdges
        depthLimitReached := outcome.depthLimitReached
        symbolLimitReached := outcome.symbolLimitReached
        edgeLimitReached := outcome.edgeLimitReached
        pairLimitReached := outcome.pairLimitReached
        reasons := reasons
        witness := witness } }

/-- What a path rule is evaluated on, its searches kept to the files of the universe. -/
def pathContext (rule : LinkedPathRule) : PathRuleContext where
  inventory := s.index.inventory
  linkage := s.linkage
  references := s.index.references
  symbols := s.index.inventory.catalog
  roots := s.readIndex.getD []
  available := s.readIndex.isSome
  scope := .fromSources (u.elems.filterMap fun o => (s.index.inventory.record o).map (·.source))
  rule := rule.toCompiledWorkspacePathRule

def pathSelections (rule : LinkedPathRule) (cache : AtomCache) : PathSelections × AtomCache :=
  let x := s.index.inventory
  let (source, cache) := evalNode x u rule.source cache
  let (target, cache) := evalNode x u rule.target cache
  match rule.via with
  | none => (⟨source, target, ∅⟩, cache)
  | some selector =>
    let (via, cache) := evalNode x u selector cache
    (⟨source, target, via⟩, cache)

/-- The symbol that the violation of a failed rule is attached to. -/
def failureAnchor (outcome : PathOutcome) (sel : PathSelections) : Option SymbolOrdinal :=
  if outcome.verdict = some .fail then pathAnchor s u outcome sel else none

def pathViolations (rule : LinkedPathRule) (outcome : PathOutcome) (sel : PathSelections) :
    List WorkspaceSymbolViolation :=
  match failureAnchor s u outcome sel with
  | none => []
  | some anchor =>
    match s.index.inventory.record anchor with
    | none => []
    | some r => [pathViolation rule (witnessSteps s outcome.witness) r]

def evaluatePathRule (e : LinkedEvaluation × AtomCache) (rule : LinkedPathRule) :
    LinkedEvaluation × AtomCache :=
  let (sel, cache) := pathSelections s u rule e.2
  let outcome := (pathContext s u rule).evaluatePathRule sel
  (e.1.add report rule.ruleId (pathViolations s u rule outcome sel)
      (OrdSet.ofList (failureAnchor s u outcome sel).toList)
      (pathReport rule sel outcome (witnessSteps s outcome.witness)),
    cache)

def evaluatePathRules (rules : LinkedRules) (e : LinkedEvaluation) : LinkedEvaluation :=
  (rules.paths.foldl (evaluatePathRule s u report) (e, ∅)).1

/-! ## All rules -/

/-- `evaluate_workspace_rules_linked_in_current`. -/
def evaluateLinked (rules : LinkedRules) : LinkedEvaluation :=
  let e := (evaluateWorkspaceRulesIn s.index.inventory u report
    rules.toCompiledWorkspaceRules).linked
  let e := evaluateLinkageRules s u report rules.toCompiledWorkspaceRules e
  let e := evaluateStructureRules s u report rules.toCompiledWorkspaceRules e
  let e := evaluatePathRules s u report rules e
  { e with violations := sortWorkspaceViolations e.violations }

/-! ## What the rules emit -/

variable {s : LinkedIndex} {u : SymbolSet} {rules : LinkedRules} {e : LinkedEvaluation}

/-- The violation is in the file of a symbol of the universe. -/
def Anchored (s : LinkedIndex) (u : SymbolSet) (v : WorkspaceSymbolViolation) : Prop :=
  ∃ o ∈ u, ∃ r, s.index.inventory.record o = some r ∧ v.source = r.source

/-- A path rule fails on the empty universe. -/
def FailsEmpty (u : SymbolSet) (rules : LinkedRules) : Prop :=
  u = ∅ ∧ ∃ rule ∈ rules.paths, rule.requireNonEmpty = true

/-- Violations are attached to symbols, verdicts are about the rules, an open verdict counts what it
leaves open, and a failure has a violation. -/
structure Grounded (s : LinkedIndex) (u : SymbolSet) (rules : LinkedRules) (e : LinkedEvaluation) :
    Prop where
  anchored : ∀ v ∈ e.violations, Anchored s u v
  ruled : ∀ r ∈ e.reports, r.verdict.isSome → r.ruleId ∈ rules.ruleIds
  unsettled : ∀ r ∈ e.reports, r.verdict = some .inconclusive → 0 < r.inconclusive.getD 0
  failed : ∀ r ∈ e.reports, r.verdict = some .fail →
    (∃ v ∈ e.violations, v.violation.ruleId = r.ruleId) ∨ FailsEmpty u rules

theorem Grounded.add (h : Grounded s u rules e) (report : Bool) {ruleId : String}
    {vs : List WorkspaceSymbolViolation} {set : SymbolSet} {r : LinkedRuleReport}
    (hvs : ∀ v ∈ vs, Anchored s u v) (hid : r.ruleId ∈ rules.ruleIds)
    (hopen : r.verdict = some .inconclusive → 0 < r.inconclusive.getD 0)
    (hfail : r.verdict = some .fail →
      (∃ v ∈ vs, v.violation.ruleId = r.ruleId) ∨ FailsEmpty u rules) :
    Grounded s u rules (e.add report ruleId vs set r) := by
  have hreports : ∀ r' ∈ (e.add report ruleId vs set r).reports, r' ∈ e.reports ∨ r' = r := by
    intro r' hr'
    unfold LinkedEvaluation.add at hr'
    dsimp only at hr'
    split_ifs at hr'
    · simpa using hr'
    · exact Or.inl hr'
  refine ⟨fun v hv => ?_, fun r' hr' hv' => ?_, fun r' hr' => ?_, fun r' hr' hv' => ?_⟩
  · rcases mem_append.mp hv with hv | hv
    · exact h.anchored v hv
    · exact hvs v hv
  · rcases hreports r' hr' with hr' | rfl
    · exact h.ruled r' hr' hv'
    · exact hid
  · rcases hreports r' hr' with hr' | rfl
    · exact h.unsettled r' hr'
    · exact hopen
  · rcases hreports r' hr' with hr' | rfl
    · refine (h.failed r' hr' hv').imp_left ?_
      rintro ⟨v, hv, hid⟩
      exact ⟨v, mem_append_left _ hv, hid⟩
    · refine (hfail hv').imp_left ?_
      rintro ⟨v, hv, hid⟩
      exact ⟨v, mem_append_right _ hv, hid⟩

/-- A set of failing symbols gives a violation in the file of each. -/
theorem memberViolations (hu : s.index.inventory.Knows u)
    (rule : CompiledWorkspaceSymbolRule) {f : SymbolSet} (hf : ∀ o ∈ f, o ∈ u) :
    (∀ v ∈ (memberRecords s.index.inventory f).map (linkageViolation rule), Anchored s u v) ∧
      (f ≠ ∅ → ∃ v ∈ (memberRecords s.index.inventory f).map (linkageViolation rule),
        v.violation.ruleId = rule.ruleId) := by
  constructor
  · intro v hv
    obtain ⟨r, hr, rfl⟩ := List.mem_map.mp hv
    obtain ⟨o, ho, hr⟩ := mem_filterMap.mp hr
    exact ⟨o, hf o ho, r, hr, rfl⟩
  · intro hne
    obtain ⟨o, ho⟩ := OrdSet.ne_empty_iff.mp hne
    obtain ⟨r, hr⟩ := hu o (hf o ho)
    exact ⟨_, List.mem_map_of_mem (mem_filterMap.mpr ⟨o, ho, hr⟩), rfl⟩

/-! ## Rules that count references are grounded -/

theorem card_pos {f : SymbolSet} (h : f ≠ ∅) : 0 < f.card := by
  obtain ⟨o, ho⟩ := OrdSet.ne_empty_iff.mp h
  exact length_pos_of_mem ho

theorem answers_ruleMatchCounts {ctx : LinkageRules.EvalContext} {atoms : List Atom}
    (ht : Textual atoms) {root : Node} (hsub : ∀ a ∈ root.atoms, a ∈ atoms)
    (outcome : TriSet SymbolOrdinal) {cache : AtomCache}
    (hc : cache.Answers ctx.index.inventory ctx.univ atoms) :
    (ruleMatchCounts ctx root outcome cache).2.Answers ctx.index.inventory ctx.univ atoms := by
  unfold ruleMatchCounts
  split
  · refine (LinkageRules.evalNode_eq ht _ ⟨{}, cache⟩ (fun a ha => hsub a ?_) hc).2
    simp [Node.atoms, ha]
  · exact hc

theorem grounded_evaluateLinkageRule (report : Bool)
    (hu : s.index.inventory.Knows u) {atoms : List Atom}
    (ht : Textual atoms) (minCoverage : ℕ) {rule : CompiledWorkspaceSymbolRule}
    (hrule : rule ∈ rules.symbol) (hsub : ∀ a ∈ rule.root.atoms, a ∈ atoms)
    {e : LinkedEvaluation × AtomCache} (h : Grounded s u rules e.1)
    (hc : e.2.Answers s.index.inventory u atoms) :
    Grounded s u rules (evaluateLinkageRule s u report minCoverage e rule).1 ∧
      (evaluateLinkageRule s u report minCoverage e rule).2.Answers s.index.inventory u atoms := by
  obtain ⟨hset, hc'⟩ := @LinkageRules.evalNode_eq (.of s.index s.linkage u minCoverage) atoms ht
    rule.root ⟨{}, e.2⟩ hsub hc
  have hfail : ∀ o ∈ (LinkageRules.evalNode (.of s.index s.linkage u minCoverage) rule.root
      ⟨{}, e.2⟩).1.fail, o ∈ u := by
    rw [hset]
    exact fun o ho => (OrdSet.mem_filter.mp ho).1
  obtain ⟨hanchored, hsome⟩ := memberViolations hu rule hfail
  unfold evaluateLinkageRule
  dsimp only
  constructor
  · refine h.add report hanchored (LinkedRules.ruleId_mem_of_symbol hrule) (fun hv => ?_)
      fun hv => Or.inl (hsome ?_)
    · simp only [linkageReport, Option.some.injEq] at hv ⊢
      split_ifs at hv with hne hunknown
      exact card_pos hunknown
    · simp only [linkageReport, Option.some.injEq] at hv
      split_ifs at hv with hne hunknown
      exact hne
  · split_ifs
    · exact answers_ruleMatchCounts ht hsub _ hc'
    · exact hc'

theorem grounded_evaluateLinkageRules (report : Bool)
    (hu : s.index.inventory.Knows u) (h : Grounded s u rules e) :
    Grounded s u rules (evaluateLinkageRules s u report rules.toCompiledWorkspaceRules e) := by
  -- The cache answers for the atoms of all the rules.
  let Kept (e : LinkedEvaluation × AtomCache) := Grounded s u rules e.1 ∧
    e.2.Answers s.index.inventory u (rules.linkageRules.flatMap (·.root.atoms))
  refine (foldlRecOn (motive := Kept) _ _ ⟨h, AtomCache.answers_empty⟩ fun e he rule hrule => ?_).1
  have hsub : ∀ a ∈ rule.root.atoms, a ∈ rules.linkageRules.flatMap (·.root.atoms) :=
    fun a ha => mem_flatMap.mpr ⟨rule, hrule, ha⟩
  exact grounded_evaluateLinkageRule report hu rules.linkageTextual rules.minLinkageCoverage
    (mem_filter.mp hrule).1 hsub he.1 he.2

/-! ## Rules over the structure are grounded -/

/-- A turn of the loop adds the symbol if the rule is false for it. -/
theorem failures_scanStructure (p : IndexedPredicates) (x : SymbolInventoryIndex) (root : Node)
    (scan : StructureScan) (o : SymbolOrdinal) : (scanStructure p x root scan o).failures =
      if ((x.record o).bind fun r => p.evaluate root r.id) = some false then scan.failures.insert o
      else scan.failures := by
  unfold scanStructure
  cases x.record o with
  | none => rfl
  | some r =>
    have hvalue : p.evaluate root r.id = none ∨ p.evaluate root r.id = some true ∨
        p.evaluate root r.id = some false := by
      rcases p.evaluate root r.id with _ | _ | _ <;> simp
    rcases hvalue with hvalue | hvalue | hvalue
    all_goals
      simp only [bind_some, hvalue]
      split_ifs <;> simp_all

theorem grounded_evaluateStructureRules (report : Bool)
    (hu : s.index.inventory.Knows u) (h : Grounded s u rules e) :
    Grounded s u rules (evaluateStructureRules s u report rules.toCompiledWorkspaceRules e) := by
  refine foldlRecOn _ _ h fun e h rule hrule => ?_
  have hfail : ∀ o ∈ (u.elems.foldl (scanStructure (.new s.index s.linkage) s.index.inventory
      rule.root) {}).failures, o ∈ u := by
    intro o ho
    rw [OrdSet.mem_foldl_insert_if (g := StructureScan.failures)
      (failures_scanStructure (.new s.index s.linkage) s.index.inventory rule.root)] at ho
    exact (ho.resolve_left (OrdSet.notMem_empty o)).1
  obtain ⟨hanchored, hsome⟩ := memberViolations hu rule hfail
  have hid : rule.ruleId ∈ rules.ruleIds :=
    LinkedRules.ruleId_mem_of_symbol (mem_filter.mp hrule).1
  refine h.add report hanchored hid (fun hv => ?_) fun hv => Or.inl (hsome ?_)
  · simp only [structureReport, Option.some.injEq] at hv ⊢
    split_ifs at hv with hne hunknown
    exact hunknown
  · simp only [structureReport, Option.some.injEq] at hv
    split_ifs at hv with hne hunknown
    exact hne

/-! ## Path rules are grounded -/

theorem pathSelections_within (hu : s.index.inventory.Knows u)
    {atoms : List Atom} (ht : Textual atoms) {rule : LinkedPathRule}
    (hsub : ∀ a ∈ rule.atoms, a ∈ atoms) {cache : AtomCache}
    (hc : cache.Answers s.index.inventory u atoms) :
    ((∀ o ∈ (pathSelections s u rule cache).1.source, o ∈ u) ∧
      (∀ o ∈ (pathSelections s u rule cache).1.target, o ∈ u) ∧
        ∀ o ∈ (pathSelections s u rule cache).1.via, o ∈ u) ∧
      (pathSelections s u rule cache).2.Answers s.index.inventory u atoms := by
  have hselect : ∀ {set : SymbolSet} {p : InventorySymbol → Bool},
      set = s.index.inventory.select u p → ∀ o ∈ set, o ∈ u := by
    rintro set p rfl o ho
    exact (SymbolInventoryIndex.mem_select.mp ho).1
  simp only [LinkedPathRule.atoms, mem_append] at hsub
  obtain ⟨hsource, hc⟩ := nodePost hu ht rule.source cache
    (fun a ha => hsub a (Or.inl (Or.inl ha))) hc
  obtain ⟨htarget, hc⟩ := nodePost hu ht rule.target _
    (fun a ha => hsub a (Or.inl (Or.inr ha))) hc
  unfold pathSelections
  cases hvia : rule.via with
  | none => exact ⟨⟨hselect hsource, hselect htarget, fun o ho => absurd ho (by simp)⟩, hc⟩
  | some selector =>
    obtain ⟨hvia, hc⟩ := nodePost hu ht selector _
      (fun a ha => hsub a (Or.inr (by simpa [hvia] using ha))) hc
    exact ⟨⟨hselect hsource, hselect htarget, hselect hvia⟩, hc⟩

variable {rule : LinkedPathRule}

/-- What fails is anchored at a symbol of the universe, if there is one. -/
theorem pathAnchor_mem {sel : PathSelections}
    (hsource : ∀ o ∈ sel.source, o ∈ u) (htarget : ∀ o ∈ sel.target, o ∈ u)
    (hvia : ∀ o ∈ sel.via, o ∈ u)
    (hfail : ((pathContext s u rule).evaluatePathRule sel).verdict = some .fail) :
    (∀ o, pathAnchor s u ((pathContext s u rule).evaluatePathRule sel) sel = some o → o ∈ u) ∧
      (u ≠ ∅ → ∃ o, pathAnchor s u ((pathContext s u rule).evaluatePathRule sel) sel = some o) := by
  have hanchors := PathRuleContext.evaluatePathRule_anchors hfail
  generalize (pathContext s u rule).evaluatePathRule sel = out at hanchors
  have hhead : ∀ {set : SymbolSet}, (∀ o ∈ set, o ∈ u) → ∀ o, set.elems.head? = some o → o ∈ u :=
    fun hset o ho => hset o (mem_of_mem_head? ho)
  have hwitness : ∀ o, (out.witness.head?.bind fun e =>
      s.index.inventory.catalog.ordinal e.source) = some o → o ∈ u := by
    intro o ho
    rcases hanchors.witness with hnil | ⟨avoid, a, ha, t, hpath⟩
    · simp [hnil] at ho
    · cases hw : out.witness with
      | nil => simp [hw] at ho
      | cons e es =>
        rw [hw] at hpath ho
        obtain ⟨r, hr, hordinal⟩ := PathRuleContext.ordinal_of_pathOf hpath
        have hsame : s.index.inventory.catalog.ordinal e.source = some a :=
          hordinal.trans (s.named a r hr)
        have ho : s.index.inventory.catalog.ordinal e.source = some o := ho
        obtain rfl := some.inj (hsame.symm.trans ho)
        exact hsource _ ha
  unfold pathAnchor
  constructor
  · intro o ho
    simp only [or_eq_some_iff] at ho
    rcases ho with ((((ho | ⟨-, ho⟩) | ⟨-, ho⟩) | ⟨-, ho⟩) | ⟨-, ho⟩) | ⟨-, ho⟩
    · exact hsource o (hanchors.anchor o ho)
    · exact hwitness o ho
    · exact hhead hsource o ho
    · exact hhead htarget o ho
    · exact hhead hvia o ho
    · exact hhead (fun _ h => h) o ho
  · intro hne
    rw [← ne_none_iff_exists']
    intro hnone
    obtain ⟨o, ho⟩ := OrdSet.ne_empty_iff.mp hne
    rw [OrdSet.mem_def, head?_eq_none_iff.mp (or_eq_none_iff.mp hnone).2] at ho
    exact absurd ho (by simp)

theorem pathReport_verdict (rule : LinkedPathRule) (sel : PathSelections) (out : PathOutcome)
    (witness : List RulePathStep) :
    (pathReport rule sel out witness).verdict = some (out.verdict.getD .inconclusive) ∧
      (pathReport rule sel out witness).inconclusive =
        some (if out.verdict.getD .inconclusive = .inconclusive then 1 else 0) :=
  ⟨rfl, rfl⟩

theorem mem_pathViolations {out : PathOutcome} {sel : PathSelections}
    {v : WorkspaceSymbolViolation} : v ∈ pathViolations s u rule out sel ↔
      ∃ o, failureAnchor s u out sel = some o ∧ ∃ r, s.index.inventory.record o = some r ∧
        v = pathViolation rule (witnessSteps s out.witness) r := by
  unfold pathViolations
  cases failureAnchor s u out sel with
  | none => simp
  | some o =>
    cases hr : s.index.inventory.record o with
    | none => simp [hr]
    | some r => simp [hr]

/-- A path rule that fails gives a violation, unless it fails on the empty universe. -/
theorem pathViolations_spec (hu : s.index.inventory.Knows u)
    {rule : LinkedPathRule} (hrule : rule ∈ rules.paths) {sel : PathSelections}
    (hsource : ∀ o ∈ sel.source, o ∈ u) (htarget : ∀ o ∈ sel.target, o ∈ u)
    (hvia : ∀ o ∈ sel.via, o ∈ u) {out : PathOutcome}
    (hout : out = (pathContext s u rule).evaluatePathRule sel) :
    (∀ v ∈ pathViolations s u rule out sel, Anchored s u v) ∧
      (out.verdict = some .fail → (∃ v ∈ pathViolations s u rule out sel,
        v.violation.ruleId = rule.ruleId) ∨ FailsEmpty u rules) := by
  have hanchor : out.verdict = some .fail → (∀ o, pathAnchor s u out sel = some o → o ∈ u) ∧
      (u ≠ ∅ → ∃ o, pathAnchor s u out sel = some o) := by
    subst hout
    exact pathAnchor_mem hsource htarget hvia
  constructor
  · intro v hv
    obtain ⟨o, ho, r, hr, rfl⟩ := mem_pathViolations.mp hv
    unfold failureAnchor at ho
    split_ifs at ho with hfail
    exact ⟨o, (hanchor hfail).1 o ho, r, hr, rfl⟩
  · intro hfail
    obtain ⟨hmem, hsome⟩ := hanchor hfail
    by_cases hempty : u = ∅
    · refine Or.inr ⟨hempty, rule, hrule, ?_⟩
      have hnone : sel.source = ∅ := OrdSet.eq_empty_iff.mpr fun o ho =>
        OrdSet.notMem_empty o (hempty ▸ hsource o ho)
      rw [hout, PathRuleContext.evaluatePathRule_empty hnone] at hfail
      split_ifs at hfail with hrequire
      · exact hrequire
      · simp [PathOutcome.inconclusive] at hfail
    · obtain ⟨o, ho⟩ := hsome hempty
      obtain ⟨r, hr⟩ := hu o (hmem o ho)
      refine Or.inl ⟨_, mem_pathViolations.mpr ⟨o, ?_, r, hr, rfl⟩, rfl⟩
      rw [failureAnchor, if_pos hfail, ho]

theorem grounded_evaluatePathRule (report : Bool)
    (hu : s.index.inventory.Knows u) {atoms : List Atom}
    (ht : Textual atoms) {rule : LinkedPathRule} (hrule : rule ∈ rules.paths)
    (hsub : ∀ a ∈ rule.atoms, a ∈ atoms) {e : LinkedEvaluation × AtomCache}
    (h : Grounded s u rules e.1) (hc : e.2.Answers s.index.inventory u atoms) :
    Grounded s u rules (evaluatePathRule s u report e rule).1 ∧
      (evaluatePathRule s u report e rule).2.Answers s.index.inventory u atoms := by
  obtain ⟨⟨hsource, htarget, hvia⟩, hc'⟩ := pathSelections_within hu ht hsub hc
  refine ⟨?_, hc'⟩
  unfold evaluatePathRule
  dsimp only
  generalize (pathSelections s u rule e.2).1 = sel at hsource htarget hvia ⊢
  obtain ⟨hanchored, hfailed⟩ := pathViolations_spec hu hrule hsource htarget hvia rfl
  generalize (pathContext s u rule).evaluatePathRule sel = out at hanchored hfailed ⊢
  obtain ⟨hverdict, hinconclusive⟩ := pathReport_verdict rule sel out (witnessSteps s out.witness)
  refine h.add report hanchored (LinkedRules.ruleId_mem_of_path hrule) (fun hv => ?_)
    fun hv => ?_
  · have hopen : out.verdict.getD .inconclusive = .inconclusive :=
      some.inj (hverdict.symm.trans hv)
    rw [hinconclusive, if_pos hopen]
    exact Nat.one_pos
  · have hfail : out.verdict.getD .inconclusive = .fail := some.inj (hverdict.symm.trans hv)
    refine hfailed ?_
    cases hout : out.verdict with
    | none => simp [hout] at hfail
    | some verdict => simpa [hout] using hfail

theorem grounded_evaluatePathRules (report : Bool)
    (hu : s.index.inventory.Knows u) (h : Grounded s u rules e) :
    Grounded s u rules (evaluatePathRules s u report rules e) := by
  let Kept (e : LinkedEvaluation × AtomCache) := Grounded s u rules e.1 ∧
    e.2.Answers s.index.inventory u (rules.paths.flatMap (·.atoms))
  refine (foldlRecOn (motive := Kept) _ _ ⟨h, AtomCache.answers_empty⟩ fun e he rule hrule => ?_).1
  have hsub : ∀ a ∈ rule.atoms, a ∈ rules.paths.flatMap (·.atoms) :=
    fun a ha => mem_flatMap.mpr ⟨rule, hrule, ha⟩
  exact grounded_evaluatePathRule report hu rules.pathTextual hrule hsub he.1 he.2

/-! ## All rules are grounded -/

theorem primaryMember_mem {x : SymbolInventoryIndex} {members : SymbolSet}
    {m : SymbolOrdinal × InventorySymbol} (h : primaryMember x members = some m) :
    m.1 ∈ members ∧ x.record m.1 = some m.2 := by
  have hfold : ∀ (ms : List (SymbolOrdinal × InventorySymbol)) m,
      ms.foldl (fun best m => if precedes m best then m else best) m ∈ m :: ms := by
    intro ms
    induction ms with
    | nil => exact fun m => mem_cons_self
    | cons m' ms ih =>
      intro m
      rw [foldl_cons]
      rcases mem_cons.mp (ih (if precedes m' m then m' else m)) with h | h
      · rw [h]
        split_ifs <;> simp
      · exact mem_cons_of_mem _ (mem_cons_of_mem _ h)
  have hmem : m ∈ members.elems.filterMap fun o => (x.record o).map (o, ·) := by
    unfold primaryMember at h
    split at h
    · simp at h
    · next m' ms hms =>
      rw [hms, ← some.inj h]
      exact hfold ms m'
  obtain ⟨o, ho, hm⟩ := mem_filterMap.mp hmem
  obtain ⟨r, hr, rfl⟩ := map_eq_some_iff.mp hm
  exact ⟨ho, hr⟩

theorem grounded_inventory (report : Bool) (hu : s.index.inventory.Knows u) :
    Grounded s u rules (evaluateWorkspaceRulesIn s.index.inventory u report
      rules.toCompiledWorkspaceRules).linked := by
  refine ⟨fun v hv => ?_, fun r hr hv => ?_, fun r hr hv => ?_, fun r hr hv => ?_⟩
  · have hv : v ∈ (evaluateWorkspaceRulesIn s.index.inventory u report
        rules.toCompiledWorkspaceRules).violations := hv
    rw [evaluateIn_violations hu, sortWorkspaceViolations, mem_stableSort, mem_append] at hv
    rcases hv with hv | hv
    · obtain ⟨rule, -, hv⟩ := mem_flatMap.mp hv
      obtain ⟨r, hr, rfl⟩ := List.mem_map.mp hv
      obtain ⟨o, ho, hr⟩ := mem_filterMap.mp hr
      exact ⟨o, (SymbolInventoryIndex.mem_select.mp ho).1, r, hr, rfl⟩
    · obtain ⟨rule, -, hv⟩ := mem_flatMap.mp hv
      obtain ⟨g, hg, hv⟩ := mem_filterMap.mp hv
      obtain ⟨-, hgroup⟩ := mem_groupResults.mp (mem_filter.mp hg).1
      obtain ⟨m, hm, hv⟩ := bind_eq_some_iff.mp hv
      obtain rfl := some.inj hv
      obtain ⟨hmember, hr⟩ := primaryMember_mem hm
      rw [hgroup] at hmember
      exact ⟨m.1, (mem_groupMembers.mp hmember).1, m.2, hr, rfl⟩
  all_goals
    obtain ⟨r, -, rfl⟩ := List.mem_map.mp hr
    simp at hv

theorem grounded_evaluateLinked (report : Bool) (hu : s.index.inventory.Knows u) :
    Grounded s u rules (evaluateLinked s u report rules) := by
  have hinventory : Grounded s u rules (evaluateWorkspaceRulesIn s.index.inventory u report
      rules.toCompiledWorkspaceRules).linked := grounded_inventory report hu
  have h := grounded_evaluatePathRules report hu (grounded_evaluateStructureRules report hu
    (grounded_evaluateLinkageRules report hu hinventory))
  refine ⟨fun v hv => ?_, h.ruled, h.unsettled, fun r hr hfail => ?_⟩
  · exact h.anchored v (mem_stableSort.mp hv)
  · refine (h.failed r hr hfail).imp_left ?_
    rintro ⟨v, hv, hid⟩
    exact ⟨v, mem_stableSort.mpr hv, hid⟩

/-! ## The empty universe -/

/-- A rule reports its failure on an empty selection, with nothing open. -/
theorem evaluatePathRule_report (hrequire : rule.requireNonEmpty = true)
    (e : LinkedEvaluation × AtomCache) (hsource : (pathSelections s u rule e.2).1.source = ∅) :
    ∃ r, (evaluatePathRule s u true e rule).1.reports = e.1.reports ++ [r] ∧
      r.verdict = some .fail ∧ r.inconclusive = some 0 := by
  have hpath : (pathContext s u rule).rule.requireNonEmpty = true := hrequire
  have hverdict : ((pathContext s u rule).evaluatePathRule
      (pathSelections s u rule e.2).1).verdict = some .fail := by
    rw [PathRuleContext.evaluatePathRule_empty hsource, if_pos hpath]
    rfl
  have hreport := pathReport_verdict rule (pathSelections s u rule e.2).1
    ((pathContext s u rule).evaluatePathRule (pathSelections s u rule e.2).1)
    (witnessSteps s ((pathContext s u rule).evaluatePathRule
      (pathSelections s u rule e.2).1).witness)
  rw [hverdict] at hreport
  exact ⟨_, rfl, hreport.1, hreport.2⟩

theorem reports_evaluatePathRule_subset (report : Bool) (e : LinkedEvaluation × AtomCache)
    (rule : LinkedPathRule) :
    ∀ r ∈ e.1.reports, r ∈ (evaluatePathRule s u report e rule).1.reports := by
  intro r hr
  unfold evaluatePathRule LinkedEvaluation.add
  dsimp only
  split_ifs
  · exact mem_append_left _ hr
  · exact hr

/-- A rule with `require_non_empty` reports its failure on the empty universe. -/
theorem exists_failed_report (h : FailsEmpty u rules) :
    ∃ r ∈ (evaluateLinked s u true rules).reports,
      r.verdict = some .fail ∧ r.inconclusive = some 0 := by
  obtain ⟨rfl, rule, hrule, hrequire⟩ := h
  have hu : ∀ o ∈ (∅ : SymbolSet), ∃ r, s.index.inventory.record o = some r := by simp
  have hkept : ∀ (rs : List LinkedPathRule) (e : LinkedEvaluation × AtomCache),
      ∀ r ∈ e.1.reports, r ∈ (rs.foldl (evaluatePathRule s ∅ true) e).1.reports := by
    intro rs
    induction rs with
    | nil => exact fun _ _ hr => hr
    | cons rule rs ih =>
      exact fun e r hr => ih _ r (reports_evaluatePathRule_subset true e rule r hr)
  have hrun : ∀ (rs : List LinkedPathRule) (e : LinkedEvaluation × AtomCache),
      (∀ rule ∈ rs, rule ∈ rules.paths) → rule ∈ rs →
      e.2.Answers s.index.inventory ∅ (rules.paths.flatMap (·.atoms)) →
      ∃ r ∈ (rs.foldl (evaluatePathRule s ∅ true) e).1.reports,
        r.verdict = some .fail ∧ r.inconclusive = some 0 := by
    intro rs
    induction rs with
    | nil => exact fun _ _ hmem => absurd hmem (by simp)
    | cons rule' rs ih =>
      intro e hpaths hmem hc
      obtain ⟨⟨hsource, -⟩, hc'⟩ := pathSelections_within hu rules.pathTextual
        (fun a ha => mem_flatMap.mpr ⟨rule', hpaths rule' mem_cons_self, ha⟩) hc
      rcases mem_cons.mp hmem with rfl | hmem
      · have hnone : (pathSelections s ∅ rule e.2).1.source = ∅ :=
          OrdSet.eq_empty_iff.mpr fun o ho => OrdSet.notMem_empty o (hsource o ho)
        obtain ⟨r, hr, hverdict⟩ := evaluatePathRule_report hrequire e hnone
        refine ⟨r, hkept rs _ r ?_, hverdict⟩
        rw [hr]
        simp
      · exact ih _ (fun r hr => hpaths r (mem_cons_of_mem _ hr)) hmem hc'
  exact hrun rules.paths _ (fun _ hr => hr) hrule AtomCache.answers_empty

end LinkedEvaluation

end CodeMoniker
