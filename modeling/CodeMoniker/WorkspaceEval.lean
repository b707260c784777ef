import CodeMoniker.FacetQuery
import CodeMoniker.GroupPredicate
import CodeMoniker.OrdMap
import CodeMoniker.PathRule
import CodeMoniker.StableSort

/-!
# Workspace rules over a facet view

A symbol rule is violated by the symbols of the universe that fail its expression. A group rule
selects members, puts them into groups by their values under its projections and tests each
group. `evaluateWorkspaceRulesIn` runs the rules one after the other over a shared cache.

The cache is invisible : each rule adds the violations and the groups that the records alone
determine (`evaluateIn_violationSets`, `evaluateIn_groups`, `evaluateIn_violations`).
-/

namespace CodeMoniker

open List hiding set
open StableSort

/-! ## Rules -/

inductive RuleSeverity where
  | warn
  | error
  deriving DecidableEq, Repr

inductive WorkspaceRulePlan where
  | inventory
  | linkage
  | structural
  deriving DecidableEq, Repr

/-- What the evaluation reads of a compiled rule. -/
structure CompiledWorkspaceSymbolRule where
  ruleId : String
  rawExpr : String
  root : Node
  severity : RuleSeverity
  message : Option String
  plan : WorkspaceRulePlan

inductive GroupProjection where
  | language
  | name
  | kind
  | shape
  | visibility
  | sourcePath
  | sourceRoot
  | srcset
  | segment (kind : String)
  deriving DecidableEq, Repr

structure CompiledWorkspaceGroupRule where
  ruleId : String
  members : Node
  groupBy : List GroupProjection
  expr : String
  predicate : GroupPredicate
  severity : RuleSeverity
  message : Option String
  suppress : List (List String)

/-- Compiled rules. The atoms of the rules that read the inventory come from one parser. -/
structure CompiledWorkspaceRules where
  symbol : List CompiledWorkspaceSymbolRule
  group : List CompiledWorkspaceGroupRule
  path : List CompiledWorkspacePathRule
  minLinkageCoverage : ℕ
  textual : Textual ((symbol.filter (·.plan = .inventory)).flatMap (·.root.atoms) ++
    group.flatMap (·.members.atoms))

namespace CompiledWorkspaceRules

def hasLinkageRules (compiled : CompiledWorkspaceRules) : Bool :=
  !compiled.path.isEmpty || compiled.symbol.any (·.plan ≠ .inventory)

/-- The symbol rules that need no linkage. -/
def inventoryRules (compiled : CompiledWorkspaceRules) : List CompiledWorkspaceSymbolRule :=
  compiled.symbol.filter (·.plan = .inventory)

theorem inventoryRules_of_not_hasLinkageRules {compiled : CompiledWorkspaceRules}
    (h : compiled.hasLinkageRules = false) : compiled.inventoryRules = compiled.symbol := by
  simp only [hasLinkageRules, Bool.or_eq_false_iff, any_eq_false] at h
  exact filter_eq_self.mpr fun rule hrule => by simpa using h.2 rule hrule

def atoms (compiled : CompiledWorkspaceRules) : List Atom :=
  compiled.inventoryRules.flatMap (·.root.atoms) ++ compiled.group.flatMap (·.members.atoms)

end CompiledWorkspaceRules

/-! ## Results -/

structure Violation where
  ruleId : String
  severity : RuleSeverity
  moniker : String
  srcset : Option String
  kind : String
  lines : ℕ × ℕ
  message : String
  explanation : Option String
  deriving DecidableEq, Repr

structure WorkspaceSymbolViolation where
  source : ℕ
  symbol : Option SymbolId
  sourceSuppression : Bool
  violation : Violation
  deriving DecidableEq, Repr

structure ScopeKey where
  ruleId : String
  values : List String
  deriving DecidableEq, Repr

namespace ScopeKey

def toLexPair (k : ScopeKey) : String ×ₗ List String := toLex (k.ruleId, k.values)

theorem toLexPair_injective : Function.Injective toLexPair := by
  rintro ⟨r, vs⟩ ⟨r', vs'⟩ h
  simpa [toLexPair] using h

/-- The derived order : the rule first. -/
instance : LinearOrder ScopeKey := LinearOrder.lift' toLexPair toLexPair_injective

theorem ruleId_le_of_lt {k k' : ScopeKey} (h : k < k') : k.ruleId ≤ k'.ruleId := by
  have hlex : toLexPair k < toLexPair k' := h
  rcases Prod.Lex.lt_iff.mp hlex with hlt | ⟨heq, -⟩
  · exact hlt.le
  · exact le_of_eq heq

theorem lt_of_ruleId_lt {k k' : ScopeKey} (h : k.ruleId < k'.ruleId) : k < k' :=
  Prod.Lex.lt_iff.mpr (Or.inl h)

def canonical (k : ScopeKey) : String :=
  let values := "/".intercalate (k.values.map fun v => s!"{v.utf8ByteSize}:{v}")
  s!"{k.ruleId.utf8ByteSize}:{k.ruleId}/{values}"

def label (k : ScopeKey) : String := " / ".intercalate k.values

end ScopeKey

structure WorkspaceGroupResult where
  key : ScopeKey
  members : SymbolSet
  passed : Bool
  suppressed : Bool
  observations : List String
  evaluationError : Option String
  deriving DecidableEq

structure RuleReport where
  ruleId : String
  severity : RuleSeverity
  domain : String
  evaluated : ℕ
  matched : ℕ
  violations : ℕ
  antecedentMatches : Option ℕ
  deriving DecidableEq, Repr

structure WorkspaceEvaluation where
  violations : List WorkspaceSymbolViolation := []
  violationSets : OrdMap String SymbolSet := ∅
  groups : List WorkspaceGroupResult := []
  reports : List RuleReport := []

/-- Violations are sorted by rule, then by moniker. -/
def WorkspaceSymbolViolation.sortKey (v : WorkspaceSymbolViolation) : String ×ₗ String :=
  toLex (v.violation.ruleId, v.violation.moniker)

def sortWorkspaceViolations (vs : List WorkspaceSymbolViolation) : List WorkspaceSymbolViolation :=
  stableSort (·.sortKey) vs

/-- Replace each name between braces by its value, one after the other. -/
def renderTemplate (template : String) (values : List (String × String)) : String :=
  values.foldl (fun rendered p => rendered.replace ("\x7b" ++ p.1 ++ "\x7d") p.2) template

/-! ## Symbol rules -/

def symbolViolation (rule : CompiledWorkspaceSymbolRule) (r : InventorySymbol) :
    WorkspaceSymbolViolation where
  source := r.source
  symbol := some r.id
  sourceSuppression := true
  violation := {
    ruleId := rule.ruleId
    severity := rule.severity
    moniker := r.identity
    srcset := if r.srcset.isEmpty then none else some r.srcset
    kind := r.kind
    lines := r.lineRange.getD (0, 0)
    message := s!"{r.kind} `{r.name}` fails workspace assertion `{rule.rawExpr}`"
    explanation := rule.message.map (renderTemplate ·
      [("name", r.name), ("kind", r.kind), ("moniker", r.identity), ("expr", rule.rawExpr)]) }

section Evaluation

variable (x : SymbolInventoryIndex) (u : SymbolSet) (report : Bool)

abbrev EvaluationState := WorkspaceEvaluation × AtomCache

/-- What a symbol rule holds of, unless it is a negation, and what violates it. -/
def symbolRuleSets (rule : CompiledWorkspaceSymbolRule) (cache : AtomCache) :
    (Option SymbolSet × SymbolSet) × AtomCache :=
  match rule.root with
  | .not inner =>
    let (set, cache) := evalNode x u inner cache
    ((none, set ∩ u), cache)
  | root =>
    let (truth, cache) := evalNode x u root cache
    ((some truth, u \ truth), cache)

def antecedentTruth (rule : CompiledWorkspaceSymbolRule) (cache : AtomCache) :
    Option SymbolSet × AtomCache :=
  match rule.root with
  | .implies antecedent _ =>
    let (set, cache) := evalNode x u antecedent cache
    (some set, cache)
  | _ => (none, cache)

def ruleReport (rule : CompiledWorkspaceSymbolRule) (truth antecedent : Option SymbolSet)
    (violations : SymbolSet) : RuleReport where
  ruleId := rule.ruleId
  severity := rule.severity
  domain := "workspace symbols"
  evaluated := u.card
  matched :=
    match antecedent, truth with
    | some antecedent, some truth => (truth ∩ antecedent).card
    | _, some truth => truth.card
    | _, none => u.card - violations.card
  violations := violations.card
  antecedentMatches := antecedent.map (·.card)

def evaluateSymbolRule (s : EvaluationState) (rule : CompiledWorkspaceSymbolRule) :
    EvaluationState :=
  if rule.plan ≠ .inventory then s
  else
    let ((truth, violations), cache) := symbolRuleSets x u rule s.2
    let (antecedent, cache) := if report then antecedentTruth x u rule cache else (none, cache)
    ({ s.1 with
        violationSets := s.1.violationSets.insert rule.ruleId violations
        reports := if report then s.1.reports ++ [ruleReport u rule truth antecedent violations]
          else s.1.reports
        violations := s.1.violations ++ (violations.elems.filterMap x.record).map (symbolViolation rule) },
      cache)

/-! ## Group rules -/

def escapeSegmentComponent (value : String) : String :=
  (value.replace "\\" "\\\\").replace "." "\\."

def GroupProjection.value (p : GroupProjection) (r : InventorySymbol) : String :=
  match p with
  | .language => r.language
  | .name => r.name
  | .kind => r.kind
  | .shape => r.shape
  | .visibility => r.visibility
  | .sourcePath => r.sourcePath
  | .sourceRoot => toString r.sourceRoot
  | .srcset => r.srcset
  | .segment of =>
    ".".intercalate ((r.segments.filter (·.kind = of)).map fun s => escapeSegmentComponent s.name)

variable (rule : CompiledWorkspaceGroupRule)

def CompiledWorkspaceGroupRule.scopeKey (r : InventorySymbol) :
    ScopeKey :=
  ⟨rule.ruleId, rule.groupBy.map (·.value r)⟩

/-- One step of the loop of `bucket_members`. -/
def insertBucket (buckets : OrdMap ScopeKey SymbolSet)
    (o : SymbolOrdinal) : OrdMap ScopeKey SymbolSet :=
  match x.record o with
  | none => buckets
  | some r => buckets.insert (rule.scopeKey r) (((buckets.get? (rule.scopeKey r)).getD ∅).insert o)

/-- `bucket_members`, which `evaluate_group_rule` repeats. -/
def bucketMembers (selected : SymbolSet) :
    OrdMap ScopeKey SymbolSet :=
  selected.elems.foldl (insertBucket x rule) ∅

variable (members : SymbolSet)

/-- The records of a group, in the order of its members. -/
def memberRecords : List InventorySymbol := members.elems.filterMap x.record

def groupResult (key : ScopeKey) (members : SymbolSet) :
    WorkspaceGroupResult :=
  let outcome := rule.predicate.evaluate (memberRecords x members) members.card
  { key
    members
    passed := outcome.passed
    suppressed := !outcome.passed && rule.suppress.contains key.values
    observations := outcome.observations
    evaluationError := outcome.error }

def WorkspaceGroupResult.failing (g : WorkspaceGroupResult) : Bool := !g.passed && !g.suppressed

/-- The loop of `group_srcset`. -/
def groupSrcset (srcset : Option String) (unspecified : Bool) :
    List InventorySymbol → Option String
  | [] => if srcset.isSome && unspecified then some "mixed" else srcset
  | r :: rest =>
    if r.srcset.isEmpty then groupSrcset srcset true rest
    else
      match srcset with
      | none => groupSrcset (some r.srcset) unspecified rest
      | some value =>
        if value = r.srcset then groupSrcset srcset unspecified rest else some "mixed"

def precedes (a b : SymbolOrdinal × InventorySymbol) : Bool :=
  ((compare a.2.sourcePath b.2.sourcePath).then
    ((compare a.2.identity b.2.identity).then (compare a.1 b.1))) = .lt

def primaryMember : Option (SymbolOrdinal × InventorySymbol) :=
  match members.elems.filterMap fun o => (x.record o).map (o, ·) with
  | [] => none
  | m :: ms => some (ms.foldl (fun best m => if precedes m best then m else best) m)

def memberSampleLimit : ℕ := 5

def memberSummary : String :=
  let names := (memberRecords x members).map fun r => s!"{r.name} ({r.sourcePath})"
  let names := (stableSort id names).take memberSampleLimit
  let suffix := if names.length < members.card then s!", +{members.card - names.length} more" else ""
  s!"{members.card} members: " ++ ", ".intercalate names ++ suffix

def groupViolation (g : WorkspaceGroupResult) :
    Option WorkspaceSymbolViolation := do
  let (_, primary) ← primaryMember x g.members
  let summary := memberSummary x g.members
  let observations := ", ".intercalate g.observations
  let detail := if observations.isEmpty then "" else s!"; observed {observations}"
  some {
    source := primary.source
    symbol := some primary.id
    sourceSuppression := false
    violation := {
      ruleId := rule.ruleId
      severity := rule.severity
      moniker := g.key.canonical
      srcset := groupSrcset none false (memberRecords x g.members)
      kind := "group"
      lines := primary.lineRange.getD (0, 0)
      message := s!"group `{g.key.label}` has {summary} and fails `{rule.expr}`{detail}"
      explanation := rule.message.map (renderTemplate ·
        [("group", g.key.label), ("members", summary), ("expr", rule.expr),
          ("observations", observations), ("evaluation_error", g.evaluationError.getD "")]) } }

def groupReport (groups results : List WorkspaceGroupResult) :
    RuleReport where
  ruleId := rule.ruleId
  severity := rule.severity
  domain := "workspace groups"
  evaluated := (groups.filter (·.key.ruleId = rule.ruleId)).length
  matched := (results.filter (·.passed)).length
  violations := (results.filter (·.failing)).length
  antecedentMatches := none

def evaluateGroupRule (s : EvaluationState) (rule : CompiledWorkspaceGroupRule) :
    EvaluationState :=
  let (selected, cache) := evalNode x u rule.members s.2
  let results := (bucketMembers x rule selected).entries.map fun e => groupResult x rule e.1 e.2
  let groups := s.1.groups ++ results
  ({ s.1 with
      violations := s.1.violations ++ (results.filter (·.failing)).filterMap (groupViolation x rule)
      groups := groups
      reports := if report then s.1.reports ++ [groupReport rule groups results] else s.1.reports },
    cache)

/-! ## All rules -/

def evaluateWorkspaceRulesIn (compiled : CompiledWorkspaceRules) : WorkspaceEvaluation :=
  let s := compiled.symbol.foldl (evaluateSymbolRule x u report) ({}, ∅)
  let s := compiled.group.foldl (evaluateGroupRule x u report) s
  { s.1 with violations := sortWorkspaceViolations s.1.violations }

/-! ## What the rules say of the records -/

def violationSet (rule : CompiledWorkspaceSymbolRule) : SymbolSet :=
  x.select u fun r => !rule.root.satisfiedBy r

def symbolViolations (rule : CompiledWorkspaceSymbolRule) : List WorkspaceSymbolViolation :=
  (memberRecords x (violationSet x u rule)).map (symbolViolation rule)

/-- The members of each group of a rule. -/
def groupBuckets : OrdMap ScopeKey SymbolSet :=
  bucketMembers x rule (x.select u rule.members.satisfiedBy)

def groupResults : List WorkspaceGroupResult :=
  (groupBuckets x u rule).entries.map fun e => groupResult x rule e.1 e.2

def groupViolations : List WorkspaceSymbolViolation :=
  ((groupResults x u rule).filter (·.failing)).filterMap (groupViolation x rule)

end Evaluation

/-! ## The evaluation says it -/

section Spec

variable {x : SymbolInventoryIndex} {u : SymbolSet} {atoms : List Atom}
  {rule : CompiledWorkspaceSymbolRule}

theorem violationSet_of_not {inner : Node} (hroot : rule.root = .not inner) :
    x.select u inner.satisfiedBy ∩ u = violationSet x u rule := by
  ext o
  simp only [OrdSet.mem_inter, violationSet, SymbolInventoryIndex.mem_select, hroot,
    Node.satisfiedBy, Bool.not_not]
  tauto

variable (hu : ∀ o ∈ u, ∃ r, x.record o = some r)

include hu

theorem violationSet_eq_sdiff (rule : CompiledWorkspaceSymbolRule) :
    u \ x.select u rule.root.satisfiedBy = violationSet x u rule :=
  sdiff_select hu rule.root

variable (ht : Textual atoms)

include ht

theorem symbolRuleSets_spec {cache : AtomCache}
    (hsub : ∀ a ∈ rule.root.atoms, a ∈ atoms) (hc : cache.Answers x u atoms) :
    (symbolRuleSets x u rule cache).1.2 = violationSet x u rule ∧
      (symbolRuleSets x u rule cache).2.Answers x u atoms := by
  unfold symbolRuleSets
  split
  · next inner hroot =>
    obtain ⟨hset, hc'⟩ := nodePost hu ht inner cache (by simpa [hroot, Node.atoms] using hsub) hc
    refine ⟨?_, hc'⟩
    dsimp only
    rw [hset, violationSet_of_not hroot]
  · obtain ⟨hset, hc'⟩ := nodePost hu ht rule.root cache hsub hc
    refine ⟨?_, hc'⟩
    dsimp only
    rw [hset, violationSet_eq_sdiff hu]

theorem antecedentTruth_answers {cache : AtomCache}
    (hsub : ∀ a ∈ rule.root.atoms, a ∈ atoms) (hc : cache.Answers x u atoms) :
    (antecedentTruth x u rule cache).2.Answers x u atoms := by
  unfold antecedentTruth
  split
  · next antecedent conclusion hroot =>
    simp only [hroot, Node.atoms, mem_append] at hsub
    exact (nodePost hu ht antecedent cache (fun a ha => hsub a (Or.inl ha)) hc).2
  · exact hc

/-- What the symbol rules add to an evaluation. -/
structure SymbolRulesAdd (x : SymbolInventoryIndex) (u : SymbolSet) (atoms : List Atom)
    (rules : List CompiledWorkspaceSymbolRule) (s s' : EvaluationState) : Prop where
  violationSets : s'.1.violationSets =
    (rules.map fun rule => (rule.ruleId, violationSet x u rule)).foldl
      (fun m e => m.insert e.1 e.2) s.1.violationSets
  violations : s'.1.violations = s.1.violations ++ rules.flatMap (symbolViolations x u)
  groups : s'.1.groups = s.1.groups
  cache : s'.2.Answers x u atoms

theorem evaluateSymbolRule_add (report : Bool) {s : EvaluationState}
    {rule : CompiledWorkspaceSymbolRule} (hplan : rule.plan = .inventory) (hsub : ∀ a ∈ rule.root.atoms, a ∈ atoms)
    (hc : s.2.Answers x u atoms) :
    SymbolRulesAdd x u atoms [rule] s (evaluateSymbolRule x u report s rule) := by
  obtain ⟨hset, hc'⟩ := symbolRuleSets_spec hu ht hsub hc
  unfold evaluateSymbolRule
  rw [if_neg (not_not.mpr hplan)]
  constructor
  · simp [hset]
  · simp [hset, symbolViolations, memberRecords]
  · rfl
  · dsimp only
    split_ifs
    · exact antecedentTruth_answers hu ht hsub hc'
    · exact hc'

theorem foldl_evaluateSymbolRule (report : Bool) :
    ∀ {rules : List CompiledWorkspaceSymbolRule} {s : EvaluationState},
    (∀ rule ∈ rules, rule.plan = .inventory → ∀ a ∈ rule.root.atoms, a ∈ atoms) →
    s.2.Answers x u atoms → SymbolRulesAdd x u atoms (rules.filter (·.plan = .inventory)) s
      (rules.foldl (evaluateSymbolRule x u report) s)
  | [], s, _, hc => ⟨rfl, by simp, rfl, hc⟩
  | rule :: rules, s, hsub, hc => by
    have hrest : ∀ rule ∈ rules, rule.plan = .inventory → ∀ a ∈ rule.root.atoms, a ∈ atoms :=
      fun rule hrule => hsub rule (mem_cons_of_mem _ hrule)
    rw [foldl_cons]
    by_cases hplan : rule.plan = .inventory
    · have h := evaluateSymbolRule_add hu ht report hplan
        (hsub rule mem_cons_self hplan) hc
      have ih := foldl_evaluateSymbolRule report hrest h.cache
      rw [filter_cons_of_pos (by simpa using hplan)]
      refine ⟨?_, ?_, ih.groups.trans h.groups, ih.cache⟩
      · rw [ih.violationSets, h.violationSets]
        rfl
      · rw [ih.violations, h.violations]
        simp
    · have hskip : evaluateSymbolRule x u report s rule = s := if_pos hplan
      rw [filter_cons_of_neg (by simpa using hplan), hskip]
      exact foldl_evaluateSymbolRule report hrest hc

/-- What the group rules add to an evaluation. -/
structure GroupRulesAdd (x : SymbolInventoryIndex) (u : SymbolSet)
    (rules : List CompiledWorkspaceGroupRule) (s s' : EvaluationState) : Prop where
  violationSets : s'.1.violationSets = s.1.violationSets
  violations : s'.1.violations = s.1.violations ++ rules.flatMap (groupViolations x u)
  groups : s'.1.groups = s.1.groups ++ rules.flatMap (groupResults x u)

theorem foldl_evaluateGroupRule (report : Bool) : ∀ {rules : List CompiledWorkspaceGroupRule} {s : EvaluationState},
    (∀ rule ∈ rules, ∀ a ∈ rule.members.atoms, a ∈ atoms) → s.2.Answers x u atoms →
    GroupRulesAdd x u rules s (rules.foldl (evaluateGroupRule x u report) s)
  | [], s, _, _ => ⟨rfl, by simp, by simp⟩
  | rule :: rules, s, hsub, hc => by
    obtain ⟨hset, hc'⟩ := nodePost hu ht rule.members s.2 (hsub rule mem_cons_self) hc
    have hrest : ∀ rule ∈ rules, ∀ a ∈ rule.members.atoms, a ∈ atoms :=
      fun rule hrule => hsub rule (mem_cons_of_mem _ hrule)
    have ih := foldl_evaluateGroupRule report (s := evaluateGroupRule x u report s rule) hrest hc'
    rw [foldl_cons]
    refine ⟨ih.violationSets, ?_, ?_⟩
    · rw [ih.violations, flatMap_cons, ← append_assoc]
      simp only [evaluateGroupRule, hset, groupViolations, groupResults, groupBuckets]
    · rw [ih.groups, flatMap_cons, ← append_assoc]
      simp only [evaluateGroupRule, hset, groupResults, groupBuckets]

omit ht

variable {compiled : CompiledWorkspaceRules} {report : Bool}

/-- The state that `evaluate_workspace_rules_in` sorts. -/
theorem evaluateIn_state (compiled : CompiledWorkspaceRules) (report : Bool) :
    ∃ s : EvaluationState, SymbolRulesAdd x u compiled.atoms compiled.inventoryRules ({}, ∅) s ∧
      GroupRulesAdd x u compiled.group s (compiled.group.foldl (evaluateGroupRule x u report)
        (compiled.symbol.foldl (evaluateSymbolRule x u report) ({}, ∅))) := by
  have hatoms : ∀ rule ∈ compiled.symbol, rule.plan = .inventory →
      ∀ a ∈ rule.root.atoms, a ∈ compiled.atoms := fun rule hrule hplan a ha =>
    mem_append_left _ (mem_flatMap.mpr ⟨rule, mem_filter.mpr ⟨hrule, by simpa using hplan⟩, ha⟩)
  have hsymbol := foldl_evaluateSymbolRule (x := x) (s := ({}, ∅)) hu compiled.textual report hatoms
    AtomCache.answers_empty
  refine ⟨_, hsymbol, foldl_evaluateGroupRule hu compiled.textual report ?_ hsymbol.cache⟩
  exact fun rule hrule a ha => mem_append_right _ (mem_flatMap.mpr ⟨rule, hrule, ha⟩)

theorem evaluateIn_violationSets : (evaluateWorkspaceRulesIn x u report compiled).violationSets =
      OrdMap.ofList (compiled.inventoryRules.map fun rule => (rule.ruleId, violationSet x u rule)) := by
  obtain ⟨s, hsymbol, hgroup⟩ := evaluateIn_state hu compiled report
  exact hgroup.violationSets.trans hsymbol.violationSets

theorem evaluateIn_groups : (evaluateWorkspaceRulesIn x u report compiled).groups =
      compiled.group.flatMap (groupResults x u) := by
  obtain ⟨s, hsymbol, hgroup⟩ := evaluateIn_state hu compiled report
  have hgroups := hgroup.groups
  rw [hsymbol.groups] at hgroups
  exact hgroups

theorem evaluateIn_violations : (evaluateWorkspaceRulesIn x u report compiled).violations =
      sortWorkspaceViolations (compiled.inventoryRules.flatMap (symbolViolations x u) ++
        compiled.group.flatMap (groupViolations x u)) := by
  obtain ⟨s, hsymbol, hgroup⟩ := evaluateIn_state hu compiled report
  have hviolations := hgroup.violations
  rw [hsymbol.violations] at hviolations
  exact congrArg sortWorkspaceViolations hviolations

end Spec

/-! ## The groups of a rule -/

/-- The members of one group. -/
def groupMembers (x : SymbolInventoryIndex) (u : SymbolSet) (rule : CompiledWorkspaceGroupRule)
    (k : ScopeKey) : SymbolSet :=
  x.select u fun r => rule.members.satisfiedBy r && rule.scopeKey r = k

section Groups

variable {x y : SymbolInventoryIndex} {u : SymbolSet} {rule : CompiledWorkspaceGroupRule}
  {k : ScopeKey} {o : SymbolOrdinal}

theorem mem_groupMembers : o ∈ groupMembers x u rule k ↔
    o ∈ u ∧ ∃ r, x.record o = some r ∧ rule.members.satisfiedBy r = true ∧ rule.scopeKey r = k := by
  simp only [groupMembers, SymbolInventoryIndex.mem_select, Bool.and_eq_true, decide_eq_true_eq]

theorem mem_insertBucket {buckets : OrdMap ScopeKey SymbolSet} {o' : SymbolOrdinal} :
    o' ∈ ((insertBucket x rule buckets o).get? k).getD ∅ ↔
      (o' = o ∧ ∃ r, x.record o = some r ∧ rule.scopeKey r = k) ∨ o' ∈ (buckets.get? k).getD ∅ := by
  unfold insertBucket
  cases hr : x.record o with
  | none => simp
  | some r =>
    by_cases hk : k = rule.scopeKey r
    · simp [hk]
    · simp [hk, Ne.symm hk]

theorem mem_foldl_insertBucket : ∀ {l : List SymbolOrdinal} {buckets : OrdMap ScopeKey SymbolSet},
    o ∈ ((l.foldl (insertBucket x rule) buckets).get? k).getD ∅ ↔
      (o ∈ l ∧ ∃ r, x.record o = some r ∧ rule.scopeKey r = k) ∨ o ∈ (buckets.get? k).getD ∅
  | [], buckets => by simp
  | o' :: l, buckets => by
    rw [foldl_cons, mem_foldl_insertBucket, mem_insertBucket, mem_cons]
    constructor
    · rintro (⟨ho, hr⟩ | ⟨rfl, hr⟩ | ho)
      · exact Or.inl ⟨Or.inr ho, hr⟩
      · exact Or.inl ⟨Or.inl rfl, hr⟩
      · exact Or.inr ho
    · rintro (⟨rfl | ho, hr⟩ | ho)
      · exact Or.inr (Or.inl ⟨rfl, hr⟩)
      · exact Or.inl ⟨ho, hr⟩
      · exact Or.inr (Or.inr ho)

/-- Buckets are never empty. -/
def NonEmptyBuckets (buckets : OrdMap ScopeKey SymbolSet) : Prop :=
  ∀ k, buckets.get? k ≠ some ∅

theorem NonEmptyBuckets.insertBucket {buckets : OrdMap ScopeKey SymbolSet}
    (h : NonEmptyBuckets buckets) : NonEmptyBuckets (insertBucket x rule buckets o) := by
  intro k
  unfold CodeMoniker.insertBucket
  cases x.record o with
  | none => exact h k
  | some r =>
    by_cases hk : k = rule.scopeKey r
    · simp only [OrdMap.get?_insert, hk, if_true, ne_eq, Option.some.injEq]
      exact OrdSet.ne_empty_iff.mpr ⟨o, by simp⟩
    · simpa [hk] using h k

theorem NonEmptyBuckets.foldl : ∀ {l : List SymbolOrdinal} {buckets : OrdMap ScopeKey SymbolSet},
    NonEmptyBuckets buckets → NonEmptyBuckets (l.foldl (CodeMoniker.insertBucket x rule) buckets)
  | [], _, h => h
  | o :: l, buckets, h => by
    rw [foldl_cons]
    exact NonEmptyBuckets.foldl h.insertBucket

theorem getD_groupBuckets : ((groupBuckets x u rule).get? k).getD ∅ = groupMembers x u rule k := by
  ext o
  have h := @mem_foldl_insertBucket x rule k o (x.select u rule.members.satisfiedBy).elems ∅
  simp only [OrdMap.get?_empty, Option.getD_none, OrdSet.notMem_empty, or_false,
    OrdSet.mem_elems, SymbolInventoryIndex.mem_select] at h
  rw [mem_groupMembers]
  refine h.trans ⟨?_, ?_⟩
  · rintro ⟨⟨ho, r, hr, hsat⟩, r', hr', hkey⟩
    obtain rfl : r = r' := by simpa [hr] using hr'
    exact ⟨ho, r, hr, hsat, hkey⟩
  · rintro ⟨ho, r, hr, hsat, hkey⟩
    exact ⟨⟨ho, r, hr, hsat⟩, r, hr, hkey⟩

theorem get?_groupBuckets {m : SymbolSet} : (groupBuckets x u rule).get? k = some m ↔
    m = groupMembers x u rule k ∧ m ≠ ∅ := by
  have hne : NonEmptyBuckets (groupBuckets x u rule) := NonEmptyBuckets.foldl (by intro k; simp)
  have hget := @getD_groupBuckets x u rule k
  cases hk : (groupBuckets x u rule).get? k with
  | none =>
    rw [hk, Option.getD_none] at hget
    simp only [reduceCtorEq, false_iff, not_and, not_not, ← hget]
    exact id
  | some m' =>
    rw [hk, Option.getD_some] at hget
    have hm' : m' ≠ ∅ := fun hempty => hne k (by rw [hk, hempty])
    rw [Option.some.injEq, ← hget]
    exact ⟨fun h => ⟨h.symm, h ▸ hm'⟩, fun h => h.1.symm⟩

theorem mem_keys_groupBuckets : k ∈ (groupBuckets x u rule).keys ↔ groupMembers x u rule k ≠ ∅ := by
  simp only [OrdMap.mem_keys, get?_groupBuckets, exists_eq_left]

theorem mem_groupResults {g : WorkspaceGroupResult} : g ∈ groupResults x u rule ↔
    groupMembers x u rule g.key ≠ ∅ ∧ g = groupResult x rule g.key (groupMembers x u rule g.key) := by
  simp only [groupResults, mem_map, Prod.exists, OrdMap.mem_entries, get?_groupBuckets]
  constructor
  · rintro ⟨k, m, ⟨rfl, hne⟩, rfl⟩
    exact ⟨hne, rfl⟩
  · rintro ⟨hne, hg⟩
    exact ⟨g.key, _, ⟨rfl, hne⟩, hg.symm⟩

theorem ruleId_of_mem_groupMembers (h : o ∈ groupMembers x u rule k) : k.ruleId = rule.ruleId := by
  obtain ⟨-, r, -, -, rfl⟩ := mem_groupMembers.mp h
  rfl

theorem ruleId_of_groupMembers_ne (h : groupMembers x u rule k ≠ ∅) : k.ruleId = rule.ruleId := by
  obtain ⟨o, ho⟩ := OrdSet.ne_empty_iff.mp h
  exact ruleId_of_mem_groupMembers ho

theorem ruleId_of_mem_groupResults {g : WorkspaceGroupResult} (h : g ∈ groupResults x u rule) :
    g.key.ruleId = rule.ruleId :=
  ruleId_of_groupMembers_ne (mem_groupResults.mp h).1

/-- The result of a group depends on the records of its members only. -/
theorem groupResult_congr {members : SymbolSet} (h : ∀ o ∈ members, x.record o = y.record o) :
    groupResult x rule k members = groupResult y rule k members := by
  have hrecords : memberRecords x members = memberRecords y members :=
    filterMap_congr fun o ho => h o ho
  unfold groupResult
  rw [hrecords]

theorem sorted_groupResults : (groupResults x u rule).Pairwise (·.key < ·.key) :=
  pairwise_map.mpr (groupBuckets x u rule).sorted

end Groups

end CodeMoniker
