import CodeMoniker.Inventory
import CodeMoniker.PathSearchSpec

/-!
# Workspace path rules

A path rule expects a path between two selections of symbols, the absence of one, or that
every path crosses a third selection. `evaluatePathRule` answers with searches between
single symbols, one after the other under the budgets that are left.

`PathRuleContext.Meets` states the expectation over the linkage without budgets.
`evaluatePathRule_sound` : a definite verdict agrees with it, and it rests on a path that
is given as the witness or on searches that ended within their budgets and above the
coverage threshold.
-/

namespace CodeMoniker

open List Option

/-! ## Rules and outcomes -/

inductive WorkspacePathExpectation where
  | reachable
  | noPath
  | allPathsVia
  deriving DecidableEq, Repr

inductive RuleVerdict where
  | pass
  | fail
  | inconclusive
  deriving DecidableEq, Repr

/-- What the evaluation reads of a compiled rule. -/
structure CompiledWorkspacePathRule where
  expect : WorkspacePathExpectation
  requireNonEmpty : Bool
  relation : List String
  limits : BoundedPathLimits
  maxPairs : ℕ
  minCoverage : ℕ

structure PathOutcome where
  verdict : Option RuleVerdict := none
  found : Bool := false
  incomplete : Bool := false
  evaluatedPairs : ℕ := 0
  coverage : BoundedPathCoverage := {}
  exploredSymbols : ℕ := 0
  exploredEdges : ℕ := 0
  depthLimitReached : Bool := false
  symbolLimitReached : Bool := false
  edgeLimitReached : Bool := false
  pairLimitReached : Bool := false
  reasons : OrdSet String := ∅
  witness : List BoundedPathEdge := []
  anchor : Option SymbolOrdinal := none

def addCoverage (total next : BoundedPathCoverage) : BoundedPathCoverage where
  total := total.total + next.total
  decided := total.decided + next.decided
  resolved := total.resolved + next.resolved
  external := total.external + next.external
  candidate := total.candidate + next.candidate
  dynamic := total.dynamic + next.dynamic
  manifestBlocked := total.manifestBlocked + next.manifestBlocked
  unresolved := total.unresolved + next.unresolved
  gapReasons := next.gapReasons.entries.foldl
    (fun m e => ReferenceTraversal.tally m e.1 e.2) total.gapReasons

namespace PathOutcome

variable (out : PathOutcome)

def addReason (reason : String) : PathOutcome :=
  { out with reasons := out.reasons.insert reason }

def inconclusive (reason : String) : PathOutcome :=
  { verdict := some .inconclusive, incomplete := true, reasons := OrdSet.ofList [reason] }

def failed (reason : String) : PathOutcome :=
  { verdict := some .fail, reasons := OrdSet.ofList [reason] }

/-- The limits a search ran into and the gaps it counted. -/
def searchReasons (search : BoundedPathSearch) : List String :=
  (if search.depthLimitReached then ["depth_limit"] else []) ++
    (if search.symbolLimitReached then ["symbol_limit"] else []) ++
    (if search.edgeLimitReached then ["edge_limit"] else []) ++
    search.coverage.gapReasons.entries.map fun e => e.1 ++ ":" ++ toString e.2

/-- Take over the counts, flags and reasons of a search, and its path if there is no witness
yet. -/
def absorb (search : BoundedPathSearch) : PathOutcome :=
  { out with
    exploredSymbols := out.exploredSymbols + search.exploredSymbols
    exploredEdges := out.exploredEdges + search.exploredEdges
    depthLimitReached := out.depthLimitReached || search.depthLimitReached
    symbolLimitReached := out.symbolLimitReached || search.symbolLimitReached
    edgeLimitReached := out.edgeLimitReached || search.edgeLimitReached
    reasons := (searchReasons search).foldl (fun reasons r => reasons.insert r) out.reasons
    witness := if out.witness = [] then search.path else out.witness
    coverage := addCoverage out.coverage search.coverage }

def finish (expect : WorkspacePathExpectation) (totalPairs : ℕ) :
    PathOutcome :=
  let incomplete := out.incomplete || (out.evaluatedPairs < totalPairs && !out.found)
  { out with
    incomplete := incomplete
    verdict := some <|
      if out.found then
        match expect with
        | .reachable => .pass
        | .noPath => .fail
        | .allPathsVia => .pass
      else if incomplete then .inconclusive
      else
        match expect with
        | .reachable => .fail
        | .noPath => .pass
        | .allPathsVia => .fail }

end PathOutcome

/-- The budget left for the next search, or the outcome marked with the budget that is spent.
`evaluate_path_rule` makes the same three checks inline. -/
def nextSearchLimits (out : PathOutcome) (rule : CompiledWorkspacePathRule) :
    Except PathOutcome BoundedPathLimits :=
  if out.evaluatedPairs ≥ rule.maxPairs then
    .error { out with pairLimitReached := true, reasons := out.reasons.insert "pair_limit" }
  else if out.exploredSymbols ≥ rule.limits.maxSymbols then
    .error { out with symbolLimitReached := true, reasons := out.reasons.insert "symbol_limit" }
  else if out.coverage.total ≥ rule.limits.maxEdges then
    .error { out with edgeLimitReached := true, reasons := out.reasons.insert "edge_limit" }
  else
    .ok
      { maxDepth := rule.limits.maxDepth
        maxSymbols := rule.limits.maxSymbols - out.exploredSymbols
        maxEdges := rule.limits.maxEdges - out.coverage.total }

def recordCoverageReason (out : PathOutcome) (search : BoundedPathSearch) (minCoverage : ℕ) :
    PathOutcome :=
  { out with reasons :=
    if search.coverage.percent < minCoverage then out.reasons.insert "coverage_below_threshold"
    else out.reasons }

def searchComplete (search : BoundedPathSearch) (minCoverage : ℕ) : Bool :=
  !search.depthLimitReached && !search.symbolLimitReached && !search.edgeLimitReached &&
    minCoverage ≤ search.coverage.percent

/-! ## Evaluation -/

/-- What the evaluation of a rule reads. The engine is available if the linkage is of the
generation of the index and has a read index. -/
structure PathRuleContext where
  inventory : SymbolInventoryIndex
  linkage : LinkageSnapshot
  references : ReferenceTable
  symbols : SymbolOrdinalCatalog
  roots : List ℕ
  available : Bool
  scope : BoundedPathScope
  rule : CompiledWorkspacePathRule

structure PathSelections where
  source : SymbolSet
  target : SymbolSet
  via : SymbolSet

open PathOutcome

namespace PathRuleContext

variable (c : PathRuleContext)

def index : LinkageReadIndex :=
  .fromSnapshotWithCatalog c.linkage c.references c.symbols c.roots

def engineSearch (avoid : List SymbolId) (limits : BoundedPathLimits) (a b : SymbolId) :
    Option BoundedPathSearch :=
  search c.index ⟨a, b, c.rule.relation, avoid, limits, c.scope⟩

/-- The loop over the pairs. -/
def evaluatePairs (totalPairs : ℕ) :
    List (SymbolOrdinal × SymbolOrdinal) → PathOutcome → PathOutcome
  | [], out => out.finish c.rule.expect totalPairs
  | (s, t) :: rest, out =>
    match nextSearchLimits out c.rule with
    | .error out => out.finish c.rule.expect totalPairs
    | .ok limits =>
      match c.inventory.record s, c.inventory.record t with
      | none, _ =>
        evaluatePairs totalPairs rest
          { out.addReason "source_symbol_missing" with incomplete := true }
      | some _, none =>
        evaluatePairs totalPairs rest
          { out.addReason "target_symbol_missing" with incomplete := true }
      | some a, some b =>
        let out := { out with evaluatedPairs := out.evaluatedPairs + 1 }
        match c.engineSearch [] limits a.id b.id with
        | none =>
          evaluatePairs totalPairs rest
            { out.addReason "path_index_unavailable" with incomplete := true }
        | some search =>
          let out := (recordCoverageReason out search c.rule.minCoverage).absorb search
          if a.id = b.id ∨ search.path ≠ [] then
            { out with found := true }.finish c.rule.expect totalPairs
          else if searchComplete search c.rule.minCoverage then evaluatePairs totalPairs rest out
          else evaluatePairs totalPairs rest { out with incomplete := true }

/-- What the loop over the targets of one source leaves : the outcome, whether the source
reaches a target, and whether all searches were complete. -/
structure SourceScan where
  outcome : PathOutcome
  connected : Bool
  complete : Bool

/-- The loop over the targets of one source. An error is a return from the evaluation. -/
def scanTargets (avoid : List SymbolId) (a : InventorySymbol) :
    List SymbolOrdinal → SourceScan → Except PathOutcome SourceScan
  | [], scan => .ok scan
  | t :: rest, scan =>
    match c.inventory.record t with
    | none =>
      scanTargets avoid a rest
        { scan with outcome := scan.outcome.addReason "target_symbol_missing", complete := false }
    | some b =>
      match nextSearchLimits scan.outcome c.rule with
      | .error out => .error { out with verdict := some .inconclusive }
      | .ok limits =>
        let out := { scan.outcome with evaluatedPairs := scan.outcome.evaluatedPairs + 1 }
        match c.engineSearch [] limits a.id b.id with
        | none =>
          scanTargets avoid a rest
            { scan with outcome := out.addReason "path_index_unavailable", complete := false }
        | some search =>
          let out := (recordCoverageReason out search c.rule.minCoverage).absorb search
          let complete := scan.complete && searchComplete search c.rule.minCoverage
          if a.id = b.id ∨ search.path ≠ [] then
            match nextSearchLimits out c.rule with
            | .error out => .error { out with verdict := some .inconclusive }
            | .ok limits =>
              let out := { out with evaluatedPairs := out.evaluatedPairs + 1 }
              match c.engineSearch avoid limits a.id b.id with
              | none =>
                scanTargets avoid a rest ⟨out.addReason "path_index_unavailable", true, false⟩
              | some bypass =>
                let out := recordCoverageReason out bypass c.rule.minCoverage
                if a.id = b.id ∨ bypass.path ≠ [] then
                  let out := { out with witness := bypass.path }.absorb bypass
                  .error { out.addReason "path_bypasses_via" with
                    found := true
                    verdict := some .fail }
                else
                  scanTargets avoid a rest
                    ⟨out.absorb bypass, true, complete && searchComplete bypass c.rule.minCoverage⟩
          else scanTargets avoid a rest ⟨out, scan.connected, complete⟩

/-- The loop over the sources of `evaluate_all_paths_via`. -/
def scanSources (avoid : List SymbolId) (targets : SymbolSet) :
    List SymbolOrdinal → PathOutcome → PathOutcome
  | [], out =>
    { out with verdict := some (if out.incomplete then .inconclusive else .pass) }
  | s :: rest, out =>
    match c.inventory.record s with
    | none =>
      scanSources avoid targets rest
        { out.addReason "source_symbol_missing" with incomplete := true }
    | some a =>
      match c.scanTargets avoid a targets.elems ⟨out, false, true⟩ with
      | .error out => out
      | .ok scan =>
        if scan.connected then
          scanSources avoid targets rest
            { scan.outcome with incomplete := scan.outcome.incomplete || !scan.complete }
        else
          { scan.outcome.addReason "source_cannot_reach_target" with
            anchor := some s
            witness := []
            verdict := some (if scan.complete then .fail else .inconclusive) }

def avoidOf (via : SymbolSet) : List SymbolId :=
  via.elems.filterMap fun o => (c.inventory.record o).map (·.id)

variable (sel : PathSelections)

def evaluateAllPathsVia : PathOutcome :=
  if sel.via = ∅ then
    if c.rule.requireNonEmpty then .failed "empty_via_selector"
    else .inconclusive "empty_via_selector"
  else if sel.source ∩ sel.via ≠ ∅ ∨ sel.target ∩ sel.via ≠ ∅ then
    .inconclusive "via_overlaps_endpoint"
  else c.scanSources (c.avoidOf sel.via) sel.target sel.source.elems {}

def evaluatePathRule : PathOutcome :=
  if sel.source = ∅ ∨ sel.target = ∅ then
    let reason := if sel.source = ∅ then "empty_source_selector" else "empty_target_selector"
    if c.rule.requireNonEmpty then .failed reason else .inconclusive reason
  else if !c.available then .inconclusive "path_index_unavailable"
  else if c.rule.expect = .allPathsVia then c.evaluateAllPathsVia sel
  else
    c.evaluatePairs (sel.source.card * sel.target.card)
      (sel.source.elems.flatMap fun s => sel.target.elems.map fun t => (s, t)) {}

/-! ## The expectation without budgets -/

/-- The search between the symbols at two ordinals. -/
def query (avoid : List SymbolId) (limits : BoundedPathLimits) (s t : SymbolOrdinal) :
    PathQuery where
  linkage := c.linkage
  references := c.references
  symbols := c.symbols
  roots := c.roots
  request := ⟨OrdSet.ofList [s], OrdSet.ofList [t], c.rule.relation, avoid, limits, c.scope⟩

/-- A path from `a` to `b` over resolved references of the relation, all of whose symbols
are in the scope and none in `avoid`. -/
def PathBetween (avoid : List SymbolId) (a b : SymbolId) (es : List BoundedPathEdge) : Prop :=
  ∃ s t, c.symbols.ordinal a = some s ∧ c.symbols.ordinal b = some t ∧
    (c.query avoid c.rule.limits s t).Path es

/-- A path between two selected symbols. -/
def PathOf (avoid : List SymbolId) (s t : SymbolOrdinal) (es : List BoundedPathEdge) : Prop :=
  ∃ a b, c.inventory.record s = some a ∧ c.inventory.record t = some b ∧
    c.PathBetween avoid a.id b.id es

def Linked (avoid : List SymbolId) (s t : SymbolOrdinal) : Prop := ∃ es, c.PathOf avoid s t es

/-- The linkage meets the expectation of the rule. -/
def Meets : Prop :=
  match c.rule.expect with
  | .reachable => ∃ s ∈ sel.source, ∃ t ∈ sel.target, c.Linked [] s t
  | .noPath => ¬∃ s ∈ sel.source, ∃ t ∈ sel.target, c.Linked [] s t
  | .allPathsVia => ∀ s ∈ sel.source, (∃ t ∈ sel.target, c.Linked [] s t) ∧
      ∀ t ∈ sel.target, ¬c.Linked (c.avoidOf sel.via) s t

/-- A search that found nothing, within its budgets and above the coverage threshold. -/
def Cleared (avoid : List SymbolId) (s t : SymbolOrdinal) : Prop :=
  ∃ a b limits search, c.inventory.record s = some a ∧ c.inventory.record t = some b ∧
    0 < limits.maxSymbols ∧ c.engineSearch avoid limits a.id b.id = some search ∧
    ¬(a.id = b.id ∨ search.path ≠ []) ∧ searchComplete search c.rule.minCoverage = true

/-- What a definite verdict rests on. -/
def Grounds (verdict : RuleVerdict) (witness : List BoundedPathEdge) :
    Prop :=
  match c.rule.expect, verdict with
  | .reachable, .pass | .noPath, .fail =>
    ∃ s ∈ sel.source, ∃ t ∈ sel.target, c.PathOf [] s t witness
  | .reachable, .fail | .noPath, .pass =>
    ∀ s ∈ sel.source, ∀ t ∈ sel.target, c.Cleared [] s t
  | .allPathsVia, .pass => ∀ s ∈ sel.source, (∃ t ∈ sel.target, c.Linked [] s t) ∧
      ∀ t ∈ sel.target, c.Cleared [] s t ∨ c.Cleared (c.avoidOf sel.via) s t
  | .allPathsVia, .fail =>
    (∃ s ∈ sel.source, ∃ t ∈ sel.target, c.PathOf (c.avoidOf sel.via) s t witness) ∨
      ∃ s ∈ sel.source, ∀ t ∈ sel.target, c.Cleared [] s t
  | _, .inconclusive => True

variable {c}

/-! ## Single searches -/

theorem walk_mono {avoid avoid' : List SymbolId} {limits limits' : BoundedPathLimits}
    {s t : SymbolOrdinal} (hsub : avoid' ⊆ avoid) {v : SymbolOrdinal} :
    ∀ {es : List BoundedPathEdge} {u : SymbolOrdinal}, (c.query avoid limits s t).Walk u es v →
      (c.query avoid' limits' s t).Walk u es v
  | [], _, h => h
  | _ :: _, _, ⟨w, hstep, hw, hwalk⟩ =>
    ⟨w, ⟨hstep.record, hstep.resolved, hstep.source, hstep.target⟩,
      ⟨hw.scope, fun a ha => hw.avoid a (hsub ha)⟩, walk_mono hsub hwalk⟩

/-- Budgets do not matter to the paths of a query, and what is avoided only takes paths
away. -/
theorem path_mono {avoid avoid' : List SymbolId} {limits limits' : BoundedPathLimits}
    {s t : SymbolOrdinal} (hsub : avoid' ⊆ avoid) {es : List BoundedPathEdge}
    (h : (c.query avoid limits s t).Path es) : (c.query avoid' limits' s t).Path es := by
  obtain ⟨u, hu, v, hv, hallowed, hwalk⟩ := h
  exact ⟨u, hu, v, hv, ⟨hallowed.scope, fun a ha => hallowed.avoid a (hsub ha)⟩,
    walk_mono hsub hwalk⟩

variable {avoid : List SymbolId} {s t : SymbolOrdinal}

theorem Linked.mono (h : c.Linked avoid s t) : c.Linked [] s t := by
  obtain ⟨es, a, b, ha, hb, u, v, hu, hv, hpath⟩ := h
  exact ⟨es, a, b, ha, hb, u, v, hu, hv, path_mono (nil_subset _) hpath⟩

/-- What a search that has room for its first symbol says. -/
theorem engineSearch_spec {limits : BoundedPathLimits} {a b : SymbolId}
    {search : BoundedPathSearch} (hroom : 0 < limits.maxSymbols)
    (h : c.engineSearch avoid limits a b = some search) :
    (a = b ∨ search.path ≠ [] → c.PathBetween avoid a b search.path) ∧
      (¬(a = b ∨ search.path ≠ []) → search.depthLimitReached = false →
        search.symbolLimitReached = false → search.edgeLimitReached = false →
        ∀ es, ¬c.PathBetween avoid a b es) := by
  unfold engineSearch CodeMoniker.search PathTraversal.run at h
  split_ifs at h
  obtain ⟨s, hs, h⟩ := bind_eq_some_iff.mp h
  obtain ⟨t, ht, h⟩ := bind_eq_some_iff.mp h
  have hs' : c.symbols.ordinal a = some s := hs
  have ht' : c.symbols.ordinal b = some t := ht
  let p := c.query avoid limits s t
  have hrun : p.traversal.runBetween p.request.source p.request.target = some search := h
  have hends : ¬((∀ o ∈ p.request.source, ¬p.Allowed o) ∨ ∀ o ∈ p.request.target, ¬p.Allowed o) := by
    intro hnone
    rw [PathQuery.runBetween_eq_none hnone] at hrun
    cases hrun
  obtain ⟨hsource, htarget⟩ := not_or.mp hends
  have hmem : ∀ o, o ∈ p.request.source ↔ o = s := by simp [p, query]
  have hmem' : ∀ o, o ∈ p.request.target ↔ o = t := by simp [p, query]
  have hallowed : p.Allowed s := by
    by_contra hno
    exact hsource fun o ho => by rwa [(hmem o).mp ho]
  have hcard : p.request.source.card ≤ p.request.limits.maxSymbols := hroom
  obtain ⟨search', hrun', hans⟩ := PathQuery.runBetween_spec hcard hsource htarget
  obtain rfl : search' = search := some.inj (hrun'.symm.trans hrun)
  -- The empty path joins the endpoints exactly when they are the same symbol.
  have hempty : p.Path [] ↔ a = b := by
    refine ⟨?_, ?_⟩
    · intro ⟨u, hu, v, hv, _, (huv : u = v)⟩
      have hst : s = t := by rw [← (hmem u).mp hu, huv, (hmem' v).mp hv]
      have ha := SymbolOrdinalCatalog.id_eq_some_iff.mpr hs'
      have hb := SymbolOrdinalCatalog.id_eq_some_iff.mpr ht'
      exact some.inj (ha.symm.trans (hst ▸ hb))
    · intro hab
      have hst : s = t := some.inj (hs'.symm.trans (hab ▸ ht'))
      exact ⟨s, (hmem s).mpr rfl, s, (hmem' s).mpr hst, hallowed, rfl⟩
  refine ⟨fun hfound => ?_, fun hnot hdepth hsymbol hedge es hes => ?_⟩
  · refine ⟨s, t, hs', ht', path_mono (Subset.refl _) (hans.sound ?_)⟩
    rcases hfound with hab | hne
    · exact Or.inr (hempty.mpr hab)
    · exact Or.inl hne
  · obtain ⟨hab, hnil⟩ := not_or.mp hnot
    obtain ⟨s', t', hs'', ht'', hpath⟩ := hes
    obtain rfl : s = s' := some.inj (hs'.symm.trans hs'')
    obtain rfl : t = t' := some.inj (ht'.symm.trans ht'')
    exact hans.complete (not_not.mp hnil) (fun he => hab (hempty.mp he)) hdepth hsymbol hedge es
      (path_mono (Subset.refl _) hpath)

theorem Cleared.not_linked (h : c.Cleared avoid s t) : ¬c.Linked avoid s t := by
  obtain ⟨a, b, limits, search, ha, hb, hroom, hsearch, hnot, hcomplete⟩ := h
  intro ⟨es, a', b', ha', hb', hpath⟩
  obtain rfl : a = a' := some.inj (ha.symm.trans ha')
  obtain rfl : b = b' := some.inj (hb.symm.trans hb')
  simp only [searchComplete, Bool.and_eq_true, Bool.not_eq_true'] at hcomplete
  obtain ⟨⟨⟨hdepth, hsymbol⟩, hedge⟩, -⟩ := hcomplete
  exact (engineSearch_spec hroom hsearch).2 hnot hdepth hsymbol hedge es hpath

/-! ## The loop over the pairs -/

theorem nextSearchLimits_room {out : PathOutcome} {rule : CompiledWorkspacePathRule}
    {limits : BoundedPathLimits} (h : nextSearchLimits out rule = .ok limits) :
    0 < limits.maxSymbols := by
  unfold nextSearchLimits at h
  split_ifs at h with h1 h2 h3
  obtain rfl := Except.ok.inj h
  simp only
  omega

/-- A spent budget leaves what the loops count alone. -/
theorem nextSearchLimits_error {out out' : PathOutcome} {rule : CompiledWorkspacePathRule}
    (h : nextSearchLimits out rule = .error out') :
    out'.found = out.found ∧ out'.incomplete = out.incomplete ∧
      out'.evaluatedPairs = out.evaluatedPairs := by
  unfold nextSearchLimits at h
  split_ifs at h <;> · obtain rfl := Except.error.inj h; exact ⟨rfl, rfl, rfl⟩

/-- Before the next pair : nothing is found, and if nothing is left open every pair so far was
searched in full. -/
structure PairsInv (c : PathRuleContext) (done : List (SymbolOrdinal × SymbolOrdinal))
    (out : PathOutcome) : Prop where
  found : out.found = false
  witness : out.witness = []
  cleared : out.incomplete = false →
    out.evaluatedPairs = done.length ∧ ∀ p ∈ done, c.Cleared [] p.1 p.2

/-- After the loop : a path of one of the pairs is the witness, or the verdict is open, or every
pair was searched in full. -/
def PairsPost (c : PathRuleContext) (pairs : List (SymbolOrdinal × SymbolOrdinal))
    (out : PathOutcome) : Prop :=
  (∃ p ∈ pairs, c.PathOf [] p.1 p.2 out.witness) ∧ out.verdict = some (match c.rule.expect with
      | .reachable => .pass
      | .noPath => .fail
      | .allPathsVia => .pass) ∨
    out.verdict = some .inconclusive ∨
    (∀ p ∈ pairs, c.Cleared [] p.1 p.2) ∧ out.verdict = some (match c.rule.expect with
      | .reachable => .fail
      | .noPath => .pass
      | .allPathsVia => .fail)

theorem pairsInv_open {done : List (SymbolOrdinal × SymbolOrdinal)} {out out' : PathOutcome}
    (h : PairsInv c done out) (p : SymbolOrdinal × SymbolOrdinal) (hfound : out'.found = out.found)
    (hwitness : out'.witness = out.witness) (hopen : out'.incomplete = true) :
    PairsInv c (done ++ [p]) out' :=
  ⟨hfound.trans h.found, hwitness.trans h.witness, fun hno => by simp [hopen] at hno⟩

theorem pairsPost_open {pairs : List (SymbolOrdinal × SymbolOrdinal)} {out : PathOutcome} {n : ℕ}
    (hfound : out.found = false) (hopen : out.incomplete = true ∨ out.evaluatedPairs < n) :
    PairsPost c pairs (out.finish c.rule.expect n) := by
  refine Or.inr (Or.inl ?_)
  rcases hopen with hopen | hopen
  · simp [finish, hfound, hopen]
  · simp [finish, hfound, hopen]

theorem evaluatePairs_spec (n : ℕ) : ∀ (rest done : List (SymbolOrdinal × SymbolOrdinal))
    (out : PathOutcome), done.length + rest.length = n → PairsInv c done out →
      PairsPost c (done ++ rest) (c.evaluatePairs n rest out)
  | [], done, out, hn, h => by
    rw [append_nil, evaluatePairs]
    cases hinc : out.incomplete with
    | true => exact pairsPost_open h.found (Or.inl hinc)
    | false =>
      obtain ⟨heval, hcleared⟩ := h.cleared hinc
      refine Or.inr (Or.inr ⟨hcleared, ?_⟩)
      have hall : ¬out.evaluatedPairs < n := by simp only [length_nil] at hn; omega
      simp [finish, h.found, hinc, hall]
  | (s, t) :: rest, done, out, hn, h => by
    rw [length_cons] at hn
    have hlen : (done ++ [(s, t)]).length + rest.length = n := by
      rw [length_append, length_singleton]
      omega
    have hstep : ∀ out', PairsInv c (done ++ [(s, t)]) out' →
        PairsPost c (done ++ (s, t) :: rest) (c.evaluatePairs n rest out') := by
      intro out' h'
      have := evaluatePairs_spec n rest (done ++ [(s, t)]) out' hlen h'
      rwa [append_assoc, singleton_append] at this
    unfold evaluatePairs
    cases hlimits : nextSearchLimits out c.rule with
    | error out' =>
      obtain ⟨hfound, hinc, heval⟩ := nextSearchLimits_error hlimits
      refine pairsPost_open (hfound.trans h.found) ?_
      rw [hinc, heval]
      cases hopen : out.incomplete with
      | true => exact Or.inl rfl
      | false =>
        have := (h.cleared hopen).1
        exact Or.inr (by omega)
    | ok limits =>
      have hroom := nextSearchLimits_room hlimits
      simp only
      cases ha : c.inventory.record s with
      | none => exact hstep _ (pairsInv_open h _ rfl rfl rfl)
      | some a =>
        cases hb : c.inventory.record t with
        | none => exact hstep _ (pairsInv_open h _ rfl rfl rfl)
        | some b =>
          simp only
          cases hsearch : c.engineSearch [] limits a.id b.id with
          | none => exact hstep _ (pairsInv_open h _ rfl rfl rfl)
          | some search =>
            simp only
            have hspec := engineSearch_spec hroom hsearch
            split_ifs with hfound hcomplete
            · refine Or.inl ⟨⟨(s, t), by simp, a, b, ha, hb, ?_⟩, ?_⟩
              · simpa [finish, absorb, recordCoverageReason, h.witness]
                  using hspec.1 hfound
              · simp [finish]
            · have hnil : search.path = [] := not_not.mp (not_or.mp hfound).2
              refine hstep _ ⟨h.found, ?_, fun hinc => ?_⟩
              · simp [absorb, recordCoverageReason, h.witness, hnil]
              · obtain ⟨heval, hcleared⟩ := h.cleared hinc
                refine ⟨by simp [absorb, recordCoverageReason, heval], ?_⟩
                intro p hp
                rcases mem_append.mp hp with hp | hp
                · exact hcleared p hp
                · obtain rfl := mem_singleton.mp hp
                  exact ⟨a, b, limits, search, ha, hb, hroom, hsearch, hfound, hcomplete⟩
            · have hnil : search.path = [] := not_not.mp (not_or.mp hfound).2
              refine hstep _ (pairsInv_open h _ rfl ?_ rfl)
              simp [absorb, recordCoverageReason, h.witness, hnil]

/-! ## The loops over sources and targets -/

/-- What the searches between a source and the targets so far have shown. -/
structure ScanInv (c : PathRuleContext) (avoid : List SymbolId) (s : SymbolOrdinal)
    (incomplete : Bool) (done : List SymbolOrdinal) (scan : SourceScan) : Prop where
  outcome : scan.outcome.incomplete = incomplete
  connected : scan.connected = true → ∃ t ∈ done, c.Linked [] s t
  complete : scan.complete = true → ∀ t ∈ done, c.Cleared [] s t ∨ c.Cleared avoid s t
  isolated : scan.connected = false → scan.complete = true → ∀ t ∈ done, c.Cleared [] s t

/-- An early return is open, or it carries a path that avoids the third selection. -/
def Stops (c : PathRuleContext) (avoid : List SymbolId) (s : SymbolOrdinal)
    (targets : List SymbolOrdinal) (out : PathOutcome) : Prop :=
  out.verdict = some .inconclusive ∨
    out.verdict = some .fail ∧ ∃ t ∈ targets, c.PathOf avoid s t out.witness

def ScanPost (c : PathRuleContext) (avoid : List SymbolId) (s : SymbolOrdinal) (incomplete : Bool)
    (targets : List SymbolOrdinal) : Except PathOutcome SourceScan → Prop
  | .error out => Stops c avoid s targets out
  | .ok scan => ScanInv c avoid s incomplete targets scan

theorem scanInv_open {incomplete : Bool}
    {done : List SymbolOrdinal} {scan scan' : SourceScan} (h : ScanInv c avoid s incomplete done scan)
    (houtcome : scan'.outcome.incomplete = scan.outcome.incomplete)
    (hconnected : scan'.connected = true → scan.connected = true ∨ c.Linked [] s t)
    (hopen : scan'.complete = false) : ScanInv c avoid s incomplete (done ++ [t]) scan' where
  outcome := houtcome.trans h.outcome
  connected hc := by
    rcases hconnected hc with hc | hl
    · obtain ⟨t', ht', hl⟩ := h.connected hc
      exact ⟨t', by simp [ht'], hl⟩
    · exact ⟨t, by simp, hl⟩
  complete hc := by simp [hopen] at hc
  isolated _ hc := by simp [hopen] at hc

theorem scanInv_cleared {incomplete : Bool}
    {done : List SymbolOrdinal} {scan : SourceScan} {out : PathOutcome} {complete : Bool}
    (h : ScanInv c avoid s incomplete done scan)
    (houtcome : out.incomplete = scan.outcome.incomplete)
    (hcleared : complete = true → c.Cleared [] s t) :
    ScanInv c avoid s incomplete (done ++ [t]) ⟨out, scan.connected, scan.complete && complete⟩ where
  outcome := houtcome.trans h.outcome
  connected hc := by
    obtain ⟨t', ht', hl⟩ := h.connected hc
    exact ⟨t', by simp [ht'], hl⟩
  complete hc := by
    obtain ⟨hc, hc'⟩ := Bool.and_eq_true_iff.mp hc
    intro t' ht'
    rcases mem_append.mp ht' with ht' | ht'
    · exact h.complete hc t' ht'
    · rw [mem_singleton.mp ht']
      exact Or.inl (hcleared hc')
  isolated hi hc := by
    obtain ⟨hc, hc'⟩ := Bool.and_eq_true_iff.mp hc
    intro t' ht'
    rcases mem_append.mp ht' with ht' | ht'
    · exact h.isolated hi hc t' ht'
    · rw [mem_singleton.mp ht']
      exact hcleared hc'

theorem scanInv_linked {incomplete : Bool}
    {done : List SymbolOrdinal} {scan : SourceScan} {out : PathOutcome} {complete complete' : Bool}
    (h : ScanInv c avoid s incomplete done scan)
    (houtcome : out.incomplete = scan.outcome.incomplete) (hlinked : c.Linked [] s t)
    (hcleared : complete' = true → c.Cleared avoid s t) : ScanInv c avoid s incomplete (done ++ [t])
      ⟨out, true, (scan.complete && complete) && complete'⟩ where
  outcome := houtcome.trans h.outcome
  connected _ := ⟨t, by simp, hlinked⟩
  complete hc := by
    obtain ⟨hc, hc'⟩ := Bool.and_eq_true_iff.mp hc
    intro t' ht'
    rcases mem_append.mp ht' with ht' | ht'
    · exact h.complete (Bool.and_eq_true_iff.mp hc).1 t' ht'
    · rw [mem_singleton.mp ht']
      exact Or.inr (hcleared hc')
  isolated hi := by simp at hi

theorem scanTargets_spec {avoid : List SymbolId} {s : SymbolOrdinal} {a : InventorySymbol}
    (ha : c.inventory.record s = some a) (incomplete : Bool) :
    ∀ (rest done : List SymbolOrdinal) (scan : SourceScan), ScanInv c avoid s incomplete done scan →
      ScanPost c avoid s incomplete (done ++ rest) (c.scanTargets avoid a rest scan)
  | [], done, scan, h => by
    rw [append_nil, scanTargets]
    exact h
  | t :: rest, done, scan, h => by
    have hstep : ∀ scan', ScanInv c avoid s incomplete (done ++ [t]) scan' →
        ScanPost c avoid s incomplete (done ++ t :: rest) (c.scanTargets avoid a rest scan') := by
      intro scan' h'
      have := scanTargets_spec ha incomplete rest (done ++ [t]) scan' h'
      rwa [append_assoc, singleton_append] at this
    unfold scanTargets
    cases hb : c.inventory.record t with
    | none => exact hstep _ (scanInv_open h rfl Or.inl rfl)
    | some b =>
      simp only
      cases hlimits : nextSearchLimits scan.outcome c.rule with
      | error out => exact Or.inl rfl
      | ok limits =>
        have hroom := nextSearchLimits_room hlimits
        simp only
        cases hsearch : c.engineSearch [] limits a.id b.id with
        | none => exact hstep _ (scanInv_open h rfl Or.inl rfl)
        | some search =>
          simp only
          split_ifs with hfound
          · have hlinked : c.Linked [] s t :=
              ⟨_, a, b, ha, hb, (engineSearch_spec hroom hsearch).1 hfound⟩
            split
            · exact Or.inl rfl
            · next limits' hlimits' =>
              have hroom' := nextSearchLimits_room hlimits'
              cases hbypass : c.engineSearch avoid limits' a.id b.id with
              | none => exact hstep _ (scanInv_open h rfl (fun _ => Or.inr hlinked) rfl)
              | some bypass =>
                simp only
                split_ifs with hfound'
                · refine Or.inr ⟨rfl, t, by simp, a, b, ha, hb, ?_⟩
                  have hpath := (engineSearch_spec hroom' hbypass).1 hfound'
                  simpa [absorb, addReason] using hpath
                · refine hstep _ (scanInv_linked h rfl hlinked fun hcomplete => ?_)
                  exact ⟨a, b, limits', bypass, ha, hb, hroom', hbypass, hfound', hcomplete⟩
          · refine hstep _ (scanInv_cleared h rfl fun hcomplete => ?_)
            exact ⟨a, b, limits, search, ha, hb, hroom, hsearch, hfound, hcomplete⟩

/-- Every source so far reaches a target and no path of it avoids the third selection. -/
def SourcesInv (c : PathRuleContext) (avoid : List SymbolId) (targets : SymbolSet)
    (done : List SymbolOrdinal) (out : PathOutcome) : Prop :=
  out.incomplete = false → ∀ s ∈ done, (∃ t ∈ targets, c.Linked [] s t) ∧
    ∀ t ∈ targets, c.Cleared [] s t ∨ c.Cleared avoid s t

/-- What the loop over the sources answers. -/
structure SourcesPost (c : PathRuleContext) (avoid : List SymbolId) (targets : SymbolSet)
    (sources : List SymbolOrdinal) (out : PathOutcome) : Prop where
  pass : out.verdict = some .pass → ∀ s ∈ sources, (∃ t ∈ targets, c.Linked [] s t) ∧
    ∀ t ∈ targets, c.Cleared [] s t ∨ c.Cleared avoid s t
  fail : out.verdict = some .fail →
    (∃ s ∈ sources, ∃ t ∈ targets, c.PathOf avoid s t out.witness) ∨
      ∃ s ∈ sources, ∀ t ∈ targets, c.Cleared [] s t

theorem scanSources_spec {avoid : List SymbolId} {targets : SymbolSet} :
    ∀ (rest done : List SymbolOrdinal) (out : PathOutcome), SourcesInv c avoid targets done out →
      SourcesPost c avoid targets (done ++ rest) (c.scanSources avoid targets rest out)
  | [], done, out, h => by
    rw [append_nil, scanSources]
    cases hinc : out.incomplete with
    | true => exact ⟨by simp, by simp⟩
    | false => exact ⟨fun _ => h hinc, by simp⟩
  | s :: rest, done, out, h => by
    have hstep : ∀ out', SourcesInv c avoid targets (done ++ [s]) out' →
        SourcesPost c avoid targets (done ++ s :: rest) (c.scanSources avoid targets rest out') := by
      intro out' h'
      have := scanSources_spec rest (done ++ [s]) out' h'
      rwa [append_assoc, singleton_append] at this
    unfold scanSources
    cases ha : c.inventory.record s with
    | none => exact hstep _ fun hinc => by simp at hinc
    | some a =>
      have hstart : ScanInv c avoid s out.incomplete [] ⟨out, false, true⟩ :=
        ⟨rfl, by simp, by simp, by simp⟩
      have hscan := scanTargets_spec ha out.incomplete targets.elems [] ⟨out, false, true⟩ hstart
      simp only [nil_append] at hscan ⊢
      split
      · next out' herr =>
        rw [herr] at hscan
        rcases hscan with hv | ⟨hv, t, ht, hpath⟩
        · exact ⟨by simp [hv], by simp [hv]⟩
        · exact ⟨by simp [hv], fun _ => Or.inl ⟨s, by simp, t, ht, hpath⟩⟩
      · next scan hok =>
        rw [hok] at hscan
        have hscan : ScanInv c avoid s out.incomplete targets.elems scan := hscan
        split_ifs with hconnected hcomplete
        · refine hstep _ fun hinc => ?_
          simp only [hscan.outcome, Bool.or_eq_false_iff, Bool.not_eq_false'] at hinc
          intro s' hs'
          rcases mem_append.mp hs' with hs' | hs'
          · exact h hinc.1 s' hs'
          · rw [mem_singleton.mp hs']
            exact ⟨hscan.connected hconnected, hscan.complete hinc.2⟩
        · refine ⟨by simp, fun _ => Or.inr ⟨s, by simp, ?_⟩⟩
          exact hscan.isolated (by simpa using hconnected) hcomplete
        · exact ⟨by simp, by simp⟩

/-! ## Verdicts -/

theorem meets_of_grounds {sel : PathSelections} {witness : List BoundedPathEdge}
    (h : c.Grounds sel .pass witness) : c.Meets sel := by
  unfold Meets
  unfold Grounds at h
  cases hexpect : c.rule.expect with
  | reachable =>
    simp only [hexpect] at h ⊢
    obtain ⟨s, hs, t, ht, hpath⟩ := h
    exact ⟨s, hs, t, ht, witness, hpath⟩
  | noPath =>
    simp only [hexpect] at h ⊢
    intro ⟨s, hs, t, ht, hlinked⟩
    exact (h s hs t ht).not_linked hlinked
  | allPathsVia =>
    simp only [hexpect] at h ⊢
    intro s hs
    obtain ⟨hreach, hcleared⟩ := h s hs
    refine ⟨hreach, fun t ht hlinked => ?_⟩
    rcases hcleared t ht with hclear | hclear
    · exact hclear.not_linked hlinked.mono
    · exact hclear.not_linked hlinked

theorem not_meets_of_grounds {sel : PathSelections} {witness : List BoundedPathEdge}
    (h : c.Grounds sel .fail witness) : ¬c.Meets sel := by
  unfold Meets
  unfold Grounds at h
  cases hexpect : c.rule.expect with
  | reachable =>
    simp only [hexpect] at h ⊢
    intro ⟨s, hs, t, ht, hlinked⟩
    exact (h s hs t ht).not_linked hlinked
  | noPath =>
    simp only [hexpect] at h ⊢
    obtain ⟨s, hs, t, ht, hpath⟩ := h
    exact not_not.mpr ⟨s, hs, t, ht, witness, hpath⟩
  | allPathsVia =>
    simp only [hexpect] at h ⊢
    intro hmeets
    rcases h with ⟨s, hs, t, ht, hpath⟩ | ⟨s, hs, hcleared⟩
    · exact (hmeets s hs).2 t ht ⟨witness, hpath⟩
    · obtain ⟨t, ht, hlinked⟩ := (hmeets s hs).1
      exact (hcleared t ht).not_linked hlinked

/-- A selector that the rule needs selects nothing. -/
def EmptySelector (c : PathRuleContext) (sel : PathSelections) : Prop :=
  sel.source = ∅ ∨ sel.target = ∅ ∨ c.rule.expect = .allPathsVia ∧ sel.via = ∅

/-- A verdict is open, fails on an empty selector where the rule asks for that, or has its
grounds. -/
def Founded (c : PathRuleContext) (sel : PathSelections) (out : PathOutcome) : Prop :=
  ∀ verdict, out.verdict = some verdict → verdict = .inconclusive ∨
    verdict = .fail ∧ c.rule.requireNonEmpty = true ∧ c.EmptySelector sel ∨
    c.Grounds sel verdict out.witness

theorem founded_empty {sel : PathSelections} (h : c.EmptySelector sel) (reason : String) :
    c.Founded sel (if c.rule.requireNonEmpty then .failed reason else .inconclusive reason) := by
  intro verdict hverdict
  split_ifs at hverdict with hrequire
  · exact Or.inr (Or.inl ⟨(some.inj hverdict).symm, hrequire, h⟩)
  · exact Or.inl (some.inj hverdict).symm

theorem founded_inconclusive (reason : String) : c.Founded sel (.inconclusive reason) :=
  fun _ hverdict => Or.inl (some.inj hverdict).symm

theorem evaluateAllPathsVia_founded
    (hexpect : c.rule.expect = .allPathsVia) : c.Founded sel (c.evaluateAllPathsVia sel) := by
  unfold evaluateAllPathsVia
  split_ifs with hvia hrequire hover
  · intro verdict hverdict
    exact Or.inr (Or.inl ⟨(some.inj hverdict).symm, hrequire, Or.inr (Or.inr ⟨hexpect, hvia⟩)⟩)
  · exact founded_inconclusive sel _
  · exact founded_inconclusive sel _
  · have hstart : SourcesInv c (c.avoidOf sel.via) sel.target [] {} := fun _ => by simp
    have hpost := scanSources_spec sel.source.elems [] {} hstart
    rw [nil_append] at hpost
    intro verdict hverdict
    unfold Grounds
    rw [hexpect]
    cases verdict with
    | inconclusive => exact Or.inl rfl
    | pass => exact Or.inr (Or.inr (hpost.pass hverdict))
    | fail => exact Or.inr (Or.inr (hpost.fail hverdict))

theorem evaluatePairs_founded (hexpect : c.rule.expect ≠ .allPathsVia) :
    c.Founded sel (c.evaluatePairs (sel.source.card * sel.target.card)
      (sel.source.elems.flatMap fun s => sel.target.elems.map fun t => (s, t)) {}) := by
  have hlen : (sel.source.elems.flatMap fun s => sel.target.elems.map fun t => (s, t)).length =
      sel.source.card * sel.target.card := by
    simp [length_flatMap, OrdSet.card]
  have hpost := evaluatePairs_spec (c := c) _ _ [] {} ((Nat.zero_add _).trans hlen)
    ⟨rfl, rfl, fun _ => ⟨rfl, by simp⟩⟩
  have hmem : ∀ p, p ∈ [] ++ (sel.source.elems.flatMap fun s => sel.target.elems.map fun t => (s, t))
      ↔ p.1 ∈ sel.source ∧ p.2 ∈ sel.target := by
    rintro ⟨s, t⟩
    simp
  intro verdict hverdict
  unfold Grounds
  rcases hpost with ⟨⟨p, hp, hpath⟩, hv⟩ | hv | ⟨hcleared, hv⟩
  · obtain ⟨hs, ht⟩ := (hmem p).mp hp
    obtain rfl := some.inj (hverdict.symm.trans hv)
    refine Or.inr (Or.inr ?_)
    cases hex : c.rule.expect with
    | reachable => exact ⟨p.1, hs, p.2, ht, hpath⟩
    | noPath => exact ⟨p.1, hs, p.2, ht, hpath⟩
    | allPathsVia => exact absurd hex hexpect
  · exact Or.inl (some.inj (hverdict.symm.trans hv))
  · obtain rfl := some.inj (hverdict.symm.trans hv)
    refine Or.inr (Or.inr ?_)
    cases hex : c.rule.expect with
    | reachable => exact fun s hs t ht => hcleared (s, t) ((hmem _).mpr ⟨hs, ht⟩)
    | noPath => exact fun s hs t ht => hcleared (s, t) ((hmem _).mpr ⟨hs, ht⟩)
    | allPathsVia => exact absurd hex hexpect

theorem evaluatePathRule_founded (c : PathRuleContext) (sel : PathSelections) :
    c.Founded sel (c.evaluatePathRule sel) := by
  unfold evaluatePathRule
  by_cases hempty : sel.source = ∅ ∨ sel.target = ∅
  · rw [if_pos hempty]
    exact founded_empty (hempty.imp_right Or.inl) _
  · rw [if_neg hempty]
    split_ifs with havail hexpect
    · exact founded_inconclusive sel _
    · exact evaluateAllPathsVia_founded sel hexpect
    · exact evaluatePairs_founded sel hexpect

theorem total_le_decided {search : BoundedPathSearch} {minCoverage : ℕ}
    (hmin : 100 ≤ minCoverage) (h : searchComplete search minCoverage = true) :
    search.coverage.total ≤ search.coverage.decided := by
  simp only [searchComplete, Bool.and_eq_true, decide_eq_true_eq] at h
  have hpercent := hmin.trans h.2
  unfold BoundedPathCoverage.percent at hpercent
  split_ifs at hpercent with hzero
  · omega
  · have := (Nat.le_div_iff_mul_le (by omega)).mp hpercent
    omega

/-- A pass is right and a failure is right, whatever the budgets were, except that a rule
with `require_non_empty` fails on an empty selector without a search. Both rest on a path,
given as the witness, or on searches that ended within their budgets with the coverage the
rule asks for; at full coverage such a search met no reference that the linkage has not
decided. -/
theorem evaluatePathRule_sound (c : PathRuleContext) (sel : PathSelections) :
    ((c.evaluatePathRule sel).verdict = some .pass →
      c.Meets sel ∧ c.Grounds sel .pass (c.evaluatePathRule sel).witness) ∧
    ((c.evaluatePathRule sel).verdict = some .fail →
      c.rule.requireNonEmpty = true ∧ c.EmptySelector sel ∨
        ¬c.Meets sel ∧ c.Grounds sel .fail (c.evaluatePathRule sel).witness) ∧
    (100 ≤ c.rule.minCoverage → ∀ search, searchComplete search c.rule.minCoverage = true →
      search.coverage.total ≤ search.coverage.decided) := by
  have hfounded := evaluatePathRule_founded c sel
  refine ⟨fun hpass => ?_, fun hfail => ?_, fun hmin search hsearch => total_le_decided hmin hsearch⟩
  · rcases hfounded .pass hpass with hv | ⟨hv, -⟩ | hgrounds
    · cases hv
    · cases hv
    · exact ⟨meets_of_grounds hgrounds, hgrounds⟩
  · rcases hfounded .fail hfail with hv | ⟨-, hempty⟩ | hgrounds
    · cases hv
    · exact Or.inl hempty
    · exact Or.inr ⟨not_meets_of_grounds hgrounds, hgrounds⟩

/-! ## A threshold below full coverage -/

/-- A function of the file `app.rs`. -/
def appFunction (defIdx : ℕ) (name : String) : InventorySymbol where
  id := ⟨0, defIdx⟩
  source := 0
  identity := "code+moniker://app/fn:" ++ name
  name := name
  kind := "fn"
  shape := "callable"
  visibility := "public"
  language := "rs"
  sourcePath := "app.rs"
  sourceRoot := 0
  srcset := ""
  lineRange := none
  navigable := true
  parent := none
  ancestors := []
  segments := [⟨"fn", name⟩]

/-- Two functions and one call of the first, under a rule that forbids a path between them and
accepts any coverage. -/
def callGap (linkage : LinkageSnapshot) : PathRuleContext where
  inventory := (SymbolInventoryIndex.empty.insertRecord 0 zero_notMem_empty
    (appFunction 0 "f")).insertRecord 1 (by decide) (appFunction 1 "g")
  linkage := linkage
  references := ⟨[[⟨⟨0, 0⟩, ⟨0, 0⟩, "code+moniker://app/fn:g", "calls"⟩]], by decide⟩
  symbols := (SymbolOrdinalCatalog.empty.bindId 0 ⟨0, 0⟩).bindId 1 ⟨0, 1⟩
  roots := [0]
  available := true
  scope := .fromSources [0]
  rule := ⟨.noPath, false, ["calls"], ⟨12, 10000, 50000⟩, 10000, 0⟩

/-- The call has a candidate target, or is resolved to it. -/
def callCandidate : LinkageSnapshot :=
  ⟨[], [⟨⟨0, 0⟩, [⟨0, 1⟩], .weakNameMatch⟩], [], [], [], [], by decide⟩

def callResolved : LinkageSnapshot := ⟨[⟨⟨0, 0⟩, ⟨0, 1⟩⟩], [], [], [], [], [], by decide⟩

/-- With a threshold below full coverage, a rule passes on a search that met an undecided
reference, and fails once the linkage decides it. -/
theorem evaluatePathRule_openGap :
    ((callGap callCandidate).evaluatePathRule ⟨.ofList [0], .ofList [1], ∅⟩).verdict = some .pass ∧
    (∃ search, (callGap callCandidate).engineSearch [] ⟨12, 10000, 50000⟩ ⟨0, 0⟩ ⟨0, 1⟩ =
      some search ∧ search.path = [] ∧ search.coverage.candidate = 1 ∧
        search.coverage.percent = 0) ∧
    ((callGap callResolved).evaluatePathRule ⟨.ofList [0], .ofList [1], ∅⟩).verdict =
      some .fail := by
  refine ⟨by decide +kernel, ?_, by decide +kernel⟩
  have hrun : ((callGap callCandidate).engineSearch [] ⟨12, 10000, 50000⟩ ⟨0, 0⟩ ⟨0, 1⟩).map
      (fun s => (s.path, s.coverage.candidate, s.coverage.percent)) = some ([], 1, 0) := by
    decide +kernel
  obtain ⟨search, hsearch, hfields⟩ := map_eq_some_iff.mp hrun
  obtain ⟨hpath, hcandidate, hpercent⟩ := by simpa using hfields
  exact ⟨search, hsearch, hpath, hcandidate, hpercent⟩

end PathRuleContext

end CodeMoniker
