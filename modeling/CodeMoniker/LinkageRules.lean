import CodeMoniker.FacetQuery
import CodeMoniker.IndexedPredicates
import CodeMoniker.TriSets

/-!
# Reference-count rules

A linkage rule compares the number of references of a symbol with a limit. The number counts
only what the linkage has decided, so the evaluator keeps for each symbol and direction how
many references of which class there are (`LinkageMetrics`) and leaves the comparison open
below a threshold of decided references. Its answer is a `TriSet` over the universe.

`evalNode_eq` says that the answer is the strong Kleene value of the expression at each symbol
(`value`). An open reference counts against every symbol that it may turn out to refer to, so
at a threshold of 100 a settled symbol has no such reference in the direction it is asked for,
and resolving references elsewhere leaves its number as it is (`metric_eq_of_full`).
-/

namespace CodeMoniker

open List hiding set
open Option TriSet

namespace LinkageRules

open Kleene

/-! ## Counts by class -/

inductive ReferenceClass where
  | resolved
  | external
  | candidate
  | dynamic
  | blocked
  | unresolved
  deriving DecidableEq, Repr

def ReferenceClass.decided : ReferenceClass → Bool
  | .resolved | .external => true
  | .candidate | .dynamic | .blocked | .unresolved => false

structure CoverageCounts where
  resolved : ℕ := 0
  external : ℕ := 0
  candidate : ℕ := 0
  dynamic : ℕ := 0
  blocked : ℕ := 0
  unresolved : ℕ := 0
  deriving DecidableEq, Repr

def usizeMax : ℕ := 2 ^ 64 - 1

namespace CoverageCounts

def add (c d : CoverageCounts) : CoverageCounts where
  resolved := c.resolved + d.resolved
  external := c.external + d.external
  candidate := c.candidate + d.candidate
  dynamic := c.dynamic + d.dynamic
  blocked := c.blocked + d.blocked
  unresolved := c.unresolved + d.unresolved

def total (c : CoverageCounts) : ℕ :=
  c.resolved + c.external + c.candidate + c.dynamic + c.blocked + c.unresolved

def decided (c : CoverageCounts) : ℕ := c.resolved + c.external

/-- The product saturates. -/
def percent (c : CoverageCounts) : ℕ :=
  if c.total = 0 then 100 else min (c.decided * 100) usizeMax / c.total

/-- Rounding down, only full coverage is a hundred percent. -/
theorem total_le_decided {c : CoverageCounts} (h : 100 ≤ c.percent) : c.total ≤ c.decided := by
  unfold percent at h
  split_ifs at h with hzero
  · omega
  · have hprod : 100 * c.total ≤ min (c.decided * 100) usizeMax :=
      (Nat.le_div_iff_mul_le (Nat.pos_of_ne_zero hzero)).mp h
    have hle : 100 * c.total ≤ c.decided * 100 := hprod.trans (min_le_left _ _)
    omega

end CoverageCounts

structure ReferenceMetric where
  count : ℕ := 0
  coverage : CoverageCounts := {}
  deriving DecidableEq, Repr

namespace ReferenceMetric

def record (m : ReferenceMetric) : ReferenceClass → ReferenceMetric
  | .resolved => ⟨m.count + 1, { m.coverage with resolved := m.coverage.resolved + 1 }⟩
  | .external => ⟨m.count + 1, { m.coverage with external := m.coverage.external + 1 }⟩
  | .candidate => ⟨m.count, { m.coverage with candidate := m.coverage.candidate + 1 }⟩
  | .dynamic => ⟨m.count, { m.coverage with dynamic := m.coverage.dynamic + 1 }⟩
  | .blocked => ⟨m.count, { m.coverage with blocked := m.coverage.blocked + 1 }⟩
  | .unresolved => ⟨m.count, { m.coverage with unresolved := m.coverage.unresolved + 1 }⟩

def percent (m : ReferenceMetric) : ℕ := m.coverage.percent

def ofClasses (ks : List ReferenceClass) : ReferenceMetric := ks.foldl record {}

theorem coverage_foldl_record : ∀ (ks : List ReferenceClass) (m : ReferenceMetric),
    (ks.foldl record m).coverage.total = m.coverage.total + ks.length ∧
      (ks.foldl record m).coverage.decided = m.coverage.decided + ks.countP (·.decided)
  | [], m => ⟨rfl, rfl⟩
  | k :: ks, m => by
    obtain ⟨htotal, hdecided⟩ := coverage_foldl_record ks (m.record k)
    rw [foldl_cons, htotal, hdecided, length_cons, countP_cons]
    cases k <;>
      simp only [record, CoverageCounts.total, CoverageCounts.decided, ReferenceClass.decided,
        if_true, if_false, Bool.false_eq_true] <;>
      omega

/-- At full coverage every reference counted is decided. -/
theorem decided_of_percent {ks : List ReferenceClass} (h : 100 ≤ (ofClasses ks).percent) :
    ∀ k ∈ ks, k.decided = true := by
  obtain ⟨htotal, hdecided⟩ := coverage_foldl_record ks {}
  have hle := CoverageCounts.total_le_decided h
  rw [ofClasses, htotal, hdecided] at hle
  have hcount : ks.countP (·.decided) = ks.length := by
    have hmax := countP_le_length (p := (·.decided)) (l := ks)
    have hempty : ({} : ReferenceMetric).coverage.total = 0 := rfl
    have hempty' : ({} : ReferenceMetric).coverage.decided = 0 := rfl
    omega
  exact countP_eq_length.mp hcount

end ReferenceMetric

/-! ## Classification of references -/

inductive ReferenceClassification where
  | resolved (target : SymbolId)
  | candidates (targets : List SymbolId)
  | dynamic (targets : List SymbolId)
  | ofClass (c : ReferenceClass)
  deriving DecidableEq, Repr

def ReferenceClassification.toClass : ReferenceClassification → ReferenceClass
  | .resolved _ => .resolved
  | .candidates _ => .candidate
  | .dynamic _ => .dynamic
  | .ofClass c => c

-- A reference has one decision, so its entry in a map is the first one in the list.
def classify (l : LinkageSnapshot) (id : ReferenceId) : ReferenceClassification :=
  match l.resolved.find? (·.reference = id) with
  | some edge => .resolved edge.target
  | none =>
    match l.candidates.find? (·.reference = id) with
    | some candidate => .candidates candidate.targets
    | none =>
      if id ∈ l.external.map (·.reference) then .ofClass .external
      else
        match l.dynamic.find? (·.reference = id) with
        | some item => .dynamic item.candidates
        | none =>
          if id ∈ l.blocked.map (·.reference) then .ofClass .blocked else .ofClass .unresolved

/-! ## Metrics -/

/-- The symbols under the target identity of a reference. -/
def uncertainTargets (index : CodeIndex) (r : ReferenceRecord) : List SymbolId :=
  (index.inventory.facets.byIdentity.get r.targetIdentity).elems.filterMap fun o =>
    (index.inventory.record o).map (·.id)

/-- `entry(symbol).or_default().record(class)`. -/
def recordAt (m : SymbolId → ReferenceMetric) (symbol : SymbolId) (c : ReferenceClass) :
    SymbolId → ReferenceMetric :=
  Function.update m symbol ((m symbol).record c)

def attributeUncertainIncoming (index : CodeIndex) (r : ReferenceRecord)
    (incoming : SymbolId → ReferenceMetric) (c : ReferenceClass) : SymbolId → ReferenceMetric :=
  (uncertainTargets index r).foldl (recordAt · · c) incoming

structure LinkageMetrics where
  incoming : SymbolId → ReferenceMetric := fun _ => {}
  outgoing : SymbolId → ReferenceMetric := fun _ => {}

namespace LinkageMetrics

variable (m : LinkageMetrics)

def recordTargets (source : SymbolId) (targets : List SymbolId)
    (c : ReferenceClass) : LinkageMetrics where
  incoming := targets.foldl (recordAt · · c) m.incoming
  outgoing := recordAt m.outgoing source c

def recordUncertain (index : CodeIndex) (r : ReferenceRecord)
    (c : ReferenceClass) : LinkageMetrics where
  incoming := attributeUncertainIncoming index r m.incoming c
  outgoing := recordAt m.outgoing r.sourceSymbol c

def record (index : CodeIndex) (r : ReferenceRecord) :
    ReferenceClassification → LinkageMetrics
  | .resolved target => m.recordTargets r.sourceSymbol [target] .resolved
  | .candidates targets => m.recordTargets r.sourceSymbol targets .candidate
  | .dynamic targets =>
    if targets ≠ [] then m.recordTargets r.sourceSymbol targets .dynamic
    else m.recordUncertain index r .dynamic
  | .ofClass .external => { m with outgoing := recordAt m.outgoing r.sourceSymbol .external }
  | .ofClass c => m.recordUncertain index r c

/-- The references that start in the universe. -/
def considered (index : CodeIndex) (u : SymbolSet) : List ReferenceRecord :=
  index.references.iter.filter fun r =>
    (index.inventory.catalog.ordinal r.sourceSymbol).any (· ∈ u)

def build (index : CodeIndex) (l : LinkageSnapshot) (u : SymbolSet) : LinkageMetrics :=
  (considered index u).foldl (fun m r => m.record index r (classify l r.id)) {}

def metric (symbol : SymbolId) : Domain → ReferenceMetric
  | .inRefs => m.incoming symbol
  | .outRefs => m.outgoing symbol
  | _ => {}

end LinkageMetrics

/-! ## Three-valued evaluation -/

def compare (left : ℚ) (op : Op) (right : ℚ) : Bool :=
  match op with
  | .eq => left = right
  | .ne => left ≠ right
  | .lt => left < right
  | .le => left ≤ right
  | .gt => right < left
  | .ge => right ≤ left
  | _ => false

structure EvalContext where
  index : CodeIndex
  univ : SymbolSet
  metrics : LinkageMetrics
  minCoverage : ℕ

def EvalContext.of (index : CodeIndex) (l : LinkageSnapshot) (u : SymbolSet) (minCoverage : ℕ) :
    EvalContext :=
  ⟨index, u, .build index l u, minCoverage⟩

/-- The coverage and the cache that the evaluation updates. -/
structure EvalState where
  coverage : CoverageCounts
  cache : AtomCache

structure CountScan where
  pass : SymbolSet
  fail : SymbolSet
  coverage : CoverageCounts

section Evaluation

variable (ctx : EvalContext)

/-- One turn of the loop of `eval_atom`. -/
def scanSymbol (domain : Domain) (op : Op) (limit : ℚ) (s : CountScan) (o : SymbolOrdinal) :
    CountScan :=
  match ctx.index.inventory.record o with
  | none => s
  | some r =>
    let metric := ctx.metrics.metric r.id domain
    let coverage := s.coverage.add metric.coverage
    if metric.percent < ctx.minCoverage then { s with coverage }
    else if compare metric.count op limit then ⟨s.pass.insert o, s.fail, coverage⟩
    else ⟨s.pass, s.fail.insert o, coverage⟩

def evalAtom (a : Atom) (s : EvalState) : TriSet SymbolOrdinal × EvalState :=
  match a with
  | .mk (.number (.count domain filter)) op rhs _ _ =>
    match rhs with
    | .number (.literal limit) =>
      if filter.isSome ∨ ¬(domain = .inRefs ∨ domain = .outRefs) then
        (.allUnknown ctx.univ, s)
      else
        let scan := ctx.univ.elems.foldl (scanSymbol ctx domain op limit) ⟨∅, ∅, s.coverage⟩
        (.partition ctx.univ scan.pass scan.fail, { s with coverage := scan.coverage })
    | _ => (.allUnknown ctx.univ, s)
  | a =>
    let (truth, cache) :=
      CodeMoniker.evalNode ctx.index.inventory ctx.univ (.atom a) s.cache
    (.fromTruth ctx.univ truth, { s with cache })

mutual

def evalNode : Node → EvalState → TriSet SymbolOrdinal × EvalState
  | .atom a, s => evalAtom ctx a s
  | .and nodes, s =>
    let (sets, s) := evalNodes nodes s
    ((TriSet.reduce (.and ctx.univ) sets).getD (.allPass ctx.univ), s)
  | .or nodes, s =>
    let (sets, s) := evalNodes nodes s
    ((TriSet.reduce (.or ctx.univ) sets).getD (.allFail ctx.univ), s)
  | .not node, s =>
    let (set, s) := evalNode node s
    (set.not, s)
  | .implies left right, s =>
    let (premise, s) := evalNode left s
    let (conclusion, s) := evalNode right s
    (.or ctx.univ premise.not conclusion, s)
  | .require _, s | .verticalLayout _, s | .quantifier _ _ _, s => (.allUnknown ctx.univ, s)

def evalNodes : List Node → EvalState → List (TriSet SymbolOrdinal) × EvalState
  | [], s => ([], s)
  | node :: nodes, s =>
    let (set, s) := evalNode node s
    let (sets, s) := evalNodes nodes s
    (set :: sets, s)

end

end Evaluation

/-! ## The value at one symbol -/

/-- A symbol without a record satisfies the negated tests alone. -/
def satisfiedAt : Atom → Option InventorySymbol → Bool
  | a, some r => a.satisfiedBy r
  | .mk (.attr _) .ne (.str _) _ _, none | .mk (.attr _) .regexNoMatch _ _ (some _), none => true
  | _, none => false

section Values

variable (ctx : EvalContext) (o : SymbolOrdinal)

/-- The comparison is open below the threshold. -/
def countValue (domain : Domain) (op : Op) (limit : ℚ) : Option Bool := do
  let r ← ctx.index.inventory.record o
  let metric := ctx.metrics.metric r.id domain
  if metric.percent < ctx.minCoverage then none else some (compare metric.count op limit)

def atomValue (a : Atom) : Option Bool :=
  match a with
  | .mk (.number (.count domain filter)) op rhs _ _ =>
    match rhs with
    | .number (.literal limit) =>
      if filter.isSome ∨ ¬(domain = .inRefs ∨ domain = .outRefs) then none
      else countValue ctx o domain op limit
    | _ => none
  | a => some (satisfiedAt a (ctx.index.inventory.record o))

mutual

/-- The strong Kleene value of an expression. -/
def value : Node → Option Bool
  | .atom a => atomValue ctx o a
  | .and nodes => fold false false (values nodes)
  | .or nodes => fold true false (values nodes)
  | .not node => (value node).map (! ·)
  | .implies left right => fold true false [(value left).map (! ·), value right]
  | .require _ | .verticalLayout _ | .quantifier _ _ _ => none

def values : List Node → List (Option Bool)
  | [] => []
  | node :: nodes => value node :: values nodes

end

end Values

/-! ## Atoms -/

section Atoms

variable {ctx : EvalContext}

section Scan

variable {domain : Domain} {op : Op} {limit : ℚ}

/-- A turn of the loop files the symbol under its value. -/
theorem scanSymbol_sets (s : CountScan) (o : SymbolOrdinal) :
    (scanSymbol ctx domain op limit s o).pass =
        (if countValue ctx o domain op limit = some true then s.pass.insert o else s.pass) ∧
      (scanSymbol ctx domain op limit s o).fail =
        (if countValue ctx o domain op limit = some false then s.fail.insert o else s.fail) := by
  unfold scanSymbol countValue
  cases ctx.index.inventory.record o with
  | none => exact ⟨rfl, rfl⟩
  | some r =>
    simp only [bind_eq_bind, bind_some]
    split_ifs <;> simp_all

end Scan

theorem partition_scan (domain : Domain) (op : Op) (limit : ℚ) (c : CoverageCounts) :
    partition ctx.univ (ctx.univ.elems.foldl (scanSymbol ctx domain op limit) ⟨∅, ∅, c⟩).pass
        (ctx.univ.elems.foldl (scanSymbol ctx domain op limit) ⟨∅, ∅, c⟩).fail =
      .ofClass ctx.univ fun o => countValue ctx o domain op limit := by
  refine partition_eq (fun o => ?_) fun o => ?_
  · rw [OrdSet.mem_foldl_insert_if (g := CountScan.pass) fun s o => (scanSymbol_sets s o).1]
    simp
  · rw [OrdSet.mem_foldl_insert_if (g := CountScan.fail) fun s o => (scanSymbol_sets s o).2]
    simp

/-- The facets answer an atom symbol by symbol. -/
theorem evalAtom_eq_filter (x : SymbolInventoryIndex) (u : SymbolSet) (a : Atom) :
    CodeMoniker.evalAtom x u a = u.filter fun o => satisfiedAt a (x.record o) = true := by
  ext o
  rw [OrdSet.mem_filter]
  obtain ⟨lhs, op, rhs, raw, regex⟩ := a
  cases lhs with
  | attr lhs =>
    cases op with
    | eq | ne =>
      cases rhs with
      | str v =>
        cases hr : x.record o <;>
          simp [CodeMoniker.evalAtom, evalExact, mem_exactPostings, satisfiedAt, Atom.satisfiedBy,
            hr, and_comm]
      | _ =>
        cases hr : x.record o <;>
          simp [CodeMoniker.evalAtom, evalExact, satisfiedAt, Atom.satisfiedBy]
    | regexMatch | regexNoMatch =>
      cases regex with
      | some re =>
        cases hr : x.record o <;>
          simp [CodeMoniker.evalAtom, evalRegex, mem_scannedPostings, satisfiedAt,
            Atom.satisfiedBy, hr, and_comm]
      | none =>
        cases hr : x.record o <;>
          simp [CodeMoniker.evalAtom, evalRegex, satisfiedAt, Atom.satisfiedBy]
    | pathMatch =>
      cases rhs with
      | pathPattern pattern =>
        cases hr : x.record o <;>
          simp [CodeMoniker.evalAtom, mem_evalPath, satisfiedAt, Atom.satisfiedBy, hr]
      | _ =>
        cases hr : x.record o <;>
          simp [CodeMoniker.evalAtom, evalPath, satisfiedAt, Atom.satisfiedBy]
    | _ =>
      cases hr : x.record o <;> simp [CodeMoniker.evalAtom, satisfiedAt, Atom.satisfiedBy]
  | _ => cases hr : x.record o <;> simp [CodeMoniker.evalAtom, satisfiedAt, Atom.satisfiedBy]

end Atoms

/-! ## Expressions -/

section Nodes

variable {ctx : EvalContext} {atoms : List Atom}

theorem values_eq_map (o : SymbolOrdinal) : ∀ nodes : List Node,
    values ctx o nodes = nodes.map (value ctx o)
  | [] => rfl
  | node :: nodes => by rw [values, values_eq_map o nodes, map_cons]

/-- The atoms that are not comparisons of counts are answered by the facets. -/
theorem evalAtom_facet {a : Atom} {s : EvalState} (ht : Textual atoms) (ha : a ∈ atoms)
    (hs : s.cache.Answers ctx.index.inventory ctx.univ atoms) :
    (CodeMoniker.evalNode ctx.index.inventory ctx.univ (.atom a) s.cache).1 =
        CodeMoniker.evalAtom ctx.index.inventory ctx.univ a ∧
      (CodeMoniker.evalNode ctx.index.inventory ctx.univ (.atom a) s.cache).2.Answers
        ctx.index.inventory ctx.univ atoms := by
  unfold CodeMoniker.evalNode
  cases hl : s.cache.lookup a.raw with
  | some set => exact ⟨hs a ha set hl, hs⟩
  | none => exact ⟨rfl, hs.insert ht ha⟩

theorem evalAtom_eq (ht : Textual atoms) {a : Atom} (ha : a ∈ atoms) {s : EvalState}
    (hs : s.cache.Answers ctx.index.inventory ctx.univ atoms) :
    (evalAtom ctx a s).1 = .ofClass ctx.univ (fun o => atomValue ctx o a) ∧
      (evalAtom ctx a s).2.cache.Answers ctx.index.inventory ctx.univ atoms := by
  obtain ⟨hset, hcache⟩ := evalAtom_facet ht ha hs
  rw [evalAtom_eq_filter] at hset
  have hfacet : fromTruth ctx.univ
      (CodeMoniker.evalNode ctx.index.inventory ctx.univ (.atom a) s.cache).1 =
        .ofClass ctx.univ fun o => some (satisfiedAt a (ctx.index.inventory.record o)) := by
    rw [hset]
    exact fromTruth_filter _
  unfold evalAtom atomValue
  split
  · split
    · split_ifs
      · exact ⟨allUnknown_eq, hs⟩
      · exact ⟨partition_scan _ _ _ _, hs⟩
    · exact ⟨allUnknown_eq, hs⟩
  · exact ⟨hfacet, hcache⟩

mutual

/-- The answer holds the strong Kleene value at each symbol of the universe. -/
theorem evalNode_eq (ht : Textual atoms) : ∀ (node : Node) (s : EvalState),
    (∀ a ∈ node.atoms, a ∈ atoms) → s.cache.Answers ctx.index.inventory ctx.univ atoms →
      (evalNode ctx node s).1 = .ofClass ctx.univ (fun o => value ctx o node) ∧
        (evalNode ctx node s).2.cache.Answers ctx.index.inventory ctx.univ atoms
  | .atom a, s, hsub, hs => by
    simp only [evalNode, value]
    exact evalAtom_eq ht (hsub a (by simp [Node.atoms])) hs
  | .and nodes, s, hsub, hs => by
    obtain ⟨hsets, hs'⟩ := evalNodes_eq ht nodes s (by simpa only [Node.atoms] using hsub) hs
    refine ⟨?_, by simpa only [evalNode] using hs'⟩
    simp only [evalNode, value, values_eq_map, hsets]
    exact reduce_and_ofClass (fun n o => value ctx o n) nodes
  | .or nodes, s, hsub, hs => by
    obtain ⟨hsets, hs'⟩ := evalNodes_eq ht nodes s (by simpa only [Node.atoms] using hsub) hs
    refine ⟨?_, by simpa only [evalNode] using hs'⟩
    simp only [evalNode, value, values_eq_map, hsets]
    exact reduce_or_ofClass (fun n o => value ctx o n) nodes
  | .not node, s, hsub, hs => by
    obtain ⟨hset, hs'⟩ := evalNode_eq ht node s (by simpa only [Node.atoms] using hsub) hs
    refine ⟨?_, by simpa only [evalNode] using hs'⟩
    simp only [evalNode, value, hset]
    exact not_ofClass
  | .implies left right, s, hsub, hs => by
    simp only [Node.atoms, mem_append] at hsub
    obtain ⟨hleft, hs'⟩ := evalNode_eq ht left s (fun a ha => hsub a (Or.inl ha)) hs
    obtain ⟨hright, hs''⟩ := evalNode_eq ht right _ (fun a ha => hsub a (Or.inr ha)) hs'
    refine ⟨?_, by simpa only [evalNode] using hs''⟩
    simp only [evalNode, value, hleft, hright, not_ofClass]
    exact or_ofClass
  | .require _, _, _, hs | .verticalLayout _, _, _, hs | .quantifier _ _ _, _, _, hs => by
    simp only [evalNode, value]
    exact ⟨allUnknown_eq, hs⟩

theorem evalNodes_eq (ht : Textual atoms) : ∀ (nodes : List Node) (s : EvalState),
    (∀ a ∈ Node.atomsOf nodes, a ∈ atoms) → s.cache.Answers ctx.index.inventory ctx.univ atoms →
      (evalNodes ctx nodes s).1 = nodes.map (fun n => .ofClass ctx.univ fun o => value ctx o n) ∧
        (evalNodes ctx nodes s).2.cache.Answers ctx.index.inventory ctx.univ atoms
  | [], _, _, hs => ⟨rfl, hs⟩
  | node :: nodes, s, hsub, hs => by
    simp only [Node.atomsOf, mem_append] at hsub
    obtain ⟨hset, hs'⟩ := evalNode_eq ht node s (fun a ha => hsub a (Or.inl ha)) hs
    obtain ⟨hsets, hs''⟩ := evalNodes_eq ht nodes _ (fun a ha => hsub a (Or.inr ha)) hs'
    refine ⟨?_, by simpa only [evalNodes] using hs''⟩
    simp only [evalNodes, hset, hsets, map_cons]

end

mutual

/-- More settled atoms settle more of every expression. -/
theorem value_extends {ctx ctx' : EvalContext} {o : SymbolOrdinal}
    (h : ∀ a, Extends (atomValue ctx o a) (atomValue ctx' o a)) :
    ∀ node : Node, Extends (value ctx o node) (value ctx' o node)
  | .atom a => h a
  | .and nodes | .or nodes => fold_extends_forall₂ (values_extends h nodes)
  | .not node => (value_extends h node).map _
  | .implies left right =>
    fold_extends_forall₂
      (.cons ((value_extends h left).map _) (.cons (value_extends h right) .nil))
  | .require _ | .verticalLayout _ | .quantifier _ _ _ => Extends.refl _

theorem values_extends {ctx ctx' : EvalContext} {o : SymbolOrdinal}
    (h : ∀ a, Extends (atomValue ctx o a) (atomValue ctx' o a)) :
    ∀ nodes : List Node, Forall₂ Extends (values ctx o nodes) (values ctx' o nodes)
  | [] => .nil
  | node :: nodes => .cons (value_extends h node) (values_extends h nodes)

end

end Nodes

/-! ## The threshold -/

section Threshold

variable {index : CodeIndex} {l l' : LinkageSnapshot} {u : SymbolSet} {threshold : ℕ}

/-- An atom asks for the counts at most. -/
theorem atomValue_extends {ctx ctx' : EvalContext} (hindex : ctx'.index = ctx.index)
    {o : SymbolOrdinal} (h : ∀ domain op limit,
      Extends (countValue ctx o domain op limit) (countValue ctx' o domain op limit)) (a : Atom) :
    Extends (atomValue ctx o a) (atomValue ctx' o a) := by
  unfold atomValue
  split
  · split
    · split_ifs
      · exact Extends.refl _
      · exact h _ _ _
    · exact Extends.refl _
  · rw [hindex]
    exact Extends.refl _

theorem countValue_eq_some {ctx : EvalContext} {o : SymbolOrdinal} {domain : Domain} {op : Op}
    {limit : ℚ} {b : Bool} : countValue ctx o domain op limit = some b ↔
      ∃ r, ctx.index.inventory.record o = some r ∧
        ctx.minCoverage ≤ (ctx.metrics.metric r.id domain).percent ∧
        compare (ctx.metrics.metric r.id domain).count op limit = b := by
  simp only [countValue, bind_eq_bind, bind_eq_some_iff]
  refine exists_congr fun r => and_congr_right fun _ => ?_
  split_ifs with hlow
  · simp [hlow]
  · simp [not_lt.mp hlow]

/-- What is settled at a higher threshold is settled in the same way. -/
theorem value_threshold_extends {threshold' : ℕ} (hle : threshold ≤ threshold') (node : Node)
    (o : SymbolOrdinal) :
    Extends (value (.of index l u threshold') o node) (value (.of index l u threshold) o node) := by
  refine value_extends (fun a => atomValue_extends (by rfl) (fun domain op limit b hb => ?_) a) node
  obtain ⟨r, hr, hpercent, hcompare⟩ := countValue_eq_some.mp hb
  exact countValue_eq_some.mpr ⟨r, hr, hle.trans hpercent, hcompare⟩

end Threshold

/-! ## Resolving open references -/

/-- The linkage leaves it open that the reference is to `t` : `t` is a recorded candidate, or
none is recorded and `t` has the target identity. -/
def Admits (index : CodeIndex) (r : ReferenceRecord) (c : ReferenceClassification) (t : SymbolId) :
    Prop :=
  let identified := ∃ o s, index.inventory.record o = some s ∧ s.identity = r.targetIdentity ∧
    s.id = t
  match c with
  | .candidates targets | .dynamic targets => if targets = [] then identified else t ∈ targets
  | .ofClass c => c.decided = false ∧ identified
  | .resolved _ => False

/-- `l'` decides the references as `l` does, but for open ones that it resolves. -/
def ResolvesOpen (index : CodeIndex) (l l' : LinkageSnapshot) : Prop :=
  ∀ r ∈ index.references.iter, classify l' r.id = classify l r.id ∨
    ∃ t, Admits index r (classify l r.id) t ∧ classify l' r.id = .resolved t

/-- A reference with candidates has some. -/
def RecordsCandidates (l : LinkageSnapshot) : Prop := ∀ c ∈ l.candidates, c.targets ≠ []

/-- The symbols whose incoming metric counts a reference. -/
def attributed (index : CodeIndex) (r : ReferenceRecord) : ReferenceClassification → List SymbolId
  | .resolved target => [target]
  | .candidates targets => targets
  | .dynamic targets => if targets ≠ [] then targets else uncertainTargets index r
  | .ofClass .external => []
  | .ofClass _ => uncertainTargets index r

theorem LinkageMetrics.record_eq (m : LinkageMetrics) (index : CodeIndex) (r : ReferenceRecord)
    (c : ReferenceClassification) :
    m.record index r c = m.recordTargets r.sourceSymbol (attributed index r c) c.toClass := by
  cases c with
  | resolved target => rfl
  | candidates targets => rfl
  | dynamic targets => cases targets <;> rfl
  | ofClass c => cases c <;> rfl

section Metrics

variable {index : CodeIndex} {l l' : LinkageSnapshot} {u : SymbolSet}

/-- The classes under which the references count for `t`. -/
def incomingClasses (index : CodeIndex) (l : LinkageSnapshot) (t : SymbolId)
    (rs : List ReferenceRecord) : List ReferenceClass :=
  rs.flatMap fun r => ((attributed index r (classify l r.id)).filter (· = t)).map fun _ =>
    (classify l r.id).toClass

def outgoingClasses (l : LinkageSnapshot) (s : SymbolId) (rs : List ReferenceRecord) :
    List ReferenceClass :=
  (rs.filter (·.sourceSymbol = s)).map fun r => (classify l r.id).toClass

open ReferenceMetric

theorem foldl_recordAt (c : ReferenceClass) (t : SymbolId) :
    ∀ (targets : List SymbolId) (m : SymbolId → ReferenceMetric),
      targets.foldl (recordAt · · c) m t =
        ((targets.filter (· = t)).map fun _ => c).foldl record (m t)
  | [], m => rfl
  | target :: targets, m => by
    rw [foldl_cons, foldl_recordAt c t targets]
    by_cases ht : target = t
    · subst ht
      simp [recordAt]
    · simp [recordAt, ht, Function.update_of_ne (Ne.symm ht)]

open LinkageMetrics

theorem foldl_record_metrics (l : LinkageSnapshot) (t : SymbolId) :
    ∀ (rs : List ReferenceRecord) (m : LinkageMetrics),
      (rs.foldl (fun m r => m.record index r (classify l r.id)) m).incoming t =
          (incomingClasses index l t rs).foldl record (m.incoming t) ∧
        (rs.foldl (fun m r => m.record index r (classify l r.id)) m).outgoing t =
          (outgoingClasses l t rs).foldl record (m.outgoing t)
  | [], m => ⟨rfl, rfl⟩
  | r :: rs, m => by
    obtain ⟨hin, hout⟩ := foldl_record_metrics l t rs (m.record index r (classify l r.id))
    rw [foldl_cons, hin, hout, record_eq]
    constructor
    · simp only [recordTargets]
      rw [foldl_recordAt, ← foldl_append]
      rfl
    · by_cases hs : r.sourceSymbol = t
      · simp [recordTargets, recordAt, outgoingClasses, hs]
      · simp [recordTargets, recordAt, outgoingClasses, hs, Function.update_of_ne (Ne.symm hs)]

theorem incoming_build (t : SymbolId) : (build index l u).incoming t =
    .ofClasses (incomingClasses index l t (considered index u)) :=
  (foldl_record_metrics l t _ {}).1

theorem outgoing_build (s : SymbolId) : (build index l u).outgoing s =
    .ofClasses (outgoingClasses l s (considered index u)) :=
  (foldl_record_metrics l s _ {}).2

theorem mem_uncertainTargets {r : ReferenceRecord} {t : SymbolId} :
    t ∈ uncertainTargets index r ↔ ∃ o s, index.inventory.record o = some s ∧
      s.identity = r.targetIdentity ∧ s.id = t := by
  simp only [uncertainTargets, mem_filterMap, OrdSet.mem_elems, map_eq_some_iff,
    index.inventory.described.identity.mem_get_single]
  constructor
  · rintro ⟨o, ⟨s, hs, hidentity⟩, s', hs', ht⟩
    obtain rfl := some.inj (hs.symm.trans hs')
    exact ⟨o, s, hs, hidentity, ht⟩
  · rintro ⟨o, s, hs, hidentity, ht⟩
    exact ⟨o, ⟨s, hs, hidentity⟩, s, hs, ht⟩

theorem targets_ne_nil {id : ReferenceId} {targets : List SymbolId} (hl : RecordsCandidates l)
    (h : classify l id = .candidates targets) : targets ≠ [] := by
  unfold classify at h
  split at h
  · simp at h
  · split at h
    · next c hc =>
      obtain rfl := ReferenceClassification.candidates.inj h
      exact hl c (mem_of_find?_eq_some hc)
    · split at h
      · simp at h
      · split at h
        · simp at h
        · split at h <;> simp at h

/-- An open reference counts as such for every symbol it may turn out to refer to. -/
theorem Admits.attributed {r : ReferenceRecord} {t : SymbolId} (hl : RecordsCandidates l)
    (h : Admits index r (classify l r.id) t) : (classify l r.id).toClass.decided = false ∧
      t ∈ LinkageRules.attributed index r (classify l r.id) := by
  unfold Admits at h
  cases hc : classify l r.id with
  | resolved target => simp [hc] at h
  | candidates targets =>
    simp only [hc, if_neg (targets_ne_nil hl hc)] at h
    exact ⟨rfl, h⟩
  | dynamic targets =>
    refine ⟨rfl, ?_⟩
    simp only [hc] at h
    split_ifs at h with hnil
    · subst hnil
      exact mem_uncertainTargets.mpr h
    · rw [LinkageRules.attributed, if_pos hnil]
      exact h
  | ofClass c =>
    simp only [hc] at h
    refine ⟨h.1, ?_⟩
    cases c with
    | resolved | external => simp [ReferenceClass.decided] at h
    | candidate | dynamic | blocked | unresolved => exact mem_uncertainTargets.mpr h.2

/-- A metric at full coverage counts no open reference, so it stays. -/
theorem metric_eq_of_full (h : ResolvesOpen index l l') (hl : RecordsCandidates l) {t : SymbolId}
    {domain : Domain} (hfull : 100 ≤ ((build index l u).metric t domain).percent) :
    (build index l' u).metric t domain = (build index l u).metric t domain := by
  have hsub : ∀ r ∈ considered index u, r ∈ index.references.iter := fun r hr =>
    (mem_filter.mp hr).1
  cases domain with
  | inRefs =>
    simp only [metric, incoming_build] at hfull ⊢
    have hdecided := decided_of_percent hfull
    congr 1
    refine flatMap_congr fun r hr => ?_
    rcases h r (hsub r hr) with heq | ⟨t', ht', heq⟩
    · rw [heq]
    · obtain ⟨hopen, hmem⟩ := ht'.attributed hl
      -- the reference does not count for `t`, or it would do so undecided
      have hnot : t ∉ attributed index r (classify l r.id) := by
        intro ht
        have := hdecided _ (mem_flatMap.mpr ⟨r, hr, List.mem_map.mpr
          ⟨t, mem_filter.mpr ⟨ht, by simp⟩, rfl⟩⟩)
        simp [hopen] at this
      have hne : t' ≠ t := fun htt => hnot (htt ▸ hmem)
      have hnone : (attributed index r (classify l r.id)).filter (· = t) = [] :=
        filter_eq_nil_iff.mpr fun x hx => by
          simpa using fun hxt : x = t => hnot (hxt ▸ hx)
      rw [hnone, heq]
      simp [attributed, hne]
  | outRefs =>
    simp only [metric, outgoing_build] at hfull ⊢
    have hdecided := decided_of_percent hfull
    congr 1
    refine map_congr_left fun r hr => ?_
    rcases h r (hsub r (mem_filter.mp hr).1) with heq | ⟨t', ht', heq⟩
    · rw [heq]
    · have := hdecided _ (List.mem_map.mpr ⟨r, hr, rfl⟩)
      simp [(ht'.attributed hl).1] at this
  | _ => rfl

/-- At a threshold of 100 a settled value stays when open references are resolved. -/
theorem value_resolves_extends (h : ResolvesOpen index l l') (hl : RecordsCandidates l)
    (node : Node) (o : SymbolOrdinal) :
    Extends (value (.of index l u 100) o node) (value (.of index l' u 100) o node) := by
  refine value_extends (fun a => atomValue_extends (by rfl) (fun domain op limit b hb => ?_) a) node
  obtain ⟨r, hr, hpercent, hcompare⟩ := countValue_eq_some.mp hb
  have hmetric : (EvalContext.of index l' u 100).metrics.metric r.id domain =
      (EvalContext.of index l u 100).metrics.metric r.id domain := metric_eq_of_full h hl hpercent
  refine countValue_eq_some.mpr ⟨r, hr, ?_, ?_⟩
  · rw [hmetric]
    exact hpercent
  · rw [hmetric]
    exact hcompare

end Metrics

/-! ## The evaluation is cautious -/

/-- The answer of `eval_node` to an expression partitions the universe, each symbol by its
strong Kleene value. A higher threshold settles less, and at a threshold of 100 a settled symbol
keeps its class whatever the open references are resolved to. -/
theorem evalNode_cautious (index : CodeIndex) (u : SymbolSet) {atoms : List Atom}
    (ht : Textual atoms) (node : Node) (hsub : ∀ a ∈ node.atoms, a ∈ atoms) (l : LinkageSnapshot)
    (threshold : ℕ) (s : EvalState) (hs : s.cache.Answers index.inventory u atoms) :
    let out := evalNode (.of index l u threshold) node s
    (out.1.Partitions u ∧ (∀ o ∈ u, out.1.classOf o = value (.of index l u threshold) o node) ∧
      out.2.cache.Answers index.inventory u atoms) ∧
    (∀ threshold' ≥ threshold, ∀ s' : EvalState, s'.cache.Answers index.inventory u atoms →
      ∀ o ∈ u, Extends ((evalNode (.of index l u threshold') node s').1.classOf o)
        (out.1.classOf o)) ∧
    (threshold = 100 → RecordsCandidates l → ∀ l', ResolvesOpen index l l' →
      ∀ s' : EvalState, s'.cache.Answers index.inventory u atoms →
        ∀ o ∈ u, Extends (out.1.classOf o)
          ((evalNode (.of index l' u 100) node s').1.classOf o)) := by
  have heval : ∀ (l : LinkageSnapshot) (threshold : ℕ) (s : EvalState),
      s.cache.Answers index.inventory u atoms →
        (evalNode (.of index l u threshold) node s).1 =
          .ofClass u fun o => value (.of index l u threshold) o node := fun l threshold s hs =>
    (@evalNode_eq (.of index l u threshold) atoms ht node s hsub hs).1
  intro out
  have hout : out.1 = .ofClass u fun o => value (.of index l u threshold) o node :=
    heval l threshold s hs
  refine ⟨⟨?_, ?_, ?_⟩, ?_, ?_⟩
  · rw [hout]
    exact partitions_ofClass
  · intro o ho
    rw [hout, classOf_ofClass ho]
  · exact (@evalNode_eq (.of index l u threshold) atoms ht node s hsub hs).2
  · intro threshold' hle s' hs' o ho
    rw [hout, heval l threshold' s' hs', classOf_ofClass ho, classOf_ofClass ho]
    exact value_threshold_extends hle node o
  · rintro rfl hl l' hl' s' hs' o ho
    rw [hout, heval l' 100 s' hs', classOf_ofClass ho, classOf_ofClass ho]
    exact value_resolves_extends hl' hl node o

section Example

open IndexedPredicates

theorem resolvesOpen_class : ResolvesOpen classIndex classCandidate classResolved := by
  intro r hr
  obtain rfl : r = ⟨⟨0, 0⟩, ⟨0, 1⟩, "code+moniker://app/class:C", "uses_type"⟩ := by
    simpa [classIndex, ReferenceTable.iter] using hr
  exact Or.inr ⟨⟨0, 0⟩, mem_singleton.mpr rfl, rfl⟩

/-- The class has a candidate reference, so its number is open; the method has none, and still
has none after the reference is resolved. -/
theorem evalNode_cautious_method :
    (evalNode (.of classIndex classCandidate (.ofList [0, 1]) 100) noIncoming
        ⟨{}, ∅⟩).1.classOf 0 = none ∧
      (evalNode (.of classIndex classResolved (.ofList [0, 1]) 100) noIncoming
        ⟨{}, ∅⟩).1.classOf 1 = some true := by
  refine ⟨by decide, ?_⟩
  have ht : Textual noIncoming.atoms := fun a ha b hb _ =>
    (mem_singleton.mp ha).trans (mem_singleton.mp hb).symm
  have hmethod := evalNode_cautious classIndex (.ofList [0, 1]) ht noIncoming (fun _ h => h)
    classCandidate 100 ⟨{}, ∅⟩ AtomCache.answers_empty
  exact hmethod.2.2 rfl (fun c hc => by simp [classCandidate] at hc; simp [hc]) classResolved
    resolvesOpen_class ⟨{}, ∅⟩ AtomCache.answers_empty 1 (by decide) true (by decide)

end Example

end LinkageRules

end CodeMoniker
