import CodeMoniker.PathSearchSpec

/-!
# Corridors between two sets of symbols

A corridor is what lies on the short walks from one set of symbols to another. Two breadth-first
searches, forwards from the first set and backwards from the second, collect the symbols at each
depth (`CorridorTraversal.walk`). They share the budgets for symbols and references, and the second
takes up references that the first has read (`reuseSeen`). `finishCorridor` joins the layers : a
symbol is a member, and a reference an edge, when the depths of the two sides fit into the limit.
-/

namespace CodeMoniker

/-- A corridor is searched within a set of symbols. -/
structure BoundedCorridorScope where
  symbols : SymbolSet
  nonempty : symbols ≠ ∅

namespace BoundedCorridorScope

def asPathScope (scope : BoundedCorridorScope) : BoundedPathScope := .fromSymbols scope.symbols

end BoundedCorridorScope

structure BoundedCorridorSearch where
  members : List SymbolId := []
  edges : List BoundedPathEdge := []
  coverage : BoundedPathCoverage := {}
  forwardDepthReached : ℕ := 0
  reverseDepthReached : ℕ := 0
  exploredSymbols : ℕ := 0
  exploredEdges : ℕ := 0
  depthLimitReached : Bool := false
  symbolLimitReached : Bool := false
  edgeLimitReached : Bool := false

structure BoundedCorridorRequest where
  source : SymbolId
  target : SymbolId
  relations : List String
  limits : BoundedPathLimits
  scope : BoundedCorridorScope

structure BoundedCorridorSetRequest where
  source : SymbolSet
  target : SymbolSet
  relations : List String
  limits : BoundedPathLimits
  scope : BoundedCorridorScope

/-! ## State -/

structure CorridorState where
  seenSymbols : SymbolSet := ∅
  references : ReferenceTraversal := {}
  search : BoundedCorridorSearch := {}

namespace CorridorState

/-- Candidates that were seen before cost nothing; of the others only as many are admitted as the
budget has left. -/
def admitSymbols (st : CorridorState) (candidates : SymbolSet) (limits : BoundedPathLimits) :
    SymbolSet × CorridorState :=
  let alreadySeen := candidates ∩ st.seenSymbols
  let unseen := candidates \ st.seenSymbols
  let remaining := limits.maxSymbols - st.seenSymbols.card
  let cut : Bool := unseen.card > remaining
  let admittedUnseen := if cut then unseen.take remaining else unseen
  (alreadySeen ∪ admittedUnseen, { st with
      seenSymbols := st.seenSymbols ∪ admittedUnseen
      search := { st.search with symbolLimitReached := st.search.symbolLimitReached || cut } })

def tallyMissingOrdinal (st : CorridorState) : CorridorState :=
  { st with references := st.references.tallyMissingOrdinal }

def recordDepth (st : CorridorState) (direction : TraversalDirection) (depth : ℕ) :
    CorridorState :=
  match direction with
  | .forward => { st with search := { st.search with forwardDepthReached := depth } }
  | .reverse => { st with search := { st.search with reverseDepthReached := depth } }

end CorridorState

/-- The symbols at each depth. -/
structure CorridorLayers where
  exact : List SymbolSet := []

/-! ## The two searches -/

structure CorridorTraversal where
  index : LinkageReadIndex
  relations : List String
  scope : BoundedPathScope
  limits : BoundedPathLimits

namespace CorridorTraversal

def new (index : LinkageReadIndex) (relations : List String) (limits : BoundedPathLimits)
    (scope : BoundedPathScope) : CorridorTraversal :=
  ⟨index, relations.eraseDups, scope, limits⟩

variable (t : CorridorTraversal)

def endpointsBetween (source target : SymbolSet) :
    Option (SymbolSet × SymbolSet) :=
  let inScope (symbols : SymbolSet) : SymbolSet :=
    symbols.filter fun o => t.scope.contains t.index o
  if inScope source ≠ ∅ ∧ inScope target ≠ ∅ then some (inScope source, inScope target) else none

/-- The end of a reference that a search in some direction leads to. -/
def farEnd (direction : TraversalDirection) (r : ReferenceOrdinal) :
    Option SymbolOrdinal :=
  match direction with
  | .forward => t.index.referenceTarget r
  | .reverse => t.index.referenceSource r

/-- One turn of the loop of `symbols_from_references`. -/
def addFarEnd (direction : TraversalDirection)
    (acc : SymbolSet × CorridorState) (r : ReferenceOrdinal) : SymbolSet × CorridorState :=
  match t.farEnd direction r with
  | some symbol => (acc.1.insert symbol, acc.2)
  | none => (acc.1, acc.2.tallyMissingOrdinal)

def symbolsFromReferences (st : CorridorState)
    (direction : TraversalDirection) (references : ReferenceSet) : SymbolSet × CorridorState :=
  references.elems.foldl (t.addFarEnd direction) (∅, st)

/-- The first half of a round : the symbols that the resolved references of a frontier lead to,
without those that were reached before. -/
def expand (direction : TraversalDirection) (depth : ℕ)
    (frontier reached : SymbolSet) (st : CorridorState) : SymbolSet × CorridorState :=
  let st := st.recordDepth direction depth
  let selection : ReferenceSelection := ⟨direction, frontier, t.scope, direction = .reverse⟩
  let (batch, _, references) :=
    st.references.admitFrontier t.index t.relations selection t.limits.maxEdges
  let (symbols, st) := t.symbolsFromReferences { st with references := references } direction
    (batch ∩ t.index.classifications.resolved)
  (symbols \ reached, st)

/-- The loop over the depths, `left` rounds before the last one. -/
def walkFrom (t : CorridorTraversal) (direction : TraversalDirection) :
    (left : ℕ) → (frontier reached : SymbolSet) → (exact : List SymbolSet) → CorridorState →
      CorridorLayers × CorridorState
  | 0, frontier, reached, exact, st =>
    let (next, st) := t.expand direction t.limits.maxDepth frontier reached st
    if next ≠ ∅ then (⟨exact⟩, { st with search := { st.search with depthLimitReached := true } })
    else (⟨exact⟩, st)
  | left + 1, frontier, reached, exact, st =>
    let (next, st) := t.expand direction (t.limits.maxDepth - (left + 1)) frontier reached st
    if next = ∅ then (⟨exact⟩, st)
    else
      let (next, st) := st.admitSymbols next t.limits
      if next = ∅ then (⟨exact⟩, st)
      else if st.search.symbolLimitReached then (⟨exact ++ [next]⟩, st)
      else t.walkFrom direction left next (reached ∪ next) (exact ++ [next]) st

def walk (direction : TraversalDirection) (start : SymbolSet)
    (st : CorridorState) : CorridorLayers × CorridorState :=
  t.walkFrom direction t.limits.maxDepth start start [start] st

end CorridorTraversal

/-! ## Joining the layers -/

def cumulativeFrom (reached : SymbolSet) : List SymbolSet → List SymbolSet
  | [] => []
  | layer :: layers => (reached ∪ layer) :: cumulativeFrom (reached ∪ layer) layers

def cumulativeSymbolLayers (layers : List SymbolSet) : List SymbolSet := cumulativeFrom ∅ layers

def layerDepth (layers : List SymbolSet) (symbol : SymbolOrdinal) : Option ℕ :=
  layers.findIdx? (symbol ∈ ·)

/-- The members that one layer of the forward search contributes. -/
def layerMembers (maxDepth : ℕ) (reverseCumulative : List SymbolSet) (layer : SymbolSet × ℕ) :
    SymbolSet :=
  match reverseCumulative[min (maxDepth - layer.2) (reverseCumulative.length - 1)]? with
  | some reverseWithin => layer.1 ∩ reverseWithin
  | none => ∅

def corridorMembers (maxDepth : ℕ) (forward reverse : List SymbolSet) : SymbolSet :=
  forward.zipIdx.foldl (fun members layer =>
    members ∪ layerMembers maxDepth (cumulativeSymbolLayers reverse) layer) ∅

variable (index : LinkageReadIndex)

/-- Whether a resolved reference that was read lies on a short walk. -/
def inCorridor (maxDepth : ℕ) (forward reverse : List SymbolSet)
    (r : ReferenceOrdinal) : Bool :=
  match index.referenceSource r, index.referenceTarget r with
  | some source, some target =>
    match layerDepth forward source, layerDepth reverse target with
    | some forwardDepth, some reverseDepth => forwardDepth + 1 + reverseDepth ≤ maxDepth
    | _, _ => false
  | _, _ => false

def corridorEdgeReferences (maxDepth : ℕ) (seenReferences : ReferenceSet)
    (forward reverse : List SymbolSet) : ReferenceSet :=
  (seenReferences ∩ index.classifications.resolved).filter fun r =>
    inCorridor index maxDepth forward reverse r

def corridorEdge (r : ReferenceOrdinal) : Option BoundedPathEdge := do
  let source ← index.referenceSource r
  let target ← index.referenceTarget r
  return ⟨← index.symbol source, ← index.symbol target, ← index.referenceId r⟩

/-- The derived order of the ids. -/
def SymbolId.le (a b : SymbolId) : Bool :=
  a.file < b.file || (a.file = b.file && a.defIdx ≤ b.defIdx)

def ReferenceId.le (a b : ReferenceId) : Bool :=
  a.file < b.file || (a.file = b.file && a.reference ≤ b.reference)

/-- The order by source, target and reference. -/
def BoundedPathEdge.le (a b : BoundedPathEdge) : Bool :=
  if a.source ≠ b.source then a.source.le b.source
  else if a.target ≠ b.target then a.target.le b.target
  else a.reference.le b.reference

def finishCorridor (limits : BoundedPathLimits) (st : CorridorState)
    (forward reverse : CorridorLayers) : BoundedCorridorSearch :=
  { st.search with
    members :=
      (corridorMembers limits.maxDepth forward.exact reverse.exact).elems.filterMap index.symbol
    edges := ((corridorEdgeReferences index limits.maxDepth st.references.seen forward.exact
      reverse.exact).elems.filterMap (corridorEdge index)).mergeSort BoundedPathEdge.le
    coverage := st.references.coverage
    exploredEdges := st.references.exploredEdges
    edgeLimitReached := st.references.limitReached
    exploredSymbols := st.seenSymbols.card }

namespace CorridorTraversal

/-- One side of the corridor : no layer without a start, and only the start where both sides are the
same set. -/
def side (t : CorridorTraversal) (direction : TraversalDirection) (same : Bool) (start : SymbolSet)
    (st : CorridorState) : CorridorLayers × CorridorState :=
  if start = ∅ then ({}, st)
  else if same then (⟨[start]⟩, st)
  else t.walk direction start st

def runBetween (t : CorridorTraversal) (source target : SymbolSet) :
    Option BoundedCorridorSearch := do
  let (source, target) ← t.endpointsBetween source target
  let same : Bool := source = target
  let (forwardStart, st) := CorridorState.admitSymbols {} source t.limits
  let (reverseStart, st) := if same then (forwardStart, st) else st.admitSymbols target t.limits
  let (forward, st) := t.side .forward same forwardStart st
  let (reverse, st) := t.side .reverse same reverseStart st
  return finishCorridor t.index t.limits st forward reverse

/-- `run`, between two single symbols. -/
def run (t : CorridorTraversal) (source target : SymbolId) : Option BoundedCorridorSearch := do
  let s ← t.index.ordinal source
  let o ← t.index.ordinal target
  t.runBetween (OrdSet.ofList [s]) (OrdSet.ofList [o])

end CorridorTraversal

/-- `BoundedPathEngine::corridor`. -/
def corridor (q : BoundedCorridorRequest) :
    Option BoundedCorridorSearch :=
  if q.relations = [] ∨ q.scope.asPathScope.exceeds q.limits.maxSymbols ∨
      q.limits.maxDepth > 64 ∨ q.limits.maxSymbols = 0 ∨ q.limits.maxSymbols > 100000 ∨
      q.limits.maxEdges = 0 ∨ q.limits.maxEdges > 500000 then none
  else
    (CorridorTraversal.new index q.relations q.limits q.scope.asPathScope).run q.source q.target

/-- `BoundedPathEngine::corridor_between`. -/
def corridorBetween (q : BoundedCorridorSetRequest) :
    Option BoundedCorridorSearch :=
  if q.source = ∅ ∨ q.target = ∅ ∨ q.source.card > q.limits.maxSymbols ∨
      q.target.card > q.limits.maxSymbols ∨ (q.source ∪ q.target).card > q.limits.maxSymbols ∨
      q.scope.asPathScope.exceeds q.limits.maxSymbols ∨ q.relations = [] ∨
      q.limits.maxDepth > 64 ∨ q.limits.maxSymbols = 0 ∨ q.limits.maxSymbols > 100000 ∨
      q.limits.maxEdges = 0 ∨ q.limits.maxEdges > 500000 then none
  else
    (CorridorTraversal.new index q.relations q.limits q.scope.asPathScope).runBetween q.source
      q.target

end CodeMoniker
