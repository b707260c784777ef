import CodeMoniker.PostingMerge
import CodeMoniker.ReadIndex

/-!
# Bounded path search

A breadth-first search over the read index from one set of symbols to another. Three
budgets bound it : the depth, the number of visited symbols and the number of admitted
references. `ReferenceTraversal.admitFrontier` reads the references of a frontier in increasing
order up to the edge budget and tallies how much of them the linkage has decided;
`PathTraversal.walk` expands one frontier after the other; `reconstructPathFromAny` follows
the predecessors back.
-/

namespace CodeMoniker

/-! ## Requests and answers -/

structure BoundedPathEdge where
  source : SymbolId
  target : SymbolId
  reference : ReferenceId
  deriving DecidableEq, Repr

/-- A count for each reason. -/
abbrev GapReasons := AList fun _ : String => ℕ

/-- How many of the admitted references the linkage decides, by class. `gapReasons` counts
the undecided ones by reason. -/
structure BoundedPathCoverage where
  total : ℕ := 0
  decided : ℕ := 0
  resolved : ℕ := 0
  external : ℕ := 0
  candidate : ℕ := 0
  dynamic : ℕ := 0
  manifestBlocked : ℕ := 0
  unresolved : ℕ := 0
  gapReasons : GapReasons := ∅

def BoundedPathCoverage.percent (c : BoundedPathCoverage) : ℕ :=
  if c.total = 0 then 100 else c.decided * 100 / c.total

structure BoundedPathSearch where
  path : List BoundedPathEdge := []
  coverage : BoundedPathCoverage := {}
  depthReached : ℕ := 0
  exploredSymbols : ℕ := 0
  exploredEdges : ℕ := 0
  depthLimitReached : Bool := false
  symbolLimitReached : Bool := false
  edgeLimitReached : Bool := false

structure BoundedPathLimits where
  maxDepth : ℕ
  maxSymbols : ℕ
  maxEdges : ℕ
  deriving DecidableEq, Repr

/-- Everything, a set of symbols, or the files or source roots the symbols lie in. -/
structure BoundedPathScope where
  all : Bool
  sourceFiles : OrdSet ℕ
  sourceRoots : OrdSet ℕ
  symbols : Option SymbolSet

namespace BoundedPathScope

def everything : BoundedPathScope := ⟨true, ∅, ∅, none⟩

def fromSources (files : List ℕ) : BoundedPathScope := ⟨false, OrdSet.ofList files, ∅, none⟩

def fromSymbols (symbols : SymbolSet) : BoundedPathScope := ⟨false, ∅, ∅, some symbols⟩

def contains (scope : BoundedPathScope) (index : LinkageReadIndex) (o : SymbolOrdinal) : Bool :=
  if scope.all then true
  else match scope.symbols with
    | some symbols => o ∈ symbols
    | none =>
      match index.symbol o with
      | none => false
      | some symbol =>
        if scope.sourceRoots ≠ ∅ then
          match index.sourceRootsByFile[symbol.file]? with
          | some root => root ∈ scope.sourceRoots
          | none => false
        else symbol.file ∈ scope.sourceFiles

def exceeds (scope : BoundedPathScope) (maxSymbols : ℕ) : Bool :=
  match scope.symbols with
  | some symbols => symbols.card > maxSymbols
  | none => false

end BoundedPathScope

structure BoundedPathSetRequest where
  source : SymbolSet
  target : SymbolSet
  relations : List String
  avoid : List SymbolId
  limits : BoundedPathLimits
  scope : BoundedPathScope

/-! ## Reading the references of a frontier -/

inductive TraversalDirection where
  | forward
  | reverse
  deriving DecidableEq, Repr

structure ReferenceSelection where
  direction : TraversalDirection
  frontier : SymbolSet
  scope : BoundedPathScope
  reuseSeen : Bool

variable (index : LinkageReadIndex)

def referencePostingsFromSymbols (direction : TraversalDirection)
    (symbols : SymbolSet) (relations : List String) : List ReferenceSet :=
  symbols.elems.flatMap fun symbol =>
    match direction with
    | .forward => index.outgoingPostings symbol relations
    | .reverse => index.incomingPostings symbol relations

/-- The postings of the selected boundaries, found through the smaller of the two sides. -/
def boundaryPostings (selected : OrdSet ℕ) (postings : Postings ℕ) : List ReferenceSet :=
  if selected.card ≤ postings.entries.length then selected.elems.filterMap postings.lookup
  else (postings.entries.filter fun e => e.1 ∈ selected).map (·.2)

/-- The references whose far end lies in the scope or is missing; `none` stands for all. -/
def referenceScopeTerms (scope : BoundedPathScope)
    (direction : TraversalDirection) (relations : List String) : Option (List ReferenceSet) :=
  let missing := match direction with
    | .forward => index.referencesWithoutTarget
    | .reverse => index.referencesWithoutSource
  if scope.all then none
  else match scope.symbols with
    | some symbols =>
      some (missing :: symbols.elems.flatMap fun symbol =>
        match direction with
        | .forward => index.incomingPostings symbol relations
        | .reverse => index.outgoingPostings symbol relations)
    | none =>
      if scope.sourceRoots ≠ ∅ then
        some (missing :: boundaryPostings scope.sourceRoots (match direction with
          | .forward => index.referencesByTargetRoot
          | .reverse => index.referencesBySourceRoot))
      else
        some (missing :: boundaryPostings scope.sourceFiles (match direction with
          | .forward => index.referencesByTargetFile
          | .reverse => index.referencesBySourceFile))

/-- A seen reference that leaves the frontier and stays in the scope. -/
def referenceMatchesSelection (relations : List String)
    (selection : ReferenceSelection) (reference : ReferenceOrdinal) : Bool :=
  let source := index.referenceSource reference
  let target := index.referenceTarget reference
  let (near, far) := match selection.direction with
    | .forward => (source, target)
    | .reverse => (target, source)
  match near with
  | none => false
  | some near =>
    if near ∉ selection.frontier ∨ ∃ o ∈ far, ¬selection.scope.contains index o then false
    else
      let postings := match selection.direction with
        | .forward => index.outgoingPostings near relations
        | .reverse => index.incomingPostings near relations
      postings.any (reference ∈ ·)

/-- `ReferenceAdmission::admit` : unseen references in the order given, until `limit` of
them are admitted and one more comes. -/
def admitReferences (seen : ReferenceSet) (limit : ℕ) :
    List ReferenceOrdinal → ReferenceSet → ReferenceSet × Bool
  | [], admitted => (admitted, false)
  | r :: rs, admitted =>
    if r ∈ seen then admitReferences seen limit rs admitted
    else if admitted.card = limit then (admitted, true)
    else admitReferences seen limit rs (admitted.insert r)

/-- The seen references to take again, the new ones, and whether the limit cut them. -/
def boundedFrontierReferences (relations : List String)
    (selection : ReferenceSelection) (seen : ReferenceSet) (limit : ℕ) :
    ReferenceSet × ReferenceSet × Bool :=
  let alreadySeen : ReferenceSet :=
    if selection.reuseSeen then
      seen.filter fun r => referenceMatchesSelection index relations selection r
    else ∅
  let frontierPostings :=
    referencePostingsFromSymbols index selection.direction selection.frontier relations
  let stream := match referenceScopeTerms index selection.scope selection.direction relations with
    | none => (PostingUnion.new frontierPostings).collect
    | some scopePostings => (PostingIntersection.new frontierPostings scopePostings).collect
  (alreadySeen, admitReferences seen limit stream ∅)

/-! ## Coverage -/

structure ReferenceTraversal where
  seen : ReferenceSet := ∅
  coverage : BoundedPathCoverage := {}
  exploredEdges : ℕ := 0
  limitReached : Bool := false

namespace ReferenceTraversal

def tally (gapReasons : GapReasons) (reason : String) (count : ℕ) : GapReasons :=
  gapReasons.insert reason ((gapReasons.lookup reason).getD 0 + count)

def tallyReason (category : String) (reason : ReferenceOrdinal → String)
    (references : ReferenceSet) (gapReasons : GapReasons) : GapReasons :=
  references.elems.foldl (fun m r => tally m (category ++ ":" ++ reason r) 1) gapReasons

/-- Count the newly admitted references by class. -/
def observe (t : ReferenceTraversal) (index : LinkageReadIndex) (references : ReferenceSet) :
    ReferenceTraversal :=
  let c := index.classifications
  let resolved := references ∩ c.resolved
  let external := references ∩ c.external
  let candidate := references ∩ c.candidate
  let dynamic := references ∩ c.dynamic
  let manifestBlocked := references ∩ c.manifestBlocked
  let unresolved := references ∩ c.unresolved
  let classified := resolved ∪ external ∪ candidate ∪ dynamic ∪ manifestBlocked ∪ unresolved
  let unclassified := references \ classified
  let gaps := tallyReason "candidate" c.candidateReason candidate t.coverage.gapReasons
  let gaps := tallyReason "dynamic" c.dynamicReason dynamic gaps
  let gaps := if manifestBlocked ≠ ∅ then tally gaps "manifest_blocked" manifestBlocked.card
    else gaps
  let gaps := tallyReason "unresolved" c.unresolvedReason unresolved gaps
  let gaps := if unclassified ≠ ∅ then tally gaps "unresolved:unclassified" unclassified.card
    else gaps
  { t with
    coverage :=
      { total := t.coverage.total + references.card
        resolved := t.coverage.resolved + resolved.card
        external := t.coverage.external + external.card
        candidate := t.coverage.candidate + candidate.card
        dynamic := t.coverage.dynamic + dynamic.card
        manifestBlocked := t.coverage.manifestBlocked + manifestBlocked.card
        unresolved := t.coverage.unresolved + (unresolved.card + unclassified.card)
        decided := t.coverage.decided + (resolved.card + external.card)
        gapReasons := gaps }
    exploredEdges := t.exploredEdges + resolved.card }

def tallyMissingOrdinal (t : ReferenceTraversal) : ReferenceTraversal :=
  { t with coverage :=
    { t.coverage with gapReasons := tally t.coverage.gapReasons "missing_symbol_ordinal" 1 } }

/-- The references of one frontier and whether the edge budget cut them. -/
def admitFrontier (t : ReferenceTraversal) (index : LinkageReadIndex) (relations : List String)
    (selection : ReferenceSelection) (maxEdges : ℕ) :
    ReferenceSet × Bool × ReferenceTraversal :=
  let remaining := maxEdges - t.seen.card
  let (alreadySeen, admitted, limitReached) :=
    boundedFrontierReferences index relations selection t.seen remaining
  let t' := { t with limitReached := t.limitReached || limitReached }.observe index admitted
  (alreadySeen ∪ admitted, limitReached, { t' with seen := t'.seen ∪ admitted })

end ReferenceTraversal

/-! ## The search -/

/-- What a search is given : the index, the distinct relations, the ordinals to avoid. -/
structure PathTraversal where
  index : LinkageReadIndex
  relations : List String
  scope : BoundedPathScope
  limits : BoundedPathLimits
  avoided : SymbolSet

/-- What a search changes. -/
structure PathState where
  visited : SymbolSet := ∅
  references : ReferenceTraversal := {}
  predecessors : SymbolOrdinal → Option (SymbolOrdinal × ReferenceId) := fun _ => none
  search : BoundedPathSearch := {}

/-- Targets of resolved references, each with the first reference that leads to it. -/
structure TargetWitnesses where
  targets : SymbolSet
  witnesses : SymbolOrdinal → Option (SymbolOrdinal × ReferenceId)
  references : ReferenceTraversal

namespace PathTraversal

def new (relations : List String) (avoid : List SymbolId)
    (limits : BoundedPathLimits) (scope : BoundedPathScope) : PathTraversal where
  index := index
  relations := relations.eraseDups
  scope := scope
  limits := limits
  avoided := OrdSet.ofList (avoid.filterMap index.ordinal)

variable (t : PathTraversal)

def endpointOrdinals (symbols : SymbolSet) : SymbolSet :=
  symbols.filter fun o => t.scope.contains t.index o ∧ o ∉ t.avoided

/-- One round of the loop of `target_witnesses`. -/
def addWitness (w : TargetWitnesses) (reference : ReferenceOrdinal) :
    TargetWitnesses :=
  match t.index.referenceSource reference, t.index.referenceTarget reference,
    t.index.referenceId reference with
  | some source, some target, some id =>
    { w with
      targets := w.targets.insert target
      witnesses := fun o => if o = target then (w.witnesses o).or (some (source, id))
        else w.witnesses o }
  | _, _, _ => { w with references := w.references.tallyMissingOrdinal }

def targetWitnesses (references : ReferenceTraversal)
    (resolved : ReferenceSet) : TargetWitnesses :=
  resolved.elems.foldl t.addWitness ⟨∅, fun _ => none, references⟩

/-- Cut the candidates to the symbol budget. -/
def admitSymbols (st : PathState) (candidates : SymbolSet) :
    SymbolSet × PathState :=
  let remaining := t.limits.maxSymbols - st.visited.card
  if candidates.card > remaining then
    (candidates.take remaining, { st with search := { st.search with symbolLimitReached := true } })
  else (candidates, st)

/-- What one frontier leads to. -/
structure Expansion where
  next : SymbolSet
  witnesses : SymbolOrdinal → Option (SymbolOrdinal × ReferenceId)
  limitReached : Bool
  state : PathState

/-- The first half of a round : admit references, follow the resolved ones and leave out
what is avoided or visited. -/
def expand (depth : ℕ) (frontier : SymbolSet) (st : PathState) : Expansion :=
  let selection : ReferenceSelection := ⟨.forward, frontier, t.scope, false⟩
  let (batch, limitReached, references) :=
    st.references.admitFrontier t.index t.relations selection t.limits.maxEdges
  let found := t.targetWitnesses references (batch ∩ t.index.classifications.resolved)
  { next := (found.targets \ t.avoided) \ st.visited
    witnesses := found.witnesses
    limitReached := limitReached
    state := { st with
      references := found.references
      search := { st.search with depthReached := depth } } }

/-- Enter the new symbols with their predecessors. -/
def visit (st : PathState) (next : SymbolSet)
    (witnesses : SymbolOrdinal → Option (SymbolOrdinal × ReferenceId)) : PathState :=
  { st with
    predecessors := fun o => if o ∈ next then (witnesses o).or (st.predecessors o)
      else st.predecessors o
    visited := st.visited ∪ next }

/-- The loop over the depths, `left` rounds before the last one. -/
def walk (t : PathTraversal) (target : SymbolSet) :
    (left : ℕ) → (frontier : SymbolSet) → PathState → PathState
  | 0, frontier, st =>
    let x := t.expand t.limits.maxDepth frontier st
    if x.next ≠ ∅ then
      { x.state with search := { x.state.search with depthLimitReached := true } }
    else x.state
  | left + 1, frontier, st =>
    let depth := t.limits.maxDepth - (left + 1)
    let x := t.expand depth frontier st
    let (next, st) := t.admitSymbols x.state x.next
    if next = ∅ then st
    else
      let st := visit st next x.witnesses
      if next ∩ target ≠ ∅ then
        { st with search := { st.search with depthReached := depth + 1 } }
      else if x.limitReached || st.search.symbolLimitReached then st
      else t.walk target left next st

/-- Follow the predecessors from `current` to a symbol of `source`. The path grows at its
front. A missing predecessor or symbol is a failure, and so is a loop that is still running
after `fuel` rounds. -/
def reconstructPathFromAny (index : LinkageReadIndex)
    (predecessors : SymbolOrdinal → Option (SymbolOrdinal × ReferenceId)) (source : SymbolSet) :
    (fuel : ℕ) → (current : SymbolOrdinal) → List BoundedPathEdge → Option (List BoundedPathEdge)
  | 0, _, _ => none
  | fuel + 1, current, path =>
    if current ∈ source then some path
    else do
      let (previous, reference) ← predecessors current
      let sourceSymbol ← index.symbol previous
      let targetSymbol ← index.symbol current
      reconstructPathFromAny index predecessors source fuel previous
        (⟨sourceSymbol, targetSymbol, reference⟩ :: path)

/-- The answer of a search once the walk is over. -/
def finish (source target : SymbolSet) (st : PathState) :
    Option BoundedPathSearch :=
  let search := { st.search with
    coverage := st.references.coverage
    exploredEdges := st.references.exploredEdges
    edgeLimitReached := st.references.limitReached
    exploredSymbols := st.visited.card }
  match st.visited.elems.find? (· ∈ target) with
  | some o => do
    let path ← reconstructPathFromAny t.index st.predecessors source (t.limits.maxDepth + 1) o []
    some { search with path := path }
  | none => some search

def runBetween (source target : SymbolSet) : Option BoundedPathSearch :=
  let fromOrdinals := t.endpointOrdinals source
  let toOrdinals := t.endpointOrdinals target
  if fromOrdinals = ∅ ∨ toOrdinals = ∅ then none
  else
    let cut : Bool := fromOrdinals.card > t.limits.maxSymbols
    let fromOrdinals := if cut then fromOrdinals.take t.limits.maxSymbols else fromOrdinals
    let st : PathState := { visited := fromOrdinals, search := { symbolLimitReached := cut } }
    let st := if fromOrdinals ∩ toOrdinals ≠ ∅ then st
      else t.walk toOrdinals t.limits.maxDepth fromOrdinals st
    t.finish fromOrdinals toOrdinals st

/-- `run`, between two single symbols. -/
def run (source target : SymbolId) : Option BoundedPathSearch := do
  let s ← t.index.ordinal source
  let o ← t.index.ordinal target
  t.runBetween (OrdSet.ofList [s]) (OrdSet.ofList [o])

end PathTraversal

structure BoundedPathRequest where
  source : SymbolId
  target : SymbolId
  relations : List String
  avoid : List SymbolId
  limits : BoundedPathLimits
  scope : BoundedPathScope

/-- `BoundedPathEngine::search`. -/
def search (q : BoundedPathRequest) : Option BoundedPathSearch :=
  if q.scope.exceeds q.limits.maxSymbols then none
  else (PathTraversal.new index q.relations q.avoid q.limits q.scope).run q.source q.target

/-- `BoundedPathEngine::search_between`. -/
def searchBetween (q : BoundedPathSetRequest) :
    Option BoundedPathSearch :=
  if q.source = ∅ ∨ q.target = ∅ ∨ q.source.card > q.limits.maxSymbols ∨
      q.target.card > q.limits.maxSymbols ∨ q.scope.exceeds q.limits.maxSymbols then none
  else (PathTraversal.new index q.relations q.avoid q.limits q.scope).runBetween q.source q.target

end CodeMoniker
