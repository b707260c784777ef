import CodeMoniker.CouplingMetrics
import CodeMoniker.Glob
import CodeMoniker.IdentityPaths

/-!
# Roll-ups of the identity tree

`identity.children` groups the symbols below a scope by the next name of their path, and
`identity.graph` rolls every reference up to the names of its two ends. The names are cut from the
text, so that the answers are about segments of monikers only as long as no name has a `/` in it,
and the direct symbol of a name is one symbol, although several may have the same identity.
`rollups_exact_iff` says that nothing else goes wrong.
-/

namespace CodeMoniker

open ByteCodec Query

/-! ## The children of a scope -/

structure IdentityChildrenResult where
  prefix_ : List Char
  total : ℕ
  children : List IdentitySegmentDto

def identityChildrenResponse (s : IdentitySnapshot) (roots : List String)
    (query : IdentityChildrenQuery) : Except QueryError IdentityChildrenResult := do
  let _ ← selectedRoots roots query.workspace
  let scope := scopeOf query.prefix_
  let children := identitySegments s roots scope
  if children = [] then requireKnownIdentityPrefix s roots scope
  return ⟨scope, children.length, children.take query.limit⟩

/-! ## The graph of a scope -/

/-- The kinds of some references, and how many there are. -/
abbrev KindCount := OrdSet String × ℕ

def KindCount.bump (kind : String) (entry : KindCount) : KindCount :=
  (entry.1.insert kind, entry.2 + 1)

structure IdentityGraphEdge where
  source : List Char
  target : List Char
  kinds : List String
  count : ℕ

structure IdentityGraphPort where
  identity : List Char
  kinds : List String
  count : ℕ

structure GraphCounts where
  edges : OrdMap (List Char ×ₗ List Char) KindCount := ∅
  portsIn : OrdMap (List Char) KindCount := ∅
  portsOut : OrdMap (List Char) KindCount := ∅
  unlinked : UnlinkedRefs := {}

section Loop

variable {crate : RegexCrate} (s : IdentitySnapshot) (scope : List Char)
  (filter : FilePathFilter crate)

/-- The child of a symbol, if its file is selected. -/
def selectedSegment (symbol : IndexedSymbol) : Option (List Char) :=
  if (s.source symbol).any fun source => filter.matches source.relPath.toList then
    scopeSegment symbol scope
  else none

def portDepth : ℕ := if scope = [] then 1 else (scope.splitOn '/').length + 1

def bumpPort (ports : OrdMap (List Char) KindCount) (identity : List Char) (kind : String) :
    OrdMap (List Char) KindCount :=
  ports.update identity (∅, 0) (KindCount.bump kind)

/-- The body of the loop. -/
def graphReference (c : GraphCounts) (r : ReferenceRecord) : GraphCounts :=
  match s.navigableAnchor r.sourceSymbol with
  | none => c
  | some source =>
    let sourceSegment := selectedSegment s scope filter source
    match s.resolvedReferenceTarget r.id with
    | none =>
      if sourceSegment.isSome then { c with unlinked := s.tally r.id c.unlinked } else c
    | some targetId =>
      match s.navigableAnchor targetId with
      | none => c
      | some target =>
        match sourceSegment, selectedSegment s scope filter target with
        | some a, some b =>
          if a ≠ b then
            { c with edges := c.edges.update (toLex (a, b)) (∅, 0) (KindCount.bump r.kind) }
          else c
        | some _, none =>
          { c with portsOut :=
            bumpPort c.portsOut (truncateIdentity target.path (portDepth scope)) r.kind }
        | none, some _ =>
          { c with portsIn :=
            bumpPort c.portsIn (truncateIdentity source.path (portDepth scope)) r.kind }
        | none, none => c

def graphCounts : GraphCounts :=
  s.references.iter.foldl (graphReference s scope filter) {}

end Loop

def intoPorts (ports : OrdMap (List Char) KindCount) : List IdentityGraphPort :=
  ports.entries.map fun e => ⟨e.1, e.2.1.elems, e.2.2⟩

def intoEdges (edges : OrdMap (List Char ×ₗ List Char) KindCount) : List IdentityGraphEdge :=
  edges.entries.map fun e => ⟨(ofLex e.1).1, (ofLex e.1).2, e.2.1.elems, e.2.2⟩

structure IdentityGraphSections where
  nodes : List IdentitySegmentDto := []
  edges : List IdentityGraphEdge := []
  portsIn : List IdentityGraphPort := []
  portsOut : List IdentityGraphPort := []

inductive IdentityGraphRow where
  | node (row : IdentitySegmentDto)
  | edge (row : IdentityGraphEdge)
  | portIn (row : IdentityGraphPort)
  | portOut (row : IdentityGraphPort)

structure IdentityGraphCoverage where
  rowsTotal : ℕ
  rowsMatching : ℕ
  rowsEmitted : ℕ
  nodesTotal : ℕ
  nodesEmitted : ℕ
  edgesTotal : ℕ
  edgesMatching : ℕ
  edgesEmitted : ℕ
  portsInTotal : ℕ
  portsInMatching : ℕ
  portsInEmitted : ℕ
  portsOutTotal : ℕ
  portsOutMatching : ℕ
  portsOutEmitted : ℕ

structure IdentityGraphPage where
  sections : IdentityGraphSections
  coverage : IdentityGraphCoverage
  nextCursor : Option QueryCursor

namespace IdentityGraphSections

variable (sections : IdentityGraphSections)

/-- Edges and ports with fewer references are left out. -/
def admitted (minCount : ℕ) : IdentityGraphSections where
  nodes := sections.nodes
  edges := sections.edges.filter (minCount ≤ ·.count)
  portsIn := sections.portsIn.filter (minCount ≤ ·.count)
  portsOut := sections.portsOut.filter (minCount ≤ ·.count)

def rows : List IdentityGraphRow :=
  sections.nodes.map .node ++ sections.edges.map .edge ++ sections.portsIn.map .portIn ++
    sections.portsOut.map .portOut

def total : ℕ :=
  sections.nodes.length + sections.edges.length + sections.portsIn.length +
    sections.portsOut.length

/-- The rows of a page, each in its section. -/
def ofRows (rows : List IdentityGraphRow) : IdentityGraphSections where
  nodes := rows.filterMap fun | .node row => some row | _ => none
  edges := rows.filterMap fun | .edge row => some row | _ => none
  portsIn := rows.filterMap fun | .portIn row => some row | _ => none
  portsOut := rows.filterMap fun | .portOut row => some row | _ => none

end IdentityGraphSections

def pageIdentityGraph (sections : IdentityGraphSections) (minCount : ℕ) (page : Page)
    (generation : Option ℕ) : Except QueryError IdentityGraphPage := do
  let admitted := sections.admitted minCount
  let paged ← pageRows admitted.rows page generation
  let emitted := IdentityGraphSections.ofRows paged.items
  return {
    sections := emitted
    coverage := {
      rowsTotal := sections.total
      rowsMatching := admitted.total
      rowsEmitted := emitted.total
      nodesTotal := sections.nodes.length
      nodesEmitted := emitted.nodes.length
      edgesTotal := sections.edges.length
      edgesMatching := admitted.edges.length
      edgesEmitted := emitted.edges.length
      portsInTotal := sections.portsIn.length
      portsInMatching := admitted.portsIn.length
      portsInEmitted := emitted.portsIn.length
      portsOutTotal := sections.portsOut.length
      portsOutMatching := admitted.portsOut.length
      portsOutEmitted := emitted.portsOut.length }
    nextCursor := paged.nextCursor }

structure IdentityGraphResult where
  prefix_ : List Char
  path : List (List Char)
  minCount : ℕ
  coverage : IdentityGraphCoverage
  sections : IdentityGraphSections
  unlinked : UnlinkedRefs
  nextCursor : Option QueryCursor

def graphSections {crate : RegexCrate} (s : IdentitySnapshot) (roots : List String)
    (scope : List Char) (filter : FilePathFilter crate) : IdentityGraphSections :=
  let counts := graphCounts s scope filter
  { nodes := identitySegmentsScoped s roots scope fun path => filter.matches path.toList
    edges := intoEdges counts.edges
    portsIn := intoPorts counts.portsIn
    portsOut := intoPorts counts.portsOut }

def identityGraphResponse (crate : RegexCrate) (s : IdentitySnapshot) (roots : List String)
    (query : IdentityGraphQuery) (page : Page) (generation : Option ℕ) :
    Except (Stop QueryError) IdentityGraphResult := do
  let _ ← (selectedRoots roots query.workspace).mapError Stop.error
  let filter ← Stop.mapError (fun message => ⟨"invalid_path_filter", String.ofList message⟩)
    (FilePathFilter.compile crate query.path)
  let scope := scopeOf query.prefix_
  let sections := graphSections s roots scope filter
  if sections.nodes = [] then
    (requireKnownIdentityPrefix s roots scope).mapError Stop.error
  let graph ← (pageIdentityGraph sections query.minCount page generation).mapError Stop.error
  return {
    prefix_ := scope
    path := query.path
    minCount := query.minCount
    coverage := graph.coverage
    sections := graph.sections
    unlinked := (graphCounts s scope filter).unlinked
    nextCursor := graph.nextCursor }

end CodeMoniker
