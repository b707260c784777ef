import CodeMoniker.Fragments
import CodeMoniker.IndirectUsages
import CodeMoniker.LinkageRestore

/-!
# The tree of identities

The queries over identities read a symbol by the path of its identity, after the scheme and the
project. A scope is such a path, and holds the symbols whose path is the scope or goes on below
it. The segments below a scope are cut from the text at the first `/` (`identitySegments`). A
reference counts for the nearest symbol around its ends that is shown (`navigableAnchor`), which
stands in the file of the reference (`file_navigableAnchor`).
-/

namespace CodeMoniker

open Query
open Fragments (trimChars)

/-! ## Paths of identities -/

def trimSlashes (text : List Char) : List Char := (text.dropWhile (· = '/')).rdropWhile (· = '/')

def defaultScheme : List Char := "code+moniker://".toList

/-- The identity after the scheme and the project. A text without the scheme is a path already. -/
def identityPath (identity : List Char) : List Char :=
  match stripPrefix defaultScheme identity with
  | none => identity
  | some rest =>
    match splitOnce '/' rest with
    | some (_, path) => path
    | none => []

def identityRest (identity scope : List Char) : Option (List Char) :=
  if scope = [] then some identity
  else
    match stripPrefix scope identity with
    | some ('/' :: rest) => some rest
    | _ => none

def identityInScope (identity scope : List Char) : Bool :=
  scope = [] || identity = scope || (identityRest identity scope).isSome

def scopeOf (text : List Char) : List Char := trimSlashes (identityPath (trimSlashes text))

/-- The path of a name below a scope. -/
def scopedIdentity (scope segment : List Char) : List Char :=
  if scope = [] then segment else scope ++ '/' :: segment

def IndexedSymbol.path (symbol : IndexedSymbol) : List Char := identityPath symbol.identity.toList

/-- The child of the scope that contains a symbol. -/
def scopeSegment (symbol : IndexedSymbol) (scope : List Char) : Option (List Char) := do
  let rest ← identityRest symbol.path scope
  let segment := rest.takeWhile (· ≠ '/')
  if segment = [] then none else some (scopedIdentity scope segment)

def truncateIdentity (path : List Char) (segments : ℕ) : List Char :=
  ['/'].intercalate ((path.splitOn '/').take segments)

/-! ## The snapshot -/

/-- The record in the slot of an id, or else the first with that id. -/
def SymbolTable.find (t : SymbolTable) (id : SymbolId) : Option IndexedSymbol :=
  match t.slot id with
  | some record => if record.id = id then some record else t.iter.find? (·.id = id)
  | none => t.iter.find? (·.id = id)

/-- A read index is built from the edges alone, or with a catalog of the symbols. -/
inductive TargetIndex where
  | fromEdges (edges : List LinkageEdge)
  | withCatalog (index : LinkageReadIndex)

def TargetIndex.resolvedTarget (index : TargetIndex) (reference : ReferenceId) : Option SymbolId :=
  match index with
  | fromEdges edges => (edges.find? (·.reference = reference)).map (·.target)
  | withCatalog index =>
    match referenceOrdinal index.referenceIds reference with
    | some ordinal => (index.referenceTarget ordinal).bind index.symbol
    | none => none

/-- What the queries over identities read. The parent of a symbol comes before it, a reference
starts in its own file, and every file has a source. -/
structure IdentitySnapshot where
  symbols : SymbolTable
  sources : List SourceFileRecord
  references : ReferenceTable
  linkage : LinkageSnapshot
  /-- the origin that an external reference carries -/
  origin : ReferenceId → ExternalReferenceOrigin
  readIndex : Option TargetIndex
  parentsFirst : ∀ s ∈ symbols.iter, ∀ p ∈ s.parent, p.defIdx < s.id.defIdx
  sourceFile : ∀ r ∈ references.iter, r.sourceSymbol.file = r.id.file
  sourced : symbols.shards.length = sources.length
  indexed : ∀ index ∈ readIndex, index = .fromEdges linkage.resolved ∨ ∃ catalog roots,
    index = .withCatalog (.fromSnapshotWithCatalog linkage references catalog roots)

namespace IdentitySnapshot

variable (s : IdentitySnapshot)

def source (symbol : IndexedSymbol) : Option SourceFileRecord := s.sources[symbol.source]?

/-- The loop of `navigable_anchor`. It makes fewer rounds than there are symbols before. -/
def anchorFrom : ℕ → SymbolId → Option IndexedSymbol
  | 0, _ => none
  | rounds + 1, id =>
    match s.symbols.find id with
    | none => none
    | some current =>
      if current.navigable then some current else current.parent.bind (anchorFrom rounds)

def navigableAnchor (id : SymbolId) : Option IndexedSymbol := s.anchorFrom (id.defIdx + 1) id

def resolvedReferenceTarget (reference : ReferenceId) : Option SymbolId :=
  match s.readIndex with
  | some index => index.resolvedTarget reference
  | none => (s.linkage.resolved.find? (·.reference = reference)).map (·.target)

end IdentitySnapshot

/-! ## Segments below a scope -/

structure SegmentAgg where
  defs : ℕ := 0
  grandchildren : Bool := false
  direct : Option IndexedSymbol := none

/-- A symbol that ends with the segment is its direct symbol, and one below it is counted. -/
def SegmentAgg.add (agg : SegmentAgg) (symbol : IndexedSymbol) (tail : Option (List Char)) :
    SegmentAgg :=
  match tail with
  | none => { agg with direct := some symbol }
  | some _ => { agg with defs := agg.defs + 1, grandchildren := true }

structure SymbolDto where
  root : String
  uri : String
  id : String
  name : String
  kind : String
  visibility : String
  signature : String
  file : String
  language : String
  lineRange : Option (ℕ × ℕ)
  navigable : Bool
  deriving DecidableEq, Repr

def symbolDto (symbol : IndexedSymbol) (source : SourceFileRecord) (roots : List String) :
    SymbolDto where
  root := sourceRootLabel roots source
  uri := symbol.identity
  id := String.ofList symbol.id.text
  name := symbol.name
  kind := symbol.kind
  visibility := symbol.visibility
  signature := symbol.signature
  file := source.relPath
  language := source.language
  lineRange := symbol.lineRange
  navigable := symbol.navigable

structure IdentitySegmentDto where
  segment : List Char
  kind : List Char
  name : List Char
  identity : List Char
  defs : ℕ
  hasChildren : Bool
  symbol : Option SymbolDto
  deriving DecidableEq

section Segments

variable (s : IdentitySnapshot) (roots : List String) (scope : List Char)

def identitySegmentDto (segment : List Char) (agg : SegmentAgg) : IdentitySegmentDto where
  segment
  kind := ((splitOnce ':' segment).map (·.1)).getD []
  name := ((splitOnce ':' segment).map (·.2)).getD segment
  identity := scopedIdentity scope segment
  defs := agg.defs
  hasChildren := agg.grandchildren
  symbol := do
    let record ← agg.direct
    let source ← s.source record
    return symbolDto record source roots

/-- The first name below the scope, and what follows it. -/
def nextSegment (symbol : IndexedSymbol) : Option (List Char × Option (List Char)) := do
  let rest ← identityRest symbol.path scope
  match splitOnce '/' rest with
  | some (segment, tail) => if segment = [] then none else some (segment, some tail)
  | none => if rest = [] then none else some (rest, none)

variable (pathFilter : String → Bool)

/-- The symbols that are shown and lie in a file of the filter. -/
def selectedSymbols : List IndexedSymbol :=
  s.symbols.iter.filter fun symbol =>
    symbol.navigable && (s.source symbol).any fun source => pathFilter source.relPath

def segmentGroups : OrdMap (List Char) SegmentAgg :=
  (selectedSymbols s pathFilter).foldl (fun groups symbol =>
    match nextSegment scope symbol with
    | none => groups
    | some (segment, tail) => groups.update segment {} (·.add symbol tail)) ∅

def identitySegmentsScoped : List IdentitySegmentDto :=
  (segmentGroups s scope pathFilter).entries.map fun e => identitySegmentDto s roots scope e.1 e.2

def identitySegments : List IdentitySegmentDto := identitySegmentsScoped s roots scope fun _ => true

def identityPrefixExists : Bool :=
  (s.symbols.iter.filter (·.navigable)).any fun symbol => identityInScope symbol.path scope

def headsGuidance (heads : List IdentitySegmentDto) : String :=
  if heads = [] then "the workspace has no indexed symbols"
  else "a prefix is a head sequence of canonical identity segments; valid heads: " ++
    ", ".intercalate (heads.map fun head => String.ofList head.segment)

def requireKnownIdentityPrefix : Except QueryError Unit :=
  if scope = [] ∨ identityPrefixExists s scope then .ok ()
  else .error ⟨"prefix_not_found", "no symbol identity starts with `" ++ String.ofList scope ++
    "`; " ++ headsGuidance ((identitySegments s roots []).take 8)⟩

end Segments

/-! ## Selected roots -/

/-- The name of a root that has been made canonical. -/
def rootFileName (root : String) : Option (List Char) :=
  (root.toList.splitOn '/').getLast?.filter fun name => name ≠ [] ∧ name ≠ "..".toList

def rootMatchesSelector (root : String) (selector : List Char) : Bool :=
  let value := trimChars selector
  value = [] || root.toList = value || rootFileName root = some value

def selectedRoots (roots : List String) (selector : Option (List Char)) :
    Except QueryError (List String) :=
  match selector with
  | none => .ok roots
  | some selector =>
    if trimChars selector = [] then .ok roots
    else
      match roots.filter (rootMatchesSelector · selector) with
      | [] => .error ⟨"workspace_not_found",
          "workspace selector matched no root: " ++ String.ofList selector⟩
      | [root] => .ok [root]
      | _ => .error ⟨"workspace_selector_ambiguous",
          "workspace selector matched multiple roots: " ++ String.ofList selector⟩

/-! ## Anchors -/

open SymbolTable

theorem SymbolTable.find_eq_slot (t : SymbolTable) (id : SymbolId) : t.find id = t.slot id := by
  unfold find
  cases hslot : t.slot id with
  | none =>
    refine List.find?_eq_none.mpr fun s hs => ?_
    rw [decide_eq_true_eq]
    rintro rfl
    rw [slot_eq_some.mpr ⟨mem_iter.mp hs, rfl⟩] at hslot
    exact nomatch hslot
  | some record => exact if_pos (slot_eq_some.mp hslot).2

theorem SymbolTable.mem_iter_of_find {t : SymbolTable} {id : SymbolId} {record : IndexedSymbol}
    (h : t.find id = some record) : record ∈ t.iter ∧ record.id = id := by
  rw [find_eq_slot] at h
  obtain ⟨hmem, rfl⟩ := slot_eq_some.mp h
  exact ⟨mem_iter.mpr hmem, rfl⟩

theorem SymbolTable.file_parent {t : SymbolTable} {record : IndexedSymbol} (h : record ∈ t.iter)
    {parent : SymbolId} (hp : parent ∈ record.parent) : parent.file = record.id.file := by
  obtain ⟨d, hd⟩ := List.mem_iff_getElem?.mp (mem_iter.mp h)
  exact (t.placed _ _ _ hd).2.2 parent hp

namespace IdentitySnapshot

variable (s : IdentitySnapshot)

theorem anchorFrom_spec {rounds : ℕ} {id : SymbolId} {anchor : IndexedSymbol}
    (h : s.anchorFrom rounds id = some anchor) :
    anchor ∈ s.symbols.iter ∧ anchor.navigable = true ∧ anchor.id.file = id.file := by
  induction rounds generalizing id with
  | zero => exact nomatch h
  | succ rounds ih =>
    rw [anchorFrom] at h
    cases hfind : s.symbols.find id with
    | none => simp [hfind] at h
    | some current =>
      obtain ⟨hmem, rfl⟩ := mem_iter_of_find hfind
      simp only [hfind] at h
      split_ifs at h with hnav
      · obtain rfl := Option.some.inj h
        exact ⟨hmem, hnav, rfl⟩
      · obtain ⟨parent, hparent, hup⟩ := Option.bind_eq_some_iff.mp h
        obtain ⟨hanchor, hshown, hfile⟩ := ih hup
        exact ⟨hanchor, hshown, hfile.trans (file_parent hmem hparent)⟩

theorem mem_navigableAnchor {id : SymbolId} {anchor : IndexedSymbol}
    (h : s.navigableAnchor id = some anchor) : anchor ∈ s.symbols.iter ∧ anchor.navigable = true :=
  ⟨(s.anchorFrom_spec h).1, (s.anchorFrom_spec h).2.1⟩

/-- The anchor of the source of a reference stands in the file of the reference. -/
theorem file_navigableAnchor {r : ReferenceRecord} (hr : r ∈ s.references.iter)
    {anchor : IndexedSymbol} (h : s.navigableAnchor r.sourceSymbol = some anchor) :
    anchor.id.file = r.id.file :=
  (s.anchorFrom_spec h).2.2.trans (s.sourceFile r hr)

end IdentitySnapshot

end CodeMoniker
