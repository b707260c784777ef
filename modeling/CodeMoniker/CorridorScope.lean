import CodeMoniker.Glob
import CodeMoniker.QueryRequests

/-!
# The scope of a corridor

A corridor between two symbols is searched in the symbols that lie in the selected roots, match the
paths of the query and have a value of every facet that it names. They are read from the postings
that promise the fewest symbols, each is checked again, and the scan stops when it has found too
many. Which postings are read and in which order makes no difference
(`graphCorridorScope_outcome`).
-/

namespace CodeMoniker

open List ByteCodec Query

/-! ## Facets of a scope -/

structure LazyScopeFacet where
  postings : List SymbolSet
  upperBound : ℕ

def LazyScopeFacet.matches (group : LazyScopeFacet) (o : SymbolOrdinal) : Bool :=
  group.postings.any (o ∈ ·)

/-- How many symbols a facet has. A capped count is a lower bound. -/
structure FacetMatch where
  facet : String
  count : ℕ
  capped : Bool

def FacetMatch.text (m : FacetMatch) : String :=
  m.facet ++ (if m.capped then ">=" else "=") ++ toString m.count

inductive ScopeAnchor where
  | facet (index : ℕ)
  | path
  | workspace

def sumSizes (postings : List SymbolSet) : ℕ :=
  postings.foldl (fun total posting => saturatingAdd total posting.card) 0

abbrev ScopeFacets := List LazyScopeFacet × List FacetMatch

def pushLazyScopeFacet (name : String) (values : List Text) (posting : Postings String)
    (facets : ScopeFacets) : ScopeFacets :=
  if values = [] then facets
  else
    let postings := values.filterMap fun value => posting.lookup (String.ofList value)
    (facets.1 ++ [⟨postings, sumSizes postings⟩], facets.2 ++ [⟨name, sumSizes postings, false⟩])

def scopeFacets (facets : SymbolInventoryFacets) (scope : GraphSymbolScope) : ScopeFacets :=
  pushLazyScopeFacet "srcset" scope.srcset facets.bySrcset <|
    pushLazyScopeFacet "shape" scope.shape facets.byShape <|
      pushLazyScopeFacet "kind" scope.kind facets.byKind <|
        pushLazyScopeFacet "lang" scope.lang facets.byLanguage ([], [])

/-- Symbols of memory sources have the root after the last one. -/
def selectedRootIndices (roots selected : List String) : List ℕ :=
  roots.zipIdx.filterMap (fun root => if root.1 ∈ selected then some root.2 else none) ++
    if selected.length = roots.length then [roots.length] else []

/-- The loop that counts the symbols of the matching paths. -/
def countCapped (cap : ℕ) : List SymbolSet → ℕ → ℕ
  | [], count => count
  | posting :: postings, count =>
    let count := saturatingAdd count posting.card
    if cap ≤ count then cap else countCapped cap postings count

/-! ## The scan -/

section Scan

variable (x : SymbolInventoryIndex) (admitted : InventorySymbol → SymbolOrdinal → Bool)
  (maxSymbols : ℕ)

/-- Whether the scan goes on after a symbol, and what it has found. -/
def visit (symbols : SymbolSet) (o : SymbolOrdinal) : SymbolSet × Bool :=
  if o ∈ symbols then (symbols, true)
  else
    match x.record o with
    | none => (symbols, true)
    | some record =>
      if admitted record o then
        (symbols.insert o, (symbols.insert o).card ≤ maxSymbols)
      else (symbols, true)

def scan : List SymbolOrdinal → SymbolSet → SymbolSet
  | [], symbols => symbols
  | o :: rest, symbols =>
    match visit x admitted maxSymbols symbols o with
    | (symbols, true) => scan rest symbols
    | (symbols, false) => symbols

end Scan

/-! ## The scope -/

/-- The postings of the paths, in the order in which their table happens to list them. -/
structure PathPostings (x : SymbolInventoryIndex) where
  postings : List (Sigma fun _ : String => SymbolSet)
  perm : postings.Perm x.facets.bySourcePath.entries

def endpointsTooLarge (endpoints maxSymbols : ℕ) : QueryError :=
  let next := if endpoints ≤ maxGraphSymbols then
    "increase max_symbols to at least " ++ toString endpoints
  else
    "select more specific member endpoints; the endpoint scope exceeds the protocol ceiling of " ++
      toString maxGraphSymbols ++ " symbols"
  ⟨"graph_scope_too_large", "corridor owner endpoints expand naturally to " ++ toString endpoints ++
    " symbols, above max_symbols=" ++ toString maxSymbols ++ "; next:" ++ next⟩

def narrowScope (facetMatches : List FacetMatch) : String :=
  match facetMatches.minOn? (·.count) with
  | none => "add a selective path/kind/shape/srcset facet"
  | some m =>
    if m.facet = "workspace" then "add a selective path/kind/shape/srcset facet"
    else "narrow " ++ m.facet ++ " (currently " ++ toString m.count ++
      " matches) or add another selective facet"

def scopeTooLarge (facetMatches : List FacetMatch) (symbols maxSymbols : ℕ) : QueryError :=
  let next := if symbols ≤ maxGraphSymbols then
    "increase max_symbols above at least " ++ toString symbols ++ " observed matches or " ++
      narrowScope facetMatches
  else
    narrowScope facetMatches ++ "; this semantic scope exceeds the protocol ceiling of " ++
      toString maxGraphSymbols ++ " symbols"
  ⟨"graph_scope_too_large", "semantic scope matched at least " ++ toString symbols ++
    " symbols including endpoints, above max_symbols=" ++ toString maxSymbols ++
    "; facet_matches:" ++ ",".intercalate (facetMatches.map FacetMatch.text) ++ "; next:" ++ next⟩

/-- `BoundedCorridorScope::from_symbols`. -/
def boundedScope (symbols : SymbolSet) (maxSymbols : ℕ) : Option SymbolSet :=
  if symbols ≠ ∅ ∧ symbols.card ≤ maxSymbols ∧ maxSymbols ≤ 100000 then some symbols else none

section Scope

variable {crate : RegexCrate} (x : SymbolInventoryIndex) (paths : PathPostings x)
  (indices : List ℕ) (scope : GraphSymbolScope) (filter : FilePathFilter crate)

def matchingPostings : List SymbolSet :=
  (paths.postings.filter fun e => filter.matches e.1.toList).map (·.2)

def workspacePostings : List SymbolSet := indices.filterMap x.facets.bySourceRoot.lookup

def pathUpperBound (cap : ℕ) : Option (ℕ × Bool) :=
  if scope.path = [] then none
  else
    let count := if 0 < cap then countCapped cap (matchingPostings x paths filter) 0 else 0
    some (count, count = cap)

variable (groups : List LazyScopeFacet)

def scopeAnchor (path : Option (ℕ × Bool)) (workspace : ℕ) :
    Option ScopeAnchor :=
  ((groups.mapIdx (fun i group => (group.upperBound, ScopeAnchor.facet i)) ++
    path.toList.map (fun bound => (bound.1, ScopeAnchor.path)) ++
      [(workspace, ScopeAnchor.workspace)]).minOn? (·.1)).map (·.2)

/-- The postings that are scanned from an anchor. -/
def candidates : ScopeAnchor → List SymbolSet
  | .facet index => (groups[index]?.map (·.postings)).getD []
  | .path => matchingPostings x paths filter
  | .workspace => workspacePostings x indices

def scopeAdmits (record : InventorySymbol) (o : SymbolOrdinal) :
    Bool :=
  indices.contains record.sourceRoot &&
    (scope.path.isEmpty || filter.matches record.sourcePath.toList) && groups.all (·.matches o)

end Scope

def graphCorridorScope (crate : RegexCrate) (x : SymbolInventoryIndex) (paths : PathPostings x)
    (roots selected : List String) (scope : GraphSymbolScope) (endpoints : SymbolSet)
    (maxSymbols : ℕ) : Except (Stop QueryError) SymbolSet := do
  if endpoints.card = 1 then
    match boundedScope endpoints maxSymbols with
    | some symbols => return symbols
    | none => .error (.error
        ⟨"graph_scope_too_large", "corridor scope is empty or exceeds max_symbols"⟩)
  else if maxSymbols < endpoints.card then
    .error (.error (endpointsTooLarge endpoints.card maxSymbols))
  else
    let filter ← Stop.mapError (fun message => ⟨"invalid_graph_scope", String.ofList message⟩)
      (FilePathFilter.compile crate scope.path)
    let indices := selectedRootIndices roots selected
    let facets := scopeFacets x.facets scope
    if scope.path = [] ∧ facets.1 = [] then
      .error (.error ⟨"invalid_graph_scope",
        "at least one semantic scope is required: path, lang, kind, shape, or srcset"⟩)
    else
      let workspace := sumSizes (workspacePostings x indices)
      let best := (facets.1.map (·.upperBound)).foldl min workspace
      let path := pathUpperBound x paths scope filter (min best (saturatingAdd maxSymbols 1))
      let facetMatches := facets.2 ++ [⟨"workspace", workspace, false⟩] ++
        path.toList.map fun bound => ⟨"path", bound.1, bound.2⟩
      match scopeAnchor facets.1 path workspace with
      | none => .error .panic
      | some anchor =>
        let scanned := scan x (scopeAdmits indices scope filter facets.1) maxSymbols
          ((candidates x paths indices filter facets.1 anchor).flatMap (·.elems)) ∅
        let symbols := endpoints.elems.foldl (fun symbols o => symbols.insert o) scanned
        if maxSymbols < symbols.card then
          .error (.error (scopeTooLarge facetMatches symbols.card maxSymbols))
        else
          match boundedScope symbols maxSymbols with
          | some symbols => return symbols
          | none => .error (.error ⟨"invalid_graph_scope",
              "corridor scope must contain at least one bounded symbol"⟩)

/-! ## What a scope holds -/

/-- No value was given, or this one was. -/
def HasValue (values : List Text) (value : String) : Prop := values = [] ∨ value.toList ∈ values

instance (values : List Text) (value : String) : Decidable (HasValue values value) :=
  inferInstanceAs (Decidable (_ ∨ _))

/-- A symbol in a selected root or, when all roots are selected, in a memory source. -/
def InSelectedRoot (roots selected : List String) (root : ℕ) : Prop :=
  (∃ path ∈ selected, roots[root]? = some path) ∨
    selected.length = roots.length ∧ root = roots.length

instance (roots selected : List String) (root : ℕ) :
    Decidable (InSelectedRoot roots selected root) :=
  inferInstanceAs (Decidable (_ ∨ _))

structure InScope {crate : RegexCrate} (roots selected : List String) (scope : GraphSymbolScope)
    (filter : FilePathFilter crate) (r : InventorySymbol) : Prop where
  root : InSelectedRoot roots selected r.sourceRoot
  path : scope.path = [] ∨ filter.matches r.sourcePath.toList
  lang : HasValue scope.lang r.language
  kind : HasValue scope.kind r.kind
  shape : HasValue scope.shape r.shape
  srcset : HasValue scope.srcset r.srcset

section Spec

variable {crate : RegexCrate} (roots selected : List String) (scope : GraphSymbolScope)
  (filter : FilePathFilter crate)

instance (r : InventorySymbol) : Decidable (InScope roots selected scope filter r) :=
  decidable_of_iff (InSelectedRoot roots selected r.sourceRoot ∧
    (scope.path = [] ∨ filter.matches r.sourcePath.toList = true) ∧
      HasValue scope.lang r.language ∧ HasValue scope.kind r.kind ∧ HasValue scope.shape r.shape ∧
        HasValue scope.srcset r.srcset)
    ⟨fun ⟨a, b, c, d, e, f⟩ => ⟨a, b, c, d, e, f⟩, fun ⟨a, b, c, d, e, f⟩ => ⟨a, b, c, d, e, f⟩⟩

/-- The symbols of the scope and the endpoints. -/
def corridorSymbols (x : SymbolInventoryIndex) (endpoints : SymbolSet) : SymbolSet :=
  (x.allSymbols.filter fun o =>
    (x.record o).any (InScope roots selected scope filter ·)) ∪ endpoints

end Spec

section Records

variable {x : SymbolInventoryIndex} {roots selected : List String} {scope : GraphSymbolScope}
  {crate : RegexCrate} {filter : FilePathFilter crate} {endpoints : SymbolSet} {o : SymbolOrdinal}
  {r : InventorySymbol}

theorem mem_corridorSymbols : o ∈ corridorSymbols roots selected scope filter x endpoints ↔
      (∃ r, x.record o = some r ∧ InScope roots selected scope filter r) ∨ o ∈ endpoints := by
  have hlisted : ∀ r, x.record o = some r → o ∈ x.allSymbols := fun r hr =>
    (x.listed o).mpr (AList.lookup_isSome.mp (by rw [← SymbolInventoryIndex.record, hr]; rfl))
  rw [corridorSymbols, OrdSet.mem_union, OrdSet.mem_filter]
  refine or_congr_left ?_
  simp only [Option.any_eq_true, decide_eq_true_eq]
  refine ⟨fun h => h.2, ?_⟩
  rintro ⟨r, hr, hscope⟩
  exact ⟨hlisted r hr, r, hr, hscope⟩

theorem mem_selectedRootIndices {root : ℕ} :
    root ∈ selectedRootIndices roots selected ↔ InSelectedRoot roots selected root := by
  rw [selectedRootIndices, mem_append, InSelectedRoot]
  refine or_congr ?_ ?_
  · rw [mem_filterMap]
    constructor
    · rintro ⟨⟨path, i⟩, hmem, hsome⟩
      dsimp only at hsome
      split_ifs at hsome with hselected
      obtain rfl := Option.some.inj hsome
      exact ⟨path, hselected, mk_mem_zipIdx_iff_getElem?.mp hmem⟩
    · rintro ⟨path, hselected, hget⟩
      exact ⟨(path, root), mk_mem_zipIdx_iff_getElem?.mpr hget, if_pos hselected⟩
  · split_ifs with hall <;> simp [hall]

theorem all_matches_push {name : String} {values : List Text} {posting : Postings String}
    {key : InventorySymbol → String} (hfiles : Files posting (fun r => [key r]) x.records)
    (hr : x.record o = some r) (facets : ScopeFacets) :
    (pushLazyScopeFacet name values posting facets).1.all (·.matches o) = true ↔
      facets.1.all (·.matches o) = true ∧ HasValue values (key r) := by
  unfold pushLazyScopeFacet HasValue
  split_ifs with hvalues
  · simp [hvalues]
  · have hgroup : (∃ s ∈ values.filterMap (fun value => posting.lookup (String.ofList value)),
        o ∈ s) ↔ (key r).toList ∈ values := by
      simp only [mem_filterMap]
      constructor
      · rintro ⟨s, ⟨value, hvalue, hs⟩, ho⟩
        have hget : o ∈ posting.get (String.ofList value) := Postings.mem_get.mpr ⟨s, hs, ho⟩
        obtain ⟨r', hr', hkey⟩ := hfiles.mem_get_single.mp hget
        obtain rfl := Option.some.inj (hr.symm.trans hr')
        rwa [hkey, String.toList_ofList]
      · intro hvalue
        have hget : o ∈ posting.get (key r) := hfiles.mem_get_single.mpr ⟨r, hr, rfl⟩
        obtain ⟨s, hs, ho⟩ := Postings.mem_get.mp hget
        exact ⟨s, ⟨(key r).toList, hvalue, by rw [String.ofList_toList, hs]⟩, ho⟩
    have hmatches : ∀ bound, (LazyScopeFacet.mk (values.filterMap fun value =>
        posting.lookup (String.ofList value)) bound).matches o = true ↔
          (key r).toList ∈ values := by
      intro bound
      rw [LazyScopeFacet.matches, any_eq_true]
      simpa only [decide_eq_true_eq] using hgroup
    simp only [all_append, all_cons, all_nil, Bool.and_true, Bool.and_eq_true,
      hmatches, hvalues, false_or]

theorem all_matches_iff (hr : x.record o = some r) :
    (scopeFacets x.facets scope).1.all (·.matches o) = true ↔ HasValue scope.lang r.language ∧
      HasValue scope.kind r.kind ∧ HasValue scope.shape r.shape ∧
        HasValue scope.srcset r.srcset := by
  rw [scopeFacets, all_matches_push x.described.srcset hr, all_matches_push x.described.shape hr,
    all_matches_push x.described.kind hr, all_matches_push x.described.language hr]
  simp only [all_nil, true_and, and_assoc]

theorem scopeAdmits_iff (hr : x.record o = some r) :
    scopeAdmits (selectedRootIndices roots selected) scope filter
        (scopeFacets x.facets scope).1 r o = true ↔ InScope roots selected scope filter r := by
  rw [scopeAdmits, Bool.and_eq_true, Bool.and_eq_true, all_matches_iff hr, contains_iff_mem,
    mem_selectedRootIndices, Bool.or_eq_true, List.isEmpty_iff]
  exact ⟨fun ⟨⟨a, b⟩, c, d, e, f⟩ => ⟨a, b, c, d, e, f⟩,
    fun ⟨a, b, c, d, e, f⟩ => ⟨⟨a, b⟩, c, d, e, f⟩⟩

theorem pushLazyScopeFacet_eq_nil {name : String} {values : List Text} {posting : Postings String}
    {facets : ScopeFacets} :
    (pushLazyScopeFacet name values posting facets).1 = [] ↔ values = [] ∧ facets.1 = [] := by
  unfold pushLazyScopeFacet
  split_ifs with hvalues <;> simp [hvalues]

/-- A scope without paths and facets is refused. -/
theorem unscoped_iff : (scope.path = [] ∧ (scopeFacets x.facets scope).1 = []) ↔
    scope.isEmpty = true := by
  simp only [scopeFacets, pushLazyScopeFacet_eq_nil, GraphSymbolScope.isEmpty, Bool.and_eq_true,
    List.isEmpty_iff, and_true]
  tauto

end Records

/-! ## The scan finds the scope -/

section ScanSpec

variable {x : SymbolInventoryIndex} {admitted : InventorySymbol → SymbolOrdinal → Bool}
  {maxSymbols : ℕ}

/-- The scan may take a symbol. -/
def Takes (x : SymbolInventoryIndex) (admitted : InventorySymbol → SymbolOrdinal → Bool)
    (o : SymbolOrdinal) : Prop :=
  ∃ r, x.record o = some r ∧ admitted r o = true

/-- What one visit adds. It stops the scan only above the limit. -/
theorem visit_spec (symbols : SymbolSet) (o : SymbolOrdinal) :
    (∀ a, a ∈ (visit x admitted maxSymbols symbols o).1 ↔
      a ∈ symbols ∨ a = o ∧ Takes x admitted o) ∧
      ((visit x admitted maxSymbols symbols o).2 = false →
        maxSymbols < (visit x admitted maxSymbols symbols o).1.card) := by
  unfold visit
  split_ifs with hmem
  · refine ⟨fun a => ?_, nofun⟩
    constructor
    · exact Or.inl
    · rintro (ha | ⟨rfl, -⟩)
      · exact ha
      · exact hmem
  · cases hrecord : x.record o with
    | none => simp [Takes, hrecord]
    | some record =>
      dsimp only
      split_ifs with hadmit
      · have htakes : Takes x admitted o := ⟨record, hrecord, hadmit⟩
        refine ⟨fun a => ?_, fun hstop => ?_⟩
        · simp [htakes, or_comm]
        · simpa using hstop
      · have htakes : ¬Takes x admitted o := by
          rintro ⟨r, hr, hadmit'⟩
          obtain rfl := Option.some.inj (hrecord.symm.trans hr)
          exact hadmit hadmit'
        simp [htakes]

/-- The scan takes all it may take, or stops with too many. -/
theorem scan_spec : ∀ (ordinals : List SymbolOrdinal) (symbols : SymbolSet),
    (∀ a ∈ scan x admitted maxSymbols ordinals symbols,
      a ∈ symbols ∨ a ∈ ordinals ∧ Takes x admitted a) ∧
      (maxSymbols < (scan x admitted maxSymbols ordinals symbols).card ∨
        ∀ a, a ∈ symbols ∨ a ∈ ordinals ∧ Takes x admitted a →
          a ∈ scan x admitted maxSymbols ordinals symbols)
  | [], symbols => by simp [scan]
  | o :: ordinals, symbols => by
    obtain ⟨hmem, hstop⟩ := @visit_spec x admitted maxSymbols symbols o
    rw [scan]
    generalize visit x admitted maxSymbols symbols o = step at hmem hstop
    obtain ⟨found, goesOn⟩ := step
    cases goesOn with
    | true =>
      obtain ⟨hsound, hcomplete⟩ := scan_spec ordinals found
      dsimp only at hmem ⊢
      refine ⟨fun a ha => ?_, hcomplete.imp_right fun hcomplete a ha => hcomplete a ?_⟩
      · rcases hsound a ha with hfound | ⟨hrest, htakes⟩
        · exact ((hmem a).mp hfound).imp_right fun ⟨heq, htakes⟩ => by simp [heq, htakes]
        · exact Or.inr ⟨mem_cons_of_mem _ hrest, htakes⟩
      · rw [hmem]
        rcases ha with hold | ⟨hcons, htakes⟩
        · exact Or.inl (Or.inl hold)
        · rcases mem_cons.mp hcons with rfl | hrest
          · exact Or.inl (Or.inr ⟨rfl, htakes⟩)
          · exact Or.inr ⟨hrest, htakes⟩
    | false =>
      refine ⟨fun a ha => ?_, Or.inl (hstop rfl)⟩
      exact ((hmem a).mp ha).imp_right fun ⟨heq, htakes⟩ => by simp [heq, htakes]

theorem mem_foldl_insert {symbols : SymbolSet} {endpoints : List SymbolOrdinal} {a : SymbolOrdinal} :
    a ∈ endpoints.foldl (fun symbols o => symbols.insert o) symbols ↔
      a ∈ symbols ∨ a ∈ endpoints := by
  induction endpoints generalizing symbols with
  | nil => simp
  | cons o endpoints ih =>
    rw [foldl_cons, ih, OrdSet.mem_insert, mem_cons]
    tauto

end ScanSpec

section Coverage

variable {x : SymbolInventoryIndex} {paths : PathPostings x} {roots selected : List String}
  {scope : GraphSymbolScope} {crate : RegexCrate} {filter : FilePathFilter crate}
  {o : SymbolOrdinal} {r : InventorySymbol}

theorem mem_workspacePostings (hr : x.record o = some r) {indices : List ℕ}
    (hroot : r.sourceRoot ∈ indices) : ∃ s ∈ workspacePostings x indices, o ∈ s := by
  have hget : o ∈ x.facets.bySourceRoot.get r.sourceRoot :=
    x.described.sourceRoot.mem_get_single.mpr ⟨r, hr, rfl⟩
  obtain ⟨s, hs, ho⟩ := Postings.mem_get.mp hget
  exact ⟨s, mem_filterMap.mpr ⟨_, hroot, hs⟩, ho⟩

theorem mem_matchingPostings (hr : x.record o = some r)
    (hpath : filter.matches r.sourcePath.toList = true) :
    ∃ s ∈ matchingPostings x paths filter, o ∈ s := by
  have hget : o ∈ x.facets.bySourcePath.get r.sourcePath :=
    x.described.sourcePath.mem_get_single.mpr ⟨r, hr, rfl⟩
  obtain ⟨s, hs, ho⟩ := Postings.mem_get.mp hget
  refine ⟨s, mem_map.mpr ⟨⟨r.sourcePath, s⟩, mem_filter.mpr ⟨?_, hpath⟩, rfl⟩, ho⟩
  exact paths.perm.mem_iff.mpr (AList.mem_lookup_iff.mp hs)

/-- Every anchor that can be chosen leads to all symbols that are admitted. -/
theorem mem_candidates_of_admits {indices : List ℕ} {groups : List LazyScopeFacet} {cap workspace : ℕ}
    {anchor : ScopeAnchor}
    (hanchor : scopeAnchor groups (pathUpperBound x paths scope filter cap) workspace = some anchor)
    (hr : x.record o = some r) (hadmits : scopeAdmits indices scope filter groups r o = true) :
    o ∈ (candidates x paths indices filter groups anchor).flatMap (·.elems) := by
  obtain ⟨hrootPath, hgroups⟩ := (Bool.and_eq_true _ _).mp hadmits
  obtain ⟨hroot, hpath⟩ := (Bool.and_eq_true _ _).mp hrootPath
  suffices hposting : ∃ s ∈ candidates x paths indices filter groups anchor, o ∈ s by
    obtain ⟨s, hs, ho⟩ := hposting
    exact mem_flatMap.mpr ⟨s, hs, ho⟩
  obtain ⟨⟨bound, choice⟩, hchoice, rfl⟩ := Option.map_eq_some_iff.mp hanchor
  have hmem := List.minOn?_mem hchoice
  simp only [mem_append, mem_mapIdx, mem_map, mem_singleton] at hmem
  rcases hmem with (⟨i, hi, hfacet⟩ | ⟨path, hsome, hfacet⟩) | hfacet
  · obtain rfl := (Prod.mk.inj hfacet).2.symm
    have hmatches := all_eq_true.mp hgroups _ (getElem_mem hi)
    obtain ⟨s, hs, ho⟩ := any_eq_true.mp hmatches
    refine ⟨s, ?_, of_decide_eq_true ho⟩
    rw [candidates, getElem?_eq_getElem hi]
    exact hs
  · obtain rfl := (Prod.mk.inj hfacet).2.symm
    refine mem_matchingPostings hr ?_
    have hnone : scope.path ≠ [] := by
      intro hnone
      rw [pathUpperBound, if_pos hnone] at hsome
      cases hsome
    simpa [hnone] using hpath
  · obtain rfl := (Prod.mk.inj hfacet).2
    exact mem_workspacePostings hr (contains_iff_mem.mp hroot)

theorem exists_scopeAnchor (groups : List LazyScopeFacet) (path : Option (ℕ × Bool))
    (workspace : ℕ) : ∃ anchor, scopeAnchor groups path workspace = some anchor := by
  have hsome : ((groups.mapIdx (fun i group => (group.upperBound, ScopeAnchor.facet i)) ++
      path.toList.map (fun bound => (bound.1, ScopeAnchor.path)) ++
        [(workspace, ScopeAnchor.workspace)]).minOn? (·.1)).isSome = true := by
    rw [List.isSome_minOn?_iff]
    simp
  obtain ⟨choice, hchoice⟩ := Option.isSome_iff_exists.mp hsome
  exact ⟨choice.2, by rw [scopeAnchor, hchoice]; rfl⟩

/-- What is found from an anchor with the endpoints is the scope, or more of it than is allowed. -/
theorem scanned_spec {cap workspace maxSymbols : ℕ} {anchor : ScopeAnchor} {endpoints : SymbolSet}
    (hanchor : scopeAnchor (scopeFacets x.facets scope).1 (pathUpperBound x paths scope filter cap)
      workspace = some anchor) {symbols : SymbolSet}
    (hsymbols : symbols = endpoints.elems.foldl (fun symbols o => symbols.insert o)
      (scan x (scopeAdmits (selectedRootIndices roots selected) scope filter
        (scopeFacets x.facets scope).1) maxSymbols
          ((candidates x paths (selectedRootIndices roots selected) filter
            (scopeFacets x.facets scope).1 anchor).flatMap (·.elems)) ∅)) :
    (maxSymbols < symbols.card ↔
      maxSymbols < (corridorSymbols roots selected scope filter x endpoints).card) ∧
      (symbols.card ≤ maxSymbols →
        symbols = corridorSymbols roots selected scope filter x endpoints) := by
  obtain ⟨hsound, hcomplete⟩ := @scan_spec x (scopeAdmits (selectedRootIndices roots selected) scope
    filter (scopeFacets x.facets scope).1) maxSymbols
      ((candidates x paths (selectedRootIndices roots selected) filter
        (scopeFacets x.facets scope).1 anchor).flatMap (·.elems)) ∅
  have htakes : ∀ a, Takes x (scopeAdmits (selectedRootIndices roots selected) scope filter
      (scopeFacets x.facets scope).1) a ↔
        ∃ r, x.record a = some r ∧ InScope roots selected scope filter r := fun a =>
    exists_congr fun r => and_congr_right fun hr => scopeAdmits_iff hr
  have hsub : ∀ a ∈ symbols, a ∈ corridorSymbols roots selected scope filter x endpoints := by
    intro a ha
    rw [hsymbols, mem_foldl_insert] at ha
    refine mem_corridorSymbols.mpr (ha.imp_left fun ha => ?_)
    rcases hsound a ha with hempty | ⟨-, ha⟩
    · exact absurd hempty (OrdSet.notMem_empty a)
    · exact (htakes a).mp ha
  have hcard := OrdSet.card_le_of_subset hsub
  rcases hcomplete with hmany | hall
  · have hgrow := OrdSet.card_le_of_subset (t := symbols) fun a ha => by
      rw [hsymbols, mem_foldl_insert]
      exact Or.inl ha
    exact ⟨by omega, by omega⟩
  · have hsame : symbols = corridorSymbols roots selected scope filter x endpoints := by
      ext a
      refine ⟨hsub a, fun ha => ?_⟩
      rw [hsymbols, mem_foldl_insert]
      refine (mem_corridorSymbols.mp ha).imp_left fun hscope => hall a (Or.inr ⟨?_, ?_⟩)
      · obtain ⟨r, hr, hscope⟩ := hscope
        exact mem_candidates_of_admits hanchor hr ((scopeAdmits_iff hr).mpr hscope)
      · exact (htakes a).mpr hscope
    exact ⟨by rw [hsame], fun _ => hsame⟩

end Coverage

theorem boundedScope_eq {symbols : SymbolSet} {maxSymbols : ℕ} (hne : 0 < symbols.card)
    (hcard : symbols.card ≤ maxSymbols) : boundedScope symbols maxSymbols =
      if maxGraphSymbols < maxSymbols then none else some symbols := by
  have hsymbols : symbols ≠ ∅ := by
    rintro rfl
    exact absurd hne (Nat.lt_irrefl 0)
  rw [boundedScope]
  by_cases hmax : maxGraphSymbols < maxSymbols
  · rw [if_pos hmax, if_neg fun h => absurd h.2.2 (not_le_of_gt hmax)]
  · rw [if_neg hmax, if_pos ⟨hsymbols, hcard, not_lt.mp hmax⟩]

/-- The scope of several endpoints is what the query asks for, whatever was scanned to find it. It
is too large exactly if it has more symbols than are allowed, but for two requests that the
validation of queries does not let pass, of no path or facet and of too many symbols. -/
theorem graphCorridorScope_outcome (crate : RegexCrate) (x : SymbolInventoryIndex)
    (paths : PathPostings x) (roots selected : List String) (scope : GraphSymbolScope)
    {filter : FilePathFilter crate} (hfilter : FilePathFilter.compile crate scope.path = .ok filter)
    {endpoints : SymbolSet} (hend : 1 < endpoints.card) (maxSymbols : ℕ) : Stop.mapError (·.code)
        (graphCorridorScope crate x paths roots selected scope endpoints maxSymbols) =
      if scope.isEmpty ∧ endpoints.card ≤ maxSymbols then .error (.error "invalid_graph_scope")
      else if maxSymbols < (corridorSymbols roots selected scope filter x endpoints).card then
        .error (.error "graph_scope_too_large")
      else if maxGraphSymbols < maxSymbols then .error (.error "invalid_graph_scope")
      else .ok (corridorSymbols roots selected scope filter x endpoints) := by
  have hle : endpoints.card ≤ (corridorSymbols roots selected scope filter x endpoints).card :=
    OrdSet.card_le_of_subset fun o ho => mem_corridorSymbols.mpr (Or.inr ho)
  unfold graphCorridorScope
  rw [if_neg (by omega)]
  by_cases hmany : maxSymbols < endpoints.card
  · rw [if_pos hmany, if_neg (by omega), if_pos (by omega)]
    rfl
  rw [if_neg hmany, hfilter]
  simp only [Stop.mapError, ok_bind, unscoped_iff]
  by_cases hempty : scope.isEmpty = true
  · rw [if_pos hempty, if_pos ⟨hempty, not_lt.mp hmany⟩]
  rw [if_neg hempty, if_neg fun h => hempty h.1]
  obtain ⟨anchor, hanchor⟩ := exists_scopeAnchor (scopeFacets x.facets scope).1
    (pathUpperBound x paths scope filter (min
      (((scopeFacets x.facets scope).1.map (·.upperBound)).foldl min
        (sumSizes (workspacePostings x (selectedRootIndices roots selected))))
      (saturatingAdd maxSymbols 1)))
    (sumSizes (workspacePostings x (selectedRootIndices roots selected)))
  rw [hanchor]
  dsimp only
  generalize hsymbols : endpoints.elems.foldl _ _ = symbols
  obtain ⟨hlarge, hsame⟩ := scanned_spec hanchor hsymbols.symm
  by_cases hcard : maxSymbols < symbols.card
  · rw [if_pos hcard, if_pos (hlarge.mp hcard)]
    rfl
  · obtain rfl := hsame (not_lt.mp hcard)
    rw [if_neg hcard, if_neg hcard, boundedScope_eq (by omega) (not_lt.mp hcard)]
    split_ifs <;> rfl

def functionAt (defIdx : ℕ) (name : String) : InventorySymbol where
  id := ⟨0, defIdx⟩
  source := 0
  identity := "code+moniker://./fn:" ++ name
  name
  kind := "fn"
  shape := "callable"
  visibility := "public"
  language := "rs"
  sourcePath := "src/app.rs"
  sourceRoot := 0
  srcset := "main"
  lineRange := none
  navigable := true
  parent := none
  ancestors := []
  segments := []

def threeFunctions : SymbolInventoryIndex :=
  ((SymbolInventoryIndex.empty.insertRecord 0 zero_notMem_empty (functionAt 0 "f")).insertRecord 1
    (by decide) (functionAt 1 "g")).insertRecord 2 (by decide) (functionAt 2 "h")

/-- The scope of all functions of the first root, between the first two symbols. -/
def functionScope : GraphSymbolScope := ⟨[], [], ["fn".toList], [], []⟩

theorem graphCorridorScope_functionScope : Stop.mapError (·.code) (graphCorridorScope pieceRegex
    threeFunctions ⟨_, .refl _⟩ ["/app"] ["/app"] functionScope (.ofList [0, 1]) 3) =
      .ok (.ofList [0, 1, 2]) := by
  refine (graphCorridorScope_outcome pieceRegex threeFunctions ⟨_, .refl _⟩ ["/app"] ["/app"]
    functionScope rfl (by decide) 3).trans ?_
  decide

/-- Without a path or a facet no scope is returned, although it would be small enough. -/
theorem graphCorridorScope_unscoped :
    (corridorSymbols ["/app"] ["/app"] ⟨[], [], [], [], []⟩ (⟨[]⟩ : FilePathFilter pieceRegex)
      threeFunctions (.ofList [0, 1])).card ≤ 3 ∧
      graphCorridorScope pieceRegex threeFunctions ⟨_, .refl _⟩ ["/app"] ["/app"]
          ⟨[], [], [], [], []⟩ (.ofList [0, 1]) 3 = .error (.error ⟨"invalid_graph_scope",
          "at least one semantic scope is required: path, lang, kind, shape, or srcset"⟩) :=
  ⟨by decide, rfl⟩

end CodeMoniker
