import CodeMoniker.Glob
import CodeMoniker.IdentityTree
import CodeMoniker.QueryRequests

/-!
# The tree of files

`tree.children` shows the files of a path filter, each cut a few names below the scope. A scope
without wildcards is cut off from the path by its length. The scope is normalised once more for
that (`treePlainScope`), and the path is taken as it is, while the filter reads `/` for `\`.
`pathFilterExact_iff` says when the filter selects the scope that the pattern names and the tree
shows the files of the filter.
-/

namespace CodeMoniker

open List Option Query PathPatterns

/-! ## Rows -/

inductive TreeNodeKind where
  | directory
  | file
  deriving DecidableEq, Repr

structure TreeNode where
  root : String
  path : List Char
  kind : TreeNodeKind
  language : Option String
  defs : ℕ := 0
  refs : ℕ := 0
  changeCount : ℕ := 0
  deriving DecidableEq

def treePlainScope (paths : List (List Char)) : Option (List Char) :=
  match paths with
  | [path] => if isWild path then none else some (normalizeTreePath path)
  | _ => none

/-- A source of the index that is looked at. -/
structure ScopedSource where
  root : String
  slot : ℕ
  record : SourceFileRecord

def ScopedSource.path (source : ScopedSource) : List Char := source.record.relPath.toList

section Rows

variable (scope : Option (List Char)) (depth : ℕ) (path : List Char)

/-- The names of the path that are shown at most. -/
def treeRemainder : List Char :=
  if scope = some path then path else (path.drop (scope.getD []).length).dropWhile (· = '/')

def treeParts : List (List Char) := (treeRemainder scope path).splitOn '/'

def joinSlash (names : List (List Char)) : List Char := ['/'].intercalate names

def treeRowPath : List Char :=
  let shown := joinSlash ((treeParts scope path).take (max depth 1))
  if scope = some path ∨ scope.getD [] = [] then shown
  else (scope.getD []).rdropWhile (· = '/') ++ '/' :: shown

def treeRowKind : TreeNodeKind :=
  if max depth 1 < (treeParts scope path).length then .directory else .file

end Rows

section Tree

variable {crate : RegexCrate} (s : IdentitySnapshot) (changes : List (Option ℕ))
  (roots selected : List String) (query : TreeChildrenQuery) (filter : FilePathFilter crate)

/-- The loop up to the row of a source. -/
def scopedSources : List ScopedSource :=
  s.sources.zipIdx.filterMap fun (record, slot) => do
    let root ← sourceRoot roots selected record
    if query.lang ≠ [] ∧ record.language.toList ∉ query.lang then none
    else if !filter.matches record.relPath.toList then none
    else some ⟨root, slot, record⟩

variable (source : ScopedSource)

def newTreeNode : TreeNode :=
  let kind := treeRowKind (treePlainScope query.path) query.depth source.path
  { root := source.root
    path := treeRowPath (treePlainScope query.path) query.depth source.path
    kind
    language := if kind = .file then some source.record.language else none }

/-- What a source adds to its row. -/
def addToRow (node : TreeNode) : TreeNode :=
  { node with
    defs := node.defs + ((s.symbols.shards.getD source.slot []).filter (·.navigable)).length
    refs := node.refs + (s.references.fileRecords source.slot).length
    changeCount := node.changeCount + changes.count (some source.slot) }

def treeEntryKey : List Char :=
  source.root.toList ++ '\x00' :: treeRowPath (treePlainScope query.path) query.depth source.path

def treeRows : List TreeNode :=
  ((scopedSources s roots selected query filter).foldl (fun rows source =>
    if treeRemainder (treePlainScope query.path) source.path = [] then rows
    else rows.update (treeEntryKey query source) (newTreeNode query source)
      (addToRow s changes source)) (∅ : OrdMap (List Char) TreeNode)).values

end Tree

/-! ## The response -/

/-- By falling count, and by name. -/
def sortedCounts (values : List String) : List (String × ℕ) :=
  let counts := values.foldl (fun m v => m.update v 0 (· + 1)) (∅ : OrdMap String ℕ)
  StableSort.stableSort (fun e => OrderDual.toDual e.2) counts.entries

def pathComponents (path : String) : List String :=
  let names := ((path.toList.splitOn '/').map String.ofList).filter fun c => c ≠ "" ∧ c ≠ "."
  if path.startsWith "/" then "/" :: names
  else if path = "." ∨ path.startsWith "./" then "." :: names
  else names

def pathPrefix (path : String) : String :=
  match (pathComponents path).dropLast.take 2 with
  | [] => "<root>"
  | parts => "/".intercalate parts

def workspaceLabelFromPaths (roots : List String) : String :=
  match roots with
  | [root] => root
  | _ => ";".intercalate roots

structure TreeChildrenResult where
  root : String
  roots : List String
  total : ℕ
  rows : List TreeNode
  totalFiles : ℕ
  scopedFiles : ℕ
  languages : List (String × ℕ)
  prefixes : List (String × ℕ)
  nextCursor : Option QueryCursor

/-- A pattern that does not compile is refused, and one panic ends the request. -/
def treeChildrenResponse (crate : RegexCrate) (s : IdentitySnapshot) (changes : List (Option ℕ))
    (roots : List String) (query : TreeChildrenQuery) (page : Page) (generation : Option ℕ) :
    Except (ByteCodec.Stop QueryError) TreeChildrenResult := do
  let selected ← (selectedRoots roots query.workspace).mapError ByteCodec.Stop.error
  let filter ← ByteCodec.Stop.mapError
    (fun message => ⟨"invalid_path_filter", String.ofList message⟩)
    (FilePathFilter.compile crate query.path)
  let files := scopedSources s roots selected query filter
  let paged ← (pageRows (treeRows s changes roots selected query filter) page generation).mapError
    ByteCodec.Stop.error
  return {
    root := workspaceLabelFromPaths selected
    roots := selected
    total := paged.total
    rows := paged.items
    totalFiles := (s.sources.filter fun source => (sourceRoot roots selected source).isSome).length
    scopedFiles := files.length
    languages := sortedCounts (files.map (·.record.language))
    prefixes := sortedCounts (files.map fun source => pathPrefix source.record.relPath)
    nextCursor := paged.nextCursor }

/-! ## What the tree should show -/

/-- A path cut `depth` names below the scope. The scope itself is cut after its first names. -/
def shownPath (scope : List Char) (depth : ℕ) (path : List Char) : List Char :=
  if path = scope then joinSlash ((path.splitOn '/').take (max depth 1))
  else joinSlash ((path.splitOn '/').take ((scope.splitOn '/').length + max depth 1))

/-- The path spells the scope itself, or a name after the scope and one `/`. -/
def Spelled (scope path : List Char) : Prop :=
  path = scope ∧ path ≠ [] ∨ ∃ c rest, path = scope ++ '/' :: c :: rest ∧ c ≠ '/'

theorem joinSlash_append : ∀ {a b : List (List Char)}, a ≠ [] → b ≠ [] →
    joinSlash (a ++ b) = joinSlash a ++ '/' :: joinSlash b
  | [], _, ha, _ => absurd rfl ha
  | [name], b, _, hb => by
    rw [joinSlash, cons_append, nil_append, intercalate_cons_of_ne_nil hb]
    simp [joinSlash]
  | name :: name' :: a, b, _, hb => by
    have ih := joinSlash_append (cons_ne_nil name' a) hb
    simp only [joinSlash, cons_append, intercalate_cons_cons] at ih ⊢
    simp [ih]

theorem joinSlash_splitOn (text : List Char) : joinSlash (text.splitOn '/') = text :=
  intercalate_splitOn _

section Shown

variable {scope path : List Char} {depth : ℕ}

/-- Of a spelled path what lies below the scope is left, or else the path itself. -/
theorem treeRemainder_ne_nil (h : Spelled scope path) : treeRemainder (some scope) path ≠ [] := by
  unfold treeRemainder
  rcases h with ⟨rfl, hne⟩ | ⟨c, rest, rfl, hc⟩
  · rwa [if_pos rfl]
  · rw [if_neg (by simp), getD_some, drop_left, dropWhile_cons_of_pos (by simp),
      dropWhile_cons_of_neg (by simpa using hc)]
    exact cons_ne_nil _ _

/-- A spelled path is shown by its row. -/
theorem treeRowPath_eq (h : Spelled scope path) (htrim : scope.rdropWhile (· = '/') = scope)
    (hslash : ¬['/'] <+: path) : treeRowPath (some scope) depth path =
      shownPath scope depth path := by
  rcases h with ⟨rfl, -⟩ | ⟨c, rest, rfl, hc⟩
  · rw [treeRowPath, shownPath, if_pos (Or.inl rfl), if_pos rfl, treeParts, treeRemainder,
      if_pos rfl]
  · have hne : scope ≠ [] := by
      rintro rfl
      exact hslash ⟨_, rfl⟩
    have hself : some scope ≠ some (scope ++ '/' :: c :: rest) := by simp
    have hrest : treeRemainder (some scope) (scope ++ '/' :: c :: rest) = c :: rest := by
      rw [treeRemainder, if_neg hself, getD_some, drop_left,
        dropWhile_cons_of_pos (by simp), dropWhile_cons_of_neg (by simpa using hc)]
    have hshown : ((c :: rest).splitOn '/').take (max depth 1) ≠ [] := by
      simp only [ne_eq, take_eq_nil_iff, splitOn_ne_nil, or_false]
      omega
    rw [treeRowPath, getD_some, if_neg (not_or.mpr ⟨hself, hne⟩), treeParts, hrest, htrim,
      shownPath, if_neg (by simp), splitOn_append_cons_self, take_length_add_append,
      joinSlash_append (splitOn_ne_nil _ _) hshown, joinSlash_splitOn]

theorem length_splitOn_le (text : List Char) : (text.splitOn '/').length ≤ text.length + 1 := by
  induction text with
  | nil => simp
  | cons c text ih =>
    rw [splitOn_cons_eq_if_modifyHead]
    split_ifs
    · simpa using ih
    · simp only [length_modifyHead, length_cons]
      omega

/-- A depth that no path exceeds shows paths whole. -/
theorem shownPath_of_length_le (h : path.length < depth) : shownPath scope depth path = path := by
  have hlength := length_splitOn_le path
  unfold shownPath
  split_ifs
  · rw [take_of_length_le (by omega), joinSlash_splitOn]
  · rw [take_of_length_le (by omega), joinSlash_splitOn]

/-- What a row shows in whole is spelled. -/
theorem spelled_treeRowPath (htrim : scope.rdropWhile (· = '/') = scope)
    (hscope : scope = [] → path = []) (hlength : path.length < depth)
    (hrest : treeRemainder (some scope) path ≠ []) :
    Spelled scope (treeRowPath (some scope) depth path) := by
  have hparts : (treeParts (some scope) path).take (max depth 1) =
      (treeRemainder (some scope) path).splitOn '/' := by
    refine take_of_length_le ((length_splitOn_le _).trans ?_)
    have hle : (treeRemainder (some scope) path).length ≤ path.length := by
      unfold treeRemainder
      split_ifs
      · exact le_rfl
      · exact ((dropWhile_suffix _).length_le).trans (by simp)
    omega
  rw [treeRowPath, hparts, joinSlash_splitOn, getD_some]
  by_cases hself : some scope = some path
  · obtain rfl := some.inj hself
    rw [treeRemainder, if_pos rfl] at hrest
    rw [if_pos (Or.inl rfl), treeRemainder, if_pos rfl]
    exact Or.inl ⟨rfl, hrest⟩
  · have hne : scope ≠ [] := by
      rintro rfl
      exact hself (by rw [hscope rfl])
    rw [if_neg (not_or.mpr ⟨hself, hne⟩), htrim]
    rw [treeRemainder, if_neg hself] at hrest ⊢
    obtain ⟨c, rest, hcons⟩ := exists_cons_of_ne_nil hrest
    have hhead := head?_dropWhile_not (fun c => decide (c = '/'))
      (path.drop ((some scope).getD []).length)
    rw [hcons] at hhead ⊢
    exact Or.inr ⟨c, rest, rfl, by simpa using hhead⟩

end Shown

/-! ## The rows are those of the sources -/

section Rows

variable {crate : RegexCrate} {s : IdentitySnapshot} {changes : List (Option ℕ)}
  {roots selected : List String} {query : TreeChildrenQuery} {filter : FilePathFilter crate}

theorem mem_scopedSources {source : ScopedSource} :
    source ∈ scopedSources s roots selected query filter ↔
      s.sources[source.slot]? = some source.record ∧
        sourceRoot roots selected source.record = some source.root ∧
        (query.lang = [] ∨ source.record.language.toList ∈ query.lang) ∧
        filter.matches source.path = true := by
  obtain ⟨root, slot, record⟩ := source
  simp only [scopedSources, mem_filterMap, mem_zipIdx_iff_getElem?, Prod.exists,
    bind_eq_bind, bind_eq_some_iff, ScopedSource.path]
  constructor
  · rintro ⟨record', slot', hslot, root', hroot, hsome⟩
    split_ifs at hsome with hlang hmatch
    obtain ⟨rfl, rfl, rfl⟩ := ScopedSource.mk.inj (some.inj hsome)
    refine ⟨hslot, hroot, ?_, by simpa using hmatch⟩
    by_contra hnot
    exact hlang (not_or.mp hnot)
  · rintro ⟨hslot, hroot, hlang, hmatch⟩
    refine ⟨record, slot, hslot, root, hroot, ?_⟩
    rw [if_neg fun h => hlang.elim h.1 h.2, if_neg (by simp [hmatch])]

variable (s changes) in
/-- A row keeps the root and the path of the source that made it. -/
theorem foldl_addToRow (group : List ScopedSource) (node : TreeNode) :
    (group.foldl (fun node source => addToRow s changes source node) node).root = node.root ∧
      (group.foldl (fun node source => addToRow s changes source node) node).path = node.path := by
  induction group generalizing node with
  | nil => exact ⟨rfl, rfl⟩
  | cons source group ih => exact ih (addToRow s changes source node)

/-- The counts of a row : definitions, references, changes. -/
def TreeNode.counts (node : TreeNode) : ℕ × ℕ × ℕ := (node.defs, node.refs, node.changeCount)

variable (s changes) in
/-- What a source counts in its row. -/
def countsOf (source : ScopedSource) : ℕ × ℕ × ℕ :=
  (((s.symbols.shards.getD source.slot []).filter (·.navigable)).length,
    (s.references.fileRecords source.slot).length, changes.count (some source.slot))

theorem nul_notMem_sourceRoot {record : SourceFileRecord} {root : String}
    (hroots : ∀ root ∈ roots, '\x00' ∉ root.toList)
    (h : sourceRoot roots selected record = some root) : '\x00' ∉ root.toList := by
  unfold sourceRoot at h
  split at h
  · split_ifs at h
    rw [← some.inj h]
    decide
  · rename_i root' hroot
    split_ifs at h
    rw [← some.inj h]
    exact hroots _ (mem_of_getElem? hroot)

theorem append_nul_inj {a b u v : List Char} (ha : '\x00' ∉ a) (hb : '\x00' ∉ b)
    (h : a ++ '\x00' :: u = b ++ '\x00' :: v) : a = b ∧ u = v := by
  have hsplit := congrArg (splitOnce '\x00') h
  rw [splitOnce_append ha, splitOnce_append hb] at hsplit
  exact Prod.mk.inj (some.inj hsplit)

variable (s changes roots selected query filter) in
/-- The sources that have a name left. -/
def keptSources : List ScopedSource :=
  (scopedSources s roots selected query filter).filter fun source =>
    treeRemainder (treePlainScope query.path) source.path ≠ []

theorem nul_notMem_root (hroots : ∀ root ∈ roots, '\x00' ∉ root.toList) {source : ScopedSource}
    (h : source ∈ keptSources s roots selected query filter) : '\x00' ∉ source.root.toList :=
  nul_notMem_sourceRoot hroots (mem_scopedSources.mp (mem_filter.mp h).1).2.1

variable (s changes roots selected query filter) in
def treeEntries : OrdMap (List Char) TreeNode :=
  (keptSources s roots selected query filter).foldl (fun rows source =>
    rows.update (treeEntryKey query source) (newTreeNode query source)
      (addToRow s changes source)) ∅

theorem treeRows_eq : treeRows s changes roots selected query filter =
    (treeEntries s changes roots selected query filter).values := by
  rw [treeRows, treeEntries, keptSources, foldl_filter]
  simp only [ne_eq, decide_not, Bool.not_eq_true', decide_eq_false_iff_not, ite_not]

variable (s changes) in
/-- A row adds up what its sources count. -/
theorem counts_foldl_addToRow (group : List ScopedSource) (node : TreeNode) :
    (group.foldl (fun node source => addToRow s changes source node) node).counts =
      node.counts + (group.map (countsOf s changes)).sum := by
  induction group generalizing node with
  | nil => simp
  | cons source group ih =>
    rw [foldl_cons, ih, map_cons, sum_cons, ← add_assoc]
    rfl

/-- The row of a key is made by the first source with that key, and counts all of them. -/
theorem get?_treeEntries {key : List Char} {row : TreeNode}
    (h : (treeEntries s changes roots selected query filter).get? key = some row) :
    (∃ source ∈ keptSources s roots selected query filter, treeEntryKey query source = key ∧
      row.root = source.root ∧
        row.path = treeRowPath (treePlainScope query.path) query.depth source.path) ∧
    row.counts = (((keptSources s roots selected query filter).filter
      (treeEntryKey query · = key)).map (countsOf s changes)).sum := by
  rw [treeEntries, OrdMap.get?_foldl_update] at h
  split at h
  · cases h
  · rename_i source group hgroup
    have hmem : source ∈ List.filter _ _ := hgroup ▸ mem_cons_self
    obtain ⟨hsource, hkey⟩ := mem_filter.mp hmem
    obtain ⟨hroot, hpath⟩ :=
      foldl_addToRow s changes group (addToRow s changes source (newTreeNode query source))
    rw [← some.inj h]
    refine ⟨⟨source, hsource, by simpa using hkey, hroot, hpath⟩, ?_⟩
    have hgroup' : (keptSources s roots selected query filter).filter
        (treeEntryKey query · = key) = source :: group := by convert hgroup
    rw [hgroup']
    exact (counts_foldl_addToRow s changes (source :: group) _).trans (zero_add _)

/-- The rows are those of the sources that have a name left. -/
theorem exists_treeRow_iff (hroots : ∀ root ∈ roots, '\x00' ∉ root.toList) {root : String}
    {path : List Char} :
    (∃ row ∈ treeRows s changes roots selected query filter, row.root = root ∧ row.path = path) ↔
      ∃ source ∈ scopedSources s roots selected query filter,
        treeRemainder (treePlainScope query.path) source.path ≠ [] ∧ source.root = root ∧
          treeRowPath (treePlainScope query.path) query.depth source.path = path := by
  rw [treeRows_eq]
  constructor
  · rintro ⟨row, hrow, rfl, rfl⟩
    obtain ⟨key, hget⟩ := OrdMap.mem_values.mp hrow
    obtain ⟨⟨source, hkept, -, hroot, hpath⟩, -⟩ := get?_treeEntries hget
    obtain ⟨hsource, hrest⟩ := mem_filter.mp hkept
    exact ⟨source, hsource, of_decide_eq_true hrest, hroot.symm, hpath.symm⟩
  · rintro ⟨source, hsource, hrest, rfl, rfl⟩
    have hkept : source ∈ keptSources s roots selected query filter :=
      mem_filter.mpr ⟨hsource, decide_eq_true hrest⟩
    obtain ⟨row, hget⟩ : ∃ row, (treeEntries s changes roots selected query filter).get?
        (treeEntryKey query source) = some row :=
      OrdMap.mem_keys.mp (OrdMap.mem_keys_foldl_update.mpr ⟨source, hkept, rfl⟩)
    obtain ⟨⟨first, hfirst, hkey, hroot, hpath⟩, -⟩ := get?_treeEntries hget
    obtain ⟨hsame, hshown⟩ := append_nul_inj (nul_notMem_root hroots hfirst)
      (nul_notMem_root hroots hkept) hkey
    exact ⟨row, OrdMap.mem_values.mpr ⟨_, hget⟩, hroot.trans (String.toList_inj.mp hsame),
      hpath.trans hshown⟩

variable (s changes roots selected query filter) in
/-- No two rows show one path of one root, and a row counts the definitions, the references and the
changes of the sources that are shown as its path, each of them once. -/
def RowsAccount (rows : List TreeNode) : Prop :=
  (rows.map fun row => (row.root, row.path)).Nodup ∧ ∀ row ∈ rows, row.counts =
    (((keptSources s roots selected query filter).filter fun source => source.root = row.root ∧
        treeRowPath (treePlainScope query.path) query.depth source.path = row.path).map
      (countsOf s changes)).sum

theorem account_treeRows (hroots : ∀ root ∈ roots, '\x00' ∉ root.toList) :
    RowsAccount s changes roots selected query filter
      (treeRows s changes roots selected query filter) := by
  rw [treeRows_eq]
  constructor
  · refine Nodup.of_map (fun e => e.1.toList ++ '\x00' :: e.2) ?_
    rw [OrdMap.values, List.map_map, List.map_map]
    convert (treeEntries s changes roots selected query filter).nodup_keys using 1
    refine map_congr_left fun e he => ?_
    obtain ⟨⟨source, -, hkey, hroot, hpath⟩, -⟩ := get?_treeEntries (OrdMap.mem_entries.mp he)
    rw [← hkey, treeEntryKey, ← hroot, ← hpath]
    rfl
  · intro row hrow
    obtain ⟨key, hget⟩ := OrdMap.mem_values.mp hrow
    obtain ⟨⟨first, hfirst, rfl, hroot, hpath⟩, hcounts⟩ := get?_treeEntries hget
    rw [hcounts, hroot, hpath]
    congr 2
    refine filter_congr fun source hsource => decide_eq_decide.mpr ⟨fun hkey => ?_, ?_⟩
    · obtain ⟨hsame, hshown⟩ := append_nul_inj (nul_notMem_root hroots hsource)
        (nul_notMem_root hroots hfirst) hkey
      exact ⟨String.toList_inj.mp hsame, hshown⟩
    · rintro ⟨hsame, hshown⟩
      rw [treeEntryKey, treeEntryKey, hsame, hshown]

theorem items_sublist {T : Type} {rows : List T} {page : Page} {generation : Option ℕ}
    {paged : Paged T} (h : pageRows rows page generation = .ok paged) :
    paged.items.Sublist rows := by
  obtain ⟨-, -, h⟩ := ByteCodec.bind_eq_ok.mp h
  rw [← Except.ok.inj h]
  exact (take_sublist _ _).trans (drop_sublist _ _)

/-- All rows account for the sources, and so do the rows of every page of a response. -/
theorem treeRows_account (hroots : ∀ root ∈ roots, '\x00' ∉ root.toList) :
    RowsAccount s changes roots selected query filter (treeRows s changes roots selected query filter) ∧
    ∀ page generation response,
      treeChildrenResponse crate s changes roots query page generation = .ok response →
        ∃ filter : FilePathFilter crate, FilePathFilter.compile crate query.path = .ok filter ∧
          RowsAccount s changes roots response.roots query filter response.rows := by
  refine ⟨account_treeRows hroots, fun page generation response h => ?_⟩
  obtain ⟨selected', -, h⟩ := ByteCodec.bind_eq_ok.mp h
  obtain ⟨filter', hfilter, h⟩ := ByteCodec.bind_eq_ok.mp h
  obtain ⟨paged, hpaged, h⟩ := ByteCodec.bind_eq_ok.mp h
  obtain rfl := Except.ok.inj h
  have hsub := items_sublist (ByteCodec.mapError_eq_ok.mp hpaged)
  obtain ⟨hnodup, hcounts⟩ : RowsAccount s changes _ _ _ _ _ := account_treeRows hroots
  exact ⟨filter', ByteCodec.Stop.mapError_eq_ok.mp hfilter, hnodup.sublist (hsub.map _),
    fun row hrow => hcounts row (hsub.subset hrow)⟩

end Rows

/-! ## Exact filters -/

/-- A filter of one pattern selects what the pattern says, and the tree shows its files. -/
structure PathFilterExact {crate : RegexCrate} (pattern : List Char)
    (filter : FilePathFilter crate) (s : IdentitySnapshot) (changes : List (Option ℕ))
    (roots : List String) : Prop where
  plain : isWild pattern = false → ∀ path, RelativePath path →
    (filter.matches path = true ↔ Selects (namedPath pattern) (forwardSlashes path))
  wild : isWild pattern = true → ∀ normalized, normalizePathPattern pattern = .ok normalized →
    ∀ path, '\n' ∉ path →
      (filter.matches path = true ↔ Splits (globPieces normalized) (forwardSlashes path))
  tree : isWild pattern = false → ∀ query selected, query.path = [pattern] →
    selectedRoots roots query.workspace = .ok selected → ∀ root path,
      (∃ row ∈ treeRows s changes roots selected query filter, row.root = root ∧ row.path = path) ↔
        ∃ source ∈ scopedSources s roots selected query filter, source.root = root ∧
          shownPath (namedPath pattern) query.depth source.path = path

section Exact

variable {crate : RegexCrate} {pattern normalized : List Char} {filter : FilePathFilter crate}
  {s : IdentitySnapshot} {changes : List (Option ℕ)} {roots : List String}

theorem normalizeTreePath_eq (h : normalizePathPattern pattern = .ok normalized) :
    normalizeTreePath pattern = normalized.rdropWhile (· = '/') := by
  rw [normalizePathPattern_eq h]
  rfl

/-- The two normal forms agree on the name of a path. -/
theorem rdropWhile_namedPath : (namedPath pattern).rdropWhile (· = '/') = namedPath pattern :=
  rdropWhile_idempotent _ _

theorem sourceRoot_isSome {selected : List String} {record : SourceFileRecord}
    (h : (sourceRoot roots selected record).isSome = true) :
    (sourceRoot roots roots record).isSome = true := by
  unfold sourceRoot at h ⊢
  split at h
  · split_ifs at h with hmemory
    · simp [hmemory.1]
    · exact absurd h (by simp)
  · rename_i root hroot
    simp [mem_of_getElem? hroot]

/-- A relative path below a scope of no name is that scope. -/
theorem eq_nil_of_selects_nil {path : List Char} (hpath : RelativePath path)
    (h : Selects [] (forwardSlashes path)) : path = [] := by
  rcases h with heq | hbelow
  · exact map_eq_nil_iff.mp heq
  · exact absurd hbelow hpath.slash

theorem not_rooted {path : List Char} (h : RelativePath path) : ¬['/'] <+: path := by
  rintro ⟨rest, rfl⟩
  exact h.slash ⟨forwardSlashes rest, rfl⟩

section Plain

variable (hplain : isWild pattern = false)
  (hnormalized : normalizePathPattern pattern = .ok normalized)
  (hnamed : normalized = namedPath pattern)

include hplain hnormalized hnamed

theorem treePlainScope_singleton : treePlainScope [pattern] = some (namedPath pattern) := by
  rw [treePlainScope]
  simp only [hplain, Bool.false_eq_true, if_false]
  rw [normalizeTreePath_eq hnormalized, hnamed, rdropWhile_namedPath]

variable (hroots : ∀ root ∈ roots, '\x00' ∉ root.toList)

include hroots

/-- The tree shows the files of the filter if their paths spell the scope. -/
theorem tree_of_spelled
    (hsources : ∀ record ∈ s.sources, RelativePath record.relPath.toList)
    (hspelled : ∀ record ∈ s.sources, (sourceRoot roots roots record).isSome = true →
      filter.matches record.relPath.toList = true →
        Spelled (namedPath pattern) record.relPath.toList)
    {query : TreeChildrenQuery} {selected : List String} (hquery : query.path = [pattern])
    {root : String} {path : List Char} :
    (∃ row ∈ treeRows s changes roots selected query filter, row.root = root ∧ row.path = path) ↔
      ∃ source ∈ scopedSources s roots selected query filter, source.root = root ∧
        shownPath (namedPath pattern) query.depth source.path = path := by
  rw [exists_treeRow_iff hroots, hquery, treePlainScope_singleton hplain hnormalized hnamed]
  refine exists_congr fun source => and_congr_right fun hsource => ?_
  obtain ⟨hslot, hroot, -, hmatch⟩ := mem_scopedSources.mp hsource
  have hmem := mem_of_getElem? hslot
  have hshow := hspelled _ hmem (sourceRoot_isSome (by rw [hroot]; rfl)) hmatch
  have hremainder : treeRemainder (some (namedPath pattern)) source.path ≠ [] :=
    treeRemainder_ne_nil hshow
  have hrow : treeRowPath (some (namedPath pattern)) query.depth source.path =
      shownPath (namedPath pattern) query.depth source.path :=
    treeRowPath_eq hshow rdropWhile_namedPath (not_rooted (hsources _ hmem))
  rw [hrow]
  exact and_iff_right hremainder

/-- If the tree shows the files of the filter, then their paths spell the scope. -/
theorem spelled_of_tree
    (hmatches : ∀ record ∈ s.sources, filter.matches record.relPath.toList = true →
      namedPath pattern = [] → record.relPath.toList = [])
    (htree : PathFilterExact pattern filter s changes roots) {record : SourceFileRecord}
    (hmem : record ∈ s.sources) (hroot : (sourceRoot roots roots record).isSome = true)
    (hmatch : filter.matches record.relPath.toList = true) :
    Spelled (namedPath pattern) record.relPath.toList := by
  obtain ⟨slot, hslot⟩ := mem_iff_getElem?.mp hmem
  obtain ⟨root, hroot⟩ := isSome_iff_exists.mp hroot
  -- deeper than every path
  let depth := (s.sources.map fun record => record.relPath.toList.length).sum + 1
  have hdepth : ∀ record ∈ s.sources, record.relPath.toList.length < depth := fun record hr =>
    Nat.lt_succ_of_le (le_sum_of_mem (List.mem_map_of_mem (f := fun record =>
      record.relPath.toList.length) hr))
  let query : TreeChildrenQuery := ⟨none, [pattern], depth, [], []⟩
  have hsource : (⟨root, slot, record⟩ : ScopedSource) ∈
      scopedSources s roots roots query filter :=
    mem_scopedSources.mpr ⟨hslot, hroot, Or.inl rfl, hmatch⟩
  have hshown := (htree.tree hplain query roots rfl rfl root record.relPath.toList).mpr
    ⟨_, hsource, rfl, shownPath_of_length_le (hdepth _ hmem)⟩
  obtain ⟨other, hother, hrest, -, hpath⟩ := (exists_treeRow_iff hroots).mp hshown
  obtain ⟨hslot', -, -, hmatch'⟩ := mem_scopedSources.mp hother
  have hmem' := mem_of_getElem? hslot'
  have hscope : treePlainScope query.path = some (namedPath pattern) :=
    treePlainScope_singleton hplain hnormalized hnamed
  rw [hscope] at hrest hpath
  rw [← hpath]
  exact spelled_treeRowPath rdropWhile_namedPath (hmatches _ hmem' hmatch') (hdepth _ hmem') hrest

end Plain

/-- For texts without line breaks. The filter of a pattern is exact if it has wildcards. If it has
none, the filter is exact if and only if neither a `./` nor a `/` is left at its ends and every
file that is selected has its path spelled with the `/` of the pattern. -/
theorem pathFilterExact_iff (hcrate : crate.Documented) (hline : '\n' ∉ pattern)
    (hcompile : FilePathFilter.compile crate [pattern] = .ok filter)
    (hnormalized : normalizePathPattern pattern = .ok normalized)
    (hroots : ∀ root ∈ roots, '\x00' ∉ root.toList)
    (hsources : ∀ record ∈ s.sources, RelativePath record.relPath.toList) :
    PathFilterExact pattern filter s changes roots ↔ isWild pattern = true ∨
      (¬['.', '/'] <+: normalized ∧ normalized.getLast? ≠ some '/') ∧
        ∀ record ∈ s.sources, (sourceRoot roots roots record).isSome = true →
          Selects normalized (forwardSlashes record.relPath.toList) →
            Spelled normalized record.relPath.toList := by
  have hwild := isWild_normalized hnormalized
  cases hpattern : isWild pattern with
  | true =>
    rw [hpattern] at hwild
    refine iff_of_true ⟨fun h => ?_, fun _ n hn path hpath => ?_, fun h => ?_⟩ (Or.inl rfl)
    · exact absurd (hpattern.symm.trans h) (by decide)
    · obtain rfl : n = normalized := Except.ok.inj (hn.symm.trans hnormalized)
      exact matches_wild hcrate hcompile hnormalized hpath hwild
    · exact absurd (hpattern.symm.trans h) (by decide)
  | false =>
    rw [hpattern] at hwild
    have hmatches : ∀ {path}, '\n' ∉ path →
        (filter.matches path = true ↔ Selects normalized (forwardSlashes path)) := fun hpath =>
      matches_plain hcrate hcompile hnormalized hpath hwild
    rw [← normalized_eq_namedPath_iff hnormalized]
    simp only [Bool.false_eq_true, false_or]
    constructor
    · intro hexact
      have hnamed : normalized = namedPath pattern :=
        (selects_iff_namedPath hnormalized hline).mp fun path hpath =>
          (hmatches hpath.line).symm.trans (hexact.plain hpattern path hpath)
      refine ⟨hnamed, fun record hmem hroot hselects => hnamed ▸ ?_⟩
      refine spelled_of_tree hpattern hnormalized hnamed hroots (fun r hr hmatch hnil => ?_) hexact
        hmem hroot ((hmatches (hsources _ hmem).line).mpr hselects)
      have hselects' := (hmatches (hsources _ hr).line).mp hmatch
      rw [hnamed, hnil] at hselects'
      exact eq_nil_of_selects_nil (hsources _ hr) hselects'
    · rintro ⟨hnamed, hspelled⟩
      refine ⟨fun _ path hpath => ?_, fun h => absurd (hpattern.symm.trans h) (by decide),
        fun _ query selected hquery _ root path => ?_⟩
      · rw [hmatches hpath.line, hnamed]
      · refine tree_of_spelled hpattern hnormalized hnamed hroots hsources
          (fun record hmem hroot hmatch => ?_) hquery
        exact hnamed ▸ hspelled record hmem hroot ((hmatches (hsources _ hmem).line).mp hmatch)

end Exact

theorem slotAligned_nil : SlotAligned 0 [[]] := by decide

/-- A file in a folder. -/
def oneSource : IdentitySnapshot where
  symbols := ⟨[[]], by
    intro f d s h
    rcases f with _ | f <;> simp at h⟩
  sources := [⟨0, "pkg/src/a.ts", "typescript"⟩]
  references := ⟨[[]], slotAligned_nil⟩
  linkage := ⟨[], [], [], [], [], [], nodup_nil⟩
  origin _ := .unknownExternal
  readIndex := none
  parentsFirst := by simp [SymbolTable.iter]
  sourceFile := by simp [ReferenceTable.iter]
  sourced := rfl
  indexed := by simp

def functionOf (file : ℕ) : IndexedSymbol where
  byteRange := none
  id := ⟨file, 0⟩
  source := file
  identity := ""
  name := "f"
  kind := "fn"
  visibility := ""
  signature := ""
  parent := none
  navigable := true
  lineRange := none

/-- Two files below one folder, with a function each. -/
def twoSources : IdentitySnapshot :=
  { oneSource with
    symbols := ⟨[[functionOf 0], [functionOf 1]], by
      intro f d s h
      match f, d, h with
      | 0, 0, h => obtain rfl := Option.some.inj h; simp [functionOf]
      | 1, 0, h => obtain rfl := Option.some.inj h; simp [functionOf]⟩
    sources := [⟨0, "pkg/src/a.ts", "typescript"⟩, ⟨0, "pkg/b.ts", "typescript"⟩]
    parentsFirst := by simp [SymbolTable.iter, functionOf]
    sourced := rfl }

def topFolders : TreeChildrenQuery := ⟨none, [], 1, [], []⟩

theorem treeRows_account_twoSources : ∃ response,
    treeChildrenResponse pieceRegex twoSources [some 0, some 1, some 1] ["/app"] topFolders
      ⟨none, 10⟩ none = .ok response ∧
    response.rows.map (fun row => (row.path, row.counts)) = [("pkg".toList, 2, 0, 3)] ∧
    ∃ filter : FilePathFilter pieceRegex, RowsAccount twoSources [some 0, some 1, some 1] ["/app"]
      response.roots topFolders filter response.rows := by
  refine ⟨_, rfl, by decide +kernel, ?_⟩
  obtain ⟨filter, -, haccount⟩ := (@treeRows_account pieceRegex twoSources
    [some 0, some 1, some 1] ["/app"] [] topFolders ⟨[]⟩ (by simp)).2 ⟨none, 10⟩ none _ rfl
  exact ⟨filter, haccount⟩

/-- With a `/` at its end the name of a folder selects no file of the folder. -/
theorem slash_at_the_end_selects_nothing : ∃ filter : FilePathFilter pieceRegex,
    FilePathFilter.compile pieceRegex ["pkg/src/".toList] = .ok filter ∧
      filter.matches "pkg/src/a.ts".toList = false ∧
      Selects (namedPath "pkg/src/".toList) "pkg/src/a.ts".toList ∧
      ¬PathFilterExact "pkg/src/".toList filter oneSource [] ["/app"] := by
  have hselects : Selects (namedPath "pkg/src/".toList) (forwardSlashes "pkg/src/a.ts".toList) :=
    Or.inr ⟨"a.ts".toList, by decide⟩
  have hrelative : RelativePath "pkg/src/a.ts".toList :=
    ⟨by decide, by decide, by decide⟩
  have hnone : (⟨["pkg/src/".toList.map .literal,
      "pkg/src/".toList.map .literal ++ [.literal '/', .anyText]]⟩ :
        FilePathFilter pieceRegex).matches "pkg/src/a.ts".toList = false := by decide
  refine ⟨⟨["pkg/src/".toList.map .literal,
    "pkg/src/".toList.map .literal ++ [.literal '/', .anyText]]⟩, by rfl, hnone, hselects,
    fun hexact => ?_⟩
  have hmatch := (hexact.plain (by decide) _ hrelative).mpr hselects
  exact absurd (hmatch.symm.trans hnone) (by decide)

/-- A folder without a `/` at its end. -/
theorem pathFilterExact_iff_folder : ∃ filter : FilePathFilter pieceRegex,
    FilePathFilter.compile pieceRegex ["pkg/src".toList] = .ok filter ∧
      (PathFilterExact "pkg/src".toList filter oneSource [] ["/app"] ↔
        isWild "pkg/src".toList = true ∨
          (¬['.', '/'] <+: "pkg/src".toList ∧ "pkg/src".toList.getLast? ≠ some '/') ∧
            ∀ record ∈ oneSource.sources, (sourceRoot ["/app"] ["/app"] record).isSome = true →
              Selects "pkg/src".toList (forwardSlashes record.relPath.toList) →
                Spelled "pkg/src".toList record.relPath.toList) := by
  refine ⟨⟨["pkg/src".toList.map .literal,
    "pkg/src".toList.map .literal ++ [.literal '/', .anyText]]⟩, by rfl, ?_⟩
  refine pathFilterExact_iff pieceRegex_documented (by decide) (by rfl) (by rfl) ?_ ?_
  · simp
  · intro record hrecord
    obtain rfl : record = ⟨0, "pkg/src/a.ts", "typescript"⟩ := List.mem_singleton.mp hrecord
    exact ⟨by decide, by decide, by decide⟩

end CodeMoniker
