import CodeMoniker.DiffReview
import CodeMoniker.NeighbourDedup

/-!
# The index of changed definitions

The index collects one entry for every definition that a diff adds, changes or removes
(`gatheredEntries`), in the scanned files and in the deleted ones. It sorts the entries by file
and moniker and drops neighbours with the same moniker. So a moniker that two files share is
reported once if the two entries come next to one another, and otherwise twice.
`change_index_keeps_iff` says when no entry is lost. A location is always found
(`entryFor_buildChangeIndex`).
-/

namespace CodeMoniker

open List ByteCodec NeighbourDedup

inductive ChangeStatus where
  | added
  | modified
  | removed
  deriving DecidableEq, Repr

structure SymbolLocation where
  file : ℕ
  symbol : ℕ
  deriving DecidableEq, Repr

structure ChangeEntry where
  loc : Option SymbolLocation
  status : ChangeStatus
  lang : Lang
  filePath : MemoryPath
  kind : String
  name : String
  moniker : Moniker
  hunkCount : ℕ
  lineRange : Option (ℕ × ℕ)
  deriving DecidableEq

structure BaseDef where
  moniker : Moniker
  kind : String
  name : String
  lineRange : ℕ × ℕ

structure ChangeIndex where
  scope : String
  entries : List ChangeEntry
  diagnostics : List String
  entriesBySymbol : AList fun _ : SymbolLocation => ℕ

/-! ## Hunks -/

def spansIntersect (a b : ℕ × ℕ) : Bool := a.1 ≤ b.2 && b.1 ≤ a.2

def defIntersectsHunks (d : DefRecord) (lines : LineIndex) (diff : FileDiff) : Bool :=
  match d.position with
  | none => false
  | some span => (diff.hunks.filterMap (·.new)).any (spansIntersect (lines.lineRange span))

def oldSpanIntersectsHunks (lineRange : ℕ × ℕ) (diff : FileDiff) : Bool :=
  (diff.hunks.filterMap (·.old)).any (spansIntersect lineRange)

/-- The loop goes up from the child. Parents come first, so it makes fewer steps than there are
definitions. -/
def isDescendantFrom (g : CodeGraph) (ancestor : ℕ) : ℕ → ℕ → Bool
  | 0, _ => false
  | fuel + 1, child =>
    match (g.defAt child).bind (·.parent) with
    | none => false
    | some parent => if parent = ancestor then true else isDescendantFrom g ancestor fuel parent

def isDescendant (g : CodeGraph) (ancestor child : ℕ) : Bool :=
  isDescendantFrom g ancestor g.defs.length child

section Entries

variable {Ctx : Type} (env : DiffEnv Ctx) (scan : ChangeScan Ctx)

/-! ## A changed file -/

variable (file : ChangeFile scan.roots.length)

/-- The blob of the base version, and the anchor of its extraction. -/
def baseBlobLocation (diff : FileDiff) :
    Except String (MemoryPath × MemoryPath) :=
  match diff.origin with
  | none => .ok (diff.repoRel, file.anchor)
  | some origin =>
    match sourceRootForPath env scan (diff.repoRoot ++ origin.repoRel) with
    | none => .error ("rename origin " ++ displayPath origin.repoRel ++
        " is outside the scanned source roots")
    | some (root, relPath) => .ok (origin.repoRel, anchorFor scan root relPath)

def baseContext (diff : FileDiff) : Except String Ctx :=
  match diff.origin with
  | none => .ok (extractionContextForFile env scan file)
  | some origin =>
    let oldPath := diff.repoRoot ++ origin.repoRel
    match sourceRootForPath env scan oldPath with
    | none => .error ("rename origin " ++ displayPath origin.repoRel ++
        " is outside the scanned source roots")
    | some (root, _) => .ok (extractionContextForPath env root oldPath)

/-- The definitions of a graph that are shown and have a position. -/
def placedDefs (lang : Lang) (g : CodeGraph) (lines : LineIndex) : List BaseDef :=
  (g.defs.filter (env.isNavigableDef lang)).filterMap fun d =>
    d.position.map fun span => ⟨d.moniker, defKind d, lastName d.moniker, lines.lineRange span⟩

def baseFile (diff : FileDiff) :
    Except String (List BaseDef) := do
  let (blobRel, anchor) ← baseBlobLocation env scan file diff
  let source ← env.gitShow diff.repoRoot "HEAD" blobRel
  let ctx ← baseContext env scan file diff
  return placedDefs env file.lang (env.extract file.lang source anchor ctx) (LineIndex.new source)

/-- The definitions of the base version. A version that cannot be read has none. -/
def baseDefs (diff : FileDiff) : List BaseDef :=
  if diff.status = .added then []
  else
    match baseFile env scan file diff with
    | .ok defs => defs
    | .error _ => []

def currentStatus (base : List BaseDef) (moniker : Moniker) : ChangeStatus :=
  if moniker ∈ base.map (·.moniker) then .modified else .added

/-- The shown definitions that are new, or changed by a hunk, with their indices. -/
def changedCandidates (diff : FileDiff)
    (base : List BaseDef) : List (DefRecord × ℕ) :=
  file.graph.defs.zipIdx.filter fun d =>
    env.isNavigableDef file.lang d.1 &&
      (currentStatus base d.1.moniker = .added ||
        defIntersectsHunks d.1 (LineIndex.new file.source) diff)

/-- Only a new or renamed file keeps a candidate beside one below it. -/
def keptCandidates (diff : FileDiff)
    (base : List BaseDef) : List (DefRecord × ℕ) :=
  let candidates := changedCandidates env scan file diff base
  candidates.filter fun d =>
    diff.status = .added || diff.status = .renamed ||
      !candidates.any fun candidate =>
        candidate.2 ≠ d.2 && isDescendant file.graph d.2 candidate.2

def currentEntry (diff : FileDiff) (base : List BaseDef)
    (d : DefRecord × ℕ) : ChangeEntry where
  loc := some ⟨file.fileIdx, d.2⟩
  status := currentStatus base d.1.moniker
  lang := file.lang
  filePath := file.relPath
  kind := defKind d.1
  name := lastName d.1.moniker
  moniker := d.1.moniker
  hunkCount := diff.hunks.length
  lineRange := d.1.position.map (LineIndex.new file.source).lineRange

def removedEntry (lang : Lang) (path : MemoryPath) (diff : FileDiff) (d : BaseDef) :
    ChangeEntry where
  loc := none
  status := .removed
  lang
  filePath := path
  kind := d.kind
  name := d.name
  moniker := d.moniker
  hunkCount := diff.hunks.length
  lineRange := some d.lineRange

/-- The removals of a renamed file are left to the row that deletes its origin. -/
def removedDefs (diff : FileDiff) (base : List BaseDef) :
    List BaseDef :=
  if diff.status = .renamed then []
  else
    base.filter fun d =>
      d.moniker ∉ (file.graph.defs.filter (env.isNavigableDef file.lang)).map (·.moniker) &&
        oldSpanIntersectsHunks d.lineRange diff

def changedEntriesForFile (diff : FileDiff) :
    List ChangeEntry :=
  let base := baseDefs env scan file diff
  (keptCandidates env scan file diff base).map (currentEntry scan file diff base) ++
    (removedDefs env scan file diff base).map (removedEntry file.lang file.relPath diff)

/-! ## A deleted file -/

def removedEntriesForDeletedFile (diff : FileDiff) : Except String (List ChangeEntry) := do
  let source ← env.gitShow diff.repoRoot "HEAD" diff.repoRel
  match sourceRootForPath env scan diff.diffPath with
  | none => return []
  | some (root, relPath) =>
    let lang ← env.languageForPath diff.diffPath
    let anchor := anchorFor scan root relPath
    let g := env.extract lang source anchor (extractionContextForPath env root diff.diffPath)
    return (placedDefs env lang g (LineIndex.new source)).map (removedEntry lang anchor diff)

/-! ## All files -/

/-- The entries before they are sorted. -/
def gatheredEntries (diffs : List FileDiff) : List ChangeEntry :=
  let relevant := relevantDiffs env scan diffs
  scan.files.flatMap (fun file =>
    match relevant.byPath (env.normalizePath file.path) with
    | some diff => changedEntriesForFile env scan file diff
    | none => []) ++
  relevant.deleted.flatMap fun diff =>
    match removedEntriesForDeletedFile env scan diff with
    | .ok entries => entries
    | .error _ => []

def entryKey (e : ChangeEntry) : MemoryPath ×ₗ List ℕ :=
  toLex (e.filePath, e.moniker.bytes.map (·.toNat))

/-- `rebuild_lookups`. A later entry replaces an earlier one. -/
def entriesBySymbol (entries : List ChangeEntry) : AList fun _ : SymbolLocation => ℕ :=
  entries.zipIdx.foldl (fun lookup e =>
    match e.1.loc with
    | some loc => lookup.insert loc e.2
    | none => lookup) ∅

def buildChangeIndex (diffs : List FileDiff) : ChangeIndex :=
  let entries := dedupBy (·.moniker)
    (StableSort.stableSort entryKey (gatheredEntries env scan diffs))
  { scope := "HEAD..worktree"
    entries
    diagnostics := (relevantDiffs env scan diffs).deleted.filterMap fun diff =>
      match removedEntriesForDeletedFile env scan diff with
      | .ok _ => none
      | .error message => some message
    entriesBySymbol := entriesBySymbol entries }

end Entries

def ChangeIndex.entryFor (index : ChangeIndex) (loc : SymbolLocation) : Option ChangeEntry :=
  (index.entriesBySymbol.lookup loc).bind fun idx => index.entries[idx]?

/-! ## Locations -/

theorem entryKey_eq_iff {a b : ChangeEntry} :
    entryKey a = entryKey b ↔ a.filePath = b.filePath ∧ a.moniker = b.moniker := by
  unfold entryKey
  rw [EmbeddingLike.apply_eq_iff_eq, Prod.mk.injEq]
  refine and_congr_right fun _ => ⟨fun h => Moniker.ext_bytes ?_, fun h => by rw [h]⟩
  exact map_injective_iff.mpr (fun _ _ => UInt8.toNat_inj.mp) h

/-- The loop of `entriesBySymbol`, from a table that is filled already. -/
theorem lookup_insertLocations {loc : SymbolLocation} {e : ChangeEntry} {i : ℕ}
    (hloc : e.loc = some loc) : ∀ (entries : List (ChangeEntry × ℕ))
      (lookup : AList fun _ : SymbolLocation => ℕ), ((entries.map (·.1)).filterMap (·.loc)).Nodup →
      ((e, i) ∈ entries ∨ (lookup.lookup loc = some i ∧
        loc ∉ (entries.map (·.1)).filterMap (·.loc))) → (entries.foldl (fun lookup e =>
        match e.1.loc with
        | some loc => lookup.insert loc e.2
        | none => lookup) lookup).lookup loc = some i
  | [], _, _, h => by simpa using h
  | (e', j) :: entries, lookup, hnodup, h => by
    rw [foldl_cons]
    rcases hloc' : e'.loc with _ | loc'
    · simp only [map_cons, filterMap_cons, hloc'] at hnodup h ⊢
      refine lookup_insertLocations hloc entries lookup hnodup (h.imp_left fun hmem => ?_)
      rcases mem_cons.mp hmem with heq | hmem
      · have hnone : e.loc = none := (congrArg (fun p => p.1.loc) heq).trans hloc'
        exact nomatch hloc.symm.trans hnone
      · exact hmem
    · simp only [map_cons, filterMap_cons, hloc', nodup_cons, mem_cons, not_or] at hnodup h ⊢
      refine lookup_insertLocations hloc entries _ hnodup.2 ?_
      rcases h with (heq | hmem) | ⟨hlookup, hne, hnot⟩
      · obtain ⟨rfl, rfl⟩ := Prod.mk.inj heq
        obtain rfl := Option.some.inj (hloc.symm.trans hloc')
        exact Or.inr ⟨AList.lookup_insert _, hnodup.1⟩
      · exact Or.inl hmem
      · exact Or.inr ⟨by rwa [AList.lookup_insert_ne hne], hnot⟩

theorem lookup_entriesBySymbol {entries : List ChangeEntry} {e : ChangeEntry}
    {loc : SymbolLocation} (hnodup : (entries.filterMap (·.loc)).Nodup) (he : e ∈ entries)
    (hloc : e.loc = some loc) :
    ((entriesBySymbol entries).lookup loc).bind (entries[·]?) = some e := by
  obtain ⟨i, hi, rfl⟩ := mem_iff_getElem.mp he
  have hmem : (entries[i], i) ∈ entries.zipIdx := by
    rw [mem_zipIdx_iff_getElem?]
    exact getElem?_eq_getElem hi
  have hlookup := lookup_insertLocations hloc entries.zipIdx ∅
    (by rwa [zipIdx_map_fst]) (Or.inl hmem)
  rw [entriesBySymbol, hlookup, Option.bind_some, getElem?_eq_getElem hi]

section Found

variable {Ctx : Type} (env : DiffEnv Ctx) (scan : ChangeScan Ctx)

theorem locs_changedEntriesForFile (file : ChangeFile scan.roots.length) (diff : FileDiff) :
    (changedEntriesForFile env scan file diff).filterMap (·.loc) =
      (keptCandidates env scan file diff (baseDefs env scan file diff)).map
        fun d => ⟨file.fileIdx, d.2⟩ := by
  have hremoved : ((removedDefs env scan file diff (baseDefs env scan file diff)).map
      (removedEntry file.lang file.relPath diff)).filterMap (·.loc) = [] := by
    rw [filterMap_map, filterMap_eq_nil_iff]
    exact fun _ _ => rfl
  unfold changedEntriesForFile
  rw [filterMap_append, hremoved, append_nil, filterMap_map]
  exact congrFun filterMap_eq_map _

theorem removedEntriesForDeletedFile_loc {diff : FileDiff} {entries : List ChangeEntry}
    (h : removedEntriesForDeletedFile env scan diff = .ok entries) :
    ∀ e ∈ entries, e.loc = none := by
  unfold removedEntriesForDeletedFile at h
  obtain ⟨source, -, h⟩ := bind_eq_ok.mp h
  split at h
  · obtain rfl := Except.ok.inj h
    exact fun e he => nomatch he
  · obtain ⟨lang, -, h⟩ := bind_eq_ok.mp h
    obtain rfl := Except.ok.inj h
    intro e he
    obtain ⟨d, -, rfl⟩ := mem_map.mp he
    rfl

/-- The definitions of one file have different indices. -/
theorem nodup_keptCandidates (file : ChangeFile scan.roots.length) (diff : FileDiff)
    (base : List BaseDef) : ((keptCandidates env scan file diff base).map (·.2)).Nodup := by
  have hsub : (keptCandidates env scan file diff base).Sublist file.graph.defs.zipIdx :=
    filter_sublist.trans filter_sublist
  refine (hsub.map _).nodup ?_
  rw [zipIdx_map_snd]
  exact nodup_range'

/-- Two entries with a location have different locations. -/
theorem nodup_locs_gatheredEntries (diffs : List FileDiff) :
    ((gatheredEntries env scan diffs).filterMap (·.loc)).Nodup := by
  have hdeleted : List.filterMap ChangeEntry.loc
      ((relevantDiffs env scan diffs).deleted.flatMap fun diff =>
        match removedEntriesForDeletedFile env scan diff with
        | .ok entries => entries
        | .error _ => []) = [] := by
    refine filterMap_eq_nil_iff.mpr fun e he => ?_
    obtain ⟨diff, -, he⟩ := mem_flatMap.mp he
    split at he
    · exact removedEntriesForDeletedFile_loc env scan ‹_› e he
    · exact nomatch he
  unfold gatheredEntries
  dsimp only
  rw [filterMap_append, hdeleted, append_nil, filterMap_flatMap]
  have hfiles : scan.files.Pairwise fun a b => a.fileIdx ≠ b.fileIdx := by
    refine pairwise_map.mp ?_
    rw [scan.numbered]
    exact nodup_range
  refine nodup_flatMap.mpr ⟨fun file _ => ?_, hfiles.imp fun hne => ?_⟩
  · split
    · rw [locs_changedEntriesForFile]
      refine Nodup.of_map (·.symbol) ?_
      rw [map_map]
      exact nodup_keptCandidates env scan file _ _
    · exact nodup_nil
  · rename_i a b
    intro loc ha hb
    have hidx : ∀ {file : ChangeFile scan.roots.length}, loc ∈ List.filterMap ChangeEntry.loc
        (match (relevantDiffs env scan diffs).byPath (env.normalizePath file.path) with
        | some diff => changedEntriesForFile env scan file diff
        | none => []) → loc.file = file.fileIdx := by
      intro file hmem
      split at hmem
      · rw [locs_changedEntriesForFile] at hmem
        obtain ⟨d, -, rfl⟩ := mem_map.mp hmem
        rfl
      · exact nomatch hmem
    exact hne ((hidx ha).symm.trans (hidx hb))

/-- Every entry with a location is found under it. -/
theorem entryFor_buildChangeIndex (diffs : List FileDiff) :
    ∀ e ∈ (buildChangeIndex env scan diffs).entries, ∀ loc ∈ e.loc,
      (buildChangeIndex env scan diffs).entryFor loc = some e := by
  intro e he loc hloc
  refine lookup_entriesBySymbol ?_ he hloc
  have hsub : (buildChangeIndex env scan diffs).entries.Sublist
      (StableSort.stableSort entryKey (gatheredEntries env scan diffs)) :=
    destutter_sublist _ _
  refine (hsub.filterMap _).nodup ?_
  exact ((perm_insertionSort _ _).filterMap _).nodup_iff.mpr
    (nodup_locs_gatheredEntries env scan diffs)

/-- For every file and moniker of a gathered entry the index has one entry, and every entry with
a location is found, if and only if no two gathered entries with one moniker, of different files,
are next to one another in the order of files and monikers. -/
theorem change_index_keeps_iff (diffs : List FileDiff) : ((∀ e ∈ gatheredEntries env scan diffs,
      (buildChangeIndex env scan diffs).entries.countP
        (fun e' => e'.filePath = e.filePath ∧ e'.moniker = e.moniker) = 1) ∧
      ∀ e ∈ (buildChangeIndex env scan diffs).entries, ∀ loc ∈ e.loc,
        (buildChangeIndex env scan diffs).entryFor loc = some e) ↔
    ∀ a ∈ gatheredEntries env scan diffs, ∀ b ∈ gatheredEntries env scan diffs,
      Next entryKey (gatheredEntries env scan diffs) a b → a.moniker ≠ b.moniker := by
  have hsorted := @countP_dedupBy_eq_one_iff _ _ _ _ _ ChangeEntry.moniker entryKey
    (fun h => (entryKey_eq_iff.mp h).2) (StableSort.stableSort entryKey
      (gatheredEntries env scan diffs)) StableSort.sorted_stableSort
  simp only [StableSort.mem_stableSort, Next, entryKey_eq_iff] at hsorted
  exact (and_iff_left (entryFor_buildChangeIndex env scan diffs)).trans hsorted

end Found

/-! ## A class in two new files -/

def javaDiffEnv : DiffEnv Unit :=
  { plainDiffEnv with isNavigableDef := fun _ d => d.kind = byteString "class" }

/-- A file `A.java` with the class `A` on its only line. The directory is not in the monikers. -/
def classFile (fileIdx : ℕ) (dir : String) : ChangeFile 1 where
  fileIdx
  sourceRoot := 0
  path := ["/", "app", dir, "A.java"]
  relPath := [dir, "A.java"]
  anchor := [dir, "A.java"]
  lang := .java
  srcset := none
  graph := CodeGraph.fromRecords
    [byteDef "module" (appMoniker [("lang", "java"), ("module", "A")] (by decide)) none,
      byteDef "class" (appMoniker [("lang", "java"), ("module", "A"), ("class", "A")]
        (by decide)) (some (0, 10))] []
  source := byteString "class A {}"
  sources := by simp [CodeGraph.fromRecords]

def twoClassFiles : ChangeScan Unit where
  roots := [⟨"app", ["/", "app"], (), fun _ => none⟩]
  files := [classFile 0 "x", classFile 1 "y"]
  numbered := rfl

def twoUntracked : List FileDiff :=
  collectDiffs [⟨["/", "app"], [], fun _ _ => [], ["x/A.java".toList, "y/A.java".toList]⟩]

/-- The class of the second file has no entry. -/
theorem class_is_lost : ¬∀ e ∈ gatheredEntries javaDiffEnv twoClassFiles twoUntracked,
    (buildChangeIndex javaDiffEnv twoClassFiles twoUntracked).entries.countP
      (fun e' => e'.filePath = e.filePath ∧ e'.moniker = e.moniker) = 1 := by
  decide

end CodeMoniker
