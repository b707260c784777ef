import CodeMoniker.FileDiffs

/-!
# The review of a list of file diffs

Every row becomes a pair of sides that are analysed, or a file that is not
(`ReviewDiffs.outcome`), and the rows that were put before a rename are left out. They are
recognised by their path in the repository alone, among the origins of the renames of all roots.
A file that is deleted in one repository under the path from which a file was renamed in another
one is taken for such a row, and `review_accounts_iff` says that this is all that can be lost.
-/

namespace CodeMoniker

open List ByteCodec Traversals

structure ReviewDiffs where
  diffs : List FileDiff
  diagnostics : List String
  scopeLabel : String
  baseByRoot : MemoryPath → Option String

structure SemanticReview where
  scope : String
  symbolChanges : List SymbolChange
  refChanges : List RefChange
  files : List FileFacts
  diagnostics : List String

def ReviewDiffs.baseRevFor (d : ReviewDiffs) (repoRoot : MemoryPath) : String :=
  (d.baseByRoot repoRoot).getD "HEAD"

section Review

variable {Ctx : Type} (env : DiffEnv Ctx) (scan : ChangeScan Ctx)

/-! ## Pairs -/

def scanFileFor (path : MemoryPath) : Option (ChangeFile scan.roots.length) :=
  scan.files.find? fun file => env.normalizePath file.path = path

def extractAt (file : ChangeFile scan.roots.length) (source : Bytes) : CodeGraph :=
  env.extract file.lang source file.anchor (extractionContextForFile env scan file)

def ChangeFile.side {roots : ℕ} (file : ChangeFile roots) : FileSide :=
  ⟨file.lang, file.graph, file.source, file.relPath⟩

variable (diff : FileDiff)

/-- A pair whose base is in the file, at its own path. -/
def samePathPair (file : ChangeFile scan.roots.length) (source : Bytes)
    (disposition : FileDisposition) : SidePair where
  base := ⟨file.lang, extractAt env scan file source, source, file.relPath⟩
  current := file.side
  oldHunks := (hunkSpans diff.hunks).1
  newHunks := (hunkSpans diff.hunks).2
  fileMoved := false
  disposition

/-- The base blob, with the message of its failure. -/
def baseBlob (baseRev : String) (repoRel display : MemoryPath) :
    Except String Bytes :=
  match env.gitShow diff.repoRoot baseRev repoRel with
  | .ok source => .ok source
  | .error error => .error (displayPath display ++ ": cannot read base blob: " ++ error)

def renamedPair (file : ChangeFile scan.roots.length) (origin : RenameOrigin)
    (baseRev : String) : Except String SidePair := do
  let oldAbs := diff.repoRoot ++ origin.repoRel
  match sourceRootForPath env scan oldAbs with
  | none => .error ("rename origin " ++ displayPath origin.repoRel ++
      " is outside the scanned source roots")
  | some (root, oldRel) =>
    let oldDisplay := anchorFor scan root oldRel
    let baseSource ←
      if origin.score = 100 then .ok file.source
      else baseBlob env diff baseRev origin.repoRel oldDisplay
    let ctx := extractionContextForPath env root oldAbs
    return {
      base := ⟨file.lang, env.extract file.lang baseSource oldDisplay ctx, baseSource, oldDisplay⟩
      current := file.side
      oldHunks := (hunkSpans diff.hunks).1
      newHunks := (hunkSpans diff.hunks).2
      fileMoved := true
      disposition := .moved true }

/-- A renamed row without an origin panics. `parseNameStatus` makes none, and the message stands
for it. -/
def matchedPair (file : ChangeFile scan.roots.length) (baseRev : String) :
    Except String SidePair :=
  match diff.status with
  | .added => .ok (samePathPair env scan diff file [] .added)
  | .renamed =>
    match diff.origin with
    | some origin => renamedPair env scan diff file origin baseRev
    | none => .error "renamed rows carry an origin"
  | _ => do
    let baseSource ← baseBlob env diff baseRev diff.repoRel file.relPath
    return samePathPair env scan diff file baseSource .modified

def deletedPair (baseRev : String) : Except String SidePair := do
  let path := diff.diffPath
  let lang ← env.languageForPath path
  match sourceRootForPath env scan path with
  | none => .error ("deleted file " ++ displayPath path ++ " is outside the scanned source roots")
  | some (root, oldRel) =>
    let anchor := anchorFor scan root oldRel
    let baseSource ← baseBlob env diff baseRev diff.repoRel anchor
    let ctx := extractionContextForPath env root path
    return {
      base := ⟨lang, env.extract lang baseSource anchor ctx, baseSource, anchor⟩
      current := ⟨lang, env.extract lang [] anchor ctx, [], anchor⟩
      oldHunks := (hunkSpans diff.hunks).1
      newHunks := (hunkSpans diff.hunks).2
      fileMoved := false
      disposition := .removed }

def opaqueFacts : FileFacts :=
  let rel := ((sourceRootForPath env scan diff.diffPath).map fun r =>
    anchorFor scan r.1 r.2).getD diff.repoRel
  let rollup : FileRollup :=
    match diff.status with
    | .added => ⟨none, some rel, .added, 0, 0⟩
    | .deleted => ⟨some rel, none, .removed, 0, 0⟩
    | _ => ⟨some rel, some rel, .modified, 0, 0⟩
  ⟨rollup, ⟨[], []⟩, false⟩

namespace ReviewDiffs

variable (d : ReviewDiffs)

/-- What the loop of `review_pairs` makes of a row. -/
def outcome (diff : FileDiff) : Except String SidePair :=
  let relevant := relevantDiffs env scan d.diffs
  let path := env.normalizePath diff.diffPath
  let baseRev := d.baseRevFor diff.repoRoot
  if (relevant.byPath path).isSome then
    match scanFileFor env scan path with
    | some file => matchedPair env scan diff file baseRev
    | none => .error ("changed file left the catalog: " ++ displayPath path)
  else if relevant.deleted.any fun diff => env.normalizePath diff.diffPath = path then
    deletedPair env scan diff baseRev
  else .error ""

def renameOrigins : List MemoryPath := d.diffs.filterMap fun diff => diff.origin.map (·.repoRel)

/-- The row is passed over. -/
def isSkipped (diff : FileDiff) : Bool :=
  diff.status = .deleted && diff.repoRel ∈ d.renameOrigins

def reviewed : List FileDiff := d.diffs.filter fun diff => !d.isSkipped diff

/-- The pairs of `review_pairs`. -/
def reviewPairs : List SidePair :=
  d.reviewed.filterMap fun diff => (d.outcome env scan diff).toOption

/-- What `review_pairs` adds to the review. -/
def opaqueFiles : List FileFacts :=
  d.reviewed.filterMap fun diff =>
    match d.outcome env scan diff with
    | .ok _ => none
    | .error _ => some (opaqueFacts env scan diff)

def pairDiagnostics : List String :=
  d.reviewed.filterMap fun diff =>
    match d.outcome env scan diff with
    | .ok _ => none
    | .error message => if message = "" then none else some message

end ReviewDiffs

/-- `build_semantic_review_from`. -/
def buildSemanticReviewFrom (order : RunOrder) (d : ReviewDiffs) : Option SemanticReview := do
  let pairs := d.reviewPairs env scan
  let changes := semanticChanges env.toPairingEnv order (pairs.map reviewInputs)
  let facts ← reviewFacts changes pairs
  return {
    scope := d.scopeLabel
    symbolChanges := changes
    refChanges := facts.flatMap (·.1)
    files := StableSort.stableSort factsOrder (d.opaqueFiles env scan ++ facts.map (·.2))
    diagnostics := d.diagnostics ++ d.pairDiagnostics env scan }

end Review

/-! ## Pairs of valid graphs -/

/-- The references of both sides leave from definitions. -/
structure SidePair.Valid (pair : SidePair) : Prop where
  base : ∀ r ∈ pair.base.graph.refs, r.source < pair.base.graph.defs.length
  current : ∀ r ∈ pair.current.graph.refs, r.source < pair.current.graph.defs.length

section Valid

variable {Ctx : Type} {env : DiffEnv Ctx} {scan : ChangeScan Ctx} {diff : FileDiff}
  {file : ChangeFile scan.roots.length} {baseRev : String} {pair : SidePair}

theorem valid_samePathPair (source : Bytes) (disposition : FileDisposition) :
    (samePathPair env scan diff file source disposition).Valid :=
  ⟨env.extract_sources _ _ _ _, file.sources⟩

theorem valid_renamedPair {origin : RenameOrigin}
    (h : renamedPair env scan diff file origin baseRev = .ok pair) : pair.Valid := by
  unfold renamedPair at h
  dsimp only at h
  split at h
  · exact nomatch h
  · split_ifs at h
    all_goals
      obtain ⟨baseSource, -, h⟩ := bind_eq_ok.mp h
      obtain rfl := Except.ok.inj h
      exact ⟨env.extract_sources _ _ _ _, file.sources⟩

theorem valid_matchedPair (h : matchedPair env scan diff file baseRev = .ok pair) : pair.Valid := by
  unfold matchedPair at h
  split at h
  · obtain rfl := Except.ok.inj h
    exact valid_samePathPair _ _
  · split at h
    · exact valid_renamedPair h
    · exact nomatch h
  · obtain ⟨baseSource, -, h⟩ := bind_eq_ok.mp h
    obtain rfl := Except.ok.inj h
    exact valid_samePathPair _ _

theorem valid_deletedPair (h : deletedPair env scan diff baseRev = .ok pair) : pair.Valid := by
  obtain ⟨lang, -, h⟩ := bind_eq_ok.mp h
  split at h
  · exact nomatch h
  · obtain ⟨baseSource, -, h⟩ := bind_eq_ok.mp h
    obtain rfl := Except.ok.inj h
    exact ⟨env.extract_sources _ _ _ _, env.extract_sources _ _ _ _⟩

theorem valid_outcome {d : ReviewDiffs} (h : d.outcome env scan diff = .ok pair) : pair.Valid := by
  unfold ReviewDiffs.outcome at h
  dsimp only at h
  split_ifs at h
  · split at h
    · exact valid_matchedPair h
    · exact nomatch h
  · exact valid_deletedPair h

end Valid

/-! ## One entry for each row -/

/-- The facts of an analysed pair. -/
def SidePair.reviewedFacts (changes : List SymbolChange) (ctx : RenameContext) (pair : SidePair) :
    FileFacts :=
  pair.pairFacts changes ((pairRefs pair.base pair.current ctx).getD [])

theorem exists_pairRefs {base current : FileSide} (ctx : RenameContext)
    (hbase : ∀ r ∈ base.graph.refs, r.source < base.graph.defs.length)
    (hcurrent : ∀ r ∈ current.graph.refs, r.source < current.graph.defs.length) :
    ∃ refs, pairRefs base current ctx = some refs := by
  obtain ⟨oldFacts, hold⟩ := exists_collectRefFacts (some ctx) hbase
  obtain ⟨newFacts, hnew⟩ := exists_collectRefFacts none hcurrent
  exact ⟨_, pairRefs_eq hold hnew⟩

/-- Pairs of valid graphs all have facts. -/
theorem exists_reviewFacts {changes : List SymbolChange} {pairs : List SidePair}
    (h : ∀ pair ∈ pairs, pair.Valid) : ∃ facts, reviewFacts changes pairs = some facts ∧
      facts.map (·.2) = pairs.map (SidePair.reviewedFacts changes (reviewContext changes pairs)) := by
  unfold reviewFacts
  generalize reviewContext changes pairs = ctx
  induction pairs with
  | nil => exact ⟨[], rfl, rfl⟩
  | cons pair pairs ih =>
    obtain ⟨facts, hfacts, hmap⟩ := ih fun pair' hpair => h pair' (.tail _ hpair)
    have hvalid := h pair (.head _)
    obtain ⟨refs, hrefs⟩ := exists_pairRefs ctx hvalid.base hvalid.current
    refine ⟨(refs, pair.pairFacts changes refs) :: facts, ?_, ?_⟩
    · rw [mapM_cons, hrefs, hfacts]
      rfl
    · rw [map_cons, map_cons, hmap, SidePair.reviewedFacts, hrefs]
      rfl

/-- Results and failures of a list, each in its own list, are one row for each element. -/
theorem perm_results_failures {α β γ ε : Type} {f : α → Except ε β} {ok : β → γ}
    {failed : α → Option γ} {row : α → γ}
    (hok : ∀ a b, f a = .ok b → failed a = none ∧ row a = ok b)
    (herror : ∀ a e, f a = .error e → failed a = some (row a)) : ∀ l : List α,
      (l.filterMap failed ++ (l.filterMap fun a => (f a).toOption).map ok).Perm (l.map row)
  | [] => .refl _
  | a :: l => by
    have ih := perm_results_failures hok herror l
    rcases h : f a with e | b
    · simp only [filterMap_cons, h, herror a e h, map_cons, Except.toOption, cons_append]
      exact ih.cons _
    · obtain ⟨hnone, hrow⟩ := hok a b h
      simp only [filterMap_cons, h, hnone, hrow, map_cons, Except.toOption]
      exact perm_middle.trans (ih.cons _)

section Account

variable {Ctx : Type} (env : DiffEnv Ctx) (scan : ChangeScan Ctx)

/-- What a row contributes : the facts of its pair, or those of a file that is not analysed. -/
def ReviewDiffs.rowFacts (d : ReviewDiffs) (changes : List SymbolChange) (diff : FileDiff) :
    FileFacts :=
  match d.outcome env scan diff with
  | .ok pair => pair.reviewedFacts changes (reviewContext changes (d.reviewPairs env scan))
  | .error _ => opaqueFacts env scan diff

/-- Every row that is not skipped contributes its facts. -/
theorem files_buildSemanticReviewFrom (order : RunOrder) (d : ReviewDiffs) :
    ∃ review, buildSemanticReviewFrom env scan order d = some review ∧
      review.files.Perm (d.reviewed.map (d.rowFacts env scan review.symbolChanges)) := by
  let pairs := d.reviewPairs env scan
  let changes := semanticChanges env.toPairingEnv order (pairs.map reviewInputs)
  have hvalid : ∀ pair ∈ pairs, pair.Valid := by
    intro pair hpair
    obtain ⟨diff, -, hdiff⟩ := mem_filterMap.mp hpair
    rcases h : d.outcome env scan diff with error | pair'
    · rw [h] at hdiff
      exact nomatch hdiff
    · rw [h] at hdiff
      obtain rfl := Option.some.inj hdiff
      exact valid_outcome h
  obtain ⟨facts, hfacts, hmap⟩ : ∃ facts, reviewFacts changes pairs = some facts ∧ _ :=
    exists_reviewFacts hvalid
  have hsome : buildSemanticReviewFrom env scan order d = (reviewFacts changes pairs).bind _ := rfl
  rw [hfacts, Option.bind_some] at hsome
  refine ⟨_, hsome, (perm_insertionSort _ _).trans ?_⟩
  rw [hmap]
  refine perm_results_failures (fun diff pair h => ?_) (fun diff e h => ?_) d.reviewed
  · simp only [h, ReviewDiffs.rowFacts]
    exact ⟨trivial, rfl⟩
  · simp only [h, ReviewDiffs.rowFacts]

end Account

/-! ## Rows before a rename -/

/-- Both lists of a root are made of its parsed rows, or are empty. -/
theorem GitOutput.rows_cases (git : GitOutput) : (∃ rows : List ParsedNameStatus,
      git.collectChangedFiles.getD [] = rows.flatMap (fun row =>
          (row.origin.map git.syntheticDelete).toList ++ [git.rowDiff row]) ++
          git.untracked.map git.untrackedDiff ∧
      git.reportedDiffs.getD [] = rows.map git.rowDiff ++ git.untracked.map git.untrackedDiff) ∨
    (git.collectChangedFiles.getD [] = [] ∧ git.reportedDiffs.getD [] = []) := by
  unfold GitOutput.collectChangedFiles GitOutput.reportedDiffs
  rcases h : git.nameStatus.mapM parseNameStatus with _ | rows
  · exact Or.inr ⟨by simp, by simp⟩
  · exact Or.inl ⟨rows, by simp, by simp⟩

theorem filter_collectChangedFiles {skipped : FileDiff → Bool} (git : GitOutput)
    (h : ∀ diff ∈ git.reportedDiffs.getD [], ∀ origin ∈ diff.origin,
      skipped (git.syntheticDelete origin) = true) :
    (git.collectChangedFiles.getD []).filter (fun diff => !skipped diff) =
      (git.reportedDiffs.getD []).filter fun diff => !skipped diff := by
  rcases git.rows_cases with ⟨rows, hcollected, hreported⟩ | ⟨hcollected, hreported⟩
  · rw [hreported] at h
    have hrows : ∀ row ∈ rows, ∀ origin ∈ row.origin,
        skipped (git.syntheticDelete origin) = true :=
      fun row hrow => h (git.rowDiff row) (mem_append_left _ (mem_map_of_mem hrow))
    rw [hcollected, hreported, filter_append, filter_append]
    refine congrArg (· ++ _) ?_
    clear h hcollected hreported
    induction rows with
    | nil => rfl
    | cons row rows ih =>
      have hsynthetic : ((row.origin.map git.syntheticDelete).toList).filter
          (fun diff => !skipped diff) = [] := by
        refine filter_eq_nil_iff.mpr fun diff hdiff => ?_
        obtain ⟨origin, horigin, rfl⟩ := Option.map_eq_some_iff.mp (Option.mem_toList.mp hdiff)
        simp [hrows row (.head _) origin horigin]
      rw [flatMap_cons, filter_append, filter_append, hsynthetic, nil_append,
        ih fun row' hrow' => hrows row' (.tail _ hrow'), ← filter_append]
      rfl
  · rw [hcollected, hreported]

/-- The rows with an origin are the same in both lists. -/
theorem mem_collectDiffs_iff {outputs : List GitOutput} {diff : FileDiff} {origin : RenameOrigin}
    (h : origin ∈ diff.origin) : diff ∈ collectDiffs outputs ↔ diff ∈ reportedDiffs outputs := by
  simp only [collectDiffs, reportedDiffs, mem_flatMap]
  refine exists_congr fun git => and_congr_right fun _ => ?_
  rcases git.rows_cases with ⟨rows, hcollected, hreported⟩ | ⟨hcollected, hreported⟩
  · simp only [hcollected, hreported, mem_append, mem_map, mem_flatMap,
      mem_singleton, Option.mem_toList, Option.map_eq_some_iff]
    refine or_congr_left ⟨?_, ?_⟩
    · rintro ⟨row, hrow, ⟨o, -, rfl⟩ | rfl⟩
      · cases h
      · exact ⟨row, hrow, rfl⟩
    · rintro ⟨row, hrow, rfl⟩
      exact ⟨row, hrow, Or.inr rfl⟩
  · rw [hcollected, hreported]

section Account

variable {Ctx : Type} (env : DiffEnv Ctx) (scan : ChangeScan Ctx)

theorem reviewed_eq {d : ReviewDiffs} {outputs : List GitOutput}
    (hd : d.diffs = collectDiffs outputs) :
    d.reviewed = (reportedDiffs outputs).filter fun diff => !d.isSkipped diff := by
  rw [ReviewDiffs.reviewed, hd, collectDiffs, reportedDiffs, filter_flatMap,
    filter_flatMap, flatMap_def, flatMap_def]
  refine congrArg List.flatten (map_congr_left fun git hgit => ?_)
  refine filter_collectChangedFiles git fun diff hdiff origin horigin => ?_
  have hmem : diff ∈ d.diffs :=
    hd ▸ (mem_collectDiffs_iff horigin).mpr (mem_flatMap.mpr ⟨git, hgit, hdiff⟩)
  have horigins : origin.repoRel ∈ d.renameOrigins :=
    mem_filterMap.mpr ⟨diff, hmem, by rw [Option.mem_def.mp horigin]; rfl⟩
  simp [ReviewDiffs.isSkipped, GitOutput.syntheticDelete, horigins]

/-- Every row that git reports has one entry in the review, and the rows before a rename have
none, if and only if no file is reported deleted under the origin of a rename, of any root. -/
theorem review_accounts_iff (order : RunOrder) (outputs : List GitOutput)
    (diagnostics : List String) (scopeLabel : String) (baseByRoot : MemoryPath → Option String) :
    let d : ReviewDiffs := ⟨collectDiffs outputs, diagnostics, scopeLabel, baseByRoot⟩
    (∃ review, buildSemanticReviewFrom env scan order d = some review ∧ review.files.Perm
        ((reportedDiffs outputs).map (d.rowFacts env scan review.symbolChanges))) ↔
    ∀ diff ∈ reportedDiffs outputs, diff.status = .deleted →
      ∀ renamed ∈ reportedDiffs outputs, ∀ origin ∈ renamed.origin,
        diff.repoRel ≠ origin.repoRel := by
  intro d
  have hreviewed : d.reviewed =
      (reportedDiffs outputs).filter fun diff => !d.isSkipped diff := reviewed_eq rfl
  obtain ⟨review, hreview, hfiles⟩ := files_buildSemanticReviewFrom env scan order d
  rw [hreviewed] at hfiles
  constructor
  · rintro ⟨review', hreview', hperm⟩ diff hdiff hstatus renamed hrenamed origin horigin heq
    obtain rfl := Option.some.inj (hreview.symm.trans hreview')
    have hlen := hfiles.length_eq.symm.trans hperm.length_eq
    rw [length_map, length_map, length_filter_eq_length_iff] at hlen
    have hmem : origin.repoRel ∈ d.renameOrigins :=
      mem_filterMap.mpr ⟨renamed, (mem_collectDiffs_iff horigin).mpr hrenamed, by
        rw [Option.mem_def.mp horigin]
        rfl⟩
    have hkept := hlen diff hdiff
    simp [ReviewDiffs.isSkipped, hstatus, heq, hmem] at hkept
  · intro h
    refine ⟨review, hreview, ?_⟩
    have hall : (reportedDiffs outputs).filter (fun diff => !d.isSkipped diff) =
        reportedDiffs outputs := by
      refine filter_eq_self.mpr fun diff hdiff => ?_
      rw [Bool.not_eq_true', ReviewDiffs.isSkipped, Bool.and_eq_false_iff]
      by_cases hstatus : diff.status = .deleted
      · refine Or.inr (decide_eq_false fun hmem => ?_)
        obtain ⟨renamed, hrenamed, horigin⟩ := mem_filterMap.mp hmem
        obtain ⟨origin, ho, hrel⟩ := Option.map_eq_some_iff.mp horigin
        exact h diff hdiff hstatus renamed ((mem_collectDiffs_iff ho).mp hrenamed) origin ho
          hrel.symm
      · exact Or.inl (decide_eq_false hstatus)
    rwa [hall] at hfiles

end Account

/-! ## A deletion in another repository -/

/-- A language of one letter, no blobs and empty graphs. -/
def plainDiffEnv : DiffEnv Unit where
  isNavigableDef _ _ := true
  hash := List.length
  normalizePath := id
  languageForPath _ := .ok .rs
  isIgnored _ _ := false
  gitShow _ _ _ := .error "no blob"
  withSrcset _ _ := ()
  extract _ _ _ _ := CodeGraph.fromRecords [] []
  extract_sources _ _ _ _ := by simp [CodeGraph.fromRecords]

def twoRoots : ChangeScan Unit where
  roots := [⟨"one", ["/", "one"], (), fun _ => none⟩, ⟨"two", ["/", "two"], (), fun _ => none⟩]
  files := []
  numbered := rfl

/-- The first repository renames `a.rs`, the second one deletes its own `a.rs`. -/
def renameAndDelete : List GitOutput :=
  [⟨["/", "one"], ["R100\ta.rs\tb.rs".toList], fun _ _ => [], []⟩,
    ⟨["/", "two"], ["D\ta.rs".toList], fun _ _ => [], []⟩]

/-- The deleted file of the second repository has no entry. -/
theorem deletion_is_lost :
    let d : ReviewDiffs := ⟨collectDiffs renameAndDelete, [], "HEAD..worktree", fun _ => none⟩
    (reportedDiffs renameAndDelete).length = 2 ∧
    ¬∃ review, buildSemanticReviewFrom plainDiffEnv twoRoots foundOrder d = some review ∧
      review.files.Perm ((reportedDiffs renameAndDelete).map
        (d.rowFacts plainDiffEnv twoRoots review.symbolChanges)) := by
  intro d
  refine ⟨by decide, ?_⟩
  rintro ⟨review, hreview, hperm⟩
  have hlen : (buildSemanticReviewFrom plainDiffEnv twoRoots foundOrder d).map
      (·.files.length) = some 1 := by decide
  rw [hreview, Option.map_some, Option.some.injEq, hperm.length_eq, length_map] at hlen
  exact absurd hlen (by decide)

end CodeMoniker
