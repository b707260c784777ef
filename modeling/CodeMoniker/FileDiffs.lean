import CodeMoniker.ReferenceAccount

/-!
# The files of a git diff

What git prints for a source root becomes a list of file diffs (`collectChangedFiles`). A rename
row is preceded by a row that deletes its origin. The rows of all roots stand in one list. A scan
holds the roots and the files of the workspace, and says which rows are of files it can see
(`relevantDiffs`).

The file system, git and the extractors are parameters (`DiffEnv`). A path is the list of its
components.
-/

namespace CodeMoniker

open ByteCodec

/-! ## Rows -/

inductive FileDiffStatus where
  | tracked
  | added
  | deleted
  | renamed
  deriving DecidableEq, Repr

structure RenameOrigin where
  repoRel : MemoryPath
  score : ℕ
  deriving DecidableEq, Repr

structure DiffHunk where
  old : Option (ℕ × ℕ)
  new : Option (ℕ × ℕ)
  deriving DecidableEq, Repr

structure FileDiff where
  repoRoot : MemoryPath
  repoRel : MemoryPath
  origin : Option RenameOrigin
  status : FileDiffStatus
  hunks : List DiffHunk
  deriving DecidableEq, Repr

/-- `diff_path`. Git names a file relative to the root of its repository. -/
def FileDiff.diffPath (diff : FileDiff) : MemoryPath := diff.repoRoot ++ diff.repoRel

/-- `hunk_spans`. -/
def hunkSpans (hunks : List DiffHunk) : List (ℕ × ℕ) × List (ℕ × ℕ) :=
  (hunks.filterMap (·.old), hunks.filterMap (·.new))

structure ParsedNameStatus where
  status : FileDiffStatus
  repoRel : MemoryPath
  origin : Option RenameOrigin
  deriving DecidableEq, Repr

def pathFrom (text : List Char) : MemoryPath := joinPath [] (String.ofList text)

/-- `parse::<u8>` of a text, and 0 if it fails. -/
def parseScore (text : List Char) : ℕ :=
  let digits := if text.head? = some '+' then text.tail else text
  if digits = [] ∨ digits.any (fun c => !c.isDigit) then 0
  else
    let score := digits.foldl (fun n c => 10 * n + (c.toNat - '0'.toNat)) 0
    if score < 256 then score else 0

/-- A row of `git diff --name-status`. `none` is the error on a malformed row. -/
def parseNameStatus (row : List Char) : Option ParsedNameStatus :=
  let parts := row.splitOn '\t'
  match parts with
  | [] | [] :: _ => none
  | ('R' :: rawScore) :: rest =>
    match rest with
    | old :: new :: _ => some ⟨.renamed, pathFrom new, some ⟨pathFrom old, parseScore rawScore⟩⟩
    | _ => none
  | (letter :: _) :: rest =>
    match rest with
    | path :: _ =>
      let status := if letter = 'A' then .added else if letter = 'D' then .deleted else .tracked
      some ⟨status, pathFrom path, none⟩
    | [] => none

/-- What git prints for one source root : the rows, the hunks of each, and the untracked files. -/
structure GitOutput where
  root : MemoryPath
  nameStatus : List (List Char)
  hunks : MemoryPath → Option RenameOrigin → List DiffHunk
  untracked : List (List Char)

namespace GitOutput

variable (git : GitOutput)

def rowDiff (row : ParsedNameStatus) : FileDiff :=
  ⟨git.root, row.repoRel, row.origin, row.status, git.hunks row.repoRel row.origin⟩

/-- The row that deletes the origin of a rename. -/
def syntheticDelete (origin : RenameOrigin) : FileDiff :=
  ⟨git.root, origin.repoRel, none, .deleted, []⟩

def untrackedDiff (path : List Char) : FileDiff := ⟨git.root, pathFrom path, none, .added, []⟩

/-- `collect_changed_files`. -/
def collectChangedFiles : Option (List FileDiff) := do
  let rows ← git.nameStatus.mapM parseNameStatus
  return rows.flatMap (fun row => (row.origin.map git.syntheticDelete).toList ++ [git.rowDiff row]) ++
    git.untracked.map git.untrackedDiff

/-- The rows of the root without those that were put before a rename. -/
def reportedDiffs : Option (List FileDiff) := do
  let rows ← git.nameStatus.mapM parseNameStatus
  return rows.map git.rowDiff ++ git.untracked.map git.untrackedDiff

end GitOutput

/-- The diffs of all roots. A root whose rows cannot be read has none. -/
def collectDiffs (outputs : List GitOutput) : List FileDiff :=
  outputs.flatMap fun git => git.collectChangedFiles.getD []

def reportedDiffs (outputs : List GitOutput) : List FileDiff :=
  outputs.flatMap fun git => git.reportedDiffs.getD []

/-! ## The scan -/

structure ChangeRoot (Ctx : Type) where
  label : String
  path : MemoryPath
  ctx : Ctx
  /-- the source set of a path in the declared groups -/
  srcset : MemoryPath → Option String

/-- A file of the index, of one of so many roots. -/
structure ChangeFile (roots : ℕ) where
  fileIdx : ℕ
  sourceRoot : Fin roots
  path : MemoryPath
  relPath : MemoryPath
  anchor : MemoryPath
  lang : Lang
  srcset : Option String
  graph : CodeGraph
  source : Bytes
  sources : ∀ r ∈ graph.refs, r.source < graph.defs.length

/-- The files are numbered in order. -/
structure ChangeScan (Ctx : Type) where
  roots : List (ChangeRoot Ctx)
  files : List (ChangeFile roots.length)
  numbered : files.map (·.fileIdx) = List.range files.length

structure DiffEnv (Ctx : Type) extends PairingEnv where
  /-- `canonicalize`, or the path itself -/
  normalizePath : MemoryPath → MemoryPath
  languageForPath : MemoryPath → Except String Lang
  /-- the path below the root is ignored -/
  isIgnored : MemoryPath → MemoryPath → Bool
  gitShow : MemoryPath → String → MemoryPath → Except String Bytes
  withSrcset : Ctx → Option String → Ctx
  extract : Lang → Bytes → MemoryPath → Ctx → CodeGraph
  extract_sources : ∀ lang source anchor ctx,
    ∀ r ∈ (extract lang source anchor ctx).refs,
      r.source < (extract lang source anchor ctx).defs.length

def stripPathPrefix (path start : MemoryPath) : Option MemoryPath :=
  if start.isPrefixOf path then some (path.drop start.length) else none

def displayPath : MemoryPath → String
  | "/" :: path => "/" ++ "/".intercalate path
  | path => "/".intercalate path

section Scan

variable {Ctx : Type} (env : DiffEnv Ctx) (scan : ChangeScan Ctx)

structure RelevantDiffs where
  byPath : MemoryPath → Option FileDiff
  deleted : List FileDiff

def currentPaths : List MemoryPath := scan.files.map fun file => env.normalizePath file.path

variable (root : ChangeRoot Ctx)

def acceptsRoot (path : MemoryPath) : Bool :=
  (stripPathPrefix path (env.normalizePath root.path)).any fun rel =>
    !env.isIgnored (env.normalizePath root.path) rel

def acceptsDeletedPath (path : MemoryPath) : Bool :=
  (env.languageForPath path).isOk && scan.roots.any fun root => acceptsRoot env root path

/-- The last row of a path stays in the map. -/
def relevantDiffs (diffs : List FileDiff) : RelevantDiffs where
  byPath path := (diffs.filter fun diff =>
    diff.status ≠ .deleted ∧ env.normalizePath diff.diffPath = path ∧
      path ∈ currentPaths env scan).getLast?
  deleted := diffs.filter fun diff =>
    diff.status = .deleted ∧ acceptsDeletedPath env scan (env.normalizePath diff.diffPath)

def sourceRootForPath (path : MemoryPath) : Option (ChangeRoot Ctx × MemoryPath) :=
  scan.roots.findSome? fun root =>
    (stripPathPrefix (env.normalizePath path) (env.normalizePath root.path)).map (root, ·)

/-- `anchor_for` and `display_rel_path`. -/
def anchorFor (relPath : MemoryPath) : MemoryPath :=
  if 1 < scan.roots.length then joinPath [] root.label ++ relPath else relPath

def extractionContextForFile (file : ChangeFile scan.roots.length) : Ctx :=
  env.withSrcset (scan.roots.get file.sourceRoot).ctx file.srcset

def extractionContextForPath (path : MemoryPath) : Ctx :=
  env.withSrcset root.ctx (root.srcset path)

end Scan

end CodeMoniker
