import CodeMoniker.ExtractionContext

/-!
# Quoted includes of a C file

What a quoted include refers to : the file of the workspace that the include roots lead to,
else a path outside the workspace, else a header of the package that the build files name,
else a module next to the including file. The package does not matter for a file of the
workspace (`resolvedWorkspacePath_package`).
-/

namespace CodeMoniker

open ByteCodec

/-! ## Paths of an include -/

def pathPieces (path : Bytes) : List Bytes := (path.splitOn 0x2f).filter (· ≠ [])

def isCurDirPiece (piece : Bytes) : Bool := piece == byteString "."

def normalizePathPieces (pieces : List Bytes) : Option (List Bytes) :=
  pieces.foldlM
    (fun normalized piece =>
      if piece = [] ∨ isCurDirPiece piece then some normalized
      else if piece = byteString ".." then
        if normalized = [] then none else some normalized.dropLast
      else some (normalized ++ [piece]))
    []

variable (root : Moniker)

/-- The directories in the root of the including file. -/
def rootDirs : List Bytes :=
  (root.segments.filter fun s => s.kind = byteString "dir").map fun s => Utf8.fromUtf8Lossy s.name

def withoutSuffix (suffix name : Bytes) : Bytes :=
  if suffix.isSuffixOf name then name.take (name.length - suffix.length) else name

/-- One segment for each piece, the last one with its own kind and without the suffix. -/
def pieceSegments (kind terminalKind suffix : Bytes) : List Bytes → List Segment
  | [] => []
  | [piece] => [⟨terminalKind, withoutSuffix suffix piece⟩]
  | piece :: rest => ⟨kind, piece⟩ :: pieceSegments kind terminalKind suffix rest

def resolvedWorkspacePath (includePath : Bytes) (presets : CPresets) :
    Option (List Bytes) :=
  let pieces := pathPieces includePath
  let candidates := (normalizePathPieces (rootDirs root ++ pieces)).toList ++
    presets.includePaths.filterMap fun includeRoot =>
      normalizePathPieces
        ((pathPieces includeRoot).filter (fun piece => ¬isCurDirPiece piece) ++ pieces)
  candidates.find? fun candidate => List.intercalate [0x2f] candidate ∈ presets.workspaceFiles

/-! ## Targets -/

/-- The segments up to the language. -/
def throughLang : List Segment → List Segment
  | [] => []
  | s :: rest => if s.kind = byteString "lang" then [s] else s :: throughLang rest

def targetFromWorkspacePath (pieces : List Bytes) : MonikerBuilder where
  project := root.project
  segments := throughLang root.segments ++
    pieceSegments (byteString "dir") (byteString "module") (byteString ".c") pieces

def declaredExternalIncludeTarget (package includePath : Bytes) :
    MonikerBuilder where
  project := root.project
  segments := ⟨byteString "external_pkg", package⟩ ::
    pieceSegments (byteString "path") (byteString "path") (byteString ".h") (pathPieces includePath)

/-- One turn of the loop of `workspace_include_target`. -/
def pushIncludePiece (segments : List Segment) (piece : Bytes) (terminal : Bool) : List Segment :=
  if piece = byteString ".." then
    if (segments.getLast?.map (·.kind)) = some (byteString "dir") then segments.dropLast
    else segments
  else if terminal then
    segments ++ [⟨byteString "module", withoutSuffix (byteString ".c") piece⟩]
  else segments ++ [⟨byteString "dir", piece⟩]

/-- The target of a quoted include that no file of the workspace answers. -/
def workspaceIncludeTarget (includePath : Bytes) : MonikerBuilder where
  project := root.project
  segments :=
    let start :=
      if (root.segments.getLast?.map (·.kind)) = some (byteString "module") then
        root.segments.dropLast
      else root.segments
    let pieces := (pathPieces includePath).filter fun piece => ¬isCurDirPiece piece
    pieces.zipIdx.foldl
      (fun segments piece => pushIncludePiece segments piece.1 (piece.2 + 1 == pieces.length)) start

def quotedIncludeEscapesWorkspace (includePath : Bytes) : Bool :=
  (normalizePathPieces (rootDirs root ++ pathPieces includePath)).isNone

def externalPackageOwnsInclude (package includePath : Bytes) : Bool :=
  package == byteString "postgresql" &&
    (((includePath.splitOn 0x2f).headD includePath ∈
      ["access", "catalog", "common", "executor", "lib", "libpq", "nodes", "parser", "port",
        "postmaster", "replication", "storage", "tcop", "utils"].map byteString) ||
    (includePath ∈ ["c.h", "fmgr.h", "funcapi.h", "miscadmin.h", "plpgsql.h",
      "postgres.h"].map byteString))

/-! ## The reference of an include -/

structure IncludeRef where
  target : MonikerBuilder
  confidence : Bytes
  receiverHint : Bytes
  deriving DecidableEq

/-- The branch of `collect_include` for a string literal. -/
def quotedInclude (inner : Bytes) (presets : CPresets) : IncludeRef :=
  match resolvedWorkspacePath root inner presets with
  | some pieces => ⟨targetFromWorkspacePath root pieces, byteString "imported", []⟩
  | none =>
    if quotedIncludeEscapesWorkspace root inner then
      ⟨declaredExternalIncludeTarget root (byteString "filesystem") inner, byteString "external", []⟩
    else
      match presets.externalIncludePackage with
      | some package =>
        if externalPackageOwnsInclude package inner then
          ⟨declaredExternalIncludeTarget root package inner, byteString "external",
            byteString "c_build_dependency"⟩
        else ⟨workspaceIncludeTarget root inner, byteString "imported", []⟩
      | none => ⟨workspaceIncludeTarget root inner, byteString "imported", []⟩

/-- A file of the workspace is found without the package. -/
theorem resolvedWorkspacePath_package (inner : Bytes) (presets : CPresets)
    (package : Option Bytes) :
    resolvedWorkspacePath root inner { presets with externalIncludePackage := package } =
      resolvedWorkspacePath root inner presets := rfl

end CodeMoniker
