import CodeMoniker.SourceMaterial
import CodeMoniker.Utf8Lossy

/-!
# Extraction of one file under a context

`extractWith` turns a text into a code graph. Besides the text, the language and the
anchor, each language reads its own part of the context : TypeScript the path aliases and
the SDK profile of the nearest `tsconfig.json`, C the include roots, the files of the
workspace and the package that owns unresolved headers, the others nothing. What
`extractWith` passes to a language is all that the context decides, which
`sameExtraction_iff` makes exact for two contexts with the same project, source set and
aliases.

The extractors of the languages are a parameter (`LangExtractors`).
-/

namespace CodeMoniker

open ByteCodec

/-! ## Paths -/

/-- A path of the operating system, with `/` between its components. -/
@[ext]
structure FsPath where
  bytes : Bytes
  deriving DecidableEq

inductive Component where
  | rootDir
  | curDir
  | parentDir
  | normal (name : Bytes)
  deriving DecidableEq

namespace Component

def ofPiece (piece : Bytes) : Component :=
  if piece = byteString ".." then .parentDir else .normal piece

def asOsStr : Component → Bytes
  | rootDir => byteString "/"
  | curDir => byteString "."
  | parentDir => byteString ".."
  | normal name => name

/-- A list of numbers that is compared as the component is. -/
def rank : Component → List ℕ
  | rootDir => [0]
  | curDir => [1]
  | parentDir => [2]
  | normal name => 3 :: name.map (·.toNat)

end Component

namespace FsPath

variable (p : FsPath)

def isAbsolute : Bool := p.bytes.head? == some 0x2f

/-- Empty pieces are skipped, and `.` too unless it starts a relative path. -/
def components : List Component :=
  let pieces := (p.bytes.splitOn 0x2f).filter (· ≠ [])
  let body := (pieces.filter (· ≠ byteString ".")).map Component.ofPiece
  if p.isAbsolute then .rootDir :: body
  else if pieces.head? = some (byteString ".") then .curDir :: body
  else body

def join (p q : FsPath) : FsPath :=
  if q.isAbsolute then q
  else if p.bytes = [] ∨ p.bytes.getLast? = some 0x2f then ⟨p.bytes ++ q.bytes⟩
  else ⟨p.bytes ++ 0x2f :: q.bytes⟩

def push (c : Component) : FsPath := p.join ⟨c.asOsStr⟩

/-- The path with these components and no repeated separator. -/
def ofComponents (cs : List Component) : FsPath := cs.foldl push ⟨[]⟩

def parent : Option FsPath :=
  match p.components.getLast? with
  | none | some .rootDir => none
  | some _ => some (ofComponents p.components.dropLast)

def fileName : Option Bytes :=
  match p.components.getLast? with
  | some (.normal name) => some name
  | _ => none

def startsWith (p base : FsPath) : Bool := base.components.isPrefixOf p.components

def cmp (p q : FsPath) : Ordering :=
  compare (p.components.map Component.rank) (q.components.map Component.rank)

def toStr : Option Bytes := if Utf8.Valid p.bytes then some p.bytes else none

def toStringLossy : Bytes := Utf8.fromUtf8Lossy p.bytes

end FsPath

/-- The file system while one call runs. No system names a file by a path of four
gigabytes. -/
structure FileSystem where
  canonicalize : FsPath → Option FsPath
  currentDir : Option FsPath
  /-- the nanoseconds from the epoch to the last modification, and the length -/
  metadata : FsPath → Option (ℤ × UInt64)
  read : FsPath → Option Bytes
  fits : ∀ p q, canonicalize p = some q → q.bytes.length < 2 ^ 32

/-! ## TypeScript configuration -/

structure PathAlias where
  pattern : Bytes
  substitution : Bytes
  deriving DecidableEq

/-- The SDK members a profile admits are those of its libraries. -/
structure TsSdkProfile where
  libraries : List Bytes
  deriving DecidableEq

/-- A pattern of a configuration, compiled to a regular expression. -/
structure GlobRegex where
  asStr : Bytes
  isMatch : Bytes → Bool

structure TsFileSelector where
  files : Option (List FsPath)
  includes : Option (List GlobRegex)
  exclude : List GlobRegex

structure TsSdkScope where
  root : FsPath
  configPath : FsPath
  profile : TsSdkProfile
  selector : TsFileSelector

structure TsResolution where
  aliases : List PathAlias
  root : FsPath
  defaultSdkProfile : TsSdkProfile
  sdkProfiles : List TsSdkScope

def trimDotSlash : Bytes → Bytes
  | 0x2e :: 0x2f :: rest => trimDotSlash rest
  | other => other

def normalizeConfigPath (path : Bytes) : Bytes :=
  (trimDotSlash path).map fun b => if b = 0x5c then 0x2f else b

def TsFileSelector.matchScore (s : TsFileSelector) (root absolute : FsPath) : Option ℕ :=
  let absoluteText := normalizeConfigPath absolute.toStringLossy
  if s.files.any fun files => files.any fun file => file.components = absolute.components then
    some (2000000 + absoluteText.length)
  else
    let excluded := s.exclude.any (·.isMatch absoluteText)
    let included :=
      if excluded then none
      else
        s.includes.bind fun patterns =>
          ((patterns.filter (·.isMatch absoluteText)).map (·.asStr.length)).max?
    match included with
    | some score => some (1000000 + score)
    | none =>
      if s.files.isNone ∧ s.includes.isNone ∧ ¬excluded ∧ absolute.startsWith root then some 1
      else none

/-- `Iterator::max_by` : the last of several greatest elements. -/
def maxBy {α : Type} (cmp : α → α → Ordering) : List α → Option α
  | [] => none
  | a :: as => some (as.foldl (fun x y => if cmp x y = .gt then x else y) a)

/-- A deeper scope first, then the better match, then the greater configuration path. -/
def TsSdkScope.cmp (left right : TsSdkScope × ℕ) : Ordering :=
  (compare left.1.root.components.length right.1.root.components.length).then
    ((compare left.2 right.2).then (left.1.configPath.cmp right.1.configPath))

section Lookup

variable (fs : FileSystem)

def normalizeScopePath (path : FsPath) : FsPath :=
  (fs.canonicalize path).getD
    (((path.parent.bind fs.canonicalize).bind fun parent =>
      path.fileName.map fun name => parent.join ⟨name⟩).getD path)

def TsResolution.sdkProfileFor (ts : TsResolution) (path : FsPath) : TsSdkProfile :=
  let unresolved :=
    if path.isAbsolute ∨ ts.root.bytes = [] then path else ts.root.join path
  let absolute := normalizeScopePath fs unresolved
  ((maxBy TsSdkScope.cmp (ts.sdkProfiles.filterMap fun scope =>
      (scope.selector.matchScore scope.root absolute).map fun score => (scope, score))).map
    (·.1.profile)).getD ts.defaultSdkProfile

/-! ## C build facts -/

structure CPresets where
  includePaths : List Bytes
  workspaceFiles : Finset Bytes
  externalIncludePackage : Option Bytes
  deriving DecidableEq

/-- The fields that `extraction_presets` reads. -/
structure CBuildContext where
  root : FsPath
  includePaths : List FsPath
  workspaceFiles : Finset Bytes
  externalIncludePackage : Option Bytes
  deriving DecidableEq

def absoluteNormalized (path : FsPath) : FsPath :=
  let absolute :=
    if path.isAbsolute then path else (fs.currentDir.getD ⟨byteString "."⟩).join path
  absolute.components.foldl
    (fun normalized c =>
      match c with
      | .curDir => normalized
      | .parentDir => normalized.parent.getD normalized
      | other => normalized.push other)
    ⟨[]⟩

def projectRelativePath (root path : FsPath) : Option Bytes :=
  let normalized := absoluteNormalized fs path
  if normalized.startsWith root then
    some (List.intercalate [0x2f]
      (((normalized.components.drop root.components.length).map (·.asOsStr)).filter
        fun name => Utf8.Valid name))
  else none

def CBuildContext.extractionPresets (c : CBuildContext) : CPresets where
  includePaths := c.includePaths.filterMap (projectRelativePath fs c.root)
  workspaceFiles := c.workspaceFiles
  externalIncludePackage := c.externalIncludePackage

end Lookup

/-! ## Extraction -/

structure Context where
  c : CBuildContext
  ts : TsResolution
  project : Option Bytes
  srcset : Option Bytes

/-- The fields of `ts::Presets` that `extract_with` fills. The rest are its defaults. -/
structure TsPresets where
  pathAliases : List PathAlias
  sdkProfile : TsSdkProfile
  deriving DecidableEq

/-- The text of a file. -/
structure SourceText where
  bytes : Bytes
  valid : Utf8.Valid bytes
  deriving DecidableEq

/-- The extractors, each with the uri, the text and the anchor moniker. `none` stands for
a panic. -/
structure LangExtractors where
  ts : Lang → Bytes → SourceText → Moniker → TsPresets → Option CodeGraph
  c : Bytes → SourceText → Moniker → CPresets → Option CodeGraph
  plain : Lang → Bytes → SourceText → Moniker → Option CodeGraph

def srcsetOfParts : List Bytes → Option Bytes
  | first :: second :: rest =>
    if first = byteString "src" ∧ second = byteString "main" then some (byteString "main")
    else if first = byteString "src" ∧
        (second = byteString "test" ∨ second = byteString "tests") then
      some (byteString "test")
    else srcsetOfParts (second :: rest)
  | _ => none

def srcset (path : FsPath) : Option Bytes :=
  srcsetOfParts ((path.components.map (·.asOsStr)).filter fun name => Utf8.Valid name)

/-- `none` stands for the panic of the builder. -/
def anchorMoniker (project : Bytes) (srcset : Option Bytes) : Option Moniker :=
  let segments := srcset.toList.map fun name => ⟨byteString "srcset", name⟩
  (MonikerBuilder.mk project segments).tryMoniker.toOption

def pathAnchor (path : FsPath) (ctx : Context) : Option Moniker :=
  anchorMoniker (ctx.project.getD (byteString ".")) (ctx.srcset.or (srcset path))

def extractWith (e : LangExtractors) (fs : FileSystem) (lang : Lang) (source : SourceText)
    (path : FsPath) (ctx : Context) : Option CodeGraph := do
  let uri := path.toStr.getD (byteString "single-file")
  let anchor ← pathAnchor path ctx
  match lang with
  | .ts | .tsx | .js | .jsx =>
    let presets : TsPresets :=
      { pathAliases := ctx.ts.aliases, sdkProfile := ctx.ts.sdkProfileFor fs path }
    e.ts lang uri source anchor presets
  | .c => e.c uri source anchor (ctx.c.extractionPresets fs)
  | other => e.plain other uri source anchor

/-! ## What the context decides -/

/-- The fields that every language reads are the same. -/
structure SameShared (ctx ctx' : Context) : Prop where
  project : ctx.project = ctx'.project
  srcset : ctx.srcset = ctx'.srcset
  aliases : ctx.ts.aliases = ctx'.ts.aliases

/-- The part of the context that only this language reads is the same, each context read
while its own file system stands. A file whose anchor is no moniker is never extracted. -/
def SameExtraction (lang : Lang) (anchor : FsPath) (fs : FileSystem) (ctx : Context)
    (fs' : FileSystem) (ctx' : Context) : Prop :=
  pathAnchor anchor ctx = none ∨
    match lang with
    | .ts | .tsx | .js | .jsx => ctx.ts.sdkProfileFor fs anchor = ctx'.ts.sdkProfileFor fs' anchor
    | .c => ctx.c.extractionPresets fs = ctx'.c.extractionPresets fs'
    | _ => True

theorem SameShared.pathAnchor {ctx ctx' : Context} (h : SameShared ctx ctx') (path : FsPath) :
    CodeMoniker.pathAnchor path ctx = CodeMoniker.pathAnchor path ctx' := by
  unfold CodeMoniker.pathAnchor
  rw [h.project, h.srcset]

theorem SameExtraction.extractWith {lang : Lang} {anchor : FsPath} {fs fs' : FileSystem}
    {ctx ctx' : Context} (hshared : SameShared ctx ctx')
    (h : SameExtraction lang anchor fs ctx fs' ctx') (e : LangExtractors) (source : SourceText) :
    CodeMoniker.extractWith e fs lang source anchor ctx =
      CodeMoniker.extractWith e fs' lang source anchor ctx' := by
  have hanchor := hshared.pathAnchor anchor
  rcases h with h | h
  · simp only [CodeMoniker.extractWith, ← hanchor, h, Option.bind_eq_bind, Option.bind_none]
  · simp only [CodeMoniker.extractWith, ← hanchor, ← hshared.aliases]
    cases lang <;> simp only [h]

/-- Two graphs that an extractor can return on the two sides of a decision. -/
def decided (b : Bool) : Option CodeGraph :=
  if b then some (CodeGraph.fromRecords [] []) else none

/-- The extractors that return a graph for the one value of what the context decides. -/
def telling (tsPresets : TsPresets) (cPresets : CPresets) : LangExtractors where
  ts _ _ _ _ presets := decided (presets = tsPresets)
  c _ _ _ presets := decided (presets = cPresets)
  plain _ _ _ _ := none

/-- Whatever the extractors do with what they are given, two contexts lead to the same
graph if and only if they agree on the part of the language. -/
theorem sameExtraction_iff {lang : Lang} {anchor : FsPath} {fs fs' : FileSystem}
    {ctx ctx' : Context} (hshared : SameShared ctx ctx') :
    (∀ e source, extractWith e fs lang source anchor ctx =
      extractWith e fs' lang source anchor ctx') ↔ SameExtraction lang anchor fs ctx fs' ctx' := by
  refine ⟨fun h => ?_, fun h e source => h.extractWith hshared e source⟩
  cases hanchor : pathAnchor anchor ctx with
  | none => exact Or.inl hanchor
  | some m =>
    have h := h (telling ⟨ctx.ts.aliases, ctx.ts.sdkProfileFor fs anchor⟩
      (ctx.c.extractionPresets fs)) ⟨[], Utf8.valid_nil⟩
    simp only [extractWith, ← hshared.pathAnchor anchor, hanchor, ← hshared.aliases] at h
    refine Or.inr ?_
    cases lang <;> simp_all [telling, decided]

end CodeMoniker
