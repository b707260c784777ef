import CodeMoniker.LinkageTables
import CodeMoniker.SeenLoops

/-!
# Forwards of Rust re-exports

Imports and re-exports introduce paths beside the definitions that they lead to. Each reference of
a workspace records such forwards (`recordForward`) : local ones under the path that the reference
binds in its module, and public ones under the path that other packages see, once for each package
root of its manifest. A target is rewritten along the tables until nothing applies to it
(`followAliases`).

The loop has no bound in the source and runs on fuel here. It remembers the targets it has seen and
uses the key of a local forward at most once on a way. A public forward replaces a prefix of an
external path by its target, as often as it applies.
-/

namespace CodeMoniker

open ByteCodec FuelLoops

/-! ## Manifests -/

inductive Manifest where
  | cargo
  | packageJson
  | pomXml
  | pyproject
  | goMod
  | csproj
  deriving DecidableEq, Repr

/-- The two parts of a package id. -/
structure PackageId where
  manifest : Manifest
  importRoot : String
  deriving DecidableEq, Repr

/-- What re-exports read of a manifest. -/
structure PackageEntry where
  manifest : Manifest
  packages : List PackageId
  deps : List PackageId

/-- The manifest that governs each file. -/
abbrev PackagePolicy := AList fun _ : ℕ => PackageEntry

namespace PackagePolicy

/-- The names of segments are UTF-8, so `from_utf8` does not refuse one. -/
def authorizesReexportTarget (p : PackagePolicy) (sourceFile : ℕ) (target : Moniker) : Bool :=
  match target.segments.head? with
  | none => true
  | some head =>
    if head.kind = byteString "external_pkg" then
      (p.lookup sourceFile).any fun entry => entry.deps.any fun dep =>
        dep.manifest = entry.manifest ∧ byteString dep.importRoot = head.name
    else true

def sourcePackageRoots (p : PackagePolicy) (sourceFile : ℕ) : List Bytes :=
  match p.lookup sourceFile with
  | none => []
  | some entry => entry.packages.map fun package => byteString package.importRoot

end PackagePolicy

/-! ## Keys -/

abbrev RustPublicPathKey := Bytes × List Bytes

abbrev RustLocalAliasKey := Bytes × List (Bytes × Bytes)

/-- A forward leads to any number of targets. -/
abbrev Forwards (κ : Type) := AList fun _ : κ => List Moniker

def insertRustForward {κ : Type} [DecidableEq κ] (forwards : Forwards κ) (key : κ)
    (target : Moniker) : Forwards κ :=
  let targets := (forwards.lookup key).getD []
  forwards.insert key (if target ∈ targets then targets else targets ++ [target])

def isCrateFile (s : Segment) : Bool :=
  s.kind = byteString "module" ∧ (s.name = byteString "lib" ∨ s.name = byteString "main")

/-- The segments that name a path in the crate. -/
def pathSegments (m : Moniker) : List Segment := m.segments.filter fun s => !isCrateFile s

def rustScopeKind (kind : Bytes) : Bool :=
  kind ∈ ["lang", "dir", "module", "package", "external_pkg", "sdk"].map byteString

def rustLocalAliasSegmentKey (s : Segment) (terminal : Bool) : Bytes × Bytes :=
  (if terminal && !rustScopeKind s.kind then byteString "path" else s.kind, s.name)

def localAliasPath (segments : List Segment) : List (Bytes × Bytes) :=
  segments.zipIdx.map fun s => rustLocalAliasSegmentKey s.1 (s.2 + 1 = segments.length)

def rustLocalAliasKey (m : Moniker) : RustLocalAliasKey :=
  (m.project, localAliasPath (pathSegments m))

def rustMacroScope (source : Moniker) : Moniker :=
  if source.segments.getLast?.any isCrateFile then source.parent.getD source else source

def isModule (m : Moniker) : Bool :=
  m.segments.getLast?.any fun s => s.kind = byteString "module"

variable (source : DefRecord)

def rustModulePath : List Bytes :=
  (source.moniker.segments.filter fun s => s.kind = byteString "module" && !isCrateFile s).map
    (·.name)

def rustWildcardReexport (r : RefRecord) : Bool :=
  r.receiverHint = byteString "rust_wildcard" && r.aliasName.isEmpty && isModule r.target

def rustPublicReexportPath (r : RefRecord) : Option (List Bytes) :=
  match r.target.segments.getLast? with
  | none => none
  | some targetMember =>
    if !isModule source.moniker then none
    else if targetMember.kind = byteString "module" then
      if rustWildcardReexport r then some (rustModulePath source) else none
    else
      let memberName := if r.aliasName.isEmpty then targetMember.name else r.aliasName
      some (rustModulePath source ++ [memberName])

def rustReexportMember (r : RefRecord) : Option Bytes :=
  if !r.aliasName.isEmpty then some r.aliasName else r.target.segments.getLast?.map (·.name)

/-- `build` of the builder with more segments. `none` is its panic. -/
def extendMoniker (m : Moniker) (segments : List Segment) : Option Moniker :=
  (MonikerBuilder.mk m.project (m.segments ++ segments)).tryMoniker.toOption

/-- The moniker that a reference binds. The outer `none` is the panic of `build`. -/
def rustReexportAliasMoniker (r : RefRecord) : Option (Option Moniker) :=
  match rustReexportMember r with
  | none => some none
  | some member => (extendMoniker source.moniker [⟨byteString "path", member⟩]).map some

/-! ## Recording -/

/-- The tables that references fill. -/
structure RustForwards where
  byMacroScope : Forwards Moniker
  byRustMember : Forwards RustPublicPathKey
  byRustAlias : Forwards Moniker
  byRustLocalAlias : Forwards RustLocalAliasKey
  byRustLocalWildcard : Forwards RustLocalAliasKey
  byRustPrefix : Forwards RustPublicPathKey

namespace RustForwards

def empty : RustForwards := ⟨∅, ∅, ∅, ∅, ∅, ∅⟩

variable (f : RustForwards)

def insertMacroScope (scope target : Moniker) : RustForwards :=
  { f with byMacroScope := insertRustForward f.byMacroScope scope target }

def insertLocalAlias (key : RustLocalAliasKey) (target : Moniker) :
    RustForwards :=
  { f with byRustLocalAlias := insertRustForward f.byRustLocalAlias key target }

def insertLocalWildcard (key : RustLocalAliasKey) (target : Moniker) :
    RustForwards :=
  { f with byRustLocalWildcard := insertRustForward f.byRustLocalWildcard key target }

def insertAlias (aliasMoniker target : Moniker) : RustForwards :=
  { f with byRustAlias := insertRustForward f.byRustAlias aliasMoniker target }

def insertPrefix (path : List Bytes) (target : Moniker) (f : RustForwards) (root : Bytes) :
    RustForwards :=
  { f with byRustPrefix := insertRustForward f.byRustPrefix (root, path) target }

def insertMember (path : List Bytes) (target : Moniker) (f : RustForwards) (root : Bytes) :
    RustForwards :=
  let f := f.insertPrefix path target root
  { f with byRustMember := insertRustForward f.byRustMember (root, path) target }

def recordMacroUse (site : ForwardSite) : RustForwards :=
  if site.reference.kind = byteString "imports_module" ∧
      site.reference.receiverHint = byteString "rust_macro_use" then
    f.insertMacroScope (rustMacroScope site.source.moniker) site.reference.target
  else f

def recordLocalBinding (site : ForwardSite) : Option RustForwards :=
  let f := f.recordMacroUse site
  let r := site.reference
  if r.kind ∉ ["reexports", "imports_module", "imports_symbol"].map byteString then some f
  else if r.kind = byteString "reexports" ∧ rustWildcardReexport r then
    some (f.insertLocalWildcard (rustLocalAliasKey site.source.moniker) r.target)
  else
    (rustReexportAliasMoniker site.source r).map fun found =>
      match found with
      | none => f
      | some aliasMoniker => f.insertLocalAlias (rustLocalAliasKey aliasMoniker) r.target

def recordMember (p : PackagePolicy) (f : RustForwards) (site : ForwardSite) :
    Option RustForwards :=
  let r := site.reference
  if !p.authorizesReexportTarget site.fileIdx r.target then some f
  else
    match rustPublicReexportPath site.source r with
    | none => some f
    | some path =>
      let roots := p.sourcePackageRoots site.fileIdx
      if rustWildcardReexport r then some (roots.foldl (insertPrefix path r.target) f)
      else
        (rustReexportAliasMoniker site.source r).map fun found =>
          let f := match found with
            | none => f
            | some aliasMoniker => f.insertAlias aliasMoniker r.target
          roots.foldl (insertMember path r.target) f

def recordPrefix (p : PackagePolicy) (f : RustForwards) (site : ForwardSite) : RustForwards :=
  match rustPublicReexportPath site.source site.reference with
  | none => f
  | some path =>
    (p.sourcePackageRoots site.fileIdx).foldl (insertPrefix path site.reference.target) f

end RustForwards

/-- All tables of `BindingForwards` but the crate roots. -/
structure ForwardTables where
  byRoot : AList fun _ : Bytes => Bytes
  byBarrel : AList fun _ : Moniker => Moniker
  rust : RustForwards

namespace ForwardTables

def empty : ForwardTables := ⟨∅, ∅, .empty⟩

def bareExternalRoot (target : Moniker) : Option Bytes :=
  match target.segments with
  | [head] => if head.kind = byteString "external_pkg" then some head.name else none
  | _ => none

def wildcardBarrel (r : RefRecord) : Option Moniker :=
  if isModule source.moniker ∧ isModule r.target ∧ source.moniker ≠ r.target then
    some source.moniker
  else none

/-- `entry(key).or_insert(value)`. -/
def orInsert {κ ν : Type} [DecidableEq κ] (table : AList fun _ : κ => ν) (key : κ) (value : ν) :
    AList fun _ : κ => ν :=
  if key ∈ table then table else table.insert key value

def recordExternalRoot (p : PackagePolicy) (t : ForwardTables) (site : ForwardSite)
    (target : Bytes) : ForwardTables :=
  let roots := p.sourcePackageRoots site.fileIdx
  { t with byRoot := roots.foldl (fun byRoot root => orInsert byRoot root target) t.byRoot }

def recordBarrel (t : ForwardTables) (source : DefRecord) (r : RefRecord) : ForwardTables :=
  match wildcardBarrel source r with
  | none => t
  | some barrel => { t with byBarrel := orInsert t.byBarrel barrel r.target }

/-- The part of `record_forward` past the local binding. -/
def recordReexport (p : PackagePolicy) (lang : Lang) (site : ForwardSite) (t : ForwardTables) :
    Option ForwardTables :=
  if site.reference.kind ≠ byteString "reexports" then some t
  else
    match bareExternalRoot site.reference.target with
    | some target =>
      if lang = .rs ∧ !site.reference.aliasName.isEmpty then
        some { t with rust := t.rust.recordPrefix p site }
      else some (t.recordExternalRoot p site target)
    | none =>
      (if lang = .rs then t.rust.recordMember p site else some t.rust).map fun rust =>
        ({ t with rust := rust } : ForwardTables).recordBarrel site.source site.reference

/-- `none` is a panic of the builder. -/
def recordForward (p : PackagePolicy) (lang : Lang) (site : ForwardSite) (t : ForwardTables) :
    Option ForwardTables :=
  (if lang = .rs then t.rust.recordLocalBinding site else some t.rust).bind fun rust =>
    recordReexport p lang site { t with rust := rust }

end ForwardTables

namespace BindingForwards

/-- The tables that a material records. `none` is a panic on the way. -/
def ofMaterial (p : PackagePolicy) (manifests : ManifestPolicy) (m : CodeIndexMaterial) :
    Option (BindingForwards ForwardTables) := do
  let f ← build (fun lang site t => t.bind (ForwardTables.recordForward p lang site)) manifests m
    (some .empty)
  return ⟨f.byCrateRoot, ← f.recorded⟩

/-! ## Rewriting -/

variable (f : BindingForwards ForwardTables)

def rewriteMacroScope (target : Moniker) : List Moniker :=
  match target.segments.getLast?, target.parent with
  | some last, some parent =>
    if last.kind = byteString "macro" then
      match (selfAndAncestors parent).findSome? f.recorded.rust.byMacroScope.lookup with
      | none => []
      | some modules =>
        modules.filterMap fun module => extendMoniker module [⟨byteString "macro", last.name⟩]
    else []
  | _, _ => []

def rewriteCrateRoot (target : Moniker) : List Moniker :=
  match ForwardTables.bareExternalRoot target with
  | none => []
  | some root => (f.byCrateRoot.lookup root).toList

/-- The longest prefix that is recorded, of those of at most the given length. -/
def rewritePrefix (root : Bytes) (segments : List Segment) : ℕ → List Moniker
  | 0 => []
  | prefixLen + 1 =>
    match f.recorded.rust.byRustPrefix.lookup
        (root, (segments.take (prefixLen + 1)).map (·.name)) with
    | none => rewritePrefix root segments prefixLen
    | some forwarded =>
      forwarded.filterMap fun moniker => extendMoniker moniker (segments.drop (prefixLen + 1))

def rewriteExternalMember (target : Moniker) : List Moniker :=
  match target.segments with
  | [] => []
  | head :: segments =>
    if head.kind ≠ byteString "external_pkg" then []
    else
      match f.recorded.rust.byRustMember.lookup (head.name, segments.map (·.name)) with
      | some forwarded => forwarded
      | none => f.rewritePrefix head.name segments segments.length

end BindingForwards

/-- What a forward makes of a target, given the segments past the key. -/
def rewrittenTo (target : Moniker) (rest : List Segment) (forwarded : Moniker) : Option Moniker :=
  if forwarded.isAncestorOf target then none
  else (extendMoniker forwarded rest).filter (· ≠ target)

/-- The longest key that applies and leads somewhere, of those of at most the given length. -/
def rewriteLocalForwardFrom (target : Moniker) (used : List RustLocalAliasKey)
    (forwards : Forwards RustLocalAliasKey) (requireSuffix : Bool) (segments : List Segment) :
    ℕ → Option (RustLocalAliasKey × List Moniker)
  | 0 => none
  | prefixLen + 1 =>
    let key := (target.project, localAliasPath (segments.take (prefixLen + 1)))
    let shorter := rewriteLocalForwardFrom target used forwards requireSuffix segments prefixLen
    if requireSuffix ∧ prefixLen + 1 = segments.length ∨ key ∈ used then shorter
    else
      match forwards.lookup key with
      | none => shorter
      | some forwarded =>
        match forwarded.filterMap (rewrittenTo target (segments.drop (prefixLen + 1))) with
        | [] => shorter
        | rewritten => some (key, rewritten)

def rewriteLocalForwardExcluding (target : Moniker) (used : List RustLocalAliasKey)
    (forwards : Forwards RustLocalAliasKey) (requireSuffix : Bool) :
    Option (RustLocalAliasKey × List Moniker) :=
  rewriteLocalForwardFrom target used forwards requireSuffix (pathSegments target)
    (pathSegments target).length

namespace BindingForwards

variable (f : BindingForwards ForwardTables) (target : Moniker)

def rewriteLocalAliasExcluding (used : List RustLocalAliasKey) :
    Option (RustLocalAliasKey × List Moniker) :=
  rewriteLocalForwardExcluding target used f.recorded.rust.byRustLocalAlias false

def rewriteLocalAlias : List Moniker :=
  ((f.rewriteLocalAliasExcluding target []).map (·.2)).getD []

/-- A target with the keys of the local forwards on the way to it. -/
abbrev PendingTarget := Moniker × List RustLocalAliasKey

/-- What one turn of the loop of `follow_aliases` puts on the stack. -/
def forwardedTargets (item : PendingTarget) : List PendingTarget :=
  match (f.recorded.rust.byRustAlias.lookup item.1).getD [] with
  | target :: targets => (target :: targets).map (·, item.2)
  | [] =>
    match (f.rewriteLocalAliasExcluding item.1 item.2).or (rewriteLocalForwardExcluding item.1
        item.2 f.recorded.rust.byRustLocalWildcard true) with
    | some (key, targets) => targets.map (·, key :: item.2)
    | none => (f.rewriteExternalMember item.1).map (·, item.2)

def followAliases (fuel : ℕ) (targets : List Moniker) : Run (List Moniker) :=
  seenLoop Prod.fst f.forwardedTargets fuel ∅ [] (targets.map (·, [])).reverse

/-- What `rewrite_named` starts to follow. -/
def forwardedFrom : List Moniker :=
  match f.rewriteMacroScope target with
  | [] =>
    match f.rewriteCrateRoot target with
    | [] =>
      match f.rewriteLocalAlias target with
      | [] => f.rewriteExternalMember target
      | forwarded => forwarded
    | forwarded => forwarded
  | forwarded => forwarded

def rewriteNamed (fuel : ℕ) (target : Moniker) : Run (List Moniker) :=
  f.followAliases fuel (f.forwardedFrom target)

def rewriteExternalRoot : Option Moniker :=
  match target.segments with
  | [] => none
  | head :: segments =>
    if head.kind ≠ byteString "external_pkg" then none
    else (f.recorded.byRoot.lookup head.name).bind fun forwarded =>
      (MonikerBuilder.mk target.project
        (⟨byteString "external_pkg", forwarded⟩ :: segments)).tryMoniker.toOption

def rewriteBarrelMember : Option Moniker := do
  let parent ← target.parent
  let forwarded ← f.recorded.byBarrel.lookup parent
  let last ← target.segments.getLast?
  extendMoniker forwarded [last]

def rewrite (fuel : ℕ) (target : Moniker) : Run (Option Moniker) :=
  match f.rewriteNamed fuel target with
  | .done leaves =>
    .done ((leaves.head?.or (f.rewriteExternalRoot target)).or (f.rewriteBarrelMember target))
  | .panic => .panic
  | .running => .running

end BindingForwards

end CodeMoniker
