import CodeMoniker.CandidateCatalog

/-!
# Tables that a linkage pass builds

Before references are resolved the pass walks every file of the material, the tombstones of
removed files among them, and fills tables : the packages of the workspace, methods by
owner, forwards of imports and re-exports, and which C files see which through their
includes. Each table is `none` where its walk reads a definition that is not there.

Packages and methods are built on every indexed material (`WorkspacePackageIndex.build_isSome`,
`MethodTable.build_isSome`). Forwards ask each Rust file that is the library of its manifest
for its root, and include visibility asks every C file for its root, so these two are built
exactly where none of the files they ask is a tombstone (`BindingForwards.build_isSome_iff`,
`CIncludeVisibility.build_isSome_iff`).
-/

namespace CodeMoniker

open List Option ByteCodec

/-- A walk finishes when each of its turns does. -/
theorem foldlM_isSome {α β : Type} {f : β → α → Option β} : ∀ {l : List α} {b : β},
    (∀ a ∈ l, ∀ b, (f b a).isSome) → (l.foldlM f b).isSome
  | [], _, _ => rfl
  | a :: l, b, h => by
    obtain ⟨b', hb'⟩ := isSome_iff_exists.mp (h a mem_cons_self b)
    rw [foldlM_cons, hb']
    exact foldlM_isSome fun a' ha' => h a' (mem_cons_of_mem a ha')

/-! ## Packages of the workspace -/

structure WorkspacePackageIndex where
  packages : List Bytes

namespace WorkspacePackageIndex

def pythonModuleKey (m : Moniker) (lang : Bytes) : Option Bytes :=
  if lang ≠ byteString "python" then none
  else (m.segments.find? fun s => s.kind = byteString "module").map fun head =>
    lang ++ 0 :: head.name

/-- The scan of `package_key` : the language, the packages and whether there is one. `none`
at an external segment. -/
def packageParts : List Segment → Bytes × Bytes × Bool → Option (Bytes × Bytes × Bool)
  | [], parts => some parts
  | s :: segs, (lang, key, found) =>
    if s.kind = byteString "lang" then packageParts segs (s.name, key, found)
    else if s.kind = byteString "package" then
      packageParts segs (lang, key ++ 0 :: s.name, true)
    else if s.kind = byteString "external_pkg" ∨ s.kind = byteString "sdk" then none
    else packageParts segs (lang, key, found)

def packageKey (m : Moniker) : Option Bytes := do
  let (lang, key, found) ← packageParts m.segments ([], [], false)
  if found then some (lang ++ key) else pythonModuleKey m lang

def pythonPackageHeadKeyFrom : List Segment → Bytes → Option Bytes
  | [], _ => none
  | s :: segs, lang =>
    if s.kind = byteString "lang" then pythonPackageHeadKeyFrom segs s.name
    else if s.kind = byteString "package" then
      if lang ≠ byteString "python" then none else some (lang ++ 0 :: s.name)
    else none

def pythonPackageHeadKey (m : Moniker) : Option Bytes := pythonPackageHeadKeyFrom m.segments []

def insertKeys (packages : List Bytes) (m : Moniker) : List Bytes :=
  (pythonPackageHeadKey m).toList.foldl (fun acc key => acc.insert key)
    ((packageKey m).toList.foldl (fun acc key => acc.insert key) packages)

def insertFile (packages : List Bytes) (file : IndexedSourceFile) : Option (List Bytes) :=
  (List.range file.graph.defCount).foldlM
    (fun acc defIdx => (file.graph.defAt defIdx).map fun d => insertKeys acc d.moniker) packages

def build (m : CodeIndexMaterial) : Option WorkspacePackageIndex :=
  (m.files.foldlM insertFile []).map (⟨·⟩)

theorem build_isSome (m : CodeIndexMaterial) : (build m).isSome := by
  rw [build, isSome_map]
  refine foldlM_isSome fun file _ packages => foldlM_isSome fun defIdx hdef acc => ?_
  have hlt : defIdx < file.graph.defs.length := mem_range.mp hdef
  simp [CodeGraph.defAt, hlt]

end WorkspacePackageIndex

/-! ## Methods by owner -/

structure MethodTable where
  byOwnerNameArity : AList fun _ : Moniker × Bytes × ℕ => List SymbolOrdinal
  byOwnerName : AList fun _ : Moniker × Bytes => List SymbolOrdinal
  ownersByNameArity : AList fun _ : Bytes × ℕ => SymbolSet

namespace MethodTable

def insertMethodKey (t : MethodTable) (owner : Moniker) (name : Bytes) (arity : ℕ)
    (symbol : SymbolOrdinal) (ownerSymbol : Option SymbolOrdinal) : MethodTable where
  ownersByNameArity :=
    match ownerSymbol with
    | none => t.ownersByNameArity
    | some o =>
      t.ownersByNameArity.insert (name, arity)
        (((t.ownersByNameArity.lookup (name, arity)).getD ∅).insert o)
  byOwnerName :=
    t.byOwnerName.insert (owner, name) ((t.byOwnerName.lookup (owner, name)).getD [] ++ [symbol])
  byOwnerNameArity :=
    t.byOwnerNameArity.insert (owner, name, arity)
      ((t.byOwnerNameArity.lookup (owner, name, arity)).getD [] ++ [symbol])

/-- One definition of a file : callables with an arity are filed under their parent. -/
def insertDef (c : CandidateCatalog) (fileIdx : ℕ) (file : IndexedSourceFile) (t : MethodTable)
    (d : DefRecord × ℕ) : Option MethodTable :=
  match d.1.callArity, d.1.parent with
  | some arity, some parentIdx =>
    if d.1.callName = [] then some t
    else
      (file.graph.defAt parentIdx).map fun owner =>
        match c.symbolAt fileIdx d.2 with
        | none => t
        | some symbol =>
          t.insertMethodKey owner.moniker d.1.callName arity symbol
            (c.indexes.symbolByMoniker owner.moniker)
  | _, _ => some t

def insertFile (c : CandidateCatalog) (t : MethodTable) (file : IndexedSourceFile × ℕ) :
    Option MethodTable :=
  file.1.graph.defs.zipIdx.foldlM (insertDef c file.2 file.1) t

def build (m : CodeIndexMaterial) (c : CandidateCatalog) : Option MethodTable :=
  m.files.zipIdx.foldlM (insertFile c) ⟨∅, ∅, ∅⟩

theorem build_isSome {m : CodeIndexMaterial} (h : m.Indexed) (c : CandidateCatalog) :
    (build m c).isSome := by
  refine foldlM_isSome fun file hfile t => foldlM_isSome fun d hd t' => ?_
  have hfile : file.1 ∈ m.files := fst_mem_of_mem_zipIdx hfile
  have hd : d.1 ∈ file.1.graph.defs := fst_mem_of_mem_zipIdx hd
  unfold insertDef
  split
  · next parentIdx _ hparent =>
    split_ifs
    · rfl
    · obtain ⟨owner, howner⟩ := h.defAt_parent hfile hd hparent
      rw [howner, isSome_map]
      rfl
  · rfl

end MethodTable

/-! ## Forwards of imports and re-exports -/

structure RustLibTarget where
  importRoot : String
  path : String

structure ManifestEntry where
  rustLib : Option RustLibTarget

/-- The manifests found on disk, those of each source root, and the entry that governs each
file. -/
structure ManifestPolicy where
  entriesByRoot : AList fun _ : ℕ => List ManifestEntry
  entryByFile : AList fun _ : ℕ => ℕ × ℕ
  /-- against the working directory -/
  absolutePath : String → String

namespace ManifestPolicy

def entryForFile (p : ManifestPolicy) (fileIdx : ℕ) : Option ManifestEntry := do
  let location ← p.entryByFile.lookup fileIdx
  let entries ← p.entriesByRoot.lookup location.1
  entries[location.2]?

def rustLibraryImportRootForFile (p : ManifestPolicy) (fileIdx : ℕ) (filePath : String) :
    Option String := do
  let entry ← p.entryForFile fileIdx
  let library ← entry.rustLib
  if p.absolutePath filePath = p.absolutePath library.path then some library.importRoot else none

/-- A Rust file that its manifest names as the library of the package. -/
def isRustLibrary (p : ManifestPolicy) (fileIdx : ℕ) (file : IndexedSourceFile) : Bool :=
  file.lang = .rs && (p.rustLibraryImportRootForFile fileIdx file.path).isSome

end ManifestPolicy

structure ForwardSite where
  fileIdx : ℕ
  source : DefRecord
  reference : RefRecord

/-- Crate roots by import root, beside what the references record. -/
structure BindingForwards (φ : Type) where
  byCrateRoot : AList fun _ : Bytes => Moniker
  recorded : φ

namespace BindingForwards

section Build

variable {φ : Type} (record : Lang → ForwardSite → φ → φ) (manifests : ManifestPolicy)

/-- The outer `none` stands for a file without a root. -/
def rustFileModule (file : IndexedSourceFile) : Option (Option Moniker) :=
  file.graph.root.map fun root =>
    if root.segments.getLast?.any fun s => s.kind = byteString "module" then some root else none

def insertCrateRoot (f : BindingForwards φ) (file : IndexedSourceFile × ℕ) :
    Option (BindingForwards φ) :=
  match manifests.rustLibraryImportRootForFile file.2 file.1.path with
  | none => some f
  | some importRoot =>
    if file.1.lang = .rs then
      (rustFileModule file.1).map fun found =>
        match found with
        | none => f
        | some root => { f with byCrateRoot := f.byCrateRoot.insert (byteString importRoot) root }
    else some f

def insertReference (file : IndexedSourceFile × ℕ) (f : BindingForwards φ) (r : RefRecord) :
    Option (BindingForwards φ) :=
  (file.1.graph.defAt r.source).map fun source =>
    { f with recorded := record file.1.lang ⟨file.2, source, r⟩ f.recorded }

def insertFile (f : BindingForwards φ) (file : IndexedSourceFile × ℕ) :
    Option (BindingForwards φ) := do
  file.1.graph.refs.foldlM (insertReference record file) (← insertCrateRoot manifests f file)

/-- The walk of `BindingForwards::build`, for any way of recording a reference at its source :
`record_forward` reads the site alone. -/
def build (m : CodeIndexMaterial) (start : φ) : Option (BindingForwards φ) :=
  m.files.zipIdx.foldlM (insertFile record manifests) ⟨∅, start⟩

theorem insertReferences_isSome {m : CodeIndexMaterial} (h : m.Indexed) (f : BindingForwards φ)
    {file : IndexedSourceFile × ℕ} (hfile : file ∈ m.files.zipIdx) :
    (file.1.graph.refs.foldlM (insertReference record file) f).isSome := by
  refine foldlM_isSome fun r hr f' => ?_
  obtain ⟨source, hsource⟩ := h.defAt_source (fst_mem_of_mem_zipIdx hfile) hr
  rw [insertReference, hsource, isSome_map]
  rfl

theorem insertCrateRoot_isSome_iff {f : BindingForwards φ} {file : IndexedSourceFile × ℕ} :
    (insertCrateRoot manifests f file).isSome ↔
      (manifests.isRustLibrary file.2 file.1 → file.1.graph.defs ≠ []) := by
  unfold insertCrateRoot ManifestPolicy.isRustLibrary
  cases manifests.rustLibraryImportRootForFile file.2 file.1.path with
  | none => simp
  | some importRoot =>
    by_cases hlang : file.1.lang = .rs
    · simp only [hlang, if_true, rustFileModule, isSome_map, decide_true, isSome_some,
        Bool.and_self, forall_const, isSome_iff_ne_none, ne_eq, CodeGraph.root_eq_none_iff]
    · simp [hlang]

/-- On an indexed material forwards are built exactly where every library has a root. -/
theorem build_isSome_iff {m : CodeIndexMaterial} (h : m.Indexed) (start : φ) :
    (build record manifests m start).isSome ↔
      ∀ file ∈ m.files.zipIdx, manifests.isRustLibrary file.2 file.1 → file.1.graph.defs ≠ [] := by
  have hwalk : ∀ (files : List (IndexedSourceFile × ℕ)) (f : BindingForwards φ),
      (∀ file ∈ files, file ∈ m.files.zipIdx) →
        ((files.foldlM (insertFile record manifests) f).isSome ↔
          ∀ file ∈ files, manifests.isRustLibrary file.2 file.1 → file.1.graph.defs ≠ []) := by
    intro files
    induction files with
    | nil => simp
    | cons file files ih =>
      intro f hmem
      have hroot := @insertCrateRoot_isSome_iff φ manifests f file
      rw [forall_mem_cons, ← hroot, foldlM_cons, insertFile]
      cases hf : insertCrateRoot manifests f file with
      | none => simp
      | some f' =>
        obtain ⟨f'', hf''⟩ := isSome_iff_exists.mp
          (insertReferences_isSome record h f' (hmem file mem_cons_self))
        simpa [hf''] using ih f'' fun x hx => hmem x (mem_cons_of_mem file hx)
  exact hwalk _ _ fun _ hfile => hfile

end Build

end BindingForwards

/-! ## Include visibility of C files -/

structure CTypeAlias where
  sourceFile : ℕ
  target : Bytes × Bytes

structure CIncludeVisibility where
  visibleByFile : List (OrdSet ℕ)
  typeAliases : AList fun _ : Bytes => List CTypeAlias
  unindexedExternalDependents : OrdSet ℕ

namespace CIncludeVisibility

/-- Vertices below the number of edge lists that are not reached yet. -/
def unreached (edges : List (OrdSet ℕ)) (reached : OrdSet ℕ) : Finset ℕ :=
  (Finset.range edges.length).filter (· ∉ reached)

theorem unreached_insert_subset (edges : List (OrdSet ℕ)) (reached : OrdSet ℕ) (v : ℕ) :
    unreached edges (reached.insert v) ⊆ unreached edges reached := by
  intro u hu
  simp only [unreached, Finset.mem_filter, OrdSet.mem_insert, not_or] at hu ⊢
  exact ⟨hu.1, hu.2.2⟩

theorem unreached_insert_lt {edges : List (OrdSet ℕ)} {reached : OrdSet ℕ} {v : ℕ}
    (hv : v < edges.length) (hnew : v ∉ reached) :
    (unreached edges (reached.insert v)).card < (unreached edges reached).card := by
  refine Finset.card_lt_card ((Finset.ssubset_iff_of_subset
    (unreached_insert_subset edges reached v)).mpr ⟨v, ?_, ?_⟩)
  · simp [unreached, hv, hnew]
  · simp [unreached]

/-- The loop of `reachable`, with the stack of pending vertices. -/
def reachFrom (edges : List (OrdSet ℕ)) (reached : OrdSet ℕ) : List ℕ → OrdSet ℕ
  | [] => reached
  | current :: pending =>
    if current ∈ reached then reachFrom edges reached pending
    else
      match _hnext : edges[current]? with
      | none => reachFrom edges (reached.insert current) pending
      | some next => reachFrom edges (reached.insert current) (next.elems.reverse ++ pending)
  termination_by pending => ((unreached edges reached).card, pending.length)
  decreasing_by
    · exact Prod.Lex.right _ (Nat.lt_succ_self _)
    · exact Prod.Lex.right' _ (Finset.card_le_card (unreached_insert_subset edges reached current))
        (Nat.lt_succ_self _)
    · exact Prod.Lex.left _ _ (unreached_insert_lt (List.getElem?_eq_some_iff.mp _hnext).1 ‹_›)

def reachable (start : ℕ) (edges : List (OrdSet ℕ)) : OrdSet ℕ := reachFrom edges ∅ [start]

/-- What the files that include a file, directly or not, reach through their includes. -/
def visibleFiles (sourceFile : ℕ) (direct reverse : List (OrdSet ℕ)) : OrdSet ℕ :=
  (reachable sourceFile reverse).elems.foldl
    (fun visible context => visible ∪ reachable context direct) ∅

/-- The C files by the moniker of their root. -/
def insertRoot (roots : AList fun _ : Moniker => ℕ) (file : IndexedSourceFile × ℕ) :
    Option (AList fun _ : Moniker => ℕ) :=
  if file.1.lang = .c then file.1.graph.root.map fun root => roots.insert root file.2
  else some roots

variable (m : CodeIndexMaterial)

def fileByRoot : Option (AList fun _ : Moniker => ℕ) :=
  m.files.zipIdx.foldlM insertRoot ∅

def cFiles : List (IndexedSourceFile × ℕ) :=
  m.files.zipIdx.filter (·.1.lang = .c)

/-- Pairs of an including and an included file. -/
def includeEdges (roots : AList fun _ : Moniker => ℕ) : List (ℕ × ℕ) :=
  (cFiles m).flatMap fun file =>
    (file.1.graph.refs.filter (·.kind = byteString "imports_module")).filterMap fun r =>
      (roots.lookup r.target).map (file.2, ·)

/-- The edges as one set of vertices for each of `n` vertices. -/
def edgeLists (n : ℕ) (edges : List (ℕ × ℕ)) : List (OrdSet ℕ) :=
  edges.foldl (fun lists e => lists.modify e.1 (·.insert e.2)) (List.replicate n ∅)

def declaredExternalDependencies : OrdSet ℕ :=
  OrdSet.ofList (((cFiles m).filter fun file => file.1.graph.refs.any fun r =>
    r.kind = byteString "imports_module" &&
      r.receiverHint = byteString "c_build_dependency").map (·.2))

/-- A type definition that stands for another type. -/
def typeAliasOf (sourceFile : ℕ) (source : DefRecord) (r : RefRecord) :
    Option (Bytes × CTypeAlias) := do
  let name ← source.moniker.segments.getLast?
  let target ← r.target.segments.getLast?
  if name.kind = byteString "type" ∧ target.kind ∈ ["type", "struct", "enum"].map byteString then
    some (name.name, ⟨sourceFile, (target.kind, target.name)⟩)
  else none

def insertTypeAlias (file : IndexedSourceFile × ℕ) (aliases : AList fun _ : Bytes => List CTypeAlias)
    (r : RefRecord) : Option (AList fun _ : Bytes => List CTypeAlias) :=
  if r.kind = byteString "uses_type" then
    (file.1.graph.defAt r.source).map fun source =>
      match typeAliasOf file.2 source r with
      | none => aliases
      | some (name, target) => aliases.insert name ((aliases.lookup name).getD [] ++ [target])
  else some aliases

def collectTypeAliases : Option (AList fun _ : Bytes => List CTypeAlias) :=
  (cFiles m).foldlM (fun aliases file => file.1.graph.refs.foldlM (insertTypeAlias file) aliases) ∅

def build : Option CIncludeVisibility := do
  let roots ← fileByRoot m
  let edges := includeEdges m roots
  let direct := edgeLists m.files.length edges
  let reverse := edgeLists m.files.length (edges.map Prod.swap)
  let visibleByFile := (List.range m.files.length).map fun file => visibleFiles file direct reverse
  let declared := declaredExternalDependencies m
  let dependents := visibleByFile.zipIdx.filter fun visible => visible.1.elems.any (· ∈ declared)
  let typeAliases ← collectTypeAliases m
  some ⟨visibleByFile, typeAliases, OrdSet.ofList (dependents.map (·.2))⟩

theorem fileByRoot_isSome_iff {m : CodeIndexMaterial} :
    (fileByRoot m).isSome ↔ ∀ file ∈ m.files, file.lang = .c → file.graph.defs ≠ [] := by
  have hwalk : ∀ (files : List (IndexedSourceFile × ℕ)) (roots : AList fun _ : Moniker => ℕ),
      (files.foldlM insertRoot roots).isSome ↔
        ∀ file ∈ files, file.1.lang = .c → file.1.graph.defs ≠ [] := by
    intro files
    induction files with
    | nil => simp
    | cons file files ih =>
      intro roots
      rw [forall_mem_cons, foldlM_cons, insertRoot]
      split_ifs with hlang
      · cases hroot : file.1.graph.root with
        | none => simp [CodeGraph.root_eq_none_iff.mp hroot, hlang]
        | some root =>
          have hdefs : file.1.graph.defs ≠ [] := fun hnil => by
            simp [CodeGraph.root_eq_none_iff.mpr hnil] at hroot
          simpa [hlang, hdefs] using ih (roots.insert root file.2)
      · simpa [hlang] using ih roots
  rw [fileByRoot, hwalk]
  refine ⟨fun h file hfile => ?_, fun h file hfile => h file.1 (fst_mem_of_mem_zipIdx hfile)⟩
  obtain ⟨i, hi⟩ := getElem?_of_mem hfile
  exact h (file, i) (mk_mem_zipIdx_iff_getElem?.mpr hi)

theorem collectTypeAliases_isSome {m : CodeIndexMaterial} (h : m.Indexed) :
    (collectTypeAliases m).isSome := by
  refine foldlM_isSome fun file hfile aliases => foldlM_isSome fun r hr aliases' => ?_
  have hmem := fst_mem_of_mem_zipIdx (mem_of_mem_filter hfile)
  unfold insertTypeAlias
  split_ifs
  · obtain ⟨source, hsource⟩ := h.defAt_source hmem hr
    rw [hsource, isSome_map]
    rfl
  · rfl

/-- On an indexed material include visibility is built exactly where every C file has a
root. -/
theorem build_isSome_iff {m : CodeIndexMaterial} (h : m.Indexed) :
    (build m).isSome ↔ ∀ file ∈ m.files, file.lang = .c → file.graph.defs ≠ [] := by
  obtain ⟨aliases, haliases⟩ := isSome_iff_exists.mp (collectTypeAliases_isSome h)
  rw [← fileByRoot_isSome_iff]
  cases hroots : fileByRoot m with
  | none => simp [build, hroots]
  | some roots => simp [build, hroots, haliases]

end CIncludeVisibility

end CodeMoniker
