import CodeMoniker.LinkageTables

/-!
# Linkage passes over runs with removed files

A workspace is its indexed material and the state that the linkage keeps between passes. A
run updates the index (files created, edited and removed, in any order) and links, in full
or as a refresh. A pass is `none` where it reads a definition that is not there.

The resolver, the refinements and the plan of a refresh read definitions through five
accessors (`Access`). Any such program is admitted, so what is proved holds whatever they
decide. The other reads are the walks of `LinkageTables`.

In every state of every run a full pass completes exactly when no removed file is asked for
its root, and a refresh completes when none is (`linkage_completes`) : no removed C file
while a C file has a reference, and no removed Rust file that its manifest names as the
library (`RootsPresent`). A run that removes a C file stops at the linkage
(`removed_c_file_stops`).
-/

namespace CodeMoniker

open List ByteCodec CodeGraph CandidateCatalog
open Option (bind_eq_bind bind_eq_some_iff bind_some isSome_iff_exists some.inj)

/-! ## Accessors -/

/-- A program that reads definitions through the accessors of the linkage. -/
inductive Access (α : Type) where
  | done (value : α)
  /-- `CandidateCatalog::candidate` -/
  | candidate (symbol : SymbolOrdinal) (next : Option LinkageCandidate → Access α)
  /-- `source_imports_candidate_file`, for a candidate of the catalog -/
  | importsCandidateFile (sourceFile : ℕ) (symbol : SymbolOrdinal) (next : Bool → Access α)
  /-- `file_srcset` -/
  | fileSrcset (file : ℕ) (next : Bytes → Access α)
  /-- `file_package_chain` -/
  | filePackageChain (file : ℕ) (next : List Bytes → Access α)
  /-- `CodeIndexMaterial::symbol_moniker` -/
  | symbolMoniker (symbol : SymbolId) (next : Option Moniker → Access α)

def monikerSrcset (m : Moniker) : Bytes :=
  ((m.segments.find? fun s => s.kind = byteString "srcset").map (·.name)).getD []

def monikerPackageChain (m : Moniker) : List Bytes :=
  (m.segments.filter fun s => s.kind = byteString "package").map (·.name)

namespace CodeIndexMaterial

variable (m : CodeIndexMaterial)

/-- The root definition of a file that has one, read behind a check of the count. -/
def firstDef (file : ℕ) : Option (Option DefRecord) :=
  match m.files[file]? with
  | none => some none
  | some f => if f.graph.defCount = 0 then some none else (f.graph.defAt 0).map some

def fileSrcset (file : ℕ) : Option Bytes :=
  (m.firstDef file).map fun d => (d.map fun x => monikerSrcset x.moniker).getD []

def filePackageChain (file : ℕ) : Option (List Bytes) :=
  (m.firstDef file).map fun d => (d.map fun x => monikerPackageChain x.moniker).getD []

def symbolMoniker (id : SymbolId) : Option (Option Moniker) :=
  match m.files[id.file]? with
  | none => some none
  | some f =>
    if id.defIdx < f.graph.defCount then (f.graph.defAt id.defIdx).map fun d => some d.moniker
    else some none

/-- The root of the candidate's file is read at the first include of the source file. -/
def sourceImportsCandidateFile (sourceFile : ℕ)
    (candidate : LinkageCandidate) : Option Bool :=
  match m.files[sourceFile]?, m.files[candidate.sourceFile]? with
  | some source, some candidateFile =>
    match source.graph.refs.filter (·.kind = byteString "imports_module") with
    | [] => some false
    | includes => candidateFile.graph.root.map fun root => includes.any (·.target = root)
  | _, _ => some false

end CodeIndexMaterial

def Access.run {α : Type} (m : CodeIndexMaterial) (c : CandidateCatalog) : Access α → Option α
  | .done value => some value
  | .candidate symbol next => do (next (← c.candidate symbol)).run m c
  | .importsCandidateFile sourceFile symbol next => do
    match ← c.candidate symbol with
    | none => (next false).run m c
    | some found => (next (← m.sourceImportsCandidateFile sourceFile found)).run m c
  | .fileSrcset file next => do (next (← m.fileSrcset file)).run m c
  | .filePackageChain file next => do (next (← m.filePackageChain file)).run m c
  | .symbolMoniker symbol next => do (next (← m.symbolMoniker symbol)).run m c

/-! ## Passes -/

/-- `ReferenceLocations` : the file and the position of each reference. -/
def referenceLocations (m : CodeIndexMaterial) : List (ℕ × ℕ) :=
  m.files.zipIdx.flatMap fun file => (List.range file.1.graph.refCount).map (file.2, ·)

structure ReferenceLinkageDecision (ρ : Type) where
  referenceIdx : ℕ
  resolution : ρ

/-- The decisions on references of C files. -/
def cDecisions {ρ : Type} (m : CodeIndexMaterial) (decisions : List (ReferenceLinkageDecision ρ)) :
    List (ReferenceLinkageDecision ρ) :=
  decisions.filter fun decision =>
    (referenceLocations m)[decision.referenceIdx]?.any fun location =>
      m.files[location.1]?.any (·.lang = .c)

/-- What the linkage keeps between passes. -/
structure LocalLinkage (ρ : Type) where
  store : Option (List (ReferenceLinkageDecision ρ))
  candidates : Option CandidateCatalog
  methods : Option MethodTable

/-- The parts of a pass that read definitions through accessors only, with what they read
from the disk. -/
structure LinkageCode (φ ρ : Type) where
  manifests : ManifestPolicy
  startForwards : φ
  recordForward : Lang → ForwardSite → φ → φ
  resolveReference : WorkspacePackageIndex → BindingForwards φ → ℕ → Access ρ
  refineImports : MethodTable → List (ReferenceLinkageDecision ρ) →
    Access (List (ReferenceLinkageDecision ρ))
  refineReceivers : MethodTable → Option CIncludeVisibility →
    List (ReferenceLinkageDecision ρ) → Access (List (ReferenceLinkageDecision ρ))
  restoreStore : Access (List (ReferenceLinkageDecision ρ))
  planStale : List (ReferenceLinkageDecision ρ) → Access (List ℕ)
  applyRefresh : List (ReferenceLinkageDecision ρ) → List (ReferenceLinkageDecision ρ) →
    List (ReferenceLinkageDecision ρ)

/-- The change of the references : the ids of those that changed, and whether an import or a
re-export was removed. -/
inductive ReferenceDelta where
  | unchanged
  | changed (ids : List ReferenceId) (removedBinding : Bool)

/-- What an update of the index hands to the refresh. -/
structure LinkageRefreshImpact where
  changedSources : List ℕ
  changedPaths : List String
  references : ReferenceDelta
  symbolsUnchanged : Bool

def LinkageRefreshImpact.isEmpty (impact : LinkageRefreshImpact) : Bool :=
  impact.changedSources.isEmpty && impact.changedPaths.isEmpty &&
    (match impact.references with
      | .unchanged => true
      | .changed _ _ => false) && impact.symbolsUnchanged

/-- What stands after the last dot of the file name, when something stands before it. -/
def pathExtension (path : String) : Option (List Char) :=
  let name := path.toList.reverse.takeWhile (· ≠ '/')
  let extension := name.takeWhile (· ≠ '.')
  if extension.length + 1 < name.length then some extension.reverse else none

def isCFamilyPath (path : String) : Bool :=
  (pathExtension path).any fun extension =>
    extension.map Char.toLower ∈ ["c", "h", "cc", "cpp", "cxx", "c++"].map String.toList

def changesCIncludeTopology (impact : LinkageRefreshImpact) (m : CodeIndexMaterial) : Bool :=
  match impact.references with
  | .unchanged => false
  | .changed ids removedBinding =>
    removedBinding && impact.changedPaths.any isCFamilyPath ||
      ids.any fun id =>
        m.files[id.file]?.any fun file =>
          file.lang = .c &&
            file.graph.refs[id.reference]?.any (·.kind = byteString "imports_module")

section Passes

variable {φ ρ : Type} (code : LinkageCode φ ρ)

/-- The references in `indexes`, each resolved against the tables. -/
def resolveReferences (m : CodeIndexMaterial) (c : CandidateCatalog) (indexes : List ℕ) :
    Option (List (ReferenceLinkageDecision ρ)) := do
  let packages ← WorkspacePackageIndex.build m
  let forwards ← BindingForwards.build code.recordForward code.manifests m code.startForwards
  indexes.mapM fun i => do
    return ⟨i, ← (code.resolveReference packages forwards i).run m c⟩

/-- Include visibility is built where a decision is on a reference of a C file. -/
def refineDecisions (m : CodeIndexMaterial) (c : CandidateCatalog) (methods : MethodTable)
    (decisions : List (ReferenceLinkageDecision ρ)) :
    Option (List (ReferenceLinkageDecision ρ)) := do
  let imported ← (code.refineImports methods decisions).run m c
  let includes ←
    if (cDecisions m decisions).isEmpty then some none else (CIncludeVisibility.build m).map some
  (code.refineReceivers methods includes imported).run m c

def fullLinkage (m : CodeIndexMaterial) (symbols : SymbolOrdinalCatalog) :
    Option (LocalLinkage ρ) := do
  let candidates := CandidateCatalog.build m symbols
  let methods ← MethodTable.build m candidates
  let decisions ←
    resolveReferences code m candidates (List.range (referenceLocations m).length)
  let refined ← refineDecisions code m candidates methods decisions
  some ⟨some refined, some candidates, some methods⟩

variable (linkage : LocalLinkage ρ)

/-- The catalog of a refresh : the one at hand brought up to date, else a new one. -/
def refreshCandidates (m : CodeIndexMaterial)
    (symbols : SymbolOrdinalCatalog) (same : ℕ → Bool) : Option CandidateCatalog :=
  match linkage.candidates with
  | some c => c.refreshFiles m symbols same
  | none => some (CandidateCatalog.build m symbols)

/-- The refresh of the decisions in `store` once the catalog is up to date. -/
def refreshIncremental (m : CodeIndexMaterial) (candidates : CandidateCatalog)
    (methods : MethodTable) (store : List (ReferenceLinkageDecision ρ)) :
    Option (LocalLinkage ρ) := do
  let stale ← (code.planStale store).run m candidates
  if stale.isEmpty then
    some ⟨some (code.applyRefresh store []), some candidates, some methods⟩
  else
    let changed ← resolveReferences code m candidates stale
    let reindexed ← MethodTable.build m candidates
    let refined ← refineDecisions code m candidates reindexed (code.applyRefresh store changed)
    some ⟨some refined, some candidates, some reindexed⟩

def storeAtHand (m : CodeIndexMaterial) (c : CandidateCatalog) :
    Option (List (ReferenceLinkageDecision ρ)) :=
  match linkage.store with
  | some store => some store
  | none => code.restoreStore.run m c

def methodsAtHand (m : CodeIndexMaterial) (c : CandidateCatalog) :
    Option MethodTable :=
  match linkage.methods with
  | some methods => some methods
  | none => MethodTable.build m c

def refreshLinkage (m : CodeIndexMaterial)
    (symbols : SymbolOrdinalCatalog) (impact : LinkageRefreshImpact) (same : ℕ → Bool) :
    Option (LocalLinkage ρ) :=
  if impact.isEmpty then some linkage
  else if changesCIncludeTopology impact m then fullLinkage code m symbols
  else do
    let candidates ← refreshCandidates linkage m symbols same
    let store ← storeAtHand code linkage m candidates
    let methods ← methodsAtHand linkage m candidates
    refreshIncremental code m candidates methods store

end Passes

/-! ## Accessors read definitions that are there -/

open CodeIndexMaterial

section Accessors

variable {m : CodeIndexMaterial} {c : CandidateCatalog}

theorem firstDef_isSome (file : ℕ) : (m.firstDef file).isSome := by
  unfold firstDef
  split
  · rfl
  · split_ifs with hzero
    · rfl
    · simp only [defCount] at hzero
      simp only [defAt, Option.isSome_map]
      simpa using Nat.pos_of_ne_zero hzero

theorem symbolMoniker_isSome (id : SymbolId) : (m.symbolMoniker id).isSome := by
  unfold symbolMoniker
  split
  · rfl
  · split_ifs with hlt
    · simp only [defCount] at hlt
      simp [defAt, hlt]
    · rfl

/-- A candidate of the catalog lies in a file with a root, the catalog being that of the
material. -/
theorem sourceImportsCandidateFile_isSome (hfits : c.Fits) (hsynced : c.Synced m)
    {symbol : SymbolOrdinal} {found : LinkageCandidate}
    (hfound : c.candidate symbol = some (some found)) (sourceFile : ℕ) :
    (m.sourceImportsCandidateFile sourceFile found).isSome := by
  obtain ⟨found', hfound', hshard⟩ := hfits.candidate symbol
  obtain rfl : found' = some found := some.inj (hfound'.symm.trans hfound)
  obtain ⟨shard, hshard, hdefs⟩ := hshard found rfl
  unfold sourceImportsCandidateFile
  split
  · next source file hsource hfile =>
    split
    · rfl
    · rw [hsynced _ shard file hshard hfile] at hdefs
      rw [Option.isSome_map, Option.isSome_iff_ne_none]
      exact fun hnone => hdefs (root_eq_none_iff.mp hnone)
  · rfl

/-- A program that reads definitions through the accessors completes. -/
theorem Access.run_isSome {α : Type} (hfits : c.Fits) (hsynced : c.Synced m) (program : Access α) :
    (program.run m c).isSome := by
  induction program with
  | done value => rfl
  | candidate symbol next ih =>
    obtain ⟨found, hfound, -⟩ := hfits.candidate symbol
    rw [Access.run, hfound]
    exact ih found
  | importsCandidateFile sourceFile symbol next ih =>
    obtain ⟨found, hfound, -⟩ := hfits.candidate symbol
    rw [Access.run, hfound]
    cases found with
    | none => exact ih false
    | some found =>
      obtain ⟨answer, hanswer⟩ := isSome_iff_exists.mp
        (sourceImportsCandidateFile_isSome hfits hsynced hfound sourceFile)
      simp only [bind_eq_bind, bind_some, hanswer]
      exact ih answer
  | fileSrcset file next ih =>
    obtain ⟨d, hd⟩ := isSome_iff_exists.mp (firstDef_isSome (m := m) file)
    rw [Access.run, CodeIndexMaterial.fileSrcset, hd]
    exact ih _
  | filePackageChain file next ih =>
    obtain ⟨d, hd⟩ := isSome_iff_exists.mp (firstDef_isSome (m := m) file)
    rw [Access.run, CodeIndexMaterial.filePackageChain, hd]
    exact ih _
  | symbolMoniker symbol next ih =>
    obtain ⟨found, hfound⟩ := isSome_iff_exists.mp (symbolMoniker_isSome (m := m) symbol)
    rw [Access.run, hfound]
    exact ih found

end Accessors

/-! ## Where a pass completes -/

/-- No removed C file while a C file has a reference, and no removed Rust file that is the
library of its manifest. -/
structure RootsPresent (manifests : ManifestPolicy) (m : CodeIndexMaterial) : Prop where
  cFiles : (∃ file ∈ m.files, file.lang = .c ∧ file.graph.refs ≠ []) →
    ∀ file ∈ m.files, file.lang = .c → file.graph.defs ≠ []
  rustLibraries : ∀ file ∈ m.files.zipIdx, manifests.isRustLibrary file.2 file.1 →
    file.1.graph.defs ≠ []

theorem mem_referenceLocations {m : CodeIndexMaterial} {f j : ℕ} :
    (f, j) ∈ referenceLocations m ↔ ∃ file, m.files[f]? = some file ∧ j < file.graph.refs.length := by
  simp only [referenceLocations, mem_flatMap, mem_map, mem_range, Prod.mk.injEq,
    refCount, Prod.exists, mk_mem_zipIdx_iff_getElem?]
  refine ⟨?_, ?_⟩
  · rintro ⟨file, i, hi, j', hj, rfl, rfl⟩
    exact ⟨file, hi, hj⟩
  · rintro ⟨file, hf, hj⟩
    exact ⟨file, f, hf, j, hj, rfl, rfl⟩

section Completion

variable {φ ρ : Type} (code : LinkageCode φ ρ) {m : CodeIndexMaterial} {c : CandidateCatalog}

theorem isC_iff {m : CodeIndexMaterial} {decision : ReferenceLinkageDecision ρ} :
    ((referenceLocations m)[decision.referenceIdx]?.any fun location =>
        m.files[location.1]?.any (·.lang = .c)) = true ↔
      ∃ location file, (referenceLocations m)[decision.referenceIdx]? = some location ∧
        m.files[location.1]? = some file ∧ file.lang = .c := by
  simp [Option.any_eq_true]

/-- A decision on a reference of a C file comes from a C file with a reference. -/
theorem exists_reference_of_cDecisions {decisions : List (ReferenceLinkageDecision ρ)}
    (h : cDecisions m decisions ≠ []) : ∃ file ∈ m.files, file.lang = .c ∧ file.graph.refs ≠ [] := by
  obtain ⟨decision, hdecision⟩ := exists_mem_of_ne_nil _ h
  obtain ⟨⟨f, j⟩, file, hloc, hfile, hlang⟩ := isC_iff.mp (mem_filter.mp hdecision).2
  obtain ⟨file', hfile', hj⟩ := mem_referenceLocations.mp (mem_of_getElem? hloc)
  obtain rfl := some.inj (hfile.symm.trans hfile')
  exact ⟨file, mem_of_getElem? hfile, hlang, ne_nil_of_length_pos (by omega)⟩

/-- Among decisions on all references there is one on each reference of a C file. -/
theorem cDecisions_ne_nil {decisions : List (ReferenceLinkageDecision ρ)}
    (hall : decisions.map (·.referenceIdx) = range (referenceLocations m).length)
    (h : ∃ file ∈ m.files, file.lang = .c ∧ file.graph.refs ≠ []) : cDecisions m decisions ≠ [] := by
  obtain ⟨file, hfile, hlang, hrefs⟩ := h
  obtain ⟨f, hf⟩ := getElem?_of_mem hfile
  have hloc : (f, 0) ∈ referenceLocations m :=
    mem_referenceLocations.mpr ⟨file, hf, length_pos_iff.mpr hrefs⟩
  obtain ⟨i, hi⟩ := getElem?_of_mem hloc
  have hlt : i < (referenceLocations m).length := (List.getElem?_eq_some_iff.mp hi).1
  have hmem : i ∈ decisions.map (·.referenceIdx) := by rwa [hall, mem_range]
  obtain ⟨decision, hdecision, rfl⟩ := mem_map.mp hmem
  refine ne_nil_of_mem (mem_filter.mpr ⟨hdecision, isC_iff.mpr ?_⟩)
  exact ⟨_, file, hi, hf, hlang⟩

theorem resolveAll_spec (hfits : c.Fits) (hsynced : c.Synced m)
    (resolve : ℕ → Access ρ) : ∀ indexes : List ℕ, ∃ decisions, (indexes.mapM fun i => do
        return (⟨i, ← (resolve i).run m c⟩ : ReferenceLinkageDecision ρ)) = some decisions ∧
        decisions.map (·.referenceIdx) = indexes
  | [] => ⟨[], rfl, rfl⟩
  | i :: indexes => by
    obtain ⟨resolution, hresolution⟩ := isSome_iff_exists.mp
      (Access.run_isSome hfits hsynced (resolve i))
    obtain ⟨decisions, hdecisions, hidx⟩ := resolveAll_spec hfits hsynced resolve indexes
    refine ⟨⟨i, resolution⟩ :: decisions, ?_, by simp [hidx]⟩
    rw [mapM_cons, hresolution, hdecisions]
    rfl

/-- References are resolved exactly where every library has a root. -/
theorem resolveReferences_spec (hm : m.Indexed) (hfits : c.Fits) (hsynced : c.Synced m)
    (indexes : List ℕ) : ((resolveReferences code m c indexes).isSome ↔
      ∀ file ∈ m.files.zipIdx, code.manifests.isRustLibrary file.2 file.1 →
        file.1.graph.defs ≠ []) ∧ ∀ decisions, resolveReferences code m c indexes = some decisions →
        decisions.map (·.referenceIdx) = indexes := by
  have hforwards := BindingForwards.build_isSome_iff code.recordForward code.manifests hm
    code.startForwards
  obtain ⟨packages, hpackages⟩ := isSome_iff_exists.mp (WorkspacePackageIndex.build_isSome m)
  rw [← hforwards]
  simp only [resolveReferences, hpackages, bind_eq_bind, bind_some]
  cases BindingForwards.build code.recordForward code.manifests m code.startForwards with
  | none => simp
  | some forwards =>
    obtain ⟨decisions, hdecisions, hidx⟩ :=
      resolveAll_spec hfits hsynced (code.resolveReference packages forwards) indexes
    simp only [bind_some]
    refine ⟨?_, fun decisions' h => ?_⟩
    · exact iff_of_true (isSome_iff_exists.mpr ⟨decisions, hdecisions⟩) rfl
    · obtain rfl := some.inj (hdecisions.symm.trans h)
      exact hidx

/-- Decisions are refined exactly where include visibility is not needed or can be built. -/
theorem refineDecisions_isSome_iff (hm : m.Indexed) (hfits : c.Fits) (hsynced : c.Synced m)
    (methods : MethodTable) (decisions : List (ReferenceLinkageDecision ρ)) :
    (refineDecisions code m c methods decisions).isSome ↔
      (cDecisions m decisions ≠ [] → ∀ file ∈ m.files, file.lang = .c → file.graph.defs ≠ []) := by
  obtain ⟨imported, himported⟩ := isSome_iff_exists.mp
    (Access.run_isSome hfits hsynced (code.refineImports methods decisions))
  have hreceivers := fun includes =>
    Access.run_isSome hfits hsynced (code.refineReceivers methods includes imported)
  rw [← CIncludeVisibility.build_isSome_iff hm]
  simp only [refineDecisions, himported, bind_eq_bind, bind_some]
  by_cases hnil : cDecisions m decisions = []
  · simpa [hnil] using hreceivers none
  · cases hbuild : CIncludeVisibility.build m with
    | none => simp [hnil]
    | some includes => simpa [hnil] using hreceivers (some includes)

theorem fullLinkage_isSome_iff (hm : m.Indexed) (symbols : SymbolOrdinalCatalog) :
    (fullLinkage code m symbols).isSome ↔ RootsPresent code.manifests m := by
  obtain ⟨hfits, hsynced⟩ := build_spec m symbols
  obtain ⟨methods, hmethods⟩ := isSome_iff_exists.mp
    (MethodTable.build_isSome hm (build m symbols))
  obtain ⟨hresolve, hidx⟩ := resolveReferences_spec code hm hfits hsynced
    (range (referenceLocations m).length)
  simp only [fullLinkage, hmethods, bind_eq_bind, bind_some]
  cases hd : resolveReferences code m (build m symbols)
      (range (referenceLocations m).length) with
  | none =>
    rw [hd] at hresolve
    refine iff_of_false (by simp) fun hroots => ?_
    simpa using hresolve.mpr hroots.rustLibraries
  | some decisions =>
    have hrefine := refineDecisions_isSome_iff code hm hfits hsynced methods decisions
    have hlibraries := hresolve.mp (by rw [hd]; rfl)
    have hfull : ((refineDecisions code m (build m symbols) methods
        decisions).bind fun refined => some (⟨some refined, some (build m symbols),
          some methods⟩ : LocalLinkage ρ)).isSome =
        (refineDecisions code m (build m symbols) methods decisions).isSome := by
      cases refineDecisions code m (build m symbols) methods decisions <;> rfl
    rw [bind_some, hfull, hrefine]
    refine ⟨fun h => ⟨fun hrefs => h (cDecisions_ne_nil (hidx decisions hd) hrefs), hlibraries⟩, ?_⟩
    exact fun hroots hne => hroots.cFiles (exists_reference_of_cDecisions hne)

theorem refreshIncremental_isSome (hm : m.Indexed) (hfits : c.Fits) (hsynced : c.Synced m)
    (hroots : RootsPresent code.manifests m) (methods : MethodTable)
    (store : List (ReferenceLinkageDecision ρ)) :
    (refreshIncremental code m c methods store).isSome := by
  obtain ⟨stale, hstale⟩ := isSome_iff_exists.mp
    (Access.run_isSome hfits hsynced (code.planStale store))
  simp only [refreshIncremental, hstale, bind_eq_bind, bind_some]
  split_ifs
  · rfl
  · obtain ⟨changed, hchanged⟩ := isSome_iff_exists.mp
      ((resolveReferences_spec code hm hfits hsynced stale).1.mpr hroots.rustLibraries)
    obtain ⟨reindexed, hreindexed⟩ := isSome_iff_exists.mp (MethodTable.build_isSome hm c)
    obtain ⟨refined, hrefined⟩ := isSome_iff_exists.mp
      ((refineDecisions_isSome_iff code hm hfits hsynced reindexed
        (code.applyRefresh store changed)).mpr
        fun hne => hroots.cFiles (exists_reference_of_cDecisions hne))
    simp only [hchanged, hreindexed, hrefined, bind_some]
    rfl

theorem refreshCandidates_spec {linkage : LocalLinkage ρ} {same : ℕ → Bool}
    (hlinkage : ∀ c ∈ linkage.candidates, c.Fits ∧ c.Shares same m)
    (symbols : SymbolOrdinalCatalog) :
    ∃ c, refreshCandidates linkage m symbols same = some c ∧ c.Fits ∧ c.Synced m := by
  unfold refreshCandidates
  split
  · next c hc =>
    obtain ⟨hfits, hshares⟩ := hlinkage c hc
    exact refreshFiles_spec hfits hshares symbols
  · exact ⟨_, rfl, build_spec m symbols⟩

theorem refreshLinkage_isSome (hm : m.Indexed) (hroots : RootsPresent code.manifests m)
    {linkage : LocalLinkage ρ} {same : ℕ → Bool}
    (hlinkage : ∀ c ∈ linkage.candidates, c.Fits ∧ c.Shares same m)
    (symbols : SymbolOrdinalCatalog) (impact : LinkageRefreshImpact) :
    (refreshLinkage code linkage m symbols impact same).isSome := by
  unfold refreshLinkage
  split_ifs
  · rfl
  · exact (fullLinkage_isSome_iff code hm symbols).mpr hroots
  · obtain ⟨c, hc, hfits, hsynced⟩ := refreshCandidates_spec hlinkage symbols
    obtain ⟨store, hstore⟩ : ∃ store, storeAtHand code linkage m c = some store := by
      unfold storeAtHand
      split
      · exact ⟨_, rfl⟩
      · exact isSome_iff_exists.mp (Access.run_isSome hfits hsynced code.restoreStore)
    obtain ⟨methods, hmethods⟩ : ∃ methods, methodsAtHand linkage m c = some methods := by
      unfold methodsAtHand
      split
      · exact ⟨_, rfl⟩
      · exact isSome_iff_exists.mp (MethodTable.build_isSome hm c)
    simp only [hc, bind_eq_bind, bind_some, hstore, hmethods]
    exact refreshIncremental_isSome code hm hfits hsynced hroots methods store

end Completion

/-! ## Runs -/

structure Workspace (ρ : Type) where
  material : CodeIndexMaterial
  linkage : LocalLinkage ρ

/-- Pointer comparison of the files that the linkage holds with those of the material. -/
def Workspace.SharesWith {ρ : Type} (w : Workspace ρ) (same : ℕ → Bool) : Prop :=
  ∀ c ∈ w.linkage.candidates, c.Shares same w.material

/-- The states of the runs whose passes so far have completed. -/
inductive Reachable {ρ : Type} (φ : Type) : Workspace ρ → Prop
  | load (extracted : List ExtractedFile) : Reachable φ ⟨.load extracted, ⟨none, none, none⟩⟩
  | index {w : Workspace ρ} (change : IndexChange) (hw : Reachable φ w) :
      Reachable φ ⟨w.material.refresh change, w.linkage⟩
  | full {w : Workspace ρ} {linkage : LocalLinkage ρ} (code : LinkageCode φ ρ)
      (symbols : SymbolOrdinalCatalog) (hw : Reachable φ w)
      (h : fullLinkage code w.material symbols = some linkage) : Reachable φ ⟨w.material, linkage⟩
  | refresh {w : Workspace ρ} {linkage : LocalLinkage ρ} {same : ℕ → Bool}
      (code : LinkageCode φ ρ) (symbols : SymbolOrdinalCatalog) (impact : LinkageRefreshImpact)
      (hw : Reachable φ w) (hsame : w.SharesWith same)
      (h : refreshLinkage code w.linkage w.material symbols impact same = some linkage) :
      Reachable φ ⟨w.material, linkage⟩

section Runs

variable {φ ρ : Type} {code : LinkageCode φ ρ} {m : CodeIndexMaterial}

theorem candidates_fullLinkage {symbols : SymbolOrdinalCatalog} {linkage : LocalLinkage ρ}
    (h : fullLinkage code m symbols = some linkage) : ∀ c ∈ linkage.candidates, c.Fits := by
  simp only [fullLinkage, bind_eq_bind, bind_eq_some_iff, Option.some.injEq] at h
  obtain ⟨methods, -, decisions, -, refined, -, rfl⟩ := h
  intro c hc
  obtain rfl := some.inj hc
  exact (build_spec m symbols).1

theorem candidates_refreshIncremental {c : CandidateCatalog} {methods : MethodTable}
    {store : List (ReferenceLinkageDecision ρ)} {linkage : LocalLinkage ρ}
    (h : refreshIncremental code m c methods store = some linkage) :
    linkage.candidates = some c := by
  simp only [refreshIncremental, bind_eq_bind, bind_eq_some_iff] at h
  obtain ⟨stale, -, h⟩ := h
  split_ifs at h
  · obtain rfl := some.inj h
    rfl
  · simp only [bind_eq_some_iff, Option.some.injEq] at h
    obtain ⟨changed, -, reindexed, -, refined, -, rfl⟩ := h
    rfl

theorem candidates_refreshLinkage {linkage linkage' : LocalLinkage ρ}
    {symbols : SymbolOrdinalCatalog} {impact : LinkageRefreshImpact} {same : ℕ → Bool}
    (hlinkage : ∀ c ∈ linkage.candidates, c.Fits ∧ c.Shares same m)
    (h : refreshLinkage code linkage m symbols impact same = some linkage') :
    ∀ c ∈ linkage'.candidates, c.Fits := by
  unfold refreshLinkage at h
  split_ifs at h
  · obtain rfl := some.inj h
    exact fun c hc => (hlinkage c hc).1
  · exact candidates_fullLinkage h
  · obtain ⟨refreshed, hrefreshed, hfits, -⟩ := refreshCandidates_spec hlinkage symbols
    simp only [hrefreshed, bind_eq_bind, bind_some, bind_eq_some_iff] at h
    obtain ⟨store, -, methods, -, h⟩ := h
    intro c hc
    rw [candidates_refreshIncremental h] at hc
    obtain rfl := some.inj hc
    exact hfits

/-- What every state of a run has : files that are well formed or tombstones, and a catalog
whose places and shards agree. -/
theorem Reachable.invariant {w : Workspace ρ} (h : Reachable φ w) :
    w.material.Indexed ∧ ∀ c ∈ w.linkage.candidates, c.Fits := by
  induction h with
  | load extracted => exact ⟨indexed_load extracted, by simp⟩
  | index change _ ih => exact ⟨ih.1.refresh change, ih.2⟩
  | full code symbols _ h ih => exact ⟨ih.1, candidates_fullLinkage h⟩
  | refresh code symbols impact _ hsame h ih =>
    exact ⟨ih.1, candidates_refreshLinkage (fun c hc => ⟨ih.2 c hc, hsame c hc⟩) h⟩

/-- In every state of every run a full pass completes exactly when no removed file is asked
for its root, and then every refresh completes as well. -/
theorem linkage_completes {w : Workspace ρ} (h : Reachable φ w) (code : LinkageCode φ ρ)
    (symbols : SymbolOrdinalCatalog) :
    ((fullLinkage code w.material symbols).isSome ↔ RootsPresent code.manifests w.material) ∧
      (RootsPresent code.manifests w.material →
        ∀ (impact : LinkageRefreshImpact) (same : ℕ → Bool), w.SharesWith same →
          (refreshLinkage code w.linkage w.material symbols impact same).isSome) := by
  obtain ⟨hm, hlinkage⟩ := h.invariant
  refine ⟨fullLinkage_isSome_iff code hm symbols, fun hroots impact same hsame => ?_⟩
  exact refreshLinkage_isSome code hm hroots (fun c hc => ⟨hlinkage c hc, hsame c hc⟩) symbols impact

end Runs

/-! ## A removed C file -/

/-- `app` with one module segment. -/
def mainModule : Moniker :=
  Moniker.ofParts (byteString "app") [⟨byteString "module", byteString "main"⟩]
    admitted_app (by decide)

def sideModule : Moniker :=
  Moniker.ofParts (byteString "app") [⟨byteString "module", byteString "util"⟩]
    admitted_app (by decide)

variable (root target : Moniker)

/-- The root alone, with one include. -/
def includingGraph : CodeGraph :=
  { CodeGraph.withRoot root (byteString "module") with
    refs := [CodeGraph.addedRef 0 target (byteString "imports_module") none {}] }

theorem built_includingGraph : (includingGraph root target).Built := by
  have hindex : (CodeGraph.withRoot root (byteString "module")).withIndex =
      CodeGraph.withRoot root (byteString "module") := if_pos rfl
  have hfind : (CodeGraph.withRoot root (byteString "module")).findDef root = some 0 := by
    rw [findDef, hindex]
    exact AList.lookup_insert _
  have hadd : (CodeGraph.withRoot root (byteString "module")).addRefAttrs root target
      (byteString "imports_module") none {} = .ok (includingGraph root target) := by
    rw [addRefAttrs, hfind, hindex]
    rfl
  exact .addRef (.withRoot root (byteString "module")) hadd

variable (path : String)

def includingFile (lang : Lang) (root target : Moniker) : ExtractedFile :=
  ⟨⟨0, path, lang, includingGraph root target⟩, (built_includingGraph root target).wellFormed⟩

/-- Slot 1 is removed, and nothing else changes. -/
def removeSecond : IndexChange where
  retired i := i = 1
  edited := []
  extracted _ := includingFile "main.c" .c mainModule sideModule
  appended := []

/-- No manifest, and references that stay undecided. -/
def quietCode : LinkageCode Unit Unit where
  manifests := ⟨∅, ∅, id⟩
  startForwards := ()
  recordForward _ _ _ := ()
  resolveReference _ _ _ := .done ()
  refineImports _ decisions := .done decisions
  refineReceivers _ _ decisions := .done decisions
  restoreStore := .done []
  planStale _ := .done []
  applyRefresh store _ := store

def twoFiles (lang : Lang) : CodeIndexMaterial :=
  .load [includingFile "main.c" .c mainModule sideModule,
    includingFile path lang sideModule mainModule]

def afterRemoval (lang : Lang) : CodeIndexMaterial :=
  (twoFiles path lang).refresh removeSecond

theorem files_afterRemoval (lang : Lang) : (afterRemoval path lang).files =
    [⟨0, "main.c", .c, includingGraph mainModule sideModule⟩,
      ⟨0, path, lang, fromRecords [] []⟩] := rfl

theorem defs_includingGraph : (includingGraph root target).defs ≠ [] := by
  simp [includingGraph, withRoot]

theorem not_isRustLibrary_quietCode (fileIdx : ℕ) (file : IndexedSourceFile) :
    quietCode.manifests.isRustLibrary fileIdx file = false := by
  simp [ManifestPolicy.isRustLibrary, ManifestPolicy.rustLibraryImportRootForFile,
    ManifestPolicy.entryForFile, quietCode]

/-- Both files are linked, then the second is removed. -/
theorem reachable_afterRemoval (lang : Lang) : ∃ linkage : LocalLinkage Unit,
    Reachable Unit ⟨afterRemoval path lang, linkage⟩ := by
  have hroots : RootsPresent quietCode.manifests (twoFiles path lang) := by
    refine ⟨fun _ file hfile _ => ?_, fun file _ hlibrary => ?_⟩
    · simp only [twoFiles, CodeIndexMaterial.files, CodeIndexMaterial.load, map_cons,
        map_nil, mem_cons, not_mem_nil, or_false] at hfile
      rcases hfile with rfl | rfl <;> exact defs_includingGraph _ _
    · simp [not_isRustLibrary_quietCode] at hlibrary
  obtain ⟨linkage, hlinkage⟩ := isSome_iff_exists.mp
    ((fullLinkage_isSome_iff quietCode (indexed_load _) .empty).mpr hroots)
  exact ⟨linkage, .index removeSecond (.full quietCode .empty (.load _) hlinkage)⟩

theorem sharesWith_none {ρ : Type} (w : Workspace ρ) : w.SharesWith fun _ => false := by
  intro c _ i shard file _ _ hsame
  simp at hsame

/-- Beside a removed file of another language a C file with an include is linked. -/
theorem linkage_completes_removed_python : ∃ linkage : LocalLinkage Unit,
    (fullLinkage quietCode (afterRemoval "util.py" .python) .empty).isSome ∧
      ∀ impact, (refreshLinkage quietCode linkage (afterRemoval "util.py" .python) .empty impact
        fun _ => false).isSome := by
  have hroots : RootsPresent quietCode.manifests (afterRemoval "util.py" .python) := by
    refine ⟨fun _ file hfile hlang => ?_, fun file _ hlibrary => ?_⟩
    · rw [files_afterRemoval] at hfile
      simp only [mem_cons, not_mem_nil, or_false] at hfile
      rcases hfile with rfl | rfl
      · exact defs_includingGraph _ _
      · simp at hlang
    · simp [not_isRustLibrary_quietCode] at hlibrary
  obtain ⟨linkage, hreachable⟩ := reachable_afterRemoval "util.py" .python
  obtain ⟨hfull, hrefresh⟩ := linkage_completes hreachable quietCode .empty
  exact ⟨linkage, hfull.mpr hroots, fun impact => hrefresh hroots impact _ (sharesWith_none _)⟩

/-- The update that removes a C file with an include. -/
def removalImpact : LinkageRefreshImpact where
  changedSources := [1]
  changedPaths := ["util.c"]
  references := .changed [] true
  symbolsUnchanged := false

/-- Two C files with an include each : once the second is removed, the refresh reads the root
of the tombstone. -/
theorem removed_c_file_stops : ¬∀ w : Workspace Unit, Reachable Unit w →
      ∀ (code : LinkageCode Unit Unit) (symbols : SymbolOrdinalCatalog)
        (impact : LinkageRefreshImpact) (same : ℕ → Bool), w.SharesWith same →
          (refreshLinkage code w.linkage w.material symbols impact same).isSome := by
  intro h
  obtain ⟨linkage, hreachable⟩ := reachable_afterRemoval "util.c" .c
  have hsome := h _ hreachable quietCode .empty removalImpact _ (sharesWith_none _)
  have hempty : removalImpact.isEmpty = false := rfl
  have htopology : changesCIncludeTopology removalImpact (afterRemoval "util.c" .c) = true := by
    have hpath : isCFamilyPath "util.c" = true := by decide
    simp [changesCIncludeTopology, removalImpact, hpath]
  simp only [refreshLinkage, hempty, htopology, Bool.false_eq_true, if_false, if_true] at hsome
  have hroots := (fullLinkage_isSome_iff quietCode hreachable.invariant.1 .empty).mp hsome
  have hfiles : (afterRemoval "util.c" .c).files = _ := files_afterRemoval "util.c" .c
  refine hroots.cFiles ⟨⟨0, "main.c", .c, includingGraph mainModule sideModule⟩, ?_, rfl, ?_⟩
    ⟨0, "util.c", .c, CodeGraph.fromRecords [] []⟩ ?_ rfl rfl
  · exact hfiles ▸ mem_cons_self
  · simp [includingGraph]
  · exact hfiles ▸ mem_cons_of_mem _ mem_cons_self

end CodeMoniker
