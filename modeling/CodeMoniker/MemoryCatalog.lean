import CodeMoniker.ExtractionContext
import CodeMoniker.IndirectUsages
import CodeMoniker.MemorySources

/-!
# Memory files of the source catalog

The catalog has a file for every document in memory, in a slot that is kept for its path. A sync
brings the files in line with the store, either with all of its sets (`syncMemorySourceSets`) or
along some paths (`syncMemorySourcePaths`). A document that is gone leaves its slot retired, and one
that comes back takes it again.

`InSync` says what a material holds that is in line with some documents. The full sync leads to it
from any material in sync (`InSync.fullSync`, `FullSync.inSync`).
-/

namespace CodeMoniker

open List

/-! ## The material -/

/-- The fields of the context that the root moniker of a file is made from. -/
structure RootContext where
  project : Option String
  srcset : Option String
  deriving DecidableEq

structure SourceRoot where
  input : MemoryPath
  ctx : RootContext
  deriving DecidableEq

structure SourceFile where
  source : ℕ
  path : MemoryPath
  relPath : FsPath
  anchor : FsPath
  lang : Lang
  rootMoniker : Option Moniker
  sourceGroup : Option ℕ
  srcset : Option String
  retired : Bool

/-- Paths are compared by their components. -/
def sameSourceFile (current next : SourceFile) : Bool :=
  current.source = next.source && current.path = next.path &&
    current.relPath.components = next.relPath.components &&
    current.anchor.components = next.anchor.components && current.lang = next.lang &&
    current.rootMoniker = next.rootMoniker && current.sourceGroup = next.sourceGroup &&
    current.srcset = next.srcset && current.retired = next.retired

structure SourceCatalogMaterial where
  roots : List SourceRoot
  files : List SourceFile
  memorySources : OrdMap MemoryPath String
  memorySlots : OrdSet MemoryPath
  memoryRevisions : OrdMap String (Option String)

def isMemorySourcePath (path : MemoryPath) : Bool := path.head? = some memorySourcePathRoot

/-- The index of the root of memory files, and the roots with it. -/
def memorySourceRootIndex (roots : List SourceRoot) : ℕ × List SourceRoot :=
  match roots.findIdx? (·.input = [memorySourceRoot]) with
  | some index => (index, roots)
  | none =>
    (roots.length, roots ++ [⟨[memorySourceRoot], ⟨roots.findSome? (·.ctx.project), none⟩⟩])

def revisionsOf (sets : OrdMap String MemorySourceSet) : OrdMap String (Option String) :=
  .ofList (sets.entries.map fun e => (e.1, e.2.revision))

section Sync

variable (rootMoniker : Lang → FsPath → RootContext → Option Moniker)

/-- The root moniker is a function of the language, the path and the context. -/
def memorySourceFile (roots : List SourceRoot) (rootIdx : ℕ) (srcset : String)
    (document : MemorySourceDocument) : SourceFile where
  source := rootIdx
  path := memorySourcePath srcset document.uri
  relPath := ⟨byteString document.uri⟩
  anchor := ⟨byteString document.uri⟩
  lang := document.lang
  rootMoniker := rootMoniker document.lang ⟨byteString document.uri⟩
    ⟨roots[rootIdx]?.bind (·.ctx.project), some srcset⟩
  sourceGroup := none
  srcset := some srcset
  retired := false

def desiredMemorySources (roots : List SourceRoot) (sets : OrdMap String MemorySourceSet) :
    List SourceRoot × OrdMap MemoryPath (SourceFile × String) :=
  if sets.entries = [] then (roots, ∅)
  else
    let root := memorySourceRootIndex roots
    (root.2, sets.entries.foldl (fun desired set =>
      set.2.documents.foldl (fun desired document =>
        desired.insert (memorySourcePath set.1 document.uri)
          (memorySourceFile rootMoniker root.2 root.1 set.1 document, document.content))
        desired) ∅)

/-! ## All sets -/

structure SlotSync where
  desired : OrdMap MemoryPath (SourceFile × String)
  contents : OrdMap MemoryPath String := ∅
  changed : Bool := false

def syncSlot (slots : OrdSet MemoryPath) (st : SlotSync) (file : SourceFile) :
    SourceFile × SlotSync :=
  if file.path ∈ slots then
    match st.desired.get? file.path with
    | some (next, content) =>
      (next, {
          desired := st.desired.erase file.path
          contents := st.contents.insert next.path content
          changed := st.changed || !sameSourceFile file next })
    | none =>
      ({ file with retired := true }, { st with
          contents := st.contents.erase file.path
          changed := st.changed || !file.retired })
  else (file, st)

def syncSlots (slots : OrdSet MemoryPath) : List SourceFile → SlotSync → List SourceFile × SlotSync
  | [], st => ([], st)
  | file :: files, st =>
    let synced := syncSlot slots st file
    let rest := syncSlots slots files synced.2
    (synced.1 :: rest.1, rest.2)

def syncMemorySourceSets (m : SourceCatalogMaterial) (sets : OrdMap String MemorySourceSet) :
    Bool × SourceCatalogMaterial :=
  let desired := desiredMemorySources rootMoniker m.roots sets
  let synced := syncSlots m.memorySlots m.files { desired := desired.2 }
  let rest := synced.2.desired.entries
  let next : SourceCatalogMaterial :=
    { roots := desired.1
      files := synced.1 ++ rest.map (·.2.1)
      memorySources := rest.foldl (fun contents e => contents.insert e.1 e.2.2) synced.2.contents
      memorySlots := rest.foldl (fun slots e => slots.insert e.1) m.memorySlots
      memoryRevisions := revisionsOf sets }
  (synced.2.changed || rest ≠ [] || next.memorySources.entries ≠ m.memorySources.entries ||
    next.memoryRevisions.entries ≠ m.memoryRevisions.entries, next)

/-! ## Some paths -/

structure PathSync where
  files : List SourceFile
  slots : OrdMap MemoryPath ℕ
  memorySlots : OrdSet MemoryPath
  memorySources : OrdMap MemoryPath String
  changed : Bool

/-- The body of the loop. It panics on an entry without the root of memory files. -/
def syncPath (roots : List SourceRoot) (rootIdx : Option ℕ)
    (entries : OrdMap MemoryPath CachedMemorySource) (st : PathSync) (path : MemoryPath) :
    Option PathSync :=
  match entries.get? path with
  | some source => do
    let rootIdx ← rootIdx
    let next := memorySourceFile rootMoniker roots rootIdx source.srcset source.document
    let filed : PathSync :=
      match st.slots.get? path with
      | some fileIdx =>
        { st with
          files := st.files.set fileIdx next
          changed := st.changed || st.files[fileIdx]?.any (!sameSourceFile · next) }
      | none =>
        { st with
          files := st.files ++ [next]
          memorySlots := st.memorySlots.insert path
          slots := st.slots.insert path st.files.length
          changed := true }
    return { filed with
      memorySources := st.memorySources.insert path source.document.content
      changed := filed.changed || st.memorySources.get? path ≠ some source.document.content }
  | none =>
    match st.slots.get? path with
    | none => some st
    | some fileIdx =>
      some { st with
        files := st.files.modify fileIdx ({ · with retired := true })
        memorySources := st.memorySources.erase path
        changed := st.changed || st.files[fileIdx]?.any (!·.retired) ||
          (st.memorySources.get? path).isSome }

def slotIndexes (m : SourceCatalogMaterial) : OrdMap MemoryPath ℕ :=
  .ofList (m.files.zipIdx.filterMap fun e =>
    if e.1.path ∈ m.memorySlots then some (e.1.path, e.2) else none)

def PathSync.material (roots : List SourceRoot) (revisions : OrdMap String (Option String))
    (st : PathSync) : SourceCatalogMaterial where
  roots
  files := st.files
  memorySources := st.memorySources
  memorySlots := st.memorySlots
  memoryRevisions := revisions

def syncMemorySourcePaths (m : SourceCatalogMaterial)
    (entries : OrdMap MemoryPath CachedMemorySource) (revisions : OrdMap String (Option String))
    (paths : List MemoryPath) : Option (Bool × SourceCatalogMaterial) := do
  let needsRoot := paths.any fun path => (entries.get? path).isSome
  let rootIdx := if needsRoot then some (memorySourceRootIndex m.roots).1 else none
  let roots := if needsRoot then (memorySourceRootIndex m.roots).2 else m.roots
  let st ← (paths.filter isMemorySourcePath).foldlM (syncPath rootMoniker roots rootIdx entries)
    { files := m.files
      slots := slotIndexes m
      memorySlots := m.memorySlots
      memorySources := m.memorySources
      changed := m.memoryRevisions.entries ≠ revisions.entries }
  return (st.changed, st.material roots revisions)

end Sync

/-! ## In sync -/

/-- What is in memory, by path. -/
abbrev Documents := MemoryPath → Option CachedMemorySource

/-- Every document is under its own path. -/
def PlacedDocuments (docs : Documents) : Prop :=
  ∀ p c, docs p = some c → validSrcset c.srcset = true ∧
    p = memorySourcePath c.srcset c.document.uri

section InSync

variable (rootMoniker : Lang → FsPath → RootContext → Option Moniker)

/-- The file of a document. -/
def memoryFile (roots : List SourceRoot) (c : CachedMemorySource) : SourceFile :=
  memorySourceFile rootMoniker (memorySourceRootIndex roots).2 (memorySourceRootIndex roots).1
    c.srcset c.document

structure InSync (m : SourceCatalogMaterial) (docs : Documents) : Prop where
  /-- No two files are in one slot. -/
  once : ((m.files.map (·.path)).filter (· ∈ m.memorySlots)).Nodup
  filed : ∀ p ∈ m.memorySlots, p ∈ m.files.map (·.path)
  slots : ∀ p ∈ m.files.map (·.path), p ∈ m.memorySlots ↔ isMemorySourcePath p = true
  active : ∀ f ∈ m.files, isMemorySourcePath f.path = true → ∀ c, docs f.path = some c →
    f = memoryFile rootMoniker m.roots c
  retired : ∀ f ∈ m.files, isMemorySourcePath f.path = true → docs f.path = none →
    f.retired = true
  documents : ∀ p c, docs p = some c → p ∈ m.memorySlots
  contents : ∀ p, m.memorySources.get? p = (docs p).map (·.document.content)
  rooted : ∀ p c, docs p = some c → (memorySourceRootIndex m.roots).2 = m.roots

end InSync

/-- Files stay where they are. A slot is kept for its path, and files on disk are left alone. -/
def KeepsFiles (files files' : List SourceFile) : Prop :=
  ∀ (i : ℕ) (f : SourceFile), files[i]? = some f → ∃ f' : SourceFile, files'[i]? = some f' ∧
    f'.path = f.path ∧ (isMemorySourcePath f.path = false → f' = f)

theorem KeepsFiles.refl (files : List SourceFile) : KeepsFiles files files :=
  fun _ f hf => ⟨f, hf, rfl, fun _ => rfl⟩

theorem KeepsFiles.trans {files files' files'' : List SourceFile} (h : KeepsFiles files files')
    (h' : KeepsFiles files' files'') : KeepsFiles files files'' := by
  intro i f hf
  obtain ⟨f', hf', hpath, hsame⟩ := h i f hf
  obtain ⟨f'', hf'', hpath', hsame'⟩ := h' i f' hf'
  refine ⟨f'', hf'', hpath'.trans hpath, fun hdisk => ?_⟩
  rw [hsame' (by rwa [hpath]), hsame hdisk]

/-- The root of memory files is made once. -/
theorem memorySourceRootIndex_idem (roots : List SourceRoot) :
    memorySourceRootIndex (memorySourceRootIndex roots).2 = memorySourceRootIndex roots := by
  cases hfind : roots.findIdx? (·.input = [memorySourceRoot]) with
  | some index => simp [memorySourceRootIndex, hfind]
  | none =>
    have hnone : ∀ root ∈ roots, root.input ≠ [memorySourceRoot] := by
      simpa [findIdx?_eq_none_iff] using hfind
    simp [memorySourceRootIndex, hfind, findIdx?_append]

theorem memoryFile_roots (rootMoniker : Lang → FsPath → RootContext → Option Moniker)
    (roots : List SourceRoot) (c : CachedMemorySource) :
    memoryFile rootMoniker (memorySourceRootIndex roots).2 c = memoryFile rootMoniker roots c := by
  rw [memoryFile, memorySourceRootIndex_idem]
  rfl

theorem isMemorySourcePath_memorySourcePath {srcset : String} (h : validSrcset srcset = true)
    (uri : String) : isMemorySourcePath (memorySourcePath srcset uri) = true := by
  rw [memorySourcePath_eq h]
  rfl

theorem PlacedDocuments.isMemorySourcePath {docs : Documents} (h : PlacedDocuments docs) {p : MemoryPath}
    {c : CachedMemorySource} (hc : docs p = some c) : isMemorySourcePath p = true := by
  obtain ⟨hvalid, rfl⟩ := h p c hc
  exact isMemorySourcePath_memorySourcePath hvalid _

/-! ## The store -/

namespace LocalResourceMaterial

variable {S I D : Type} {s : LocalResourceMaterial S I D}

theorem Coherent.placed (h : s.Coherent) : PlacedDocuments s.memoryDocuments.get? := by
  intro p c hc
  obtain ⟨hmem, hp⟩ := (h.entries p c).mp hc
  exact ⟨h.valid_of_mem hmem, hp⟩

end LocalResourceMaterial

section Desired

variable {rootMoniker : Lang → FsPath → RootContext → Option Moniker} {roots : List SourceRoot}

/-- The entries of `desiredMemorySources`, set by set. -/
def desiredEntries (rootMoniker : Lang → FsPath → RootContext → Option Moniker)
    (roots : List SourceRoot) (sets : OrdMap String MemorySourceSet) :
    List (MemoryPath × SourceFile × String) :=
  sets.entries.flatMap fun set => set.2.documents.map fun document =>
    (memorySourcePath set.1 document.uri, memoryFile rootMoniker roots ⟨set.1, document⟩,
      document.content)

theorem desiredMemorySources_eq (sets : OrdMap String MemorySourceSet) :
    (desiredMemorySources rootMoniker roots sets).2 =
      .ofList (desiredEntries rootMoniker roots sets) := by
  unfold desiredMemorySources desiredEntries OrdMap.ofList
  split_ifs with hnil
  · rw [hnil]
    rfl
  · rw [foldl_flatMap]
    simp only [foldl_map]
    rfl

variable {S I D : Type} {s : LocalResourceMaterial S I D}

theorem mem_desiredEntries (h : s.Coherent) {p : MemoryPath} {v : SourceFile × String} :
    (p, v) ∈ desiredEntries rootMoniker roots s.memorySourceSets ↔
      (s.memoryDocuments.get? p).map (fun c =>
        (memoryFile rootMoniker roots c, c.document.content)) = some v := by
  simp only [desiredEntries, mem_flatMap, mem_map, Option.map_eq_some_iff]
  constructor
  · rintro ⟨⟨srcset, set⟩, hset, document, hdocument, heq⟩
    obtain ⟨rfl, rfl⟩ := Prod.mk.inj heq
    refine ⟨⟨srcset, document⟩, (h.entries _ _).mpr ⟨?_, rfl⟩, rfl⟩
    exact LocalResourceMaterial.mem_documentsOf.mpr ⟨set, OrdMap.mem_entries.mp hset, hdocument⟩
  · rintro ⟨c, hc, rfl⟩
    obtain ⟨hmem, rfl⟩ := (h.entries p c).mp hc
    obtain ⟨set, hset, hdocument⟩ := LocalResourceMaterial.mem_documentsOf.mp hmem
    exact ⟨(c.srcset, set), OrdMap.mem_entries.mpr hset, c.document, hdocument, rfl⟩

/-- The files that are desired are those of the documents of the store. -/
theorem get?_desiredMemorySources (h : s.Coherent) (p : MemoryPath) :
    (desiredMemorySources rootMoniker roots s.memorySourceSets).2.get? p =
      (s.memoryDocuments.get? p).map fun c =>
        (memoryFile rootMoniker roots c, c.document.content) := by
  refine Option.ext fun v => ?_
  rw [desiredMemorySources_eq, OrdMap.get?_ofList_of_unique, mem_desiredEntries h]
  intro k v v' hv hv'
  rw [mem_desiredEntries h] at hv hv'
  exact Option.some.inj (hv.symm.trans hv')

theorem roots_desiredMemorySources (h : s.Coherent) :
    (desiredMemorySources rootMoniker roots s.memorySourceSets).1 = (memorySourceRootIndex roots).2 ∨
      (desiredMemorySources rootMoniker roots s.memorySourceSets).1 = roots ∧
        ∀ p, s.memoryDocuments.get? p = none := by
  unfold desiredMemorySources
  split_ifs with hnil
  · refine Or.inr ⟨rfl, fun p => ?_⟩
    rw [Option.eq_none_iff_forall_ne_some]
    intro c hc
    obtain ⟨hmem, -⟩ := (h.entries p c).mp hc
    obtain ⟨set, hset, -⟩ := LocalResourceMaterial.mem_documentsOf.mp hmem
    have hentry := OrdMap.mem_entries.mpr hset
    rw [hnil] at hentry
    exact nomatch hentry
  · exact Or.inl rfl

end Desired

/-! ## The full sync -/

/-- What becomes of a file. -/
def syncFile (slots : OrdSet MemoryPath) (desired : OrdMap MemoryPath (SourceFile × String))
    (file : SourceFile) : SourceFile :=
  if file.path ∈ slots then
    ((desired.get? file.path).map (·.1)).getD { file with retired := true }
  else file

section Slots

variable {slots : OrdSet MemoryPath} {st : SlotSync} {file : SourceFile}

/-- A file in a slot takes what is desired for its path. -/
theorem syncSlot_spec (hslot : file.path ∈ slots)
    (hpaths : ∀ p v, st.desired.get? p = some v → v.1.path = p) :
    (syncSlot slots st file).1 = syncFile slots st.desired file ∧
      (∀ p, (syncSlot slots st file).2.desired.get? p =
        if p = file.path then none else st.desired.get? p) ∧
      ∀ p, (syncSlot slots st file).2.contents.get? p =
        if p = file.path then (st.desired.get? p).map (·.2) else st.contents.get? p := by
  rw [syncSlot, if_pos hslot, syncFile, if_pos hslot]
  cases hget : st.desired.get? file.path with
  | some next =>
    refine ⟨rfl, fun p => ?_, fun p => ?_⟩
    · dsimp only
      rw [OrdMap.get?_erase]
      split_ifs <;> rfl
    · dsimp only
      rw [OrdMap.get?_insert, hpaths _ _ hget]
      split_ifs with hp
      · rw [hp, hget]
        rfl
      · rfl
  | none =>
    refine ⟨rfl, fun p => ?_, fun p => ?_⟩
    · dsimp only
      split_ifs with hp
      · rw [hp, hget]
      · rfl
    · dsimp only
      rw [OrdMap.get?_erase]
      split_ifs with hp
      · rw [hp, hget]
        rfl
      · rfl

theorem syncSlots_spec : ∀ (files : List SourceFile) (st : SlotSync),
    ((files.map (·.path)).filter (· ∈ slots)).Nodup →
    (∀ p v, st.desired.get? p = some v → v.1.path = p) →
    (syncSlots slots files st).1 = files.map (syncFile slots st.desired) ∧
      (∀ p, (syncSlots slots files st).2.desired.get? p =
        if p ∈ slots ∧ p ∈ files.map (·.path) then none else st.desired.get? p) ∧
      ∀ p, (syncSlots slots files st).2.contents.get? p =
        if p ∈ slots ∧ p ∈ files.map (·.path) then (st.desired.get? p).map (·.2)
        else st.contents.get? p
  | [], st, _, _ => by simp [syncSlots]
  | file :: files, st, hnodup, hpaths => by
    by_cases hslot : file.path ∈ slots
    · rw [map_cons, filter_cons_of_pos (by simpa using hslot), nodup_cons] at hnodup
      obtain ⟨hfile, hdesired, hcontents⟩ := syncSlot_spec hslot hpaths
      obtain ⟨hfiles, hdesired', hcontents'⟩ := syncSlots_spec files (syncSlot slots st file).2
        hnodup.2 (by
          intro p v hv
          rw [hdesired] at hv
          split_ifs at hv
          exact hpaths p v hv)
      -- no later file is in the same slot
      have hlater : ∀ g ∈ files, g.path ∈ slots → g.path ≠ file.path := by
        intro g hg hgslot heq
        refine hnodup.1 (mem_filter.mpr ⟨?_, by simpa using hslot⟩)
        exact heq ▸ mem_map_of_mem hg
      rw [syncSlots]
      refine ⟨?_, fun p => ?_, fun p => ?_⟩
      · dsimp only
        rw [map_cons, hfile, hfiles]
        refine congrArg _ (map_congr_left fun g hg => ?_)
        unfold syncFile
        split_ifs with hgslot
        · rw [hdesired, if_neg (hlater g hg hgslot)]
        · rfl
      · dsimp only
        rw [hdesired', hdesired]
        simp only [map_cons, mem_cons]
        grind
      · dsimp only
        rw [hcontents', hcontents, hdesired]
        simp only [map_cons, mem_cons]
        have hnot : file.path ∉ files.map (·.path) := fun hmem => by
          obtain ⟨g, hg, heq⟩ := mem_map.mp hmem
          exact hlater g hg (heq ▸ hslot) heq
        grind
    · rw [map_cons, filter_cons_of_neg (by simpa using hslot)] at hnodup
      obtain ⟨hfiles, hdesired, hcontents⟩ := syncSlots_spec files st hnodup hpaths
      have hsame : syncSlot slots st file = (file, st) := if_neg hslot
      rw [syncSlots, hsame]
      refine ⟨?_, fun p => ?_, fun p => ?_⟩
      · dsimp only
        rw [hfiles, map_cons, syncFile, if_neg hslot]
      · dsimp only
        rw [hdesired]
        simp only [map_cons, mem_cons]
        grind
      · dsimp only
        rw [hcontents]
        simp only [map_cons, mem_cons]
        grind

end Slots

section Full

variable {rootMoniker : Lang → FsPath → RootContext → Option Moniker} {m : SourceCatalogMaterial}
  {docs : Documents} {S I D : Type} {s : LocalResourceMaterial S I D}

theorem InSync.mem_slots (h : InSync rootMoniker m docs) {p : MemoryPath} :
    p ∈ m.memorySlots ↔ p ∈ m.files.map (·.path) ∧ isMemorySourcePath p = true :=
  ⟨fun hp => ⟨h.filed p hp, (h.slots p (h.filed p hp)).mp hp⟩,
    fun ⟨hfile, hmemory⟩ => (h.slots p hfile).mpr hmemory⟩

theorem path_syncFile {slots : OrdSet MemoryPath} {desired : OrdMap MemoryPath (SourceFile × String)}
    (hpaths : ∀ p v, desired.get? p = some v → v.1.path = p) (f : SourceFile) :
    (syncFile slots desired f).path = f.path := by
  unfold syncFile
  split_ifs
  · cases hget : desired.get? f.path with
    | none => rfl
    | some v => exact hpaths _ _ hget
  · rfl

/-- What the full sync makes of a material in sync. -/
structure FullSync (rootMoniker : Lang → FsPath → RootContext → Option Moniker)
    (m m' : SourceCatalogMaterial) (s : LocalResourceMaterial S I D)
    (rest : List (MemoryPath × SourceFile × String)) : Prop where
  roots : m'.roots = (memorySourceRootIndex m.roots).2 ∨
    m'.roots = m.roots ∧ ∀ p, s.memoryDocuments.get? p = none
  files : ∃ sync : SourceFile → SourceFile, m'.files = m.files.map sync ++ rest.map (·.2.1) ∧
    ∀ f, (sync f).path = f.path ∧ (f.path ∉ m.memorySlots → sync f = f) ∧
      (f.path ∈ m.memorySlots → (∀ c, s.memoryDocuments.get? f.path = some c →
        sync f = memoryFile rootMoniker m.roots c) ∧
          (s.memoryDocuments.get? f.path = none → (sync f).retired = true))
  added : ∀ p v, (p, v) ∈ rest ↔ p ∉ m.memorySlots ∧ ∃ c, s.memoryDocuments.get? p = some c ∧
    v = (memoryFile rootMoniker m.roots c, c.document.content)
  keys : (rest.map (·.1)).Nodup
  slots : ∀ p, p ∈ m'.memorySlots ↔ p ∈ m.memorySlots ∨ p ∈ rest.map (·.1)
  contents : ∀ p, m'.memorySources.get? p =
    (s.memoryDocuments.get? p).map (·.document.content)
  revisions : m'.memoryRevisions = revisionsOf s.memorySourceSets

@[simp] theorem memoryFile_path (roots : List SourceRoot) (c : CachedMemorySource) :
    (memoryFile rootMoniker roots c).path = memorySourcePath c.srcset c.document.uri := by
  simp only [memoryFile, memorySourceFile]

theorem path_memoryFile (hs : s.Coherent) (roots : List SourceRoot) {p : MemoryPath}
    {c : CachedMemorySource} (hc : s.memoryDocuments.get? p = some c) :
    (memoryFile rootMoniker roots c).path = p :=
  (memoryFile_path roots c).trans (hs.placed p c hc).2.symm

theorem mem_foldl_insert_keys {α : Type} {slots : OrdSet MemoryPath}
    {rest : List (MemoryPath × α)} {p : MemoryPath} :
    p ∈ rest.foldl (fun slots e => slots.insert e.1) slots ↔ p ∈ slots ∨ p ∈ rest.map (·.1) := by
  induction rest generalizing slots with
  | nil => simp
  | cons e rest ih =>
    rw [foldl_cons, ih, OrdSet.mem_insert, map_cons, mem_cons]
    tauto

theorem InSync.fullSync (h : InSync rootMoniker m docs) (hs : s.Coherent) :
    ∃ rest, FullSync rootMoniker m
      (syncMemorySourceSets rootMoniker m s.memorySourceSets).2 s rest := by
  have hdesired := @get?_desiredMemorySources rootMoniker m.roots _ _ _ s hs
  have hpaths : ∀ p v, (desiredMemorySources rootMoniker m.roots s.memorySourceSets).2.get? p =
      some v → v.1.path = p := by
    intro p v hv
    rw [hdesired] at hv
    obtain ⟨c, hc, rfl⟩ := Option.map_eq_some_iff.mp hv
    exact path_memoryFile hs _ hc
  obtain ⟨hfiles, hleft, hcontents⟩ := syncSlots_spec m.files
    { desired := (desiredMemorySources rootMoniker m.roots s.memorySourceSets).2 } h.once hpaths
  have hslots : ∀ p, p ∈ m.memorySlots ∧ p ∈ m.files.map (·.path) ↔ p ∈ m.memorySlots := fun p =>
    ⟨And.left, fun hp => ⟨hp, h.filed p hp⟩⟩
  simp only [hslots] at hleft hcontents
  refine ⟨_, roots_desiredMemorySources hs, ⟨_, congrArg (· ++ _) hfiles, fun f => ?_⟩, fun p v => ?_,
    OrdMap.nodup_keys _, fun p => mem_foldl_insert_keys, fun p => ?_, rfl⟩
  · refine ⟨path_syncFile hpaths f, fun hslot => if_neg hslot, fun hslot => ?_⟩
    rw [syncFile, if_pos hslot, hdesired]
    refine ⟨fun c hc => by rw [hc]; rfl, fun hnone => by rw [hnone]; rfl⟩
  · rw [OrdMap.mem_entries, hleft, hdesired]
    split_ifs with hp
    · simp [hp]
    · simp only [hp, not_false_eq_true, true_and, Option.map_eq_some_iff]
      exact exists_congr fun c => and_congr_right fun _ => eq_comm
  · unfold syncMemorySourceSets
    dsimp only
    rw [OrdMap.get?_foldl_insert_entries (fun v : SourceFile × String => v.2), hleft, hcontents,
      hdesired]
    split_ifs with hp
    · simp [Function.comp_def]
    · simp [Function.comp_def]

variable {m' : SourceCatalogMaterial} {rest : List (MemoryPath × SourceFile × String)}

section

variable (hf : FullSync rootMoniker m m' s rest)

include hf

theorem FullSync.mem_rest {p : MemoryPath} :
    p ∈ rest.map (·.1) ↔ p ∉ m.memorySlots ∧ ∃ c, s.memoryDocuments.get? p = some c := by
  rw [mem_map]
  constructor
  · rintro ⟨⟨p', v⟩, hmem, rfl⟩
    obtain ⟨hnew, c, hc, -⟩ := (hf.added p' v).mp hmem
    exact ⟨hnew, c, hc⟩
  · rintro ⟨hnew, c, hc⟩
    exact ⟨(p, _), (hf.added p _).mpr ⟨hnew, c, hc, rfl⟩, rfl⟩

theorem FullSync.exists_of_mem_rest {f : SourceFile}
    (h : f ∈ rest.map (·.2.1)) : ∃ p c, s.memoryDocuments.get? p = some c ∧
      f = memoryFile rootMoniker m.roots c := by
  obtain ⟨⟨p, v⟩, hmem, rfl⟩ := mem_map.mp h
  obtain ⟨-, c, hc, rfl⟩ := (hf.added p v).mp hmem
  exact ⟨p, c, hc, rfl⟩

/-- The paths of the files are those before and those of the new documents. -/
theorem FullSync.paths (hs : s.Coherent) :
    m'.files.map (·.path) = m.files.map (·.path) ++ rest.map (·.1) := by
  obtain ⟨sync, hfiles, hsync⟩ := hf.files
  rw [hfiles, map_append, map_map, map_map]
  refine congrArg₂ _ (map_congr_left fun f _ => (hsync f).1) ?_
  refine map_congr_left fun e he => ?_
  obtain ⟨-, c, hc, hv⟩ := (hf.added e.1 e.2).mp he
  change e.2.1.path = e.1
  rw [hv]
  exact path_memoryFile hs _ hc

/-- A new document has no file yet. -/
theorem FullSync.notMem_paths
    (h : InSync rootMoniker m docs) (hs : s.Coherent) {p : MemoryPath} (hp : p ∈ rest.map (·.1)) :
    p ∉ m.files.map (·.path) := by
  obtain ⟨hnew, c, hc⟩ := hf.mem_rest.mp hp
  exact fun hmem => hnew ((h.slots p hmem).mpr (hs.placed.isMemorySourcePath hc))

/-- The file of a document under the roots before and after the sync. -/
theorem FullSync.memoryFile_eq {p : MemoryPath}
    {c : CachedMemorySource} (hc : s.memoryDocuments.get? p = some c) (c' : CachedMemorySource) :
    memoryFile rootMoniker m'.roots c' = memoryFile rootMoniker m.roots c' := by
  rcases hf.roots with hroots | ⟨-, hnone⟩
  · rw [hroots, memoryFile_roots]
  · rw [hnone] at hc
    exact nomatch hc

/-- The full sync brings a material in line with the store. -/
theorem FullSync.inSync (h : InSync rootMoniker m docs)
    (hs : s.Coherent) : InSync rootMoniker m' s.memoryDocuments.get? := by
  have hnotMem := fun p (hp : p ∈ rest.map (·.1)) => hf.notMem_paths h hs hp
  have hplaced := hs.placed
  refine ⟨?_, fun p hp => ?_, fun p hp => ?_, fun f hmem hmemory c hc => ?_,
    fun f hmem hmemory hnone => ?_, fun p c hc => ?_, hf.contents, fun p c hc => ?_⟩
  · have hold : (m.files.map (·.path)).filter (· ∈ m'.memorySlots) =
        (m.files.map (·.path)).filter (· ∈ m.memorySlots) := by
      refine filter_congr fun p hp => decide_eq_decide.mpr ?_
      rw [hf.slots]
      exact ⟨fun hor => hor.resolve_right fun hrest => hnotMem p hrest hp, Or.inl⟩
    rw [hf.paths hs, filter_append, hold]
    refine nodup_append.mpr ⟨h.once, hf.keys.filter _, ?_⟩
    rintro p hp q hq rfl
    exact hnotMem p (mem_filter.mp hq).1 (mem_filter.mp hp).1
  · rw [hf.paths hs, mem_append]
    exact ((hf.slots p).mp hp).imp_left (h.filed p)
  · rw [hf.paths hs, mem_append] at hp
    rw [hf.slots]
    rcases hp with hold | hnew
    · rw [h.slots p hold]
      refine ⟨fun hor => hor.elim id fun hrest => absurd hold (hnotMem p hrest), Or.inl⟩
    · obtain ⟨-, c, hc⟩ := hf.mem_rest.mp hnew
      exact iff_of_true (Or.inr hnew) (hplaced.isMemorySourcePath hc)
  · obtain ⟨sync, hfiles, hsync⟩ := hf.files
    rw [hf.memoryFile_eq hc]
    rw [hfiles, mem_append] at hmem
    rcases hmem with hold | hnew
    · obtain ⟨g, hg, rfl⟩ := mem_map.mp hold
      obtain ⟨hpath, -, hslot⟩ := hsync g
      rw [hpath] at hmemory hc
      exact (hslot ((h.slots _ (mem_map_of_mem hg)).mpr hmemory)).1 c hc
    · obtain ⟨p, c', hc', rfl⟩ := hf.exists_of_mem_rest hnew
      rw [path_memoryFile hs _ hc', hc'] at hc
      rw [Option.some.inj hc]
  · obtain ⟨sync, hfiles, hsync⟩ := hf.files
    rw [hfiles, mem_append] at hmem
    rcases hmem with hold | hnew
    · obtain ⟨g, hg, rfl⟩ := mem_map.mp hold
      obtain ⟨hpath, -, hslot⟩ := hsync g
      rw [hpath] at hmemory hnone
      exact (hslot ((h.slots _ (mem_map_of_mem hg)).mpr hmemory)).2 hnone
    · obtain ⟨p, c', hc', rfl⟩ := hf.exists_of_mem_rest hnew
      rw [path_memoryFile hs _ hc', hc'] at hnone
      exact nomatch hnone
  · rw [hf.slots, hf.mem_rest]
    by_cases hp : p ∈ m.memorySlots
    · exact Or.inl hp
    · exact Or.inr ⟨hp, c, hc⟩
  · rcases hf.roots with hroots | ⟨-, hnone⟩
    · rw [hroots, memorySourceRootIndex_idem]
    · rw [hnone] at hc
      exact nomatch hc

theorem FullSync.keepsFiles (h : InSync rootMoniker m docs) : KeepsFiles m.files m'.files := by
  obtain ⟨sync, hfiles, hsync⟩ := hf.files
  intro i f hget
  obtain ⟨hpath, hother, -⟩ := hsync f
  refine ⟨sync f, ?_, hpath, fun hdisk => hother fun hslot => ?_⟩
  · rw [hfiles, getElem?_append_left, getElem?_map, hget]
    · rfl
    · rw [length_map]
      exact (List.getElem?_eq_some_iff.mp hget).1
  · have hmemory := (h.mem_slots.mp hslot).2
    rw [hdisk] at hmemory
    exact nomatch hmemory

end

end Full

end CodeMoniker
