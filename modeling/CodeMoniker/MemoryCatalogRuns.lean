import CodeMoniker.MemoryCatalogSync

/-!
# Syncs of the memory files in a row

`Synced` holds of a material that some syncs have led to, together with the store of the last one.
Whichever they were, the material is in line with that store (`Synced.inSync`). So the sync along the
paths of what has changed leads to the same memory files as the full one
(`syncMemorySourcePaths_eq`).
-/

namespace CodeMoniker

open List

variable {S I D : Type}

/-- `memory_source_entries`. -/
def memorySourceEntries (s : LocalResourceMaterial S I D) (paths : List MemoryPath) :
    OrdMap MemoryPath CachedMemorySource :=
  .ofList (paths.filterMap fun path => (s.memoryDocuments.get? path).map fun source => (path, source))

/-- `memory_source_revisions`. -/
def memorySourceRevisions (s : LocalResourceMaterial S I D) : OrdMap String (Option String) :=
  revisionsOf s.memorySourceSets

/-- The paths name every document that is not the same in the two stores. -/
def CoversChanges (s s' : LocalResourceMaterial S I D) (paths : List MemoryPath) : Prop :=
  ∀ p, s.memoryDocuments.get? p ≠ s'.memoryDocuments.get? p → p ∈ paths

theorem get?_memorySourceEntries {s : LocalResourceMaterial S I D} {paths : List MemoryPath}
    {p : MemoryPath} (hp : p ∈ paths) :
    (memorySourceEntries s paths).get? p = s.memoryDocuments.get? p := by
  have hmem : ∀ p c, (p, c) ∈ (paths.filterMap fun path =>
      (s.memoryDocuments.get? path).map fun source => (path, source)) ↔
        p ∈ paths ∧ s.memoryDocuments.get? p = some c := by
    intro p c
    simp only [mem_filterMap, Option.map_eq_some_iff, Prod.mk.injEq]
    constructor
    · rintro ⟨_, hq, _, hc, rfl, rfl⟩
      exact ⟨hq, hc⟩
    · rintro ⟨hq, hc⟩
      exact ⟨p, hq, c, hc, rfl, rfl⟩
  refine Option.ext fun c => ?_
  rw [memorySourceEntries, OrdMap.get?_ofList_of_unique, hmem]
  · exact and_iff_right hp
  · intro q c d hc hd
    have hc' := ((hmem q c).mp hc).2
    exact Option.some.inj (hc'.symm.trans ((hmem q d).mp hd).2)

/-! ## Runs -/

/-- What becomes of the files on disk: some are retired or come back, and new ones are added. -/
structure DiskStep (files files' : List SourceFile) : Prop where
  exists_eq : ∃ flip : SourceFile → SourceFile, ∃ added : List SourceFile,
    files' = files.map flip ++ added ∧ (∀ f ∈ added, isMemorySourcePath f.path = false) ∧
      ∀ f, (flip f).path = f.path ∧ (isMemorySourcePath f.path = true → flip f = f)

/-- A material after some syncs, with the store of the last one. -/
inductive Synced (rootMoniker : Lang → FsPath → RootContext → Option Moniker) :
    SourceCatalogMaterial → LocalResourceMaterial S I D → Prop
  | load {m : SourceCatalogMaterial} {s : LocalResourceMaterial S I D}
      (hdisk : ∀ f ∈ m.files, isMemorySourcePath f.path = false) (hslots : m.memorySlots = ∅)
      (hsources : m.memorySources = ∅) (hs : s.Coherent) :
      Synced rootMoniker (syncMemorySourceSets rootMoniker m s.memorySourceSets).2 s
  | sets {m : SourceCatalogMaterial} {s s' : LocalResourceMaterial S I D}
      (h : Synced rootMoniker m s) (hs' : s'.Coherent) :
      Synced rootMoniker (syncMemorySourceSets rootMoniker m s'.memorySourceSets).2 s'
  | paths {m m' : SourceCatalogMaterial} {s s' : LocalResourceMaterial S I D}
      {paths : List MemoryPath} {changed : Bool} (h : Synced rootMoniker m s) (hs' : s'.Coherent)
      (hcovers : CoversChanges s s' paths)
      (hsync : syncMemorySourcePaths rootMoniker m (memorySourceEntries s' paths)
        (memorySourceRevisions s') paths = some (changed, m')) :
      Synced rootMoniker m' s'
  | disk {m : SourceCatalogMaterial} {s : LocalResourceMaterial S I D} {files : List SourceFile}
      (h : Synced rootMoniker m s) (hdisk : DiskStep m.files files) :
      Synced rootMoniker { m with files } s

section Runs

variable {rootMoniker : Lang → FsPath → RootContext → Option Moniker} {m : SourceCatalogMaterial}
  {docs : Documents} {s s' : LocalResourceMaterial S I D}

theorem inSync_load (hdisk : ∀ f ∈ m.files, isMemorySourcePath f.path = false)
    (hslots : m.memorySlots = ∅) (hsources : m.memorySources = ∅) :
    InSync rootMoniker m fun _ => none := by
  have hnone : ∀ p, p ∉ m.memorySlots := by
    rw [hslots]
    exact OrdSet.notMem_empty
  refine ⟨?_, fun p hp => absurd hp (hnone p), fun p hp => ?_, fun _ _ _ _ hc => (nomatch hc),
    fun f hf hmemory => ?_, fun _ _ hc => (nomatch hc), fun p => ?_, fun _ _ hc => (nomatch hc)⟩
  · rw [filter_eq_nil_iff.mpr fun p _ => by simpa using hnone p]
    exact nodup_nil
  · obtain ⟨f, hf, rfl⟩ := mem_map.mp hp
    rw [hdisk f hf]
    exact iff_of_false (hnone _) Bool.false_ne_true
  · rw [hdisk f hf] at hmemory
    exact nomatch hmemory
  · rw [hsources]
    rfl

theorem InSync.diskStep (h : InSync rootMoniker m docs) {files : List SourceFile}
    (hdisk : DiskStep m.files files) : InSync rootMoniker { m with files } docs := by
  obtain ⟨flip, added, rfl, hadded, hflip⟩ := hdisk
  have hold : (m.files.map flip).map (·.path) = m.files.map (·.path) := by
    rw [map_map]
    exact map_congr_left fun f _ => (hflip f).1
  have hnew : ∀ p ∈ added.map (·.path), isMemorySourcePath p = false := by
    intro p hp
    obtain ⟨f, hf, rfl⟩ := mem_map.mp hp
    exact hadded f hf
  have hslot : ∀ p ∈ added.map (·.path), p ∉ m.memorySlots := by
    intro p hp hmem
    have hmemory := (h.mem_slots.mp hmem).2
    rw [hnew p hp] at hmemory
    exact nomatch hmemory
  have hfile : ∀ f ∈ m.files.map flip ++ added, isMemorySourcePath f.path = true → f ∈ m.files := by
    intro f hf hmemory
    rcases mem_append.mp hf with hf | hf
    · obtain ⟨g, hg, rfl⟩ := mem_map.mp hf
      obtain ⟨hpath, hsame⟩ := hflip g
      rw [hpath] at hmemory
      rwa [hsame hmemory]
    · rw [hadded f hf] at hmemory
      exact nomatch hmemory
  refine ⟨?_, fun p hp => ?_, fun p hp => ?_, fun f hf hmemory => h.active f (hfile f hf hmemory) hmemory,
    fun f hf hmemory => h.retired f (hfile f hf hmemory) hmemory, h.documents, h.contents, h.rooted⟩
  · have hnil : (added.map (·.path)).filter (· ∈ m.memorySlots) = [] :=
      filter_eq_nil_iff.mpr fun p hp => by simpa using hslot p hp
    dsimp only
    rw [map_append, filter_append, hold, hnil, append_nil]
    exact h.once
  · dsimp only
    rw [map_append, hold]
    exact mem_append_left _ (h.filed p hp)
  · dsimp only at hp ⊢
    rw [map_append, hold, mem_append] at hp
    rcases hp with hp | hp
    · exact h.slots p hp
    · rw [hnew p hp]
      exact iff_of_false (hslot p hp) Bool.false_ne_true

/-- After every run the store is coherent and the material is in line with it. -/
theorem Synced.inSync (h : Synced rootMoniker m s) : s.Coherent ∧
    InSync rootMoniker m s.memoryDocuments.get? ∧
      m.memoryRevisions = revisionsOf s.memorySourceSets := by
  induction h with
  | load hdisk hslots hsources hs =>
    have hload : InSync rootMoniker _ _ := inSync_load hdisk hslots hsources
    obtain ⟨rest, hfull⟩ := hload.fullSync hs
    exact ⟨hs, hfull.inSync hload hs, hfull.revisions⟩
  | sets _ hs' ih =>
    obtain ⟨rest, hfull⟩ := ih.2.1.fullSync hs'
    exact ⟨hs', hfull.inSync ih.2.1 hs', hfull.revisions⟩
  | paths _ hs' hcovers hsync ih =>
    obtain ⟨hs, hin, -⟩ := ih
    obtain ⟨changed, m', hsync', hpaths⟩ := hin.syncMemorySourcePaths hs.placed hs'.placed
      (fun p hp => get?_memorySourceEntries hp) hcovers
    rw [hsync, Option.some.injEq, Prod.mk.injEq] at hsync'
    obtain ⟨rfl, rfl⟩ := hsync'
    exact ⟨hs', hpaths.inSync, hpaths.revisions⟩
  | disk _ hdisk ih => exact ⟨ih.1, ih.2.1.diskStep hdisk, ih.2.2⟩

/-! ## Both syncs -/

/-- The active memory files are those of the documents. -/
theorem InSync.active_iff (h : InSync rootMoniker m docs) (hplaced : PlacedDocuments docs)
    (f : SourceFile) : f ∈ m.files ∧ f.path ∈ m.memorySlots ∧ f.retired = false ↔
      ∃ p c, docs p = some c ∧ f = memoryFile rootMoniker m.roots c := by
  constructor
  · rintro ⟨hf, hslot, hactive⟩
    have hmemory := (h.mem_slots.mp hslot).2
    cases hdoc : docs f.path with
    | some c => exact ⟨f.path, c, hdoc, h.active f hf hmemory c hdoc⟩
    | none =>
      rw [h.retired f hf hmemory hdoc] at hactive
      exact nomatch hactive
  · rintro ⟨p, c, hc, rfl⟩
    have hslot := h.documents p c hc
    obtain ⟨g, hg, rfl⟩ := mem_map.mp (h.filed p hslot)
    have hfile := h.active g hg (hplaced.isMemorySourcePath hc) c hc
    exact ⟨hfile ▸ hg, hfile ▸ hslot, rfl⟩

/-- The sync along paths against the full one `full`, from the same material `m`. -/
structure SyncsLike (m full : SourceCatalogMaterial) (changed : Bool) (m' : SourceCatalogMaterial) :
    Prop where
  active : ∀ f, f ∈ m'.files ∧ f.path ∈ m'.memorySlots ∧ f.retired = false ↔
    f ∈ full.files ∧ f.path ∈ full.memorySlots ∧ f.retired = false
  contents : m'.memorySources = full.memorySources
  revisions : m'.memoryRevisions = full.memoryRevisions
  keepsFiles : KeepsFiles m.files m'.files ∧ KeepsFiles m.files full.files
  once : ((m'.files.map (·.path)).filter (· ∈ m'.memorySlots)).Nodup
  same : changed = false → m' = m

/-- The sync along the paths of what has changed in the store leads, after any run, to the memory
files of the full sync. -/
theorem syncMemorySourcePaths_eq (h : Synced rootMoniker m s) (hs' : s'.Coherent)
    {paths : List MemoryPath} (hcovers : CoversChanges s s' paths) :
    ∃ changed m', syncMemorySourcePaths rootMoniker m (memorySourceEntries s' paths)
        (memorySourceRevisions s') paths = some (changed, m') ∧
      SyncsLike m (syncMemorySourceSets rootMoniker m s'.memorySourceSets).2 changed m' := by
  obtain ⟨hs, hin, -⟩ := h.inSync
  obtain ⟨rest, hfull⟩ := hin.fullSync hs'
  have hfullIn := hfull.inSync hin hs'
  obtain ⟨changed, m', hsync, hpaths⟩ := hin.syncMemorySourcePaths hs.placed hs'.placed
    (fun p hp => get?_memorySourceEntries hp) hcovers
  refine ⟨changed, m', hsync, fun f => ?_, OrdMap.ext fun p => ?_, ?_,
    ⟨hpaths.keepsFiles, hfull.keepsFiles hin⟩, hpaths.inSync.once, hpaths.same⟩
  · rw [hpaths.inSync.active_iff hs'.placed, hfullIn.active_iff hs'.placed]
    refine exists_congr fun p => exists_congr fun c => and_congr_right fun hc => ?_
    rw [hpaths.memoryFile_eq, hfull.memoryFile_eq hc]
  · rw [hpaths.inSync.contents, hfullIn.contents]
  · rw [hpaths.revisions, hfull.revisions]
    rfl

end Runs

/-- The first document on top of an empty store. -/
theorem syncMemorySourcePaths_bufferStore : ∃ changed m', syncMemorySourcePaths (fun _ _ _ => none)
        (syncMemorySourceSets (fun _ _ _ => none) ⟨[], [], ∅, ∅, ∅⟩ ∅).2
        (memorySourceEntries LocalResourceMaterial.bufferStore [memorySourcePath "buffers" "a.rs"])
        (memorySourceRevisions LocalResourceMaterial.bufferStore)
        [memorySourcePath "buffers" "a.rs"] = some (changed, m') ∧
      SyncsLike (syncMemorySourceSets (fun _ _ _ => none) ⟨[], [], ∅, ∅, ∅⟩ ∅).2
        (syncMemorySourceSets (fun _ _ _ => none)
          (syncMemorySourceSets (fun _ _ _ => none) ⟨[], [], ∅, ∅, ∅⟩ ∅).2
          LocalResourceMaterial.bufferStore.memorySourceSets).2 changed m' := by
  have hempty : Synced (fun _ _ _ => none)
      (syncMemorySourceSets (fun _ _ _ => none) ⟨[], [], ∅, ∅, ∅⟩ ∅).2
      ({} : LocalResourceMaterial Unit Unit Unit) :=
    .load (m := ⟨[], [], ∅, ∅, ∅⟩) (fun _ hf => nomatch hf) rfl rfl
      (.start : LocalResourceMaterial.Reachable ({} : LocalResourceMaterial Unit Unit Unit)).coherent
  refine syncMemorySourcePaths_eq hempty LocalResourceMaterial.reachable_bufferStore.coherent ?_
  intro p hne
  by_contra hp
  refine hne ?_
  have hother : p ≠ memorySourcePath "buffers" LocalResourceMaterial.buffer.uri :=
    fun heq => hp (mem_singleton.mpr heq)
  rw [LocalResourceMaterial.bufferStore, insertDocument, OrdMap.get?_insert, if_neg hother]

end CodeMoniker
