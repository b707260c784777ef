import CodeMoniker.MemoryCatalog

/-!
# The sync along paths

The sync along some paths brings one path after the other in line with the store. In between, the
documents of some paths are those of the store and the others are as before
(`PathSynced.syncPath`). If the paths cover all that has changed, the files are in the end those of
the full sync (`syncMemorySourcePaths_eq`).
-/

namespace CodeMoniker

open List Function
open Option (some.inj)

variable {rootMoniker : Lang → FsPath → RootContext → Option Moniker} {m : SourceCatalogMaterial}
  {docs : Documents} {p : MemoryPath}

/-! ## One file -/

theorem set_eq_self {α : Type} {l : List α} {i : ℕ} {a : α} (h : l[i]? = some a) : l.set i a = l := by
  obtain ⟨hi, rfl⟩ := List.getElem?_eq_some_iff.mp h
  exact set_getElem_self hi

theorem InSync.mem_slots_of_getElem? (h : InSync rootMoniker m docs) {i : ℕ} {f : SourceFile}
    (hget : m.files[i]? = some f) (hmemory : isMemorySourcePath f.path = true) :
    f.path ∈ m.memorySlots :=
  h.mem_slots.mpr ⟨mem_map_of_mem (mem_of_getElem? hget), hmemory⟩

/-- A slot is at one index. -/
theorem InSync.index_unique (h : InSync rootMoniker m docs) {i j : ℕ} {f g : SourceFile}
    (hf : m.files[i]? = some f) (hg : m.files[j]? = some g) (hpath : f.path = g.path)
    (hmemory : isMemorySourcePath f.path = true) : i = j := by
  have hslot := h.mem_slots_of_getElem? hf hmemory
  have hpairs := pairwise_filter.mp h.once
  rw [pairwise_iff_getElem] at hpairs
  have hne : ∀ {i j : ℕ} {f g : SourceFile}, m.files[i]? = some f → m.files[j]? = some g →
      f.path ∈ m.memorySlots → f.path = g.path → ¬i < j := by
    intro i j f g hf hg hslot hpath hlt
    obtain ⟨hi, rfl⟩ := List.getElem?_eq_some_iff.mp hf
    obtain ⟨hj, rfl⟩ := List.getElem?_eq_some_iff.mp hg
    have hne := hpairs i j (by simpa using hi) (by simpa using hj) hlt
    simp only [getElem_map, decide_eq_true_eq] at hne
    exact hne hslot (hpath ▸ hslot) hpath
  have hle := hne hf hg hslot hpath
  have hge := hne hg hf (hpath ▸ hslot) hpath.symm
  omega

/-- A slot takes another file, with or without a document. -/
theorem InSync.replace (h : InSync rootMoniker m docs) {i : ℕ} {f next : SourceFile}
    (hget : m.files[i]? = some f) (hmemory : isMemorySourcePath f.path = true)
    (hpath : next.path = f.path) {doc : Option CachedMemorySource}
    (hactive : ∀ c, doc = some c → next = memoryFile rootMoniker m.roots c ∧
      (memorySourceRootIndex m.roots).2 = m.roots)
    (hretired : doc = none → next.retired = true) {contents : OrdMap MemoryPath String}
    (hcontents : ∀ q, contents.get? q =
      if q = f.path then doc.map (·.document.content) else m.memorySources.get? q) :
    InSync rootMoniker { m with files := m.files.set i next, memorySources := contents }
      (update docs f.path doc) := by
  have hpaths : (m.files.set i next).map (·.path) = m.files.map (·.path) := by
    rw [map_set, hpath]
    refine set_eq_self ?_
    rw [getElem?_map, hget]
    rfl
  have hfile : ∀ g ∈ m.files.set i next, g = next ∨ g ∈ m.files ∧
      (isMemorySourcePath g.path = true → g.path ≠ f.path) := by
    intro g hg
    obtain ⟨j, hj⟩ := mem_iff_getElem?.mp hg
    rw [getElem?_set] at hj
    split_ifs at hj with hij hlt
    · exact Or.inl (some.inj hj).symm
    · refine Or.inr ⟨mem_of_getElem? hj, fun hg heq => hij ?_⟩
      exact h.index_unique hget hj heq.symm hmemory
  refine ⟨?_, ?_, ?_, fun g hg hgmemory c hc => ?_, fun g hg hgmemory hnone => ?_,
    fun q c hc => ?_, fun q => ?_, fun q c hc => ?_⟩
  · exact hpaths ▸ h.once
  · exact hpaths ▸ h.filed
  · exact hpaths ▸ h.slots
  · rcases hfile g hg with rfl | ⟨hmem, hne⟩
    · rw [hpath, update_self] at hc
      exact (hactive c hc).1
    · rw [update_of_ne (hne hgmemory)] at hc
      exact h.active g hmem hgmemory c hc
  · rcases hfile g hg with rfl | ⟨hmem, hne⟩
    · rw [hpath, update_self] at hnone
      exact hretired hnone
    · rw [update_of_ne (hne hgmemory)] at hnone
      exact h.retired g hmem hgmemory hnone
  · by_cases hq : q = f.path
    · rw [hq]
      exact h.mem_slots_of_getElem? hget hmemory
    · rw [update_of_ne hq] at hc
      exact h.documents q c hc
  · dsimp only
    rw [hcontents, update_apply]
    split_ifs with hq
    · rfl
    · exact h.contents q
  · by_cases hq : q = f.path
    · rw [hq, update_self] at hc
      exact (hactive c hc).2
    · rw [update_of_ne hq] at hc
      exact h.rooted q c hc

/-- A document without a slot gets a new one. -/
theorem InSync.append (h : InSync rootMoniker m docs) (hnew : p ∉ m.memorySlots)
    (hmemory : isMemorySourcePath p = true) {c : CachedMemorySource}
    (hpath : (memoryFile rootMoniker m.roots c).path = p)
    (hroots : (memorySourceRootIndex m.roots).2 = m.roots) : InSync rootMoniker { m with
        files := m.files ++ [memoryFile rootMoniker m.roots c]
        memorySlots := m.memorySlots.insert p
        memorySources := m.memorySources.insert p c.document.content }
      (update docs p (some c)) := by
  have hfresh : p ∉ m.files.map (·.path) := fun hmem => hnew ((h.slots p hmem).mpr hmemory)
  have hpaths : (m.files ++ [memoryFile rootMoniker m.roots c]).map (·.path) =
      m.files.map (·.path) ++ [p] := by
    rw [map_append, map_singleton, hpath]
  have hother : ∀ g ∈ m.files, g.path ≠ p := fun g hg heq => hfresh (heq ▸ mem_map_of_mem hg)
  refine ⟨?_, fun q hq => ?_, fun q hq => ?_, fun g hg hgmemory d hd => ?_,
    fun g hg hgmemory hnone => ?_, fun q d hd => ?_, fun q => ?_, fun q d hd => ?_⟩
  · have hold : (m.files.map (·.path)).filter (· ∈ m.memorySlots.insert p) =
        (m.files.map (·.path)).filter (· ∈ m.memorySlots) := by
      refine filter_congr fun q hq => decide_eq_decide.mpr ?_
      rw [OrdSet.mem_insert]
      exact ⟨fun hor => hor.resolve_left fun heq => hfresh (heq ▸ hq), Or.inr⟩
    dsimp only
    rw [hpaths, filter_append, hold]
    refine nodup_append.mpr ⟨h.once, (nodup_singleton p).filter _, ?_⟩
    rintro q hq q' hq' rfl
    have heq : q = p := mem_singleton.mp (mem_filter.mp hq').1
    exact hfresh (heq ▸ (mem_filter.mp hq).1)
  · dsimp only
    rw [hpaths, mem_append, mem_singleton]
    rcases OrdSet.mem_insert.mp hq with rfl | hq
    · exact Or.inr rfl
    · exact Or.inl (h.filed q hq)
  · dsimp only at hq ⊢
    rw [hpaths, mem_append, mem_singleton] at hq
    rw [OrdSet.mem_insert]
    rcases hq with hq | rfl
    · rw [h.slots q hq]
      exact ⟨fun hor => hor.elim (fun heq => heq ▸ hmemory) id, Or.inr⟩
    · exact iff_of_true (Or.inl rfl) hmemory
  · rcases mem_append.mp hg with hg | hg
    · rw [update_of_ne (hother g hg)] at hd
      exact h.active g hg hgmemory d hd
    · obtain rfl := mem_singleton.mp hg
      rw [hpath, update_self] at hd
      rw [some.inj hd]
  · rcases mem_append.mp hg with hg | hg
    · rw [update_of_ne (hother g hg)] at hnone
      exact h.retired g hg hgmemory hnone
    · obtain rfl := mem_singleton.mp hg
      rw [hpath, update_self] at hnone
      exact nomatch hnone
  · rw [OrdSet.mem_insert]
    by_cases hq : q = p
    · exact Or.inl hq
    · rw [update_of_ne hq] at hd
      exact Or.inr (h.documents q d hd)
  · dsimp only
    rw [OrdMap.get?_insert, update_apply]
    split_ifs with hq
    · rfl
    · exact h.contents q
  · exact hroots

theorem keepsFiles_set {files : List SourceFile} {i : ℕ} {f next : SourceFile}
    (hget : files[i]? = some f) (hpath : next.path = f.path)
    (hmemory : isMemorySourcePath f.path = true) : KeepsFiles files (files.set i next) := by
  intro j g hg
  by_cases hij : i = j
  · subst hij
    obtain rfl : f = g := some.inj (hget.symm.trans hg)
    refine ⟨next, ?_, hpath, fun hdisk => ?_⟩
    · rw [getElem?_set_self (List.getElem?_eq_some_iff.mp hget).1]
    · rw [hmemory] at hdisk
      exact nomatch hdisk
  · exact ⟨g, by rw [getElem?_set_ne hij, hg], rfl, fun _ => rfl⟩

theorem keepsFiles_append (files added : List SourceFile) : KeepsFiles files (files ++ added) := by
  intro i f hf
  refine ⟨f, ?_, rfl, fun _ => rfl⟩
  rw [getElem?_append_left (List.getElem?_eq_some_iff.mp hf).1, hf]

@[simp] theorem memoryFile_lang (roots : List SourceRoot) (c : CachedMemorySource) :
    (memoryFile rootMoniker roots c).lang = c.document.lang := rfl

@[simp] theorem memoryFile_retired (roots : List SourceRoot) (c : CachedMemorySource) :
    (memoryFile rootMoniker roots c).retired = false := rfl

/-- The file of a document is made from its place and its language. -/
theorem memoryFile_congr {roots : List SourceRoot} {c d : CachedMemorySource}
    (hc : validSrcset c.srcset = true) (hd : validSrcset d.srcset = true)
    (hpath : memorySourcePath c.srcset c.document.uri = memorySourcePath d.srcset d.document.uri)
    (hlang : c.document.lang = d.document.lang) :
    memoryFile rootMoniker roots c = memoryFile rootMoniker roots d := by
  obtain ⟨hsrcset, huri⟩ := memorySourcePath_inj hc hd hpath
  rw [memoryFile, memoryFile, memorySourceFile, memorySourceFile, hsrcset, huri, hlang]

/-- A file that is the same as the one of a document is that one. -/
theorem InSync.eq_of_sameSourceFile (h : InSync rootMoniker m docs) (hplaced : PlacedDocuments docs)
    {f : SourceFile} (hf : f ∈ m.files) (hmemory : isMemorySourcePath f.path = true)
    {c : CachedMemorySource} (hvalid : validSrcset c.srcset = true)
    (hsame : sameSourceFile f (memoryFile rootMoniker m.roots c) = true) :
    f = memoryFile rootMoniker m.roots c := by
  simp only [sameSourceFile, Bool.and_eq_true, decide_eq_true_eq] at hsame
  obtain ⟨⟨⟨⟨⟨⟨⟨⟨-, hpath⟩, -⟩, -⟩, hlang⟩, -⟩, -⟩, -⟩, hretired⟩ := hsame
  cases hdoc : docs f.path with
  | none =>
    rw [h.retired f hf hmemory hdoc, memoryFile_retired] at hretired
    exact nomatch hretired
  | some d =>
    have hfile := h.active f hf hmemory d hdoc
    rw [hfile, memoryFile_path, memoryFile_path] at hpath
    rw [hfile, memoryFile_lang, memoryFile_lang] at hlang
    rw [hfile]
    exact memoryFile_congr (hplaced _ d hdoc).1 hvalid hpath hlang

/-! ## One path -/

/-- Between two paths: the files are in line with some documents, and every slot has its index. -/
structure PathSynced (rootMoniker : Lang → FsPath → RootContext → Option Moniker)
    (roots : List SourceRoot) (revisions : OrdMap String (Option String)) (st : PathSync)
    (docs : Documents) : Prop where
  inSync : InSync rootMoniker (st.material roots revisions) docs
  indexes : ∀ p i, st.slots.get? p = some i ↔
    p ∈ st.memorySlots ∧ (st.files.map (·.path))[i]? = some p

section Step

variable {roots : List SourceRoot} {revisions : OrdMap String (Option String)} {st : PathSync}
  {entries : OrdMap MemoryPath CachedMemorySource} {rootIdx : Option ℕ}

section

variable (h : PathSynced rootMoniker roots revisions st docs)

include h

variable {i : ℕ}

theorem PathSynced.exists_file (hslot : st.slots.get? p = some i) :
    ∃ f, st.files[i]? = some f ∧ f.path = p ∧ isMemorySourcePath p = true := by
  obtain ⟨hmem, hget⟩ := (h.indexes p i).mp hslot
  rw [getElem?_map, Option.map_eq_some_iff] at hget
  obtain ⟨f, hf, hpath⟩ := hget
  exact ⟨f, hf, hpath, (h.inSync.mem_slots.mp hmem).2⟩

theorem PathSynced.notMem_slots (hslot : st.slots.get? p = none) : p ∉ st.memorySlots := by
  intro hmem
  obtain ⟨i, hi⟩ := mem_iff_getElem?.mp (h.inSync.filed p hmem)
  have hget := (h.indexes p i).mpr ⟨hmem, hi⟩
  rw [hslot] at hget
  exact nomatch hget

/-- The paths of the files stay if one file is replaced. -/
theorem PathSynced.set
    {f next : SourceFile} (hget : st.files[i]? = some f) (hpath : next.path = f.path)
    {contents : OrdMap MemoryPath String} {changed : Bool} {docs' : Documents}
    (hinSync : InSync rootMoniker
      { st.material roots revisions with files := st.files.set i next, memorySources := contents }
      docs') :
    PathSynced rootMoniker roots revisions
      { st with files := st.files.set i next, memorySources := contents, changed } docs' := by
  refine ⟨hinSync, fun q j => ?_⟩
  dsimp only
  rw [h.indexes, map_set, hpath, set_eq_self]
  rw [getElem?_map, hget]
  rfl

end

/-- What is made of one path, or of several. -/
structure PathStep (rootMoniker : Lang → FsPath → RootContext → Option Moniker)
    (roots : List SourceRoot) (revisions : OrdMap String (Option String)) (st st' : PathSync)
    (docs : Documents) : Prop where
  synced : PathSynced rootMoniker roots revisions st' docs
  keepsFiles : KeepsFiles st.files st'.files
  same : st'.changed = false → st' = st

variable {contents : OrdMap MemoryPath String}

theorem insert_eq_self {content : String}
    (h : contents.get? p = some content) : contents.insert p content = contents := by
  refine OrdMap.ext fun q => ?_
  rw [OrdMap.get?_insert]
  split_ifs with hq
  · rw [hq, h]
  · rfl

theorem erase_eq_self (h : contents.get? p = none) : contents.erase p = contents := by
  refine OrdMap.ext fun q => ?_
  rw [OrdMap.get?_erase]
  split_ifs with hq
  · rw [hq, h]
  · rfl

/-- What a document needs to get a file. -/
structure Entry (roots : List SourceRoot) (rootIdx : Option ℕ) (p : MemoryPath)
    (c : CachedMemorySource) : Prop where
  valid : validSrcset c.srcset = true
  path : p = memorySourcePath c.srcset c.document.uri
  rootIdx : rootIdx = some (memorySourceRootIndex roots).1
  roots : (memorySourceRootIndex roots).2 = roots

theorem Entry.memorySourceFile_eq {c : CachedMemorySource} (h : Entry roots rootIdx p c) :
    memorySourceFile rootMoniker roots (memorySourceRootIndex roots).1 c.srcset c.document =
      memoryFile rootMoniker roots c := by
  rw [memoryFile, h.roots]

section

variable (h : PathSynced rootMoniker roots revisions st docs)

include h

/-- A document whose slot is there takes it. -/
theorem PathSynced.take_slot
    (hplaced : PlacedDocuments docs) {c : CachedMemorySource} (hentry : entries.get? p = some c)
    (hc : Entry roots rootIdx p c) {i : ℕ} (hslot : st.slots.get? p = some i) :
    ∃ st', syncPath rootMoniker roots rootIdx entries st p = some st' ∧
      PathStep rootMoniker roots revisions st st' (update docs p (some c)) := by
  obtain ⟨f, hget, rfl, hmemory⟩ := h.exists_file hslot
  have hpath : (memoryFile rootMoniker roots c).path = f.path :=
    (memoryFile_path roots c).trans hc.path.symm
  rw [syncPath, hentry, hc.rootIdx]
  simp only [Option.bind_eq_bind, Option.bind_some, hc.memorySourceFile_eq, hslot, hget,
    Option.any_some, Option.pure_def]
  refine ⟨_, rfl, h.set hget hpath ?_, keepsFiles_set hget hpath hmemory, fun hsame => ?_⟩
  · refine h.inSync.replace hget hmemory hpath ?_ (by simp) fun q => ?_
    · rintro d hd
      obtain rfl := some.inj hd
      exact ⟨rfl, hc.roots⟩
    · rw [OrdMap.get?_insert]
      split_ifs <;> rfl
  · dsimp only at hsame ⊢
    rw [hsame]
    simp only [Bool.or_eq_false_iff, Bool.not_eq_false', decide_eq_false_iff_not, not_not] at hsame
    obtain ⟨⟨hchanged, hfile⟩, hcontent⟩ := hsame
    have heq : f = memoryFile rootMoniker roots c := h.inSync.eq_of_sameSourceFile hplaced
      (mem_of_getElem? hget) hmemory hc.valid hfile
    rw [← heq, set_eq_self hget, insert_eq_self hcontent, ← hchanged]

/-- A document without a slot gets one at the end. -/
theorem PathSynced.add_slot (hmemory : isMemorySourcePath p = true) {c : CachedMemorySource}
    (hentry : entries.get? p = some c) (hc : Entry roots rootIdx p c)
    (hslot : st.slots.get? p = none) :
    ∃ st', syncPath rootMoniker roots rootIdx entries st p = some st' ∧
      PathStep rootMoniker roots revisions st st' (update docs p (some c)) := by
  have hnew := h.notMem_slots hslot
  have hfresh : p ∉ st.files.map (·.path) := fun hmem =>
    hnew ((h.inSync.slots p hmem).mpr hmemory)
  rw [syncPath, hentry, hc.rootIdx]
  simp only [Option.bind_eq_bind, Option.bind_some, hc.memorySourceFile_eq, hslot, Option.pure_def]
  have hpath : (memoryFile rootMoniker roots c).path = p :=
    (memoryFile_path roots c).trans hc.path.symm
  refine ⟨_, rfl, ⟨h.inSync.append hnew hmemory hpath hc.roots, fun q i => ?_⟩,
    keepsFiles_append _ _, by simp⟩
  dsimp only
  rw [OrdMap.get?_insert, OrdSet.mem_insert, map_append, map_singleton, memoryFile_path, ← hc.path]
  rw [getElem?_append]
  split_ifs with hq hi hi
  · have hlt : i < st.files.length := by simpa using hi
    refine iff_of_false (fun heq => ?_) fun ⟨_, heq⟩ => hfresh (hq ▸ mem_of_getElem? heq)
    have hlast := some.inj heq
    omega
  · have hle : st.files.length ≤ i := by simpa using hi
    rw [getElem?_singleton, length_map, hq, Option.some.injEq]
    constructor
    · rintro rfl
      exact ⟨Or.inl rfl, by simp⟩
    · rintro ⟨-, hlast⟩
      split_ifs at hlast
      omega
  · rw [h.indexes]
    exact and_congr_left fun _ => ⟨Or.inr, fun hor => hor.resolve_left hq⟩
  · have hnone : (st.files.map (·.path))[i]? = none :=
      getElem?_eq_none (by simpa using hi)
    rw [h.indexes, hnone, getElem?_singleton]
    refine iff_of_false (fun hboth => nomatch hboth.2) fun ⟨_, hlast⟩ => ?_
    split_ifs at hlast
    exact hq (some.inj hlast).symm

/-- A slot without a document is retired. -/
theorem PathSynced.retire_slot
    (hentry : entries.get? p = none) {i : ℕ} (hslot : st.slots.get? p = some i) :
    ∃ st', syncPath rootMoniker roots rootIdx entries st p = some st' ∧
      PathStep rootMoniker roots revisions st st' (update docs p none) := by
  obtain ⟨f, hget, rfl, hmemory⟩ := h.exists_file hslot
  have hmodify : st.files.modify i ({ · with retired := true }) =
      st.files.set i { f with retired := true } := by
    refine ext_getElem? fun j => ?_
    rw [getElem?_modify, getElem?_set]
    split_ifs with hij hlt
    · rw [← hij, hget]
      rfl
    · exact absurd (List.getElem?_eq_some_iff.mp hget).1 hlt
    · exact Option.map_id'
  rw [syncPath, hentry]
  simp only [hslot, hmodify, hget, Option.any_some]
  have hpath : ({ f with retired := true } : SourceFile).path = f.path := rfl
  refine ⟨_, rfl, h.set hget hpath ?_, keepsFiles_set hget hpath hmemory, fun hsame => ?_⟩
  · refine h.inSync.replace hget hmemory hpath (by simp) (fun _ => rfl) fun q => ?_
    rw [OrdMap.get?_erase]
    split_ifs <;> rfl
  · dsimp only at hsame ⊢
    rw [hsame]
    simp only [Bool.or_eq_false_iff, Bool.not_eq_false', Option.isSome_eq_false_iff,
      Option.isNone_iff_eq_none] at hsame
    obtain ⟨⟨hchanged, hretired⟩, hcontent⟩ := hsame
    rw [← hretired, set_eq_self hget, erase_eq_self hcontent, ← hchanged]

/-- Without a document and a slot nothing is to be done. -/
theorem PathSynced.skip (hentry : entries.get? p = none) (hslot : st.slots.get? p = none) :
    ∃ st', syncPath rootMoniker roots rootIdx entries st p = some st' ∧
      PathStep rootMoniker roots revisions st st' (update docs p none) := by
  have hdoc : docs p = none := by
    by_contra hne
    obtain ⟨c, hc⟩ := Option.ne_none_iff_exists'.mp hne
    exact h.notMem_slots hslot (h.inSync.documents p c hc)
  rw [syncPath, hentry]
  simp only [hslot]
  refine ⟨st, rfl, ?_, KeepsFiles.refl _, fun _ => rfl⟩
  rwa [update_eq_self_iff.mpr hdoc.symm]

/-- One path is brought in line with the store. -/
theorem PathSynced.syncPath (hplaced : PlacedDocuments docs) (hmemory : isMemorySourcePath p = true)
    (hentry : ∀ c, entries.get? p = some c → Entry roots rootIdx p c) :
    ∃ st', syncPath rootMoniker roots rootIdx entries st p = some st' ∧
      PathStep rootMoniker roots revisions st st' (update docs p (entries.get? p)) := by
  cases hget : entries.get? p with
  | some c =>
    cases hslot : st.slots.get? p with
    | some i => exact h.take_slot hplaced hget (hentry c hget) hslot
    | none => exact h.add_slot hmemory hget (hentry c hget) hslot
  | none =>
    cases hslot : st.slots.get? p with
    | some i => exact h.retire_slot hget hslot
    | none => exact h.skip hget hslot

end

/-! ## All paths -/

theorem PathStep.trans {st' st'' : PathSync} {docs' : Documents}
    (h : PathStep rootMoniker roots revisions st st' docs)
    (h' : PathStep rootMoniker roots revisions st' st'' docs') :
    PathStep rootMoniker roots revisions st st'' docs' := by
  refine ⟨h'.synced, h.keepsFiles.trans h'.keepsFiles, fun hsame => ?_⟩
  obtain rfl := h'.same hsame
  exact h.same hsame

/-- The documents of some paths are replaced. -/
def Documents.overwrite (docs docs' : Documents) (paths : List MemoryPath) : Documents :=
  fun p => if p ∈ paths then docs' p else docs p

theorem Documents.update_overwrite (docs docs' : Documents) (p : MemoryPath)
    (paths : List MemoryPath) : Documents.overwrite (update docs p (docs' p)) docs' paths =
      docs.overwrite docs' (p :: paths) := by
  funext q
  unfold Documents.overwrite
  rw [update_apply]
  by_cases hq : q = p
  · simp [hq]
  · simp [hq]

theorem PlacedDocuments.update {docs' : Documents} (h : PlacedDocuments docs)
    (h' : PlacedDocuments docs') (p : MemoryPath) : PlacedDocuments (update docs p (docs' p)) := by
  intro q c hc
  rw [update_apply] at hc
  split_ifs at hc with hq
  · exact h' q c (hq ▸ hc)
  · exact h q c hc

/-- The paths are taken one after the other. -/
theorem PathSynced.foldlM_syncPath {docs' : Documents} (hplaced' : PlacedDocuments docs') :
    ∀ (paths : List MemoryPath) {st : PathSync} {docs : Documents},
      PathSynced rootMoniker roots revisions st docs → PlacedDocuments docs →
      (∀ p ∈ paths, isMemorySourcePath p = true) → (∀ p ∈ paths, entries.get? p = docs' p) →
      (∀ p ∈ paths, ∀ c, entries.get? p = some c → Entry roots rootIdx p c) →
      ∃ st', paths.foldlM (CodeMoniker.syncPath rootMoniker roots rootIdx entries) st = some st' ∧
        PathStep rootMoniker roots revisions st st' (docs.overwrite docs' paths)
  | [], st, docs, h, _, _, _, _ => by
    refine ⟨st, rfl, ?_, KeepsFiles.refl _, fun _ => rfl⟩
    have hdocs : docs.overwrite docs' [] = docs := by
      funext p
      simp [Documents.overwrite]
    rwa [hdocs]
  | p :: paths, st, docs, h, hplaced, hmemory, hget, hentry => by
    obtain ⟨st₁, hst₁, hstep⟩ := h.syncPath hplaced (hmemory p mem_cons_self)
      (hentry p mem_cons_self)
    rw [hget p mem_cons_self] at hstep
    obtain ⟨st₂, hst₂, hrest⟩ := PathSynced.foldlM_syncPath hplaced' paths hstep.synced
      (hplaced.update hplaced' p) (fun q hq => hmemory q (mem_cons_of_mem p hq))
      (fun q hq => hget q (mem_cons_of_mem p hq))
      (fun q hq => hentry q (mem_cons_of_mem p hq))
    rw [Documents.update_overwrite] at hrest
    refine ⟨st₂, ?_, hstep.trans hrest⟩
    rw [foldlM_cons, hst₁]
    exact hst₂

end Step

/-! ## The start -/

theorem get?_slotIndexes (h : InSync rootMoniker m docs) (p : MemoryPath) (i : ℕ) :
    (slotIndexes m).get? p = some i ↔ p ∈ m.memorySlots ∧ (m.files.map (·.path))[i]? = some p := by
  have hmem : ∀ p i, (p, i) ∈ (m.files.zipIdx.filterMap fun e =>
      if e.1.path ∈ m.memorySlots then some (e.1.path, e.2) else none) ↔
        ∃ f, m.files[i]? = some f ∧ f.path = p ∧ p ∈ m.memorySlots := by
    intro p i
    rw [mem_filterMap]
    constructor
    · rintro ⟨⟨f, j⟩, hf, hsome⟩
      split_ifs at hsome with hslot
      obtain ⟨rfl, rfl⟩ := Prod.mk.inj (some.inj hsome)
      exact ⟨f, mk_mem_zipIdx_iff_getElem?.mp hf, rfl, hslot⟩
    · rintro ⟨f, hf, rfl, hslot⟩
      exact ⟨(f, i), mk_mem_zipIdx_iff_getElem?.mpr hf, if_pos hslot⟩
  rw [slotIndexes, OrdMap.get?_ofList_of_unique, hmem, getElem?_map, Option.map_eq_some_iff]
  · constructor
    · rintro ⟨f, hf, hpath, hslot⟩
      exact ⟨hslot, f, hf, hpath⟩
    · rintro ⟨hslot, f, hf, hpath⟩
      exact ⟨f, hf, hpath, hslot⟩
  · intro q i j hi hj
    obtain ⟨f, hf, rfl, hslot⟩ := (hmem q i).mp hi
    obtain ⟨g, hg, hpath, -⟩ := (hmem _ j).mp hj
    exact h.index_unique hf hg hpath.symm (h.mem_slots.mp hslot).2

/-- The root of memory files may be made before it is needed. -/
theorem InSync.addRoot (h : InSync rootMoniker m docs) (revisions : OrdMap String (Option String)) :
    InSync rootMoniker
      { m with roots := (memorySourceRootIndex m.roots).2, memoryRevisions := revisions } docs where
  once := h.once
  filed := h.filed
  slots := h.slots
  active f hf hmemory c hc := by
    dsimp only
    rw [memoryFile_roots]
    exact h.active f hf hmemory c hc
  retired := h.retired
  documents := h.documents
  contents := h.contents
  rooted _ _ _ := by rw [memorySourceRootIndex_idem]

theorem InSync.of_revisions (h : InSync rootMoniker m docs)
    (revisions : OrdMap String (Option String)) :
    InSync rootMoniker { m with memoryRevisions := revisions } docs :=
  ⟨h.once, h.filed, h.slots, h.active, h.retired, h.documents, h.contents, h.rooted⟩

/-! ## The sync -/

/-- What the sync along paths makes of a material in sync. -/
structure PathsSync (rootMoniker : Lang → FsPath → RootContext → Option Moniker)
    (m m' : SourceCatalogMaterial) (docs' : Documents)
    (revisions : OrdMap String (Option String)) (changed : Bool) : Prop where
  inSync : InSync rootMoniker m' docs'
  revisions : m'.memoryRevisions = revisions
  keepsFiles : KeepsFiles m.files m'.files
  memoryFile_eq : ∀ c, memoryFile rootMoniker m'.roots c = memoryFile rootMoniker m.roots c
  same : changed = false → m' = m

theorem Documents.overwrite_eq {docs docs' : Documents} (hplaced : PlacedDocuments docs)
    (hplaced' : PlacedDocuments docs') {paths : List MemoryPath}
    (hcovers : ∀ p, docs p ≠ docs' p → p ∈ paths) :
    docs.overwrite docs' (paths.filter isMemorySourcePath) = docs' := by
  funext p
  unfold Documents.overwrite
  split_ifs with hp
  · rfl
  · by_contra hne
    have hdisk : ¬isMemorySourcePath p = true := fun hmemory =>
      hp (mem_filter.mpr ⟨hcovers p hne, hmemory⟩)
    have hnone : ∀ {docs : Documents}, PlacedDocuments docs → docs p = none := by
      intro docs hplaced
      by_contra hsome
      obtain ⟨c, hc⟩ := Option.ne_none_iff_exists'.mp hsome
      exact hdisk (hplaced.isMemorySourcePath hc)
    exact hne ((hnone hplaced).trans (hnone hplaced').symm)

/-- The root is there already if nothing else has to be done for a document. -/
theorem InSync.rooted_of_inSync (h : InSync rootMoniker m docs) {docs' : Documents}
    {roots : List SourceRoot} {revisions : OrdMap String (Option String)}
    (h' : InSync rootMoniker { m with roots, memoryRevisions := revisions } docs')
    (hplaced' : PlacedDocuments docs') {c : CachedMemorySource} (hc : docs' p = some c) :
    (memorySourceRootIndex m.roots).2 = m.roots := by
  obtain ⟨f, hf, rfl⟩ := mem_map.mp (h'.filed p (h'.documents p c hc))
  have hmemory := hplaced'.isMemorySourcePath hc
  cases hdoc : docs f.path with
  | some d => exact h.rooted f.path d hdoc
  | none =>
    have hretired := h.retired f hf hmemory hdoc
    rw [h'.active f hf hmemory c hc, memoryFile_retired] at hretired
    exact nomatch hretired

theorem InSync.syncMemorySourcePaths (h : InSync rootMoniker m docs) (hplaced : PlacedDocuments docs)
    {docs' : Documents} (hplaced' : PlacedDocuments docs')
    {entries : OrdMap MemoryPath CachedMemorySource} {revisions : OrdMap String (Option String)}
    {paths : List MemoryPath} (hget : ∀ p ∈ paths, entries.get? p = docs' p)
    (hcovers : ∀ p, docs p ≠ docs' p → p ∈ paths) :
    ∃ changed m', syncMemorySourcePaths rootMoniker m entries revisions paths = some (changed, m') ∧
      PathsSync rootMoniker m m' docs' revisions changed := by
  unfold CodeMoniker.syncMemorySourcePaths
  dsimp only
  generalize hneeds : (paths.any fun path => (entries.get? path).isSome) = needsRoot
  have hneeds' : ∀ p ∈ paths, ∀ c, entries.get? p = some c → needsRoot = true := by
    rintro p hp c hc
    rw [← hneeds, any_eq_true]
    exact ⟨p, hp, by rw [hc]; rfl⟩
  have hroots : ∀ c, memoryFile rootMoniker
      (if needsRoot then (memorySourceRootIndex m.roots).2 else m.roots) c =
        memoryFile rootMoniker m.roots c := by
    intro c
    split_ifs
    · exact memoryFile_roots rootMoniker m.roots c
    · rfl
  have hstart : InSync rootMoniker
      { m with
        roots := if needsRoot then (memorySourceRootIndex m.roots).2 else m.roots
        memoryRevisions := revisions } docs := by
    split_ifs
    · exact h.addRoot revisions
    · exact h.of_revisions revisions
  have hsynced : PathSynced rootMoniker
      (if needsRoot then (memorySourceRootIndex m.roots).2 else m.roots) revisions
      { files := m.files
        slots := slotIndexes m
        memorySlots := m.memorySlots
        memorySources := m.memorySources
        changed := decide (m.memoryRevisions.entries ≠ revisions.entries) } docs :=
    ⟨hstart, get?_slotIndexes h⟩
  have hentry : ∀ p ∈ paths.filter isMemorySourcePath, ∀ c, entries.get? p = some c →
      Entry (if needsRoot then (memorySourceRootIndex m.roots).2 else m.roots)
        (if needsRoot then some (memorySourceRootIndex m.roots).1 else none) p c := by
    intro p hp c hc
    have hpaths := (mem_filter.mp hp).1
    obtain ⟨hvalid, hpath⟩ := hplaced' p c ((hget p hpaths).symm.trans hc)
    rw [hneeds' p hpaths c hc, if_pos rfl, if_pos rfl]
    exact ⟨hvalid, hpath, by rw [memorySourceRootIndex_idem], by rw [memorySourceRootIndex_idem]⟩
  obtain ⟨st, hst, hstep⟩ := PathSynced.foldlM_syncPath hplaced' _ hsynced hplaced
    (fun p hp => (mem_filter.mp hp).2) (fun p hp => hget p (mem_filter.mp hp).1) hentry
  rw [Documents.overwrite_eq hplaced hplaced' hcovers] at hstep
  refine ⟨_, _, by rw [hst]; rfl, hstep.synced.inSync, rfl, hstep.keepsFiles, hroots,
    fun hsame => ?_⟩
  obtain rfl := hstep.same hsame
  have hrevisions : m.memoryRevisions = revisions := by
    refine OrdMap.ext fun k => ?_
    have heq : m.memoryRevisions.entries = revisions.entries := by simpa using hsame
    rw [OrdMap.get?, heq]
    rfl
  subst hrevisions
  cases hneed : needsRoot with
  | false => rw [PathSync.material, if_neg Bool.false_ne_true]
  | true =>
    rw [hneed, any_eq_true] at hneeds
    obtain ⟨p, hp, hsome⟩ := hneeds
    obtain ⟨c, hc⟩ := Option.isSome_iff_exists.mp hsome
    have hroot := h.rooted_of_inSync hstep.synced.inSync hplaced' ((hget p hp).symm.trans hc)
    rw [PathSync.material, if_pos rfl, hroot]

end CodeMoniker
