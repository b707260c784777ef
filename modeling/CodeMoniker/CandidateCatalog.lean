import CodeMoniker.SourceMaterial
import CodeMoniker.Linkage

/-!
# Candidate definitions of the linkage

References are linked to candidates : the definitions of all files except comments and
anonymous callbacks. The catalog keeps a shard for each file, with the ordinal of each
candidate definition, a map from ordinals back to places (`locations`), and indexes by
moniker and by name. A refresh replaces the shards of the files that changed.

A place that `locations` gives is one that its shard gives the same ordinal
(`CandidateCatalog.Fits`). Both ways of filling the catalog keep this
(`CandidateCatalog.build_spec`, `CandidateCatalog.refreshFiles_spec`), and under it
`CandidateCatalog.candidate` reads a definition that is there.
-/

namespace CodeMoniker

open List Option ByteCodec

/-! ## Candidates and their keys -/

structure LinkageCandidate where
  moniker : Moniker
  lastSegment : Option Segment
  segmentCount : ℕ
  callName : Option Bytes
  callArity : Option ℕ
  visibility : Bytes
  signature : Bytes
  sourceFile : ℕ

namespace LinkageCandidate

/-- The source's `candidate` function. -/
def ofDef (fileIdx : ℕ) (d : DefRecord) : LinkageCandidate where
  moniker := d.moniker
  lastSegment := d.moniker.segments.getLast?
  segmentCount := d.moniker.segments.length
  callName := if d.callName = [] then none else some d.callName
  callArity := d.callArity
  visibility := d.visibility
  signature := d.signature
  sourceFile := fileIdx

def pushKey (keys : List Bytes) (key : Bytes) : List Bytes :=
  if key = [] ∨ key ∈ keys then keys else keys ++ [key]

variable (c : LinkageCandidate)

/-- The package that an `__init__` module answers to. -/
def pythonInitPackageName : Option Bytes := do
  let last ← c.lastSegment
  if last.kind = byteString "module" ∧ last.name = byteString "__init__" then
    let before ← c.moniker.segments.dropLast.getLast?
    if before.kind = byteString "package" then some before.name else none
  else none

def stripSuffix (name suffix : Bytes) : Option Bytes :=
  if suffix.isSuffixOf name then some (name.take (name.length - suffix.length)) else none

/-- The names a reference may use for the candidate. -/
def keys : List Bytes :=
  let called := (c.callName.toList).foldl pushKey []
  let named :=
    match c.lastSegment with
    | none => called
    | some segment =>
      let bare := pushKey called (bareCallableName segment.name)
      if segment.kind = byteString "class" then
        (stripSuffix segment.name (byteString "Attribute")).toList.foldl pushKey bare
      else bare
  c.pythonInitPackageName.toList.foldl pushKey named

/-- Locals and parameters are candidates in their own file only. -/
def isGlobal : Bool :=
  c.lastSegment.all fun s => s.kind ≠ byteString "local" ∧ s.kind ≠ byteString "param"

end LinkageCandidate

def hasPositionBackedAnonymousName (m : Moniker) : Bool :=
  m.segments.getLast?.any fun s => (byteString "__cb_").isPrefixOf s.name

def isLinkageCandidateDef (d : DefRecord) : Bool :=
  d.kind ≠ byteString "comment" && !hasPositionBackedAnonymousName d.moniker

/-! ## Indexes by moniker and name -/

abbrev NameIndex := AList fun _ : Bytes => SymbolSet

def insertName (index : NameIndex) (key : Bytes) (symbol : SymbolOrdinal) : NameIndex :=
  index.insert key (((index.lookup key).getD ∅).insert symbol)

/-- A key without symbols is dropped. -/
def removeName (index : NameIndex) (key : Bytes) (symbol : SymbolOrdinal) : NameIndex :=
  match index.lookup key with
  | none => index
  | some symbols =>
    let rest := symbols.filter (· ≠ symbol)
    if rest = ∅ then index.erase key else index.insert key rest

section Partitioned

variable {κ : Type} [DecidableEq κ]

def insertPartitionedName (index : AList fun _ : κ => NameIndex) (part : κ) (key : Bytes)
    (symbol : SymbolOrdinal) : AList fun _ : κ => NameIndex :=
  index.insert part (insertName ((index.lookup part).getD ∅) key symbol)

/-- A partition without keys is dropped. -/
def removePartitionedName (index : AList fun _ : κ => NameIndex) (part : κ) (key : Bytes)
    (symbol : SymbolOrdinal) : AList fun _ : κ => NameIndex :=
  match index.lookup part with
  | none => index
  | some names =>
    let rest := removeName names key symbol
    if rest.entries = [] then index.erase part else index.insert part rest

end Partitioned

structure CandidateIndexes where
  byMoniker : AList fun _ : Moniker => SymbolOrdinal
  byLanguageName : AList fun _ : Lang => NameIndex
  bySourceName : AList fun _ : ℕ => NameIndex

namespace CandidateIndexes

def empty : CandidateIndexes := ⟨∅, ∅, ∅⟩

variable (x : CandidateIndexes)

def pushCandidate (lang : Lang) (symbol : SymbolOrdinal)
    (c : LinkageCandidate) : CandidateIndexes where
  byMoniker := x.byMoniker.insert c.moniker symbol
  byLanguageName :=
    if c.isGlobal then
      c.keys.foldl (fun names key => insertPartitionedName names lang.ecosystem key symbol)
        x.byLanguageName
    else x.byLanguageName
  bySourceName :=
    c.keys.foldl (fun names key => insertPartitionedName names c.sourceFile key symbol)
      x.bySourceName

def removeCandidate (lang : Lang) (symbol : SymbolOrdinal)
    (c : LinkageCandidate) : CandidateIndexes where
  byMoniker :=
    if x.byMoniker.lookup c.moniker = some symbol then x.byMoniker.erase c.moniker
    else x.byMoniker
  byLanguageName :=
    if c.isGlobal then
      c.keys.foldl (fun names key => removePartitionedName names lang.ecosystem key symbol)
        x.byLanguageName
    else x.byLanguageName
  bySourceName :=
    c.keys.foldl (fun names key => removePartitionedName names c.sourceFile key symbol)
      x.bySourceName

def symbolByMoniker (m : Moniker) : Option SymbolOrdinal :=
  x.byMoniker.lookup m

end CandidateIndexes

/-! ## Catalog -/

/-- A file with the ordinal of each of its candidate definitions. -/
structure CandidateFileShard where
  file : IndexedSourceFile
  byLocation : List (Option SymbolOrdinal)

structure CandidateCatalog where
  files : List CandidateFileShard
  symbols : SymbolOrdinalCatalog
  locations : AList fun _ : SymbolOrdinal => ℕ × ℕ
  indexes : CandidateIndexes

namespace CandidateCatalog

/-- The ordinal that a list of shards gives a place. -/
def slotIn (files : List CandidateFileShard) (fileIdx defIdx : ℕ) : Option SymbolOrdinal := do
  let shard ← files[fileIdx]?
  (shard.byLocation[defIdx]?).join

def symbolAt (c : CandidateCatalog) (fileIdx defIdx : ℕ) : Option SymbolOrdinal :=
  slotIn c.files fileIdx defIdx

/-- The candidate under an ordinal. The outer `none` stands for a definition that is not
there. -/
def candidate (c : CandidateCatalog) (symbol : SymbolOrdinal) : Option (Option LinkageCandidate) :=
  match c.locations.lookup symbol with
  | none => some none
  | some (fileIdx, defIdx) =>
    match c.files[fileIdx]? with
    | none => some none
    | some shard =>
      (shard.file.graph.defAt defIdx).map fun d => some (LinkageCandidate.ofDef fileIdx d)

/-- The catalog with one definition more. -/
def place (c : CandidateCatalog) (fileIdx : ℕ) (lang : Lang) (defIdx : ℕ) (d : DefRecord)
    (symbol : SymbolOrdinal) : CandidateCatalog :=
  { c with
    locations := c.locations.insert symbol (fileIdx, defIdx)
    indexes := c.indexes.pushCandidate lang symbol (.ofDef fileIdx d) }

/-- The loop of `index_shard`, from definition `n` of the file on. -/
def indexDefs (fileIdx : ℕ) (lang : Lang) : ℕ → List DefRecord →
    CandidateCatalog × List (Option SymbolOrdinal) →
      CandidateCatalog × List (Option SymbolOrdinal)
  | _, [], acc => acc
  | n, d :: defs, acc =>
    if isLinkageCandidateDef d then
      match acc.1.symbols.ordinal ⟨fileIdx, n⟩ with
      | none => indexDefs fileIdx lang (n + 1) defs acc
      | some symbol =>
        indexDefs fileIdx lang (n + 1) defs
          (acc.1.place fileIdx lang n d symbol, acc.2.set n (some symbol))
    else indexDefs fileIdx lang (n + 1) defs acc

/-- Index the definitions of a file. The result is the catalog and the shard of the file. -/
def indexShard (c : CandidateCatalog) (fileIdx : ℕ) (file : IndexedSourceFile) :
    CandidateCatalog × CandidateFileShard :=
  let indexed := indexDefs fileIdx file.lang 0 file.graph.defs
    (c, List.replicate file.graph.defCount none)
  (indexed.1, ⟨file, indexed.2⟩)

/-- The loop of `unindex_shard`, from slot `n` of the shard on. -/
def unindexSlots (fileIdx : ℕ) (file : IndexedSourceFile) : ℕ → List (Option SymbolOrdinal) →
    CandidateCatalog → Option CandidateCatalog
  | _, [], c => some c
  | n, none :: slots, c => unindexSlots fileIdx file (n + 1) slots c
  | n, some symbol :: slots, c => do
    let d ← file.graph.defAt n
    unindexSlots fileIdx file (n + 1) slots
      { c with
        locations := c.locations.erase symbol
        indexes := c.indexes.removeCandidate file.lang symbol (.ofDef fileIdx d) }

def pushFile (c : CandidateCatalog) (fileIdx : ℕ) (file : IndexedSourceFile) : CandidateCatalog :=
  let indexed := c.indexShard fileIdx file
  { indexed.1 with files := indexed.1.files ++ [indexed.2] }

/-- The shard of a file that changed : unindexed as it was, and indexed anew. -/
def refreshFile (c : CandidateCatalog) (fileIdx : ℕ) (shard : CandidateFileShard)
    (file : IndexedSourceFile) : Option CandidateCatalog := do
  let cleared ← unindexSlots fileIdx shard.file 0 shard.byLocation c
  let indexed := cleared.indexShard fileIdx file
  some { indexed.1 with files := indexed.1.files.set fileIdx indexed.2 }

def pushFiles : ℕ → List IndexedSourceFile → CandidateCatalog → CandidateCatalog
  | _, [], c => c
  | i, file :: files, c => pushFiles (i + 1) files (c.pushFile i file)

/-- `CandidateCatalog::new`. -/
def build (m : CodeIndexMaterial) (symbols : SymbolOrdinalCatalog) : CandidateCatalog :=
  pushFiles 0 m.files ⟨[], symbols, ∅, .empty⟩

/-- One turn of the loop of `refresh_files`. `same` tells for which files the catalog holds
the very allocation that the material holds. -/
def refreshSlot (same : ℕ → Bool) (c : CandidateCatalog) (i : ℕ) (file : IndexedSourceFile) :
    Option CandidateCatalog :=
  match c.files[i]? with
  | none => some (c.pushFile i file)
  | some shard => if same i then some c else c.refreshFile i shard file

def refreshFrom (same : ℕ → Bool) : ℕ → List IndexedSourceFile → CandidateCatalog →
    Option CandidateCatalog
  | _, [], c => some c
  | i, file :: files, c => do refreshFrom same (i + 1) files (← c.refreshSlot same i file)

def refreshFiles (c : CandidateCatalog) (m : CodeIndexMaterial) (symbols : SymbolOrdinalCatalog)
    (same : ℕ → Bool) : Option CandidateCatalog :=
  refreshFrom same 0 m.files { c with symbols := symbols }

/-! ## Places and shards agree -/

variable {files : List CandidateFileShard}

theorem slotIn_eq_some {f d : ℕ} {o : SymbolOrdinal} : slotIn files f d = some o ↔
      ∃ shard, files[f]? = some shard ∧ shard.byLocation[d]? = some (some o) := by
  unfold slotIn
  cases files[f]? with
  | none => simp
  | some shard => simp [join_eq_some_iff]

/-- Shards have a slot for each definition, and a place of an ordinal is one at which its
shard has that ordinal. -/
structure Fits (c : CandidateCatalog) : Prop where
  lengths : ∀ shard ∈ c.files, shard.byLocation.length = shard.file.graph.defs.length
  located : ∀ o f d, c.locations.lookup o = some (f, d) → c.symbolAt f d = some o

/-- While file `fileIdx` is being indexed : places outside of it agree with the shards
`files`, and places in it lie below `n` and agree with `slots`. -/
def Indexing (files : List CandidateFileShard) (fileIdx n : ℕ) (slots : List (Option SymbolOrdinal))
    (locations : AList fun _ : SymbolOrdinal => ℕ × ℕ) : Prop :=
  ∀ o f d, locations.lookup o = some (f, d) →
    f ≠ fileIdx ∧ slotIn files f d = some o ∨ f = fileIdx ∧ d < n ∧ slots[d]? = some (some o)

theorem Indexing.succ {fileIdx n : ℕ}
    {slots : List (Option SymbolOrdinal)} {locations : AList fun _ : SymbolOrdinal => ℕ × ℕ}
    (h : Indexing files fileIdx n slots locations) :
    Indexing files fileIdx (n + 1) slots locations := by
  intro o f d ho
  rcases h o f d ho with h | ⟨hf, hd, hs⟩
  · exact Or.inl h
  · exact Or.inr ⟨hf, by omega, hs⟩

/-- One candidate definition more. -/
theorem Indexing.insert {fileIdx n : ℕ}
    {slots : List (Option SymbolOrdinal)} {locations : AList fun _ : SymbolOrdinal => ℕ × ℕ}
    (h : Indexing files fileIdx n slots locations) (hn : n < slots.length)
    (symbol : SymbolOrdinal) : Indexing files fileIdx (n + 1) (slots.set n (some symbol))
      (locations.insert symbol (fileIdx, n)) := by
  intro o f d ho
  by_cases hos : o = symbol
  · subst hos
    rw [AList.lookup_insert] at ho
    obtain ⟨rfl, rfl⟩ := Prod.mk.inj (some.inj ho)
    refine Or.inr ⟨rfl, Nat.lt_succ_self n, ?_⟩
    rw [getElem?_set_self hn]
  · rw [AList.lookup_insert_ne hos] at ho
    rcases h o f d ho with h | ⟨hf, hd, hs⟩
    · exact Or.inl h
    · refine Or.inr ⟨hf, by omega, ?_⟩
      rwa [getElem?_set_ne (by omega)]

theorem indexDefs_spec (fileIdx : ℕ) (lang : Lang) (files : List CandidateFileShard) :
    ∀ (defs : List DefRecord) (n : ℕ) (acc : CandidateCatalog × List (Option SymbolOrdinal)),
      n + defs.length = acc.2.length → acc.1.files = files →
      Indexing files fileIdx n acc.2 acc.1.locations →
        let indexed := indexDefs fileIdx lang n defs acc
        indexed.1.files = files ∧ indexed.2.length = acc.2.length ∧
          Indexing files fileIdx acc.2.length indexed.2 indexed.1.locations
  | [], n, acc, hlen, hfiles, h => by
    obtain rfl : n = acc.2.length := by simpa using hlen
    exact ⟨hfiles, rfl, h⟩
  | d :: defs, n, acc, hlen, hfiles, h => by
    rw [length_cons] at hlen
    have hskip := indexDefs_spec fileIdx lang files defs (n + 1) acc (by omega) hfiles h.succ
    unfold indexDefs
    split_ifs
    · split
      · exact hskip
      · next symbol _ =>
        have hset : n + 1 + defs.length = (acc.2.set n (some symbol)).length := by
          rw [length_set]
          omega
        have hnext := indexDefs_spec fileIdx lang files defs (n + 1)
          (acc.1.place fileIdx lang n d symbol, acc.2.set n (some symbol)) hset hfiles
          (h.insert (by omega) symbol)
        simpa using hnext
    · exact hskip

variable {c : CandidateCatalog}

/-- Indexing a file : the shard is as long as the file's definitions, and its places are the
only ones in the file. -/
theorem indexShard_spec {fileIdx : ℕ} (file : IndexedSourceFile)
    (h : ∀ o f d, c.locations.lookup o = some (f, d) → f ≠ fileIdx ∧ c.symbolAt f d = some o) :
    let indexed := c.indexShard fileIdx file
    indexed.1.files = c.files ∧ indexed.2.file = file ∧
      indexed.2.byLocation.length = file.graph.defs.length ∧
      ∀ o f d, indexed.1.locations.lookup o = some (f, d) →
        f ≠ fileIdx ∧ c.symbolAt f d = some o ∨
          f = fileIdx ∧ indexed.2.byLocation[d]? = some (some o) := by
  have hspec := indexDefs_spec fileIdx file.lang c.files file.graph.defs 0
    (c, replicate file.graph.defCount none) (by simp [CodeGraph.defCount]) rfl
    fun o f d ho => Or.inl (h o f d ho)
  obtain ⟨hfiles, hlen, hplaces⟩ := hspec
  refine ⟨hfiles, rfl, by simpa [indexShard, CodeGraph.defCount] using hlen, ?_⟩
  intro o f d ho
  rcases hplaces o f d ho with hout | ⟨hf, -, hslot⟩
  · exact Or.inl hout
  · exact Or.inr ⟨hf, hslot⟩

/-- A file at the end of the catalog. -/
theorem pushFile_spec (h : Fits c) (file : IndexedSourceFile) :
    Fits (c.pushFile c.files.length file) ∧
      ∃ shard, (c.pushFile c.files.length file).files = c.files ++ [shard] ∧ shard.file = file := by
  -- a place lies in a shard that is there, so none lies in the new file yet
  have hout : ∀ o f d, c.locations.lookup o = some (f, d) →
      f ≠ c.files.length ∧ c.symbolAt f d = some o := by
    intro o f d ho
    have hs := h.located o f d ho
    refine ⟨?_, hs⟩
    rintro rfl
    simp [symbolAt, slotIn] at hs
  obtain ⟨hfiles, hfile, hlen, hplaces⟩ := indexShard_spec file hout
  have hpushed : (c.pushFile c.files.length file).files =
      c.files ++ [(c.indexShard c.files.length file).2] := by
    rw [pushFile, hfiles]
  refine ⟨⟨?_, ?_⟩, _, hpushed, hfile⟩
  · intro shard hshard
    rw [hpushed] at hshard
    rcases mem_append.mp hshard with hshard | hshard
    · exact h.lengths shard hshard
    · obtain rfl := mem_singleton.mp hshard
      rw [hlen, hfile]
  · intro o f d ho
    rw [symbolAt, slotIn_eq_some, hpushed]
    rcases hplaces o f d ho with ⟨-, hs⟩ | ⟨rfl, hs⟩
    · obtain ⟨shard, hshard, hs⟩ := slotIn_eq_some.mp hs
      have hlt : f < c.files.length := (List.getElem?_eq_some_iff.mp hshard).1
      exact ⟨shard, by rwa [getElem?_append_left hlt], hs⟩
    · exact ⟨_, getElem?_concat_length, hs⟩

/-- Unindexing reads definitions that are there, and leaves no place to an ordinal of the
shard. -/
theorem unindexSlots_spec (fileIdx : ℕ) (file : IndexedSourceFile) :
    ∀ (slots : List (Option SymbolOrdinal)) (n : ℕ) (c : CandidateCatalog),
      n + slots.length ≤ file.graph.defs.length →
        ∃ c', unindexSlots fileIdx file n slots c = some c' ∧ c'.files = c.files ∧
          ∀ o place, c'.locations.lookup o = some place →
            c.locations.lookup o = some place ∧ some o ∉ slots
  | [], _, c, _ => ⟨c, rfl, rfl, fun _ _ ho => ⟨ho, not_mem_nil⟩⟩
  | none :: slots, n, c, hlen => by
    rw [length_cons] at hlen
    obtain ⟨c', hc', hfiles, hplaces⟩ := unindexSlots_spec fileIdx file slots (n + 1) c (by omega)
    refine ⟨c', hc', hfiles, fun o place ho => ?_⟩
    obtain ⟨ho, hslots⟩ := hplaces o place ho
    exact ⟨ho, by simpa using hslots⟩
  | some symbol :: slots, n, c, hlen => by
    rw [length_cons] at hlen
    have hd : file.graph.defAt n = some (file.graph.defs[n]) := getElem?_eq_getElem (by omega)
    obtain ⟨c', hc', hfiles, hplaces⟩ := unindexSlots_spec fileIdx file slots (n + 1)
      { c with
        locations := c.locations.erase symbol
        indexes := c.indexes.removeCandidate file.lang symbol (.ofDef fileIdx file.graph.defs[n]) }
      (by omega)
    refine ⟨c', by rw [unindexSlots, hd]; exact hc', hfiles, fun o place ho => ?_⟩
    obtain ⟨ho, hslots⟩ := hplaces o place ho
    have hne : o ≠ symbol := by
      rintro rfl
      simp at ho
    rw [AList.lookup_erase_ne hne] at ho
    exact ⟨ho, by simp [hne, hslots]⟩

/-- A file in the place of the shard that stood at its index. -/
theorem refreshFile_spec (h : Fits c) {i : ℕ} {shard : CandidateFileShard}
    (hshard : c.files[i]? = some shard) (file : IndexedSourceFile) :
    ∃ c', c.refreshFile i shard file = some c' ∧ Fits c' ∧
      ∃ shard', c'.files = c.files.set i shard' ∧ shard'.file = file := by
  have hlen := h.lengths shard (mem_of_getElem? hshard)
  obtain ⟨cleared, hcleared, hclearedFiles, hclearedPlaces⟩ :=
    unindexSlots_spec i shard.file shard.byLocation 0 c (by omega)
  have hout : ∀ o f d, cleared.locations.lookup o = some (f, d) →
      f ≠ i ∧ cleared.symbolAt f d = some o := by
    intro o f d ho
    obtain ⟨ho, hslots⟩ := hclearedPlaces o (f, d) ho
    have hs := h.located o f d ho
    refine ⟨?_, by rwa [symbolAt, hclearedFiles]⟩
    rintro rfl
    obtain ⟨shard', hshard', hs⟩ := slotIn_eq_some.mp hs
    obtain rfl := some.inj (hshard.symm.trans hshard')
    exact hslots (mem_of_getElem? hs)
  obtain ⟨hfiles, hfile, hnew, hplaces⟩ := indexShard_spec file hout
  have hlt : i < c.files.length := (List.getElem?_eq_some_iff.mp hshard).1
  set indexed := cleared.indexShard i file with hindexed
  have hset : indexed.1.files.set i indexed.2 = c.files.set i indexed.2 := by
    rw [hfiles, hclearedFiles]
  refine ⟨{ indexed.1 with files := indexed.1.files.set i indexed.2 }, ?_, ⟨?_, ?_⟩,
    indexed.2, hset, hfile⟩
  · rw [refreshFile, hcleared]
    rfl
  · intro shard' hshard'
    simp only [hset] at hshard'
    rcases mem_or_eq_of_mem_set hshard' with hshard' | rfl
    · exact h.lengths shard' hshard'
    · rw [hnew, hfile]
  · intro o f d ho
    simp only [symbolAt, hset]
    rw [slotIn_eq_some]
    rcases hplaces o f d ho with ⟨hne, hs⟩ | ⟨rfl, hs⟩
    · rw [symbolAt, hclearedFiles] at hs
      obtain ⟨shard', hshard', hs⟩ := slotIn_eq_some.mp hs
      exact ⟨shard', by rwa [getElem?_set_ne hne.symm], hs⟩
    · exact ⟨indexed.2, getElem?_set_self hlt, hs⟩

/-- One turn leaves the file at its index and the other shards as they were. -/
theorem refreshSlot_spec {same : ℕ → Bool} {c : CandidateCatalog} (h : Fits c) {i : ℕ}
    (hi : i ≤ c.files.length) {file : IndexedSourceFile}
    (hsame : ∀ shard, c.files[i]? = some shard → same i → shard.file = file) :
    ∃ c', c.refreshSlot same i file = some c' ∧ Fits c' ∧
      (∃ shard, c'.files[i]? = some shard ∧ shard.file = file) ∧
      ∀ k ≠ i, c'.files[k]? = c.files[k]? := by
  unfold refreshSlot
  split
  · next hnone =>
    obtain rfl : i = c.files.length := by
      have := getElem?_eq_none_iff.mp hnone
      omega
    obtain ⟨hfits, shard, hfiles, hfile⟩ := pushFile_spec h file
    refine ⟨_, rfl, hfits, ⟨shard, ?_, hfile⟩, fun k hk => ?_⟩
    · rw [hfiles, getElem?_concat_length]
    · rw [hfiles]
      rcases Nat.lt_or_gt_of_ne hk with hlt | hgt
      · exact getElem?_append_left hlt
      · rw [getElem?_eq_none (by simp; omega), getElem?_eq_none (by omega)]
  · next shard hshard =>
    split_ifs with hs
    · exact ⟨c, rfl, h, ⟨shard, hshard, hsame shard hshard hs⟩, fun _ _ => rfl⟩
    · obtain ⟨c', hc', hfits, shard', hfiles, hfile⟩ := refreshFile_spec h hshard file
      have hlt : i < c.files.length := (List.getElem?_eq_some_iff.mp hshard).1
      refine ⟨c', hc', hfits, ⟨shard', ?_, hfile⟩, fun k hk => ?_⟩
      · rw [hfiles, getElem?_set_self hlt]
      · rw [hfiles, getElem?_set_ne hk.symm]

theorem refreshFrom_spec (same : ℕ → Bool) : ∀ (files : List IndexedSourceFile) (i : ℕ)
    (c : CandidateCatalog), Fits c → i ≤ c.files.length →
    (∀ j shard file, c.files[i + j]? = some shard → files[j]? = some file → same (i + j) →
      shard.file = file) → ∃ c', refreshFrom same i files c = some c' ∧ Fits c' ∧
        (∀ k < i, c'.files[k]? = c.files[k]?) ∧
        ∀ j file, files[j]? = some file → ∃ shard, c'.files[i + j]? = some shard ∧ shard.file = file
  | [], _, c, h, _, _ => ⟨c, rfl, h, fun _ _ => rfl, by simp⟩
  | file :: files, i, c, h, hi, hsame => by
    obtain ⟨next, hnext, hfits, ⟨shard, hshard, hfile⟩, hother⟩ :=
      refreshSlot_spec h hi fun shard hshard hs => hsame 0 shard file hshard rfl hs
    have hlt : i < next.files.length := (List.getElem?_eq_some_iff.mp hshard).1
    obtain ⟨c', hc', hfits', hkeep, hdone⟩ := refreshFrom_spec same files (i + 1) next hfits hlt (by
      intro j shard' file' hshard' hfile' hs
      rw [hother _ (by omega)] at hshard'
      rw [Nat.add_right_comm] at hshard' hs
      exact hsame (j + 1) shard' file' hshard' hfile' hs)
    refine ⟨c', ?_, hfits', ?_, ?_⟩
    · rw [refreshFrom, hnext]
      exact hc'
    · intro k hk
      rw [hkeep k (by omega), hother k (by omega)]
    · intro j file' hj
      cases j with
      | zero =>
        obtain rfl := some.inj hj
        exact ⟨shard, by rw [Nat.add_zero, hkeep i (by omega), hshard], hfile⟩
      | succ j =>
        obtain ⟨shard', hshard', hfile'⟩ := hdone j file' hj
        exact ⟨shard', by rwa [Nat.add_right_comm] at hshard', hfile'⟩

/-- The catalog holds the files of the material. -/
def Synced (c : CandidateCatalog) (m : CodeIndexMaterial) : Prop :=
  ∀ (i : ℕ) (shard : CandidateFileShard) (file : IndexedSourceFile),
    c.files[i]? = some shard → m.files[i]? = some file → shard.file = file

/-- Where the allocations are the same, so are the files. -/
def Shares (same : ℕ → Bool) (c : CandidateCatalog) (m : CodeIndexMaterial) : Prop :=
  ∀ (i : ℕ) (shard : CandidateFileShard) (file : IndexedSourceFile),
    c.files[i]? = some shard → m.files[i]? = some file → same i → shard.file = file

/-- A refreshed catalog fits and holds the files of the material. -/
theorem refreshFiles_spec {same : ℕ → Bool} {c : CandidateCatalog} {m : CodeIndexMaterial}
    (h : Fits c) (hsame : Shares same c m) (symbols : SymbolOrdinalCatalog) :
    ∃ c', c.refreshFiles m symbols same = some c' ∧ Fits c' ∧ Synced c' m := by
  obtain ⟨c', hc', hfits, -, hfiles⟩ := refreshFrom_spec same m.files 0
    { c with symbols := symbols } ⟨h.lengths, h.located⟩ (Nat.zero_le _) (by
      intro j shard file hshard hfile hs
      rw [Nat.zero_add] at hshard hs
      exact hsame j shard file hshard hfile hs)
  refine ⟨c', hc', hfits, fun i shard file hshard hfile => ?_⟩
  obtain ⟨shard', hshard', hfile'⟩ := hfiles i file hfile
  rw [Nat.zero_add] at hshard'
  obtain rfl := some.inj (hshard.symm.trans hshard')
  exact hfile'

/-- Building from nothing is a refresh that finds no shard. -/
theorem refreshFrom_eq_pushFiles (same : ℕ → Bool) : ∀ (files : List IndexedSourceFile)
    (c : CandidateCatalog), Fits c →
      refreshFrom same c.files.length files c = some (pushFiles c.files.length files c)
  | [], _, _ => rfl
  | file :: files, c, h => by
    obtain ⟨hfits, shard, hfiles, -⟩ := pushFile_spec h file
    have hlen : (c.pushFile c.files.length file).files.length = c.files.length + 1 := by
      rw [hfiles, length_append, length_singleton]
    have hrest := refreshFrom_eq_pushFiles same files _ hfits
    rw [hlen] at hrest
    have hslot : c.refreshSlot same c.files.length file = some (c.pushFile c.files.length file) := by
      simp [refreshSlot]
    rw [refreshFrom, hslot, pushFiles]
    exact hrest

/-- A new catalog fits and holds the files of the material. -/
theorem build_spec (m : CodeIndexMaterial) (symbols : SymbolOrdinalCatalog) :
    Fits (build m symbols) ∧ Synced (build m symbols) m := by
  have hempty : Fits ⟨[], symbols, ∅, .empty⟩ := ⟨by simp, by simp⟩
  have hshares : Shares (fun _ => false) ⟨[], symbols, ∅, .empty⟩ m := by simp [Shares]
  obtain ⟨c, hc, hfits, hsynced⟩ := refreshFiles_spec hempty hshares symbols
  have hbuild : refreshFrom (fun _ => false) 0 m.files ⟨[], symbols, ∅, .empty⟩ =
      some (build m symbols) := refreshFrom_eq_pushFiles _ m.files _ hempty
  obtain rfl : c = build m symbols := some.inj (hc.symm.trans hbuild)
  exact ⟨hfits, hsynced⟩

/-- Under `Fits` a candidate is read from a definition that is there. -/
theorem Fits.candidate (h : Fits c) (symbol : SymbolOrdinal) :
    ∃ found, c.candidate symbol = some found ∧
      ∀ x ∈ found, ∃ shard, c.files[x.sourceFile]? = some shard ∧ shard.file.graph.defs ≠ [] := by
  unfold CandidateCatalog.candidate
  split
  · exact ⟨none, rfl, by simp⟩
  · next f d hloc =>
    obtain ⟨shard, hshard, hslot⟩ := slotIn_eq_some.mp (h.located symbol f d hloc)
    have hlt : d < shard.file.graph.defs.length := by
      rw [← h.lengths shard (mem_of_getElem? hshard)]
      exact (List.getElem?_eq_some_iff.mp hslot).1
    have hdef : shard.file.graph.defAt d = some shard.file.graph.defs[d] :=
      getElem?_eq_getElem hlt
    simp only [hshard, hdef, map_some]
    refine ⟨_, rfl, fun x hx => ⟨shard, ?_, ?_⟩⟩
    · obtain rfl := some.inj hx
      exact hshard
    · exact ne_nil_of_length_pos (by omega)

end CandidateCatalog

end CodeMoniker
