import CodeMoniker.OrdMap
import CodeMoniker.OrdSet
import CodeMoniker.StableSort
import CodeMoniker.SourceMaterial

/-!
# The in-memory source store

Documents that are not on disk come in named sets. The store keeps the sets and, beside them,
one entry for each document under a path made from the names of the set and of the document.
Replacing a set updates the entries by the difference of the two sets
(`replaceMemorySourceSet`), and a failed refresh puts the previous set back from a checkpoint
that was taken after the update (`restoreCheckpoint`).

`Coherent` says that the entries are those of the documents of the active sets. Every update
keeps it, and since it determines the entries from the sets, a rollback that brings back the
sets brings back the store (`memory_sources_coherent`).
-/

namespace CodeMoniker

open List ByteCodec

/-! ## Paths -/

/-- The components of a path. An absolute one starts with `/`. -/
abbrev MemoryPath := List String

instance lawfulBEqPath : LawfulBEq (List String) := inferInstance

/-- `Path::join` on a path that is not empty. -/
def joinPath (base : MemoryPath) (path : String) : MemoryPath :=
  let parts := ((path.toList.splitOn '/').map String.ofList).filter fun c => c ≠ "" ∧ c ≠ "."
  if path.toList.head? = some '/' then "/" :: parts else base ++ parts

def memorySourcePathRoot : String := ".code-moniker-memory"

def hexDigits : List Char := "0123456789abcdef".toList

def hexDigit (n : ℕ) : Char := hexDigits.getD n '0'

def hexPathComponent (value : Bytes) : String :=
  String.ofList (value.flatMap fun byte : UInt8 =>
    [hexDigit (byte >>> 4).toNat, hexDigit (byte &&& 0x0f).toNat])

def memorySourcePath (srcset uri : String) : MemoryPath :=
  joinPath (joinPath [memorySourcePathRoot] srcset) (hexPathComponent (byteString uri))

/-- `validate_srcset`. -/
def validSrcset (srcset : String) : Bool :=
  srcset ≠ "" ∧ (byteString srcset).length ≤ 128 ∧ srcset ≠ "." ∧ srcset ≠ ".." ∧
    srcset.toList.all fun c => c.isAlphanum || c ∈ ['-', '_', '.']

theorem joinPath_of_component {base : MemoryPath} {path : String} (h : ∀ c ∈ path.toList, c ≠ '/') :
    joinPath base path = base ++ [path].filter fun c => c ≠ "" ∧ c ≠ "." := by
  have hsplit : path.toList.splitOn '/' = [path.toList] :=
    splitOn_eq_singleton fun hmem => h '/' hmem rfl
  have hhead : path.toList.head? ≠ some '/' := fun hhead => h '/' (mem_of_head? hhead) rfl
  rw [joinPath, hsplit, if_neg hhead, map_singleton, String.ofList_toList]

theorem hexDigit_inj {m n : ℕ} (hm : m < 16) (hn : n < 16) (h : hexDigit m = hexDigit n) :
    m = n := by
  have hall : ∀ m < 16, ∀ n < 16, hexDigit m = hexDigit n → m = n := by decide
  exact hall m hm n hn h

theorem hexDigit_ne {n : ℕ} (hn : n < 16) : hexDigit n ≠ '/' ∧ hexDigit n ≠ '.' := by
  have hall : ∀ n < 16, hexDigit n ≠ '/' ∧ hexDigit n ≠ '.' := by decide
  exact hall n hn

theorem high_lt (b : UInt8) : (b >>> 4).toNat < 16 := by
  have hb := b.toNat_lt
  rw [UInt8.toNat_shiftRight]
  simp only [UInt8.reduceToNat, Nat.reduceMod, Nat.shiftRight_eq_div_pow]
  omega

theorem low_lt (b : UInt8) : (b &&& 0x0f).toNat < 16 := by
  rw [UInt8.toNat_and]
  exact Nat.lt_succ_of_le Nat.and_le_right

theorem byte_eq_of_nibbles {a b : UInt8} (hhigh : (a >>> 4).toNat = (b >>> 4).toNat)
    (hlow : (a &&& 0x0f).toNat = (b &&& 0x0f).toNat) : a = b := by
  have ha := a.toNat_lt
  have hmod : ∀ n : ℕ, n &&& 15 = n % 16 := fun n => Nat.and_two_pow_sub_one_eq_mod n 4
  rw [UInt8.toNat_shiftRight, UInt8.toNat_shiftRight] at hhigh
  rw [UInt8.toNat_and, UInt8.toNat_and] at hlow
  simp only [UInt8.reduceToNat, Nat.reduceMod, Nat.shiftRight_eq_div_pow, hmod] at hhigh hlow
  exact UInt8.toNat_inj.mp (by omega)

theorem hexPathComponent_injective : Function.Injective hexPathComponent := by
  intro a b h
  have hlist := congrArg String.toList h
  simp only [hexPathComponent, String.toList_ofList] at hlist
  clear h
  induction a generalizing b with
  | nil =>
    cases b with
    | nil => rfl
    | cons y b => simp at hlist
  | cons x a ih =>
    cases b with
    | nil => simp at hlist
    | cons y b =>
      simp only [flatMap_cons, cons_append, nil_append, cons.injEq] at hlist
      obtain ⟨hhigh, hlow, hrest⟩ := hlist
      have hx : x = y := byte_eq_of_nibbles (hexDigit_inj (high_lt x) (high_lt y) hhigh)
        (hexDigit_inj (low_lt x) (low_lt y) hlow)
      rw [hx, ih hrest]

theorem byteString_injective : Function.Injective byteString := fun _ _ h =>
  String.toList_inj.mp (Utf8.encode_injective h)

theorem mem_hexPathComponent {value : Bytes} {c : Char} (h : c ∈ (hexPathComponent value).toList) :
    c ≠ '/' ∧ c ≠ '.' := by
  simp only [hexPathComponent, String.toList_ofList, mem_flatMap] at h
  obtain ⟨b, -, hc⟩ := h
  rcases mem_pair.mp hc with rfl | rfl
  · exact hexDigit_ne (high_lt b)
  · exact hexDigit_ne (low_lt b)

/-- The path of a document : the root, the set and the encoded name, if there is one. -/
theorem memorySourcePath_eq {srcset : String} (h : validSrcset srcset = true) (uri : String) :
    memorySourcePath srcset uri = memorySourcePathRoot :: srcset ::
      [hexPathComponent (byteString uri)].filter fun c => c ≠ "" := by
  simp only [validSrcset, Bool.decide_and, Bool.and_eq_true, decide_eq_true_eq, all_eq_true] at h
  obtain ⟨hne, -, hdot, -, hchars⟩ := h
  have hsep : ∀ c ∈ srcset.toList, c ≠ '/' := by
    rintro c hc rfl
    simpa using hchars '/' hc
  have hhex : ∀ c ∈ (hexPathComponent (byteString uri)).toList, c ≠ '/' := fun c hc =>
    (mem_hexPathComponent hc).1
  have hnot : hexPathComponent (byteString uri) ≠ "." := by
    intro heq
    have hmem : '.' ∈ (hexPathComponent (byteString uri)).toList := by rw [heq]; decide
    exact (mem_hexPathComponent hmem).2 rfl
  rw [memorySourcePath, joinPath_of_component hsep, joinPath_of_component hhex]
  simp [filter_singleton, hne, hdot, hnot]

theorem memorySourcePath_inj {srcset srcset' uri uri' : String} (h : validSrcset srcset = true)
    (h' : validSrcset srcset' = true)
    (heq : memorySourcePath srcset uri = memorySourcePath srcset' uri') :
    srcset = srcset' ∧ uri = uri' := by
  rw [memorySourcePath_eq h, memorySourcePath_eq h'] at heq
  obtain ⟨-, hsrcset, hhex⟩ : _ ∧ _ ∧ _ := by simpa only [cons.injEq] using heq
  refine ⟨hsrcset, byteString_injective (hexPathComponent_injective ?_)⟩
  simp only [filter_singleton, ne_eq, decide_not] at hhex
  grind

/-! ## Sets and their differences -/

structure MemorySourceDocument where
  uri : String
  lang : Lang
  content : String
  deriving DecidableEq, Repr

structure MemorySourceSet where
  srcset : String
  revision : Option String
  documents : List MemorySourceDocument
  deriving DecidableEq, Repr

structure CachedMemorySource where
  srcset : String
  document : MemorySourceDocument
  deriving DecidableEq, Repr

structure MemorySourceSetDelta where
  added : List String := []
  modified : List String := []
  removed : List String := []
  unchanged : ℕ := 0
  deriving DecidableEq, Repr

structure MemorySourceSetUpdate where
  changed : Bool := false
  paths : List MemoryPath := []
  srcset : String
  previous : Option MemorySourceSet := none
  delta : MemorySourceSetDelta := {}
  documentTotal : ℕ := 0
  deriving DecidableEq, Repr

namespace MemorySourceSetDelta

/-- The documents of two sets, merged along the order of their names. -/
def merge : List MemorySourceDocument → List MemorySourceDocument → MemorySourceSetDelta
  | [], [] => {}
  | left :: previous, [] =>
    let rest := merge previous []
    { rest with removed := left.uri :: rest.removed }
  | [], right :: next =>
    let rest := merge [] next
    { rest with added := right.uri :: rest.added }
  | left :: previous, right :: next =>
    if left.uri < right.uri then
      let rest := merge previous (right :: next)
      { rest with removed := left.uri :: rest.removed }
    else if right.uri < left.uri then
      let rest := merge (left :: previous) next
      { rest with added := right.uri :: rest.added }
    else
      let rest := merge previous next
      if left = right then { rest with unchanged := rest.unchanged + 1 }
      else { rest with modified := right.uri :: rest.modified }
termination_by previous next => previous.length + next.length

/-- The names that lead to a path that changes. -/
def uris (delta : MemorySourceSetDelta) : List String :=
  delta.added ++ delta.modified ++ delta.removed

def paths (delta : MemorySourceSetDelta) (srcset : String) : List MemoryPath :=
  (OrdSet.ofList (delta.uris.map (memorySourcePath srcset))).elems

end MemorySourceSetDelta

def memorySourceSetDelta (previous : Option MemorySourceSet) (next : MemorySourceSet) :
    MemorySourceSetDelta :=
  .merge ((previous.map (·.documents)).getD []) next.documents

def memorySourcePaths (sourceSet : MemorySourceSet) : List MemoryPath :=
  sourceSet.documents.map fun document => memorySourcePath sourceSet.srcset document.uri

/-! ## The store -/

/-- The store. What the sources, indexes and diffs of a generation are is left open. -/
@[ext] structure LocalResourceMaterial (S I D : Type) where
  nextGeneration : ℕ := 1
  sources : OrdMap ℕ S := ∅
  indexes : OrdMap ℕ I := ∅
  memorySourceSets : OrdMap String MemorySourceSet := ∅
  memoryDocuments : OrdMap MemoryPath CachedMemorySource := ∅
  indexDiffs : OrdMap ℕ (ℕ × D) := ∅

structure LocalResourceCheckpoint (S I D : Type) where
  nextGeneration : ℕ
  sources : OrdMap ℕ S
  indexes : OrdMap ℕ I
  indexDiffs : OrdMap ℕ (ℕ × D)
  srcset : String
  previous : Option MemorySourceSet

/-- The documents of a set go. -/
def removeDocuments (srcset : String) (entries : OrdMap MemoryPath CachedMemorySource)
    (uris : List String) : OrdMap MemoryPath CachedMemorySource :=
  uris.foldl (fun entries uri => entries.erase (memorySourcePath srcset uri)) entries

def insertDocument (srcset : String) (entries : OrdMap MemoryPath CachedMemorySource)
    (document : MemorySourceDocument) : OrdMap MemoryPath CachedMemorySource :=
  entries.insert (memorySourcePath srcset document.uri) ⟨srcset, document⟩

namespace LocalResourceMaterial

variable {S I D : Type}

/-- `binary_search_by` for a name. It finds the document if there is one. -/
def searchDocument (documents : List MemorySourceDocument) (uri : String) :
    Option MemorySourceDocument :=
  documents.find? (·.uri = uri)

variable (m : LocalResourceMaterial S I D)

/-- `none` is the panic on a name of the difference that is not in the new set. -/
def replaceMemorySourceSet (sourceSet : MemorySourceSet) :
    Option (MemorySourceSetUpdate × LocalResourceMaterial S I D) :=
  let sourceSet :=
    { sourceSet with documents := StableSort.stableSort MemorySourceDocument.uri sourceSet.documents }
  let previous := m.memorySourceSets.get? sourceSet.srcset
  let documentTotal := sourceSet.documents.length
  if previous = some sourceSet then
    some ({ srcset := sourceSet.srcset, delta := { unchanged := documentTotal }, documentTotal }, m)
  else do
    let srcset := sourceSet.srcset
    let delta := memorySourceSetDelta previous sourceSet
    let kept := removeDocuments srcset m.memoryDocuments delta.removed
    let found ← (delta.added ++ delta.modified).mapM (searchDocument sourceSet.documents)
    return ({ changed := true, paths := delta.paths srcset, srcset, previous, delta, documentTotal },
      { m with
        memoryDocuments := found.foldl (insertDocument srcset) kept
        memorySourceSets := m.memorySourceSets.insert srcset sourceSet })

def removeMemorySourceSet (srcset : String) :
    MemorySourceSetUpdate × LocalResourceMaterial S I D :=
  match m.memorySourceSets.get? srcset with
  | none => ({ srcset }, m)
  | some previous =>
    ({ changed := true
       paths := memorySourcePaths previous
       srcset
       delta := { removed := previous.documents.map (·.uri) }
       previous := some previous
       documentTotal := 0 },
      { m with
        memorySourceSets := m.memorySourceSets.erase srcset
        memoryDocuments := removeDocuments srcset m.memoryDocuments
          (previous.documents.map (·.uri)) })

/-- The checkpoint takes the previous set out of the update. -/
def checkpointMemorySourceUpdate
    (update : MemorySourceSetUpdate) : LocalResourceCheckpoint S I D × MemorySourceSetUpdate :=
  (⟨m.nextGeneration, m.sources, m.indexes, m.indexDiffs, update.srcset, update.previous⟩,
    { update with previous := none })

def restoreCheckpoint
    (checkpoint : LocalResourceCheckpoint S I D) : LocalResourceMaterial S I D :=
  let srcset := checkpoint.srcset
  let m :=
    match m.memorySourceSets.get? srcset with
    | none => m
    | some current =>
      { m with
        memorySourceSets := m.memorySourceSets.erase srcset
        memoryDocuments := removeDocuments srcset m.memoryDocuments
          (current.documents.map MemorySourceDocument.uri) }
  let m :=
    match checkpoint.previous with
    | none => m
    | some previous =>
      { m with
        memorySourceSets := m.memorySourceSets.insert srcset previous
        memoryDocuments := previous.documents.foldl (insertDocument srcset) m.memoryDocuments }
  { m with
    nextGeneration := checkpoint.nextGeneration
    sources := checkpoint.sources
    indexes := checkpoint.indexes
    indexDiffs := checkpoint.indexDiffs }

end LocalResourceMaterial

/-! ## Calls -/

inductive MemoryCall where
  | replace (sourceSet : MemorySourceSet)
  | remove (srcset : String)

def MemoryCall.srcset : MemoryCall → String
  | replace sourceSet => sourceSet.srcset
  | remove srcset => srcset

/-- What the daemon has checked of a call : the name of the set, and names of documents that
are distinct. -/
def MemoryCall.Valid : MemoryCall → Prop
  | replace sourceSet =>
    validSrcset sourceSet.srcset = true ∧ (sourceSet.documents.map (·.uri)).Nodup
  | remove srcset => validSrcset srcset = true

inductive ResourceCall (S I D : Type) where
  | nextGeneration
  | insertSources (generation : ℕ) (material : S)
  | insertIndex (generation : ℕ) (material : I)
  | insertIndexDiff (generation previousGeneration : ℕ) (diff : D)

namespace LocalResourceMaterial

variable {S I D : Type}

def update (m : LocalResourceMaterial S I D) :
    MemoryCall → Option (MemorySourceSetUpdate × LocalResourceMaterial S I D)
  | .replace sourceSet => m.replaceMemorySourceSet sourceSet
  | .remove srcset => some (m.removeMemorySourceSet srcset)

def build (m : LocalResourceMaterial S I D) : ResourceCall S I D → LocalResourceMaterial S I D
  | .nextGeneration => { m with nextGeneration := (m.nextGeneration + 1) % 2 ^ 64 }
  | .insertSources generation material =>
    { m with sources := (∅ : OrdMap ℕ S).insert generation material }
  | .insertIndex generation material =>
    { m with indexes := (∅ : OrdMap ℕ I).insert generation material, indexDiffs := ∅ }
  | .insertIndexDiff generation previousGeneration diff =>
    { m with indexDiffs := m.indexDiffs.insert generation (previousGeneration, diff) }

end LocalResourceMaterial

/-! ## Differences of sorted sets -/

/-- Strictly increasing names. -/
def SortedDocuments (documents : List MemorySourceDocument) : Prop :=
  documents.Pairwise (·.uri < ·.uri)

/-- The documents of `next` are new, changed or the same, those of `previous` are gone, changed
or the same. -/
def splitDocuments (previous next : List MemorySourceDocument) : MemorySourceSetDelta where
  added := (next.filter fun d => d.uri ∉ previous.map (·.uri)).map (·.uri)
  modified := (next.filter fun d => d.uri ∈ previous.map (·.uri) ∧ d ∉ previous).map (·.uri)
  removed := (previous.filter fun d => d.uri ∉ next.map (·.uri)).map (·.uri)
  unchanged := (next.filter fun d => d ∈ previous).length

variable {documents : List MemorySourceDocument}

theorem SortedDocuments.nodup (h : SortedDocuments documents) : (documents.map (·.uri)).Nodup :=
  pairwise_map.mpr (h.imp fun hlt => hlt.ne)

theorem SortedDocuments.eq_of_uri (h : SortedDocuments documents) {d e : MemorySourceDocument}
    (hd : d ∈ documents) (he : e ∈ documents) (huri : d.uri = e.uri) : d = e :=
  inj_on_of_nodup_map h.nodup hd he huri

theorem sortedDocuments_stableSort (h : (documents.map (·.uri)).Nodup) :
    SortedDocuments (StableSort.stableSort MemorySourceDocument.uri documents) := by
  have hperm : (StableSort.stableSort MemorySourceDocument.uri documents).Perm documents :=
    perm_insertionSort _ _
  have hne := pairwise_map.mp ((hperm.map MemorySourceDocument.uri).nodup_iff.mpr h)
  exact StableSort.sorted_stableSort.imp₂ (fun _ _ hle hne => lt_of_le_of_ne hle hne) hne

theorem filter_found_cons {left : MemorySourceDocument} (previous : List MemorySourceDocument)
    {next : List MemorySourceDocument} (h : ∀ d ∈ next, d.uri ≠ left.uri) :
    ((next.filter fun d => d.uri ∈ (left :: previous).map (·.uri) ∧ d ∉ left :: previous) =
        next.filter fun d => d.uri ∈ previous.map (·.uri) ∧ d ∉ previous) ∧
      (next.filter fun d => d ∈ left :: previous) = next.filter fun d => d ∈ previous := by
  have hne : ∀ d ∈ next, d ≠ left := fun d hd heq => h d hd (heq ▸ rfl)
  exact ⟨filter_congr fun d hd => by simp [h d hd, hne d hd],
    filter_congr fun d hd => by simp [hne d hd]⟩

open MemorySourceSetDelta

theorem splitDocuments_removed {left : MemorySourceDocument}
    {previous next : List MemorySourceDocument} (h : ∀ d ∈ next, d.uri ≠ left.uri) :
    splitDocuments (left :: previous) next = { splitDocuments previous next with
        removed := left.uri :: (splitDocuments previous next).removed } := by
  have hleft : left.uri ∉ next.map (·.uri) := by
    rintro hmem
    obtain ⟨d, hd, heq⟩ := mem_map.mp hmem
    exact h d hd heq
  have hadded : (next.filter fun d => d.uri ∉ (left :: previous).map (·.uri)) =
      next.filter fun d => d.uri ∉ previous.map (·.uri) :=
    filter_congr fun d hd => by simp [h d hd]
  obtain ⟨hmodified, hunchanged⟩ := filter_found_cons previous h
  rw [splitDocuments, hadded, hmodified, hunchanged]
  simp only [splitDocuments, mk.injEq, true_and, and_true]
  rw [filter_cons_of_pos (by simpa using hleft), map_cons]

theorem splitDocuments_added {right : MemorySourceDocument}
    {previous next : List MemorySourceDocument} (h : ∀ d ∈ previous, d.uri ≠ right.uri) :
    splitDocuments previous (right :: next) = { splitDocuments previous next with
        added := right.uri :: (splitDocuments previous next).added } := by
  have hright : right.uri ∉ previous.map (·.uri) := by
    rintro hmem
    obtain ⟨d, hd, heq⟩ := mem_map.mp hmem
    exact h d hd heq
  have hmem : right ∉ previous := fun hmem => h right hmem rfl
  have hremoved : (previous.filter fun d => d.uri ∉ (right :: next).map (·.uri)) =
      previous.filter fun d => d.uri ∉ next.map (·.uri) :=
    filter_congr fun d hd => by simp [h d hd]
  rw [splitDocuments, hremoved]
  simp only [splitDocuments]
  rw [filter_cons_of_pos (by simpa using hright),
    filter_cons_of_neg (by simpa using fun d hd heq => absurd heq (h d hd)),
    filter_cons_of_neg (by simpa using hmem), map_cons]

theorem splitDocuments_same {left right : MemorySourceDocument}
    {previous next : List MemorySourceDocument} (huri : left.uri = right.uri)
    (hprevious : ∀ d ∈ previous, d.uri ≠ left.uri) (hnext : ∀ d ∈ next, d.uri ≠ left.uri) :
    splitDocuments (left :: previous) (right :: next) =
      if left = right then { splitDocuments previous next with
          unchanged := (splitDocuments previous next).unchanged + 1 }
      else
        { splitDocuments previous next with
          modified := right.uri :: (splitDocuments previous next).modified } := by
  have hright : right ∉ previous := fun hmem => hprevious right hmem huri.symm
  have hremoved : ((left :: previous).filter fun d => d.uri ∉ (right :: next).map (·.uri)) =
      previous.filter fun d => d.uri ∉ next.map (·.uri) := by
    rw [filter_cons_of_neg (by simp [huri])]
    exact filter_congr fun d hd => by simp [huri ▸ hprevious d hd]
  have hadded : ((right :: next).filter fun d => d.uri ∉ (left :: previous).map (·.uri)) =
      next.filter fun d => d.uri ∉ previous.map (·.uri) := by
    rw [filter_cons_of_neg (by simp [huri])]
    exact filter_congr fun d hd => by simp [hnext d hd]
  obtain ⟨hmodified, hunchanged⟩ := filter_found_cons previous hnext
  rw [splitDocuments, hremoved, hadded]
  split_ifs with heq
  · rw [filter_cons_of_neg (by simp [heq]), filter_cons_of_pos (by simp [heq]),
      hmodified, hunchanged, length_cons]
    rfl
  · have heq' : right ≠ left := Ne.symm heq
    rw [filter_cons_of_pos (by simp [huri, heq', hright]),
      filter_cons_of_neg (by simp [heq', hright]), hmodified, hunchanged, map_cons]
    rfl

/-- On sorted sets the merge finds every document of one set in the other. -/
theorem merge_eq_splitDocuments {previous next : List MemorySourceDocument}
    (hprevious : SortedDocuments previous) (hnext : SortedDocuments next) :
    merge previous next = splitDocuments previous next := by
  fun_induction merge previous next with
  | case1 => rfl
  | case2 left previous rest ih =>
    obtain ⟨-, htail⟩ := pairwise_cons.mp hprevious
    rw [splitDocuments_removed (by simp), ← ih htail hnext]
  | case3 right next rest ih =>
    obtain ⟨-, htail⟩ := pairwise_cons.mp hnext
    rw [splitDocuments_added (by simp), ← ih hprevious htail]
  | case4 left previous right next hlt rest ih =>
    obtain ⟨-, htail⟩ := pairwise_cons.mp hprevious
    obtain ⟨hhead, -⟩ := pairwise_cons.mp hnext
    have hne : ∀ d ∈ right :: next, d.uri ≠ left.uri := by
      intro d hd
      rcases mem_cons.mp hd with rfl | hd
      · exact hlt.ne'
      · exact (hlt.trans (hhead d hd)).ne'
    rw [splitDocuments_removed hne, ← ih htail hnext]
  | case5 left previous right next _ hlt rest ih =>
    obtain ⟨-, htail⟩ := pairwise_cons.mp hnext
    obtain ⟨hhead, -⟩ := pairwise_cons.mp hprevious
    have hne : ∀ d ∈ left :: previous, d.uri ≠ right.uri := by
      intro d hd
      rcases mem_cons.mp hd with rfl | hd
      · exact hlt.ne'
      · exact (hlt.trans (hhead d hd)).ne'
    rw [splitDocuments_added hne, ← ih hprevious htail]
  | case6 previous right next hlt hgt rest ih =>
    obtain ⟨hhead, htail⟩ := pairwise_cons.mp hprevious
    obtain ⟨hhead', htail'⟩ := pairwise_cons.mp hnext
    rw [splitDocuments_same rfl (fun d hd => (hhead d hd).ne') (fun d hd => (hhead' d hd).ne'),
      if_pos rfl, ← ih htail htail']
  | case7 left previous right next hlt hgt rest hne ih =>
    obtain ⟨hhead, htail⟩ := pairwise_cons.mp hprevious
    obtain ⟨hhead', htail'⟩ := pairwise_cons.mp hnext
    have huri : left.uri = right.uri := le_antisymm (not_lt.mp hgt) (not_lt.mp hlt)
    rw [splitDocuments_same huri (fun d hd => (hhead d hd).ne')
      (fun d hd => huri ▸ (hhead' d hd).ne'), if_neg hne, ← ih htail htail']

/-! ## Entries after an update -/

theorem get?_removeDocuments {srcset : String} {p : MemoryPath} : ∀ {uris : List String}
    {entries : OrdMap MemoryPath CachedMemorySource}, (removeDocuments srcset entries uris).get? p =
      if p ∈ uris.map (memorySourcePath srcset) then none else entries.get? p
  | [], entries => by simp [removeDocuments]
  | uri :: uris, entries => by
    have ih := @get?_removeDocuments srcset p uris (entries.erase (memorySourcePath srcset uri))
    rw [removeDocuments, foldl_cons]
    rw [removeDocuments] at ih
    rw [ih, OrdMap.get?_erase, map_cons]
    by_cases hp : p = memorySourcePath srcset uri
    · simp [hp]
    · simp [hp]

/-- An inserted document is found under its path, and the other paths are left alone. -/
theorem get?_foldl_insertDocument {srcset : String} (hvalid : validSrcset srcset = true)
    {p : MemoryPath} {c : CachedMemorySource} : ∀ {documents : List MemorySourceDocument}
    {entries : OrdMap MemoryPath CachedMemorySource}, (documents.map (·.uri)).Nodup →
    ((documents.foldl (insertDocument srcset) entries).get? p = some c ↔
      (c.srcset = srcset ∧ c.document ∈ documents ∧ p = memorySourcePath srcset c.document.uri) ∨
        ((∀ d ∈ documents, p ≠ memorySourcePath srcset d.uri) ∧ entries.get? p = some c))
  | [], entries, _ => by simp
  | d :: documents, entries, hnodup => by
    obtain ⟨hhead, htail⟩ := nodup_cons.mp hnodup
    rw [foldl_cons, get?_foldl_insertDocument hvalid htail, insertDocument, OrdMap.get?_insert]
    by_cases hp : p = memorySourcePath srcset d.uri
    · have hother : ∀ e ∈ documents, p ≠ memorySourcePath srcset e.uri := by
        rintro e he heq
        have huri := (memorySourcePath_inj hvalid hvalid (hp.symm.trans heq)).2
        exact hhead (mem_map.mpr ⟨e, he, huri.symm⟩)
      have hnot : ¬(c.srcset = srcset ∧ c.document ∈ documents ∧
          p = memorySourcePath srcset c.document.uri) := fun h => hother _ h.2.1 h.2.2
      have hfirst : ¬∀ e ∈ d :: documents, p ≠ memorySourcePath srcset e.uri := fun h =>
        h d mem_cons_self hp
      simp only [hnot, false_or, hfirst, false_and, or_false, if_pos hp, Option.some.injEq]
      constructor
      · rintro ⟨-, rfl⟩
        exact ⟨rfl, mem_cons_self, hp⟩
      · rintro ⟨hsrcset, hmem, hpath⟩
        refine ⟨hother, ?_⟩
        rcases mem_cons.mp hmem with heq | hmem
        · rw [← heq, ← hsrcset]
        · exact absurd hpath (hother _ hmem)
    · simp only [mem_cons, forall_eq_or_imp, hp, ne_eq, not_false_eq_true, true_and]
      refine or_congr_left ⟨fun ⟨h1, h2, h3⟩ => ⟨h1, Or.inr h2, h3⟩, ?_⟩
      rintro ⟨hsrcset, rfl | hmem, hpath⟩
      · exact absurd hpath hp
      · exact ⟨hsrcset, hmem, hpath⟩

namespace LocalResourceMaterial

variable {S I D : Type}

/-- The documents of a set, none if it is not active. -/
def documentsOf (m : LocalResourceMaterial S I D) (srcset : String) : List MemorySourceDocument :=
  ((m.memorySourceSets.get? srcset).map (·.documents)).getD []

/-- What the store keeps between two calls. -/
structure Coherent (m : LocalResourceMaterial S I D) : Prop where
  /-- A set is kept under its own name and is sorted. -/
  sets : ∀ srcset set, m.memorySourceSets.get? srcset = some set →
    set.srcset = srcset ∧ validSrcset srcset = true ∧ SortedDocuments set.documents
  /-- There is an entry for each document of an active set, under its path, and no other. -/
  entries : ∀ p c, m.memoryDocuments.get? p = some c ↔
    c.document ∈ m.documentsOf c.srcset ∧ p = memorySourcePath c.srcset c.document.uri

variable {m : LocalResourceMaterial S I D}

theorem mem_documentsOf {srcset : String} {d : MemorySourceDocument} : d ∈ m.documentsOf srcset ↔
      ∃ set, m.memorySourceSets.get? srcset = some set ∧ d ∈ set.documents := by
  rw [documentsOf]
  cases m.memorySourceSets.get? srcset with
  | none => simp
  | some set => simp

theorem Coherent.sorted_documentsOf (h : m.Coherent)
    (srcset : String) : SortedDocuments (m.documentsOf srcset) := by
  rw [documentsOf]
  cases hget : m.memorySourceSets.get? srcset with
  | none => exact List.Pairwise.nil
  | some set => exact (h.sets srcset set hget).2.2

theorem Coherent.valid_of_mem (h : m.Coherent)
    {srcset : String} {d : MemorySourceDocument} (hd : d ∈ m.documentsOf srcset) :
    validSrcset srcset = true := by
  obtain ⟨set, hget, -⟩ := mem_documentsOf.mp hd
  exact (h.sets srcset set hget).2.1

/-- The sets determine the entries. -/
theorem Coherent.memoryDocuments_eq {m m' : LocalResourceMaterial S I D} (h : m.Coherent)
    (h' : m'.Coherent) (hsets : m.memorySourceSets = m'.memorySourceSets) :
    m.memoryDocuments = m'.memoryDocuments := by
  refine OrdMap.ext fun p => Option.ext fun c => ?_
  rw [h.entries, h'.entries, documentsOf, documentsOf, hsets]

/-- The entries after some documents of a set are removed and others inserted. -/
theorem Coherent.get?_updated (h : m.Coherent)
    {srcset : String} (hvalid : validSrcset srcset = true) (removed : List String)
    {inserted : List MemorySourceDocument} (hnodup : (inserted.map (·.uri)).Nodup)
    {p : MemoryPath} {c : CachedMemorySource} : (inserted.foldl (insertDocument srcset)
      (removeDocuments srcset m.memoryDocuments removed)).get? p = some c ↔
        p = memorySourcePath c.srcset c.document.uri ∧
          if c.srcset = srcset then c.document ∈ inserted ∨ (c.document ∈ m.documentsOf srcset ∧
            c.document.uri ∉ removed ∧ c.document.uri ∉ inserted.map (·.uri))
          else c.document ∈ m.documentsOf c.srcset := by
  have hinj : ∀ {uri : String}, c.document ∈ m.documentsOf c.srcset →
      memorySourcePath c.srcset c.document.uri = memorySourcePath srcset uri →
        c.srcset = srcset ∧ c.document.uri = uri :=
    fun hmem heq => memorySourcePath_inj (h.valid_of_mem hmem) hvalid heq
  rw [get?_foldl_insertDocument hvalid hnodup, get?_removeDocuments]
  by_cases hsrcset : c.srcset = srcset
  · simp only [hsrcset, if_true, true_and]
    rw [hsrcset] at hinj
    constructor
    · rintro (⟨hmem, hpath⟩ | ⟨hnot, hget⟩)
      · exact ⟨hpath, Or.inl hmem⟩
      · split_ifs at hget with hremoved
        obtain ⟨hmem, hpath⟩ := (h.entries p c).mp hget
        rw [hsrcset] at hmem hpath
        refine ⟨hpath, Or.inr ⟨hmem, fun hr => hremoved ?_, fun hi => ?_⟩⟩
        · exact hpath ▸ mem_map_of_mem hr
        · obtain ⟨d, hd, heq⟩ := mem_map.mp hi
          exact hnot d hd (heq ▸ hpath)
    · rintro ⟨hpath, hmem | ⟨hmem, hremoved, hinserted⟩⟩
      · exact Or.inl ⟨hmem, hpath⟩
      · refine Or.inr ⟨fun d hd heq => hinserted ?_, ?_⟩
        · rw [(hinj hmem (hpath.symm.trans heq)).2]
          exact mem_map_of_mem hd
        · rw [if_neg, h.entries, hsrcset]
          · exact ⟨hmem, hpath⟩
          · intro hp
            obtain ⟨uri, huri, heq⟩ := mem_map.mp hp
            rw [(hinj hmem (hpath.symm.trans heq.symm)).2] at hremoved
            exact hremoved huri
  · simp only [hsrcset, if_false, false_and, false_or]
    constructor
    · rintro ⟨-, hget⟩
      split_ifs at hget with hremoved
      exact ((h.entries p c).mp hget).symm
    · rintro ⟨hpath, hmem⟩
      refine ⟨fun d _ heq => hsrcset (hinj hmem (hpath.symm.trans heq)).1, ?_⟩
      rw [if_neg, h.entries]
      · exact ⟨hmem, hpath⟩
      · intro hp
        obtain ⟨uri, -, heq⟩ := mem_map.mp hp
        exact hsrcset (hinj hmem (hpath.symm.trans heq.symm)).1

/-- A coherent store with one set exchanged is coherent, if the entries of that set are its
documents. -/
theorem Coherent.exchange {m m' : LocalResourceMaterial S I D} (h : m.Coherent) {srcset : String}
    (hvalid : validSrcset srcset = true) (next : Option MemorySourceSet)
    (hnext : ∀ set ∈ next, set.srcset = srcset ∧ SortedDocuments set.documents)
    (hsets : ∀ k, m'.memorySourceSets.get? k =
      if k = srcset then next else m.memorySourceSets.get? k)
    (removed : List String) (inserted : List MemorySourceDocument)
    (hnodup : (inserted.map (·.uri)).Nodup)
    (hdocuments : m'.memoryDocuments = inserted.foldl (insertDocument srcset)
      (removeDocuments srcset m.memoryDocuments removed))
    (hmem : ∀ d, d ∈ (next.map (·.documents)).getD [] ↔ d ∈ inserted ∨
      (d ∈ m.documentsOf srcset ∧ d.uri ∉ removed ∧ d.uri ∉ inserted.map (·.uri))) :
    m'.Coherent where
  sets k set hget := by
    rw [hsets] at hget
    split_ifs at hget with hk
    · obtain ⟨hname, hsorted⟩ := hnext set hget
      exact ⟨hname.trans hk.symm, hk ▸ hvalid, hsorted⟩
    · exact h.sets k set hget
  entries p c := by
    rw [hdocuments, h.get?_updated hvalid removed hnodup, and_comm]
    refine and_congr_left fun _ => ?_
    by_cases hk : c.srcset = srcset
    · have hdocs : m'.documentsOf c.srcset = (next.map (·.documents)).getD [] := by
        rw [documentsOf, hsets, if_pos hk]
      rw [if_pos hk, hdocs, hmem]
    · have hdocs : m'.documentsOf c.srcset = m.documentsOf c.srcset := by
        rw [documentsOf, hsets, if_neg hk, documentsOf]
      rw [if_neg hk, hdocs]

/-! ## Updates keep the store coherent -/

/-- A set goes with its documents. -/
theorem Coherent.drop (h : m.Coherent) {srcset : String}
    {set : MemorySourceSet} (hget : m.memorySourceSets.get? srcset = some set) : Coherent { m with
      memorySourceSets := m.memorySourceSets.erase srcset
      memoryDocuments := removeDocuments srcset m.memoryDocuments (set.documents.map (·.uri)) } := by
  have hvalid := (h.sets srcset set hget).2.1
  refine h.exchange hvalid none (by simp) (fun k => OrdMap.get?_erase) _ [] nodup_nil rfl
    fun d => ?_
  simp only [Option.map_none, Option.getD_none, not_mem_nil, false_or, false_iff, not_and]
  rw [documentsOf, hget]
  exact fun hd hnot => absurd (mem_map_of_mem hd) hnot

/-- A set comes with its documents, in a store that has none under its name. -/
theorem Coherent.add (h : m.Coherent) {set : MemorySourceSet}
    (hvalid : validSrcset set.srcset = true) (hsorted : SortedDocuments set.documents)
    (hget : m.memorySourceSets.get? set.srcset = none) : Coherent { m with
      memorySourceSets := m.memorySourceSets.insert set.srcset set
      memoryDocuments := set.documents.foldl (insertDocument set.srcset) m.memoryDocuments } := by
  refine h.exchange hvalid (some set) (by simp [hsorted]) (fun k => OrdMap.get?_insert) []
    set.documents hsorted.nodup rfl fun d => ?_
  simp [documentsOf, hget]

theorem mapM_searchDocument {documents : List MemorySourceDocument}
    (h : SortedDocuments documents) : ∀ {sub : List MemorySourceDocument},
    (∀ d ∈ sub, d ∈ documents) → (sub.map (·.uri)).mapM (searchDocument documents) = some sub
  | [], _ => rfl
  | d :: sub, hsub => by
    have hd := hsub d mem_cons_self
    have hfind : searchDocument documents d.uri = some d := by
      have hsome : (searchDocument documents d.uri).isSome := by
        rw [searchDocument, find?_isSome]
        exact ⟨d, hd, by simp⟩
      obtain ⟨e, he⟩ := Option.isSome_iff_exists.mp hsome
      have huri : e.uri = d.uri := by simpa using find?_some he
      rw [he, h.eq_of_uri (mem_of_find?_eq_some he) hd huri]
    have ih := mapM_searchDocument h fun e he => hsub e (mem_cons_of_mem d he)
    rw [map_cons, mapM_cons, hfind, ih]
    rfl

end LocalResourceMaterial

/-- The documents that a difference brings in. -/
def changedDocuments (previous next : List MemorySourceDocument) : List MemorySourceDocument :=
  (next.filter fun d => d.uri ∉ previous.map (·.uri)) ++
    next.filter fun d => d.uri ∈ previous.map (·.uri) ∧ d ∉ previous

section Changed

variable {previous next : List MemorySourceDocument}

theorem uris_changedDocuments : (splitDocuments previous next).added ++
    (splitDocuments previous next).modified = (changedDocuments previous next).map (·.uri) := by
  rw [changedDocuments, map_append]
  rfl

theorem mem_changedDocuments {d : MemorySourceDocument} :
    d ∈ changedDocuments previous next ↔ d ∈ next ∧ d ∉ previous := by
  rw [changedDocuments, mem_append, mem_filter, mem_filter]
  simp only [decide_eq_true_eq]
  constructor
  · rintro (⟨hd, hnot⟩ | ⟨hd, -, hnot⟩)
    · exact ⟨hd, fun hmem => hnot (mem_map_of_mem hmem)⟩
    · exact ⟨hd, hnot⟩
  · rintro ⟨hd, hnot⟩
    by_cases huri : d.uri ∈ previous.map (·.uri)
    · exact Or.inr ⟨hd, huri, hnot⟩
    · exact Or.inl ⟨hd, huri⟩

theorem nodup_uris_changedDocuments (h : SortedDocuments next) :
    ((changedDocuments previous next).map (·.uri)).Nodup := by
  rw [changedDocuments, map_append]
  refine nodup_append.mpr ⟨h.nodup.sublist (filter_sublist.map _),
    h.nodup.sublist (filter_sublist.map _), ?_⟩
  rintro uri hadded uri' hmodified rfl
  obtain ⟨d, hd, rfl⟩ := mem_map.mp hadded
  obtain ⟨e, he, huri⟩ := mem_map.mp hmodified
  have hnot : d.uri ∉ previous.map (·.uri) := by simpa using (mem_filter.mp hd).2
  have hmem : e.uri ∈ previous.map (·.uri) := by
    have hboth := (mem_filter.mp he).2
    exact (of_decide_eq_true hboth).1
  exact hnot (huri ▸ hmem)

/-- What is kept of the previous set and what comes in make the next one. -/
theorem mem_next_iff (hprevious : SortedDocuments previous) (hnext : SortedDocuments next)
    (d : MemorySourceDocument) : d ∈ next ↔ d ∈ changedDocuments previous next ∨
      (d ∈ previous ∧ d.uri ∉ (splitDocuments previous next).removed ∧
        d.uri ∉ (changedDocuments previous next).map (·.uri)) := by
  have hremoved : ∀ d ∈ previous, (d.uri ∉ (splitDocuments previous next).removed ↔
      d.uri ∈ next.map (·.uri)) := by
    intro d hd
    constructor
    · intro hnot
      by_contra hmissing
      exact hnot (mem_map.mpr ⟨d, mem_filter.mpr ⟨hd, by simpa using hmissing⟩, rfl⟩)
    · intro hmem hrem
      obtain ⟨e, he, huri⟩ := mem_map.mp hrem
      have hnot := of_decide_eq_true (mem_filter.mp he).2
      exact hnot (huri ▸ hmem)
  rw [mem_changedDocuments]
  constructor
  · intro hd
    by_cases hmem : d ∈ previous
    · refine Or.inr ⟨hmem, (hremoved d hmem).mpr (mem_map_of_mem hd), fun hchanged => ?_⟩
      obtain ⟨e, he, huri⟩ := mem_map.mp hchanged
      obtain ⟨he, hnot⟩ := mem_changedDocuments.mp he
      exact hnot (hnext.eq_of_uri he hd huri ▸ hmem)
    · exact Or.inl ⟨hd, hmem⟩
  · rintro (⟨hd, -⟩ | ⟨hd, hkept, hnot⟩)
    · exact hd
    · obtain ⟨e, he, huri⟩ := mem_map.mp ((hremoved d hd).mp hkept)
      have hmem : e ∈ previous := by
        by_contra hnew
        exact hnot (mem_map.mpr ⟨e, mem_changedDocuments.mpr ⟨he, hnew⟩, huri⟩)
      exact hprevious.eq_of_uri hmem hd huri ▸ he

end Changed

/-- What an update reports of the documents before and after it. -/
structure MemorySourceSetUpdate.Reports (u : MemorySourceSetUpdate) (srcset : String)
    (previous next : List MemorySourceDocument) : Prop where
  name : u.srcset = srcset
  delta : u.delta = splitDocuments previous next
  documentTotal : u.documentTotal = next.length
  nodup : u.paths.Nodup
  paths : ∀ p, p ∈ u.paths ↔ ∃ uri ∈ u.delta.uris, p = memorySourcePath srcset uri

namespace LocalResourceMaterial

variable {S I D : Type} {m m' : LocalResourceMaterial S I D}

/-- What a valid call makes of a coherent store. -/
structure Updated (m : LocalResourceMaterial S I D) (srcset : String) (u : MemorySourceSetUpdate)
    (m' : LocalResourceMaterial S I D) : Prop where
  coherent : m'.Coherent
  reports : u.Reports srcset (m.documentsOf srcset) (m'.documentsOf srcset)
  sets : ∀ k ≠ srcset, m'.memorySourceSets.get? k = m.memorySourceSets.get? k
  previous : u.changed = true → u.previous = m.memorySourceSets.get? srcset
  resources : m'.nextGeneration = m.nextGeneration ∧ m'.sources = m.sources ∧
    m'.indexes = m.indexes ∧ m'.indexDiffs = m.indexDiffs
  same : u.changed = false → m' = m ∧ u.previous = none

theorem Coherent.updated_remove (h : m.Coherent) {srcset : String}
    (hvalid : validSrcset srcset = true) :
    m.Updated srcset (m.removeMemorySourceSet srcset).1 (m.removeMemorySourceSet srcset).2 := by
  rw [removeMemorySourceSet]
  cases hget : m.memorySourceSets.get? srcset with
  | none =>
    have hdocs : m.documentsOf srcset = [] := by rw [documentsOf, hget]; rfl
    refine ⟨h, ⟨rfl, ?_, ?_, nodup_nil, ?_⟩, fun _ _ => rfl, by simp, by simp, by simp⟩
    · rw [hdocs]
      rfl
    · rw [hdocs]
      rfl
    · simp [uris]
  | some set =>
    obtain ⟨hname, -, hsorted⟩ := h.sets srcset set hget
    have hdocs : m.documentsOf srcset = set.documents := by rw [documentsOf, hget]; rfl
    refine ⟨h.drop hget, ⟨rfl, ?_, ?_, ?_, ?_⟩, ?_, fun _ => hget.symm, by simp, by simp⟩
    · rw [hdocs]
      simp [documentsOf, splitDocuments]
    · simp [documentsOf]
    · refine hsorted.nodup.of_map.map_on fun d hd e he heq => ?_
      rw [hname] at heq
      exact hsorted.eq_of_uri hd he (memorySourcePath_inj hvalid hvalid heq).2
    · simp [memorySourcePaths, uris, hname, eq_comm]
    · intro k hk
      simp [hk]

theorem splitDocuments_self {documents : List MemorySourceDocument} :
    splitDocuments documents documents = { unchanged := documents.length } := by
  have hadded : (documents.filter fun d => d.uri ∉ documents.map (·.uri)) = [] :=
    filter_eq_nil_iff.mpr fun d hd => by simpa using ⟨d, hd, rfl⟩
  have hmodified :
      (documents.filter fun d => d.uri ∈ documents.map (·.uri) ∧ d ∉ documents) = [] :=
    filter_eq_nil_iff.mpr fun d hd => by simp [hd]
  have hunchanged : (documents.filter fun d => d ∈ documents) = documents :=
    filter_eq_self.mpr fun d hd => by simp [hd]
  rw [splitDocuments, hadded, hmodified, hunchanged]
  rfl

theorem Coherent.updated_replace (h : m.Coherent) {sourceSet : MemorySourceSet}
    (hvalid : validSrcset sourceSet.srcset = true)
    (hnodup : (sourceSet.documents.map (·.uri)).Nodup) :
    ∃ u m', m.replaceMemorySourceSet sourceSet = some (u, m') ∧
      m.Updated sourceSet.srcset u m' := by
  have hsorted := sortedDocuments_stableSort hnodup
  rw [replaceMemorySourceSet]
  generalize StableSort.stableSort MemorySourceDocument.uri sourceSet.documents = next at hsorted ⊢
  dsimp only
  by_cases hsame : m.memorySourceSets.get? sourceSet.srcset =
      some { sourceSet with documents := next }
  · have hdocs : m.documentsOf sourceSet.srcset = next := by rw [documentsOf, hsame]; rfl
    rw [if_pos hsame]
    refine ⟨_, _, rfl, h, ⟨rfl, ?_, ?_, nodup_nil, ?_⟩, fun _ _ => rfl, by simp, by simp, by simp⟩
    · rw [hdocs, splitDocuments_self]
    · rw [hdocs]
    · simp [uris]
  · have hprevious := h.sorted_documentsOf sourceSet.srcset
    have hdelta : memorySourceSetDelta (m.memorySourceSets.get? sourceSet.srcset)
        { sourceSet with documents := next } =
          splitDocuments (m.documentsOf sourceSet.srcset) next :=
      merge_eq_splitDocuments hprevious hsorted
    have hmem : ∀ d ∈ changedDocuments (m.documentsOf sourceSet.srcset) next, d ∈ next :=
      fun d hd => (mem_changedDocuments.mp hd).1
    have hfound := mapM_searchDocument hsorted hmem
    rw [if_neg hsame, hdelta, uris_changedDocuments, hfound]
    refine ⟨_, _, rfl, ?_, ⟨rfl, ?_, ?_, ?_, ?_⟩, ?_, fun _ => rfl, by simp, by simp⟩
    · exact h.exchange hvalid (some { sourceSet with documents := next }) (by simp [hsorted])
        (fun k => OrdMap.get?_insert) _ _ (nodup_uris_changedDocuments hsorted) rfl
        (mem_next_iff hprevious hsorted)
    · simp [documentsOf]
    · simp [documentsOf]
    · exact OrdSet.nodup _
    · simp [paths, eq_comm]
    · intro k hk
      simp [hk]

theorem Coherent.updated (h : m.Coherent) {call : MemoryCall} (hvalid : call.Valid) :
    ∃ u m', m.update call = some (u, m') ∧ m.Updated call.srcset u m' := by
  cases call with
  | replace sourceSet => exact h.updated_replace hvalid.1 hvalid.2
  | remove srcset => exact ⟨_, _, rfl, h.updated_remove hvalid⟩

/-! ## Rollback -/

/-- The calls of a build leave the sets and the documents alone. -/
theorem foldl_build (calls : List (ResourceCall S I D)) (m : LocalResourceMaterial S I D) :
    (calls.foldl build m).memorySourceSets = m.memorySourceSets ∧
      (calls.foldl build m).memoryDocuments = m.memoryDocuments := by
  induction calls generalizing m with
  | nil => exact ⟨rfl, rfl⟩
  | cons call calls ih =>
    obtain ⟨hsets, hdocuments⟩ := ih (m.build call)
    rw [foldl_cons, hsets, hdocuments]
    cases call with
    | _ => exact ⟨rfl, rfl⟩

theorem Coherent.of_eq (h : m.Coherent) (hsets : m'.memorySourceSets = m.memorySourceSets)
    (hdocuments : m'.memoryDocuments = m.memoryDocuments) : m'.Coherent where
  sets srcset set hget := h.sets srcset set (hsets ▸ hget)
  entries p c := by
    rw [hdocuments, h.entries, documentsOf, documentsOf, hsets]

/-- A restored store has the previous set under the name of the checkpoint. -/
theorem Coherent.restoreCheckpoint (h : m.Coherent) {checkpoint : LocalResourceCheckpoint S I D}
    (hprevious : ∀ set ∈ checkpoint.previous, set.srcset = checkpoint.srcset ∧
      validSrcset checkpoint.srcset = true ∧ SortedDocuments set.documents) :
    (m.restoreCheckpoint checkpoint).Coherent ∧
      ∀ k, (m.restoreCheckpoint checkpoint).memorySourceSets.get? k =
        if k = checkpoint.srcset then checkpoint.previous else m.memorySourceSets.get? k := by
  obtain ⟨m', hm', hcoherent, hget⟩ : ∃ m' : LocalResourceMaterial S I D,
      (match m.memorySourceSets.get? checkpoint.srcset with
        | none => m
        | some current =>
          { m with
            memorySourceSets := m.memorySourceSets.erase checkpoint.srcset
            memoryDocuments := removeDocuments checkpoint.srcset m.memoryDocuments
              (current.documents.map MemorySourceDocument.uri) }) = m' ∧ m'.Coherent ∧
        ∀ k, m'.memorySourceSets.get? k =
          if k = checkpoint.srcset then none else m.memorySourceSets.get? k := by
    refine ⟨_, rfl, ?_⟩
    cases hcurrent : m.memorySourceSets.get? checkpoint.srcset with
    | none => exact ⟨h, fun k => by split_ifs with hk <;> simp [hk, hcurrent]⟩
    | some current => exact ⟨h.drop hcurrent, fun k => OrdMap.get?_erase⟩
  rw [LocalResourceMaterial.restoreCheckpoint]
  dsimp only
  rw [hm']
  cases hset : checkpoint.previous with
  | none => exact ⟨hcoherent.of_eq rfl rfl, hget⟩
  | some set =>
    obtain ⟨hname, hvalid, hsorted⟩ := hprevious set hset
    rw [← hname] at hvalid hget ⊢
    refine ⟨(hcoherent.add hvalid hsorted (by simp [hget])).of_eq rfl rfl, fun k => ?_⟩
    rw [OrdMap.get?_insert, hget]
    split_ifs <;> rfl

/-- The update `u` that led to `m'` is undone from a checkpoint taken after it. -/
def RollsBack (m : LocalResourceMaterial S I D) (u : MemorySourceSetUpdate)
    (m' : LocalResourceMaterial S I D) : Prop :=
  ∀ calls : List (ResourceCall S I D),
    (calls.foldl build m').restoreCheckpoint (m'.checkpointMemorySourceUpdate u).1 = m

theorem Coherent.rollsBack (h : m.Coherent) {srcset : String} {u : MemorySourceSetUpdate}
    (hu : m.Updated srcset u m')
    (hchanged : u.changed = true ∨ m.memorySourceSets.get? srcset = none) : m.RollsBack u m' := by
  intro calls
  have hprevious : u.previous = m.memorySourceSets.get? srcset := by
    rcases hchanged with hchanged | hnone
    · exact hu.previous hchanged
    · cases hc : u.changed with
      | true => exact hu.previous hc
      | false => exact (hu.same hc).2.trans hnone.symm
  obtain ⟨hsets, hdocuments⟩ := foldl_build calls m'
  have hbuilt : (calls.foldl build m').Coherent := hu.coherent.of_eq hsets hdocuments
  have hnamed : ∀ set ∈ (m'.checkpointMemorySourceUpdate u).1.previous,
      set.srcset = (m'.checkpointMemorySourceUpdate u).1.srcset ∧
        validSrcset (m'.checkpointMemorySourceUpdate u).1.srcset = true ∧
          SortedDocuments set.documents := by
    intro set hset
    rw [checkpointMemorySourceUpdate, hu.reports.name]
    exact h.sets srcset set (hprevious ▸ hset)
  obtain ⟨hcoherent, hget⟩ := hbuilt.restoreCheckpoint hnamed
  have hrestored : ((calls.foldl build m').restoreCheckpoint
      (m'.checkpointMemorySourceUpdate u).1).memorySourceSets = m.memorySourceSets := by
    refine OrdMap.ext fun k => ?_
    rw [hget, checkpointMemorySourceUpdate, hprevious, hu.reports.name, hsets]
    split_ifs with hk
    · rw [hk]
    · exact hu.sets k hk
  have hentries := hcoherent.memoryDocuments_eq h hrestored
  obtain ⟨hgeneration, hsources, hindexes, hdiffs⟩ := hu.resources
  exact LocalResourceMaterial.ext hgeneration hsources hindexes hrestored hentries hdiffs

/-- The stores that valid calls and builds lead to. -/
inductive Reachable : LocalResourceMaterial S I D → Prop
  | start : Reachable {}
  | update {m m' : LocalResourceMaterial S I D} {call : MemoryCall} {u : MemorySourceSetUpdate} :
    Reachable m → call.Valid → m.update call = some (u, m') → Reachable m'
  | build {m : LocalResourceMaterial S I D} (call : ResourceCall S I D) :
    Reachable m → Reachable (m.build call)

theorem Reachable.coherent (h : Reachable m) : m.Coherent := by
  induction h with
  | start => exact ⟨fun srcset set hget => by simp at hget, fun p c => by simp [documentsOf]⟩
  | update _ hvalid heq ih =>
    obtain ⟨u, m', heq', hu⟩ := ih.updated hvalid
    obtain ⟨rfl, rfl⟩ := Prod.mk.inj (Option.some.inj (heq.symm.trans heq'))
    exact hu.coherent
  | build call _ ih =>
    obtain ⟨hsets, hdocuments⟩ := foldl_build [call] _
    exact ih.of_eq hsets hdocuments

/-- The active set of its name after a call. -/
def sentSet : MemoryCall → Option MemorySourceSet
  | .replace sourceSet => some { sourceSet with
      documents := StableSort.stableSort MemorySourceDocument.uri sourceSet.documents }
  | .remove _ => none

theorem active_update {call : MemoryCall} {u : MemorySourceSetUpdate}
    (h : m.update call = some (u, m')) : m'.memorySourceSets.get? call.srcset = sentSet call := by
  cases call with
  | replace sourceSet =>
    rw [update, replaceMemorySourceSet] at h
    dsimp only at h
    split_ifs at h with hsame
    · obtain ⟨-, rfl⟩ := Prod.mk.inj (Option.some.inj h)
      exact hsame
    · obtain ⟨found, -, h⟩ := Option.bind_eq_some_iff.mp h
      obtain ⟨-, rfl⟩ := Prod.mk.inj (Option.some.inj h)
      simp [sentSet, MemoryCall.srcset]
  | remove srcset =>
    obtain ⟨-, rfl⟩ := Prod.mk.inj (Option.some.inj h)
    change (m.removeMemorySourceSet srcset).2.memorySourceSets.get? srcset = none
    unfold removeMemorySourceSet
    cases hget : m.memorySourceSets.get? srcset with
    | none => exact hget
    | some previous => simp

/-- The store is coherent, a valid call goes through, makes the sent set active or removes it and
reports the difference it made, and a call that changed the store, or one on a set that was not
there, is undone by its checkpoint. -/
theorem memory_sources_coherent (h : Reachable m) :
    m.Coherent ∧ ∀ call : MemoryCall, call.Valid → ∃ u m', m.update call = some (u, m') ∧
      u.Reports call.srcset (m.documentsOf call.srcset) (m'.documentsOf call.srcset) ∧
        m'.memorySourceSets.get? call.srcset = sentSet call ∧ (u.changed = true ∨ m.memorySourceSets.get? call.srcset = none → m.RollsBack u m') := by
  refine ⟨h.coherent, fun call hvalid => ?_⟩
  obtain ⟨u, m', heq, hu⟩ := h.coherent.updated hvalid
  exact ⟨u, m', heq, hu.reports, active_update heq, h.coherent.rollsBack hu⟩

/-- One buffer. -/
def buffer : MemorySourceDocument := ⟨"a.rs", .rs, "fn a();"⟩

def bufferSet : MemorySourceSet := ⟨"buffers", none, [buffer]⟩

theorem valid_bufferSet : (MemoryCall.replace bufferSet).Valid :=
  ⟨by decide, nodup_singleton _⟩

/-- The store with the buffer. -/
def bufferStore : LocalResourceMaterial Unit Unit Unit where
  memorySourceSets := (∅ : OrdMap String MemorySourceSet).insert "buffers" bufferSet
  memoryDocuments := insertDocument "buffers" ∅ buffer

theorem reachable_bufferStore : Reachable bufferStore := by
  have hdelta : memorySourceSetDelta none bufferSet = { added := ["a.rs"] } := by
    simp [memorySourceSetDelta, MemorySourceSetDelta.merge, bufferSet, buffer]
  have hsort : { bufferSet with
      documents := StableSort.stableSort MemorySourceDocument.uri bufferSet.documents } =
        bufferSet := rfl
  have hget : ({} : LocalResourceMaterial Unit Unit Unit).memorySourceSets.get? bufferSet.srcset =
      none := rfl
  have hstep : ∃ u, ({} : LocalResourceMaterial Unit Unit Unit).update (.replace bufferSet) =
      some (u, bufferStore) := by
    simp only [update, replaceMemorySourceSet, hsort, hget, hdelta, reduceCtorEq, if_false]
    exact ⟨_, rfl⟩
  obtain ⟨u, hu⟩ := hstep
  exact .update .start valid_bufferSet hu

theorem memory_sources_coherent_buffer : bufferStore.Coherent ∧
    ∃ u m', bufferStore.update (.remove "buffers") = some (u, m') ∧
      m'.memorySourceSets.get? "buffers" = none ∧ bufferStore.RollsBack u m' := by
  obtain ⟨hcoherent, hcalls⟩ := memory_sources_coherent reachable_bufferStore
  obtain ⟨u, m', heq, -, hactive, hback⟩ := hcalls (.remove "buffers") valid_bufferSet.1
  refine ⟨hcoherent, u, m', heq, hactive, hback (Or.inl ?_)⟩
  rw [← (Prod.mk.inj (Option.some.inj heq)).1]

/-- An equal set is not taken over, and its update does not name the set that is there. The
rollback then deletes it. -/
theorem equal_set_not_rolled_back : ¬∀ m : LocalResourceMaterial Unit Unit Unit, Reachable m →
    ∀ call : MemoryCall, call.Valid → ∀ u m', m.update call = some (u, m') → m.RollsBack u m' := by
  intro hall
  have hsame : bufferStore.update (.replace bufferSet) =
      some ({ srcset := "buffers", delta := { unchanged := 1 }, documentTotal := 1 },
        bufferStore) := rfl
  have hback := hall _ reachable_bufferStore _ valid_bufferSet _ _ hsame []
  have hsets := congrArg (fun m => m.memorySourceSets.get? "buffers") hback
  simp [checkpointMemorySourceUpdate, restoreCheckpoint, bufferStore] at hsets

end LocalResourceMaterial

end CodeMoniker
