import CodeMoniker.ReadIndex

/-!
# The symbol inventory

Symbol records by ordinal, and posting lists over them for each facet. A facet is the list
of keys a record is filed under, and its postings hold an ordinal under a key if and only if
the record there has that key (`Files`). `SymbolInventoryIndex` carries this for all
facets, and `insertRecord` keeps it.
-/

namespace CodeMoniker

/-! ## Records -/

structure InventorySegment where
  kind : String
  name : String
  deriving DecidableEq, Repr

structure InventorySymbol where
  id : SymbolId
  source : ℕ
  identity : String
  name : String
  kind : String
  shape : String
  visibility : String
  language : String
  sourcePath : String
  sourceRoot : ℕ
  srcset : String
  lineRange : Option (ℕ × ℕ)
  navigable : Bool
  parent : Option SymbolId
  ancestors : List SymbolId
  segments : List InventorySegment
  deriving DecidableEq, Repr

/-- The name up to its parameter list. -/
def naturalName (name : String) : String :=
  String.ofList (name.toList.takeWhile (· ≠ '('))

/-- Only navigable symbols are listed under their owners. -/
def InventorySymbol.owners (r : InventorySymbol) : List SymbolId :=
  if r.navigable then r.ancestors else []

abbrev InventoryRecords := AList fun _ : SymbolOrdinal => InventorySymbol

/-! ## Facets -/

section Files

variable {κ : Type} [DecidableEq κ]

/-- The postings file each record under its keys. -/
def Files (m : Postings κ) (keys : InventorySymbol → List κ) (records : InventoryRecords) : Prop :=
  ∀ k o, o ∈ m.get k ↔ ∃ r, records.lookup o = some r ∧ k ∈ keys r

/-- `insert_posting`, once for each key. -/
def insertPosting (m : Postings κ) (keys : List κ) (o : SymbolOrdinal) : Postings κ :=
  keys.foldl (fun m k => m.insertRef k o) m

theorem mem_insertPosting {k : κ} {o o' : SymbolOrdinal} : ∀ {keys : List κ} {m : Postings κ},
    o' ∈ (insertPosting m keys o).get k ↔ o' = o ∧ k ∈ keys ∨ o' ∈ m.get k
  | [], m => by simp [insertPosting]
  | k' :: keys, m => by
    have ih : o' ∈ (insertPosting (m.insertRef k' o) keys o).get k ↔ _ := mem_insertPosting
    rw [insertPosting, List.foldl_cons, ← insertPosting, ih, Postings.mem_get_insertRef,
      List.mem_cons]
    tauto

theorem files_empty (keys : InventorySymbol → List κ) : Files ∅ keys ∅ := by
  intro k o
  simp

theorem Files.mem_get_single {m : Postings κ} {key : InventorySymbol → κ}
    {records : InventoryRecords} (h : Files m (fun r => [key r]) records) {k : κ}
    {o : SymbolOrdinal} : o ∈ m.get k ↔ ∃ r, records.lookup o = some r ∧ key r = k := by
  rw [h k o]
  simp only [List.mem_singleton, eq_comm]

theorem Files.insert {m : Postings κ} {keys : InventorySymbol → List κ}
    {records : InventoryRecords} (h : Files m keys records) {o : SymbolOrdinal}
    (hfresh : o ∉ records) (r : InventorySymbol) :
    Files (insertPosting m (keys r) o) keys (records.insert o r) := by
  intro k o'
  rw [mem_insertPosting, h k o']
  by_cases ho : o' = o
  · subst ho
    have hnone : records.lookup o' = none := AList.lookup_eq_none.mpr hfresh
    simp [hnone]
  · simp [ho]

end Files

structure SymbolInventoryFacets where
  byIdentity : Postings String := ∅
  byName : Postings String := ∅
  byNaturalName : Postings String := ∅
  byKind : Postings String := ∅
  byShape : Postings String := ∅
  byVisibility : Postings String := ∅
  byLanguage : Postings String := ∅
  bySource : Postings ℕ := ∅
  bySourcePath : Postings String := ∅
  bySourceRoot : Postings ℕ := ∅
  bySrcset : Postings String := ∅
  bySegment : Postings InventorySegment := ∅
  byOwner : Postings SymbolId := ∅

namespace SymbolInventoryFacets

def insertFacets (f : SymbolInventoryFacets) (r : InventorySymbol) (o : SymbolOrdinal) :
    SymbolInventoryFacets where
  byIdentity := insertPosting f.byIdentity [r.identity] o
  byName := insertPosting f.byName [r.name] o
  byNaturalName := insertPosting f.byNaturalName [naturalName r.name] o
  byKind := insertPosting f.byKind [r.kind] o
  byShape := insertPosting f.byShape [r.shape] o
  byVisibility := insertPosting f.byVisibility [r.visibility] o
  byLanguage := insertPosting f.byLanguage [r.language] o
  bySource := insertPosting f.bySource [r.source] o
  bySourcePath := insertPosting f.bySourcePath [r.sourcePath] o
  bySourceRoot := insertPosting f.bySourceRoot [r.sourceRoot] o
  bySrcset := insertPosting f.bySrcset [r.srcset] o
  bySegment := insertPosting f.bySegment r.segments o
  byOwner := insertPosting f.byOwner r.owners o

/-- Every facet files the records. -/
structure Describe (f : SymbolInventoryFacets) (records : InventoryRecords) : Prop where
  identity : Files f.byIdentity (fun r => [r.identity]) records
  name : Files f.byName (fun r => [r.name]) records
  naturalName : Files f.byNaturalName (fun r => [CodeMoniker.naturalName r.name]) records
  kind : Files f.byKind (fun r => [r.kind]) records
  shape : Files f.byShape (fun r => [r.shape]) records
  visibility : Files f.byVisibility (fun r => [r.visibility]) records
  language : Files f.byLanguage (fun r => [r.language]) records
  source : Files f.bySource (fun r => [r.source]) records
  sourcePath : Files f.bySourcePath (fun r => [r.sourcePath]) records
  sourceRoot : Files f.bySourceRoot (fun r => [r.sourceRoot]) records
  srcset : Files f.bySrcset (fun r => [r.srcset]) records
  segment : Files f.bySegment (·.segments) records
  owner : Files f.byOwner (·.owners) records

theorem describe_empty : Describe {} ∅ :=
  ⟨files_empty _, files_empty _, files_empty _, files_empty _, files_empty _, files_empty _,
    files_empty _, files_empty _, files_empty _, files_empty _, files_empty _, files_empty _,
    files_empty _⟩

theorem Describe.insertFacets {f : SymbolInventoryFacets} {records : InventoryRecords}
    (h : f.Describe records) {o : SymbolOrdinal} (hfresh : o ∉ records) (r : InventorySymbol) :
    (f.insertFacets r o).Describe (records.insert o r) where
  identity := h.identity.insert hfresh r
  name := h.name.insert hfresh r
  naturalName := h.naturalName.insert hfresh r
  kind := h.kind.insert hfresh r
  shape := h.shape.insert hfresh r
  visibility := h.visibility.insert hfresh r
  language := h.language.insert hfresh r
  source := h.source.insert hfresh r
  sourcePath := h.sourcePath.insert hfresh r
  sourceRoot := h.sourceRoot.insert hfresh r
  srcset := h.srcset.insert hfresh r
  segment := h.segment.insert hfresh r
  owner := h.owner.insert hfresh r

end SymbolInventoryFacets

/-! ## The index -/

structure SymbolInventoryIndex where
  catalog : SymbolOrdinalCatalog
  records : InventoryRecords
  allSymbols : SymbolSet
  facets : SymbolInventoryFacets
  listed : ∀ o, o ∈ allSymbols ↔ o ∈ records
  described : facets.Describe records

namespace SymbolInventoryIndex

def empty : SymbolInventoryIndex where
  catalog := .empty
  records := ∅
  allSymbols := ∅
  facets := {}
  listed o := by simp
  described := SymbolInventoryFacets.describe_empty

variable (x : SymbolInventoryIndex)

def record (o : SymbolOrdinal) : Option InventorySymbol :=
  x.records.lookup o

/-- Every symbol of the set has a record. -/
def Knows (u : SymbolSet) : Prop := ∀ o ∈ u, ∃ r, x.record o = some r

def recordById (id : SymbolId) : Option InventorySymbol := do
  let o ← x.catalog.ordinal id
  x.record o

/-- `index_record` at an ordinal that holds no record. -/
def insertRecord (o : SymbolOrdinal) (hfresh : o ∉ x.records)
    (r : InventorySymbol) : SymbolInventoryIndex where
  catalog := x.catalog.bindId o r.id
  records := x.records.insert o r
  allSymbols := x.allSymbols.insert o
  facets := x.facets.insertFacets r o
  listed o' := by simp [x.listed o']
  described := x.described.insertFacets hfresh r

end SymbolInventoryIndex

theorem zero_notMem_empty : 0 ∉ SymbolInventoryIndex.empty.records := by decide

end CodeMoniker
