import CodeMoniker.CodeGraphBuild

/-!
# Source files of the code index

The code index keeps one graph for each slot of the source catalog. A slot is never given
up : when its file is removed the slot is retired and its graph replaced by one without
definitions (`tombstoneFile`), which keeps the language and the path, and when the file
comes back it is extracted again. `CodeIndexMaterial.refresh` is one update of the index. On
every index reached by updates a file is either well formed or a tombstone
(`CodeIndexMaterial.Indexed.refresh`).
-/

namespace CodeMoniker

inductive Lang where
  | ts
  | tsx
  | js
  | jsx
  | rs
  | java
  | python
  | go
  | c
  | cs
  | sql
  | markdown
  | json
  | yaml
  deriving DecidableEq, Repr

/-- The dialects of TypeScript share one namespace. -/
def Lang.ecosystem : Lang → Lang
  | .tsx | .js | .jsx => .ts
  | other => other

structure IndexedSourceFile where
  sourceRoot : ℕ
  path : String
  lang : Lang
  graph : CodeGraph

/-- What is left of a removed file. -/
def tombstoneFile (previous : IndexedSourceFile) : IndexedSourceFile :=
  { previous with graph := CodeGraph.fromRecords [] [] }

/-- A file as extraction returns it. -/
structure ExtractedFile where
  file : IndexedSourceFile
  wellFormed : file.graph.WellFormed

/-- A slot of the source catalog with the file that the index holds for it. -/
structure SourceSlot where
  file : IndexedSourceFile
  retired : Bool

structure CodeIndexMaterial where
  slots : List SourceSlot

/-- A new state of the source catalog and the files extracted for it. -/
structure IndexChange where
  /-- the flags of the slots that are there already -/
  retired : ℕ → Bool
  /-- the slots that the changed paths resolve to -/
  edited : List ℕ
  extracted : ℕ → ExtractedFile
  appended : List (ExtractedFile × Bool)

namespace CodeIndexMaterial

def files (m : CodeIndexMaterial) : List IndexedSourceFile := m.slots.map (·.file)

/-- The first index of a workspace. -/
def load (extracted : List ExtractedFile) : CodeIndexMaterial :=
  ⟨extracted.map fun x => ⟨x.file, false⟩⟩

/-- A slot whose flag has flipped becomes a tombstone or is extracted, and of the other
slots those that are edited and not retired are extracted. -/
def refreshSlot (change : IndexChange) (i : ℕ) (slot : SourceSlot) : SourceSlot :=
  if slot.retired ≠ change.retired i then
    if change.retired i then ⟨tombstoneFile slot.file, true⟩
    else ⟨(change.extracted i).file, false⟩
  else if i ∈ change.edited ∧ change.retired i = false then
    ⟨(change.extracted i).file, change.retired i⟩
  else slot

/-- `refresh_local_code_index`. -/
def refresh (m : CodeIndexMaterial) (change : IndexChange) : CodeIndexMaterial :=
  ⟨m.slots.mapIdx (refreshSlot change) ++ change.appended.map fun x => ⟨x.1.file, x.2⟩⟩

/-! ## Well-formed files and tombstones -/

/-- Every graph is well formed, or has no definition and no reference. -/
def Indexed (m : CodeIndexMaterial) : Prop :=
  ∀ file ∈ m.files, file.graph.WellFormed ∨ file.graph.defs = [] ∧ file.graph.refs = []

theorem indexed_load (extracted : List ExtractedFile) : Indexed (load extracted) := by
  intro file hfile
  simp only [files, load, List.map_map, List.mem_map, Function.comp_apply] at hfile
  obtain ⟨x, -, rfl⟩ := hfile
  exact Or.inl x.wellFormed

theorem refreshSlot_indexed {change : IndexChange} {i : ℕ} {slot : SourceSlot}
    (h : slot.file.graph.WellFormed ∨ slot.file.graph.defs = [] ∧ slot.file.graph.refs = []) :
    (refreshSlot change i slot).file.graph.WellFormed ∨
      (refreshSlot change i slot).file.graph.defs = [] ∧
        (refreshSlot change i slot).file.graph.refs = [] := by
  unfold refreshSlot
  split_ifs
  · exact Or.inr ⟨rfl, rfl⟩
  · exact Or.inl (change.extracted i).wellFormed
  · exact Or.inl (change.extracted i).wellFormed
  · exact h

/-- An update of the index keeps its files well formed or tombstones. -/
theorem Indexed.refresh {m : CodeIndexMaterial} (h : Indexed m) (change : IndexChange) :
    Indexed (m.refresh change) := by
  intro file hfile
  simp only [files, CodeIndexMaterial.refresh, List.map_append, List.mem_append, List.mem_map,
    List.mem_mapIdx] at hfile
  rcases hfile with ⟨slot', ⟨i, hi, rfl⟩, rfl⟩ | ⟨slot', ⟨x, -, rfl⟩, rfl⟩
  · exact refreshSlot_indexed (h _ (List.mem_map_of_mem (List.getElem_mem hi)))
  · exact Or.inl x.1.wellFormed

theorem Indexed.defAt_source {m : CodeIndexMaterial} (h : Indexed m) {file : IndexedSourceFile}
    (hfile : file ∈ m.files) {r : RefRecord} (hr : r ∈ file.graph.refs) :
    ∃ source, file.graph.defAt r.source = some source := by
  rcases h file hfile with hwf | ⟨-, hnil⟩
  · exact hwf.defAt_source hr
  · simp [hnil] at hr

theorem Indexed.defAt_parent {m : CodeIndexMaterial} (h : Indexed m) {file : IndexedSourceFile}
    (hfile : file ∈ m.files) {d : DefRecord} (hd : d ∈ file.graph.defs) {p : ℕ}
    (hp : d.parent = some p) : ∃ owner, file.graph.defAt p = some owner := by
  rcases h file hfile with hwf | ⟨hnil, -⟩
  · exact hwf.defAt_parent hd hp
  · simp [hnil] at hd

end CodeIndexMaterial

end CodeMoniker
