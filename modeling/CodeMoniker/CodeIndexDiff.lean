import CodeMoniker.KeyedMatch
import CodeMoniker.InventoryRefresh
import CodeMoniker.LinkageRuns
import CodeMoniker.UriGrammar
import CodeMoniker.WorkspaceIncremental

/-!
# Records of the code index and their diff

`collectSymbols` and `collectReferences` turn the graph of a file into records whose ids are
positions, so an edit shifts the ids behind it. `graphDiff` compares the records of the changed
files before and after an update by what they say and not by their ids : each record is matched
with the first free record that has the same key.

For references the diff amounts to one map from old to new ids (`nextReference`). It is
injective, a kept reference has the same key in both indexes (`nextReference_key`), and every
new id is either reported as changed or the image of a kept one (`mem_changedReferences`).
-/

namespace CodeMoniker

open List ByteCodec KeyedMatch
open Option (getD_none map_eq_some_iff map_some some.inj)

/-! ## Records -/

def Lang.tag : Lang → String
  | .ts => "ts"
  | .tsx => "tsx"
  | .js => "js"
  | .jsx => "jsx"
  | .rs => "rs"
  | .java => "java"
  | .python => "python"
  | .go => "go"
  | .c => "c"
  | .cs => "cs"
  | .sql => "sql"
  | .markdown => "markdown"
  | .json => "json"
  | .yaml => "yaml"

/-- `to_uri` does not fail on a moniker. -/
def monikerUri (scheme : List Char) (m : Moniker) : String :=
  ((toUri m ⟨scheme⟩ : Except (Stop Empty) (List Char)).toOption.map String.ofList).getD ""

/-- What the records take from a file beside its graph. -/
structure RecordReader where
  scheme : List Char
  relPath : IndexedSourceFile → String
  isNavigableDef : Lang → DefRecord → Bool
  lineRange : IndexedSourceFile → Position → ℕ × ℕ

/-- A symbol record with the fields that the linkage compares. -/
structure LinkedSymbol extends IndexedSymbol where
  callName : Option String
  callArity : Option ℕ
  deriving DecidableEq

/-- A reference record with the fields that the linkage reads. -/
structure IndexedReference extends ReferenceRecord where
  callName : Option String
  callArity : Option ℕ
  confidence : Option String
  receiver : Option String
  aliasName : Option String
  deriving DecidableEq

def lastName (m : Moniker) : String := (m.segments.getLast?.bind fun s => fromUtf8 s.name).getD "."

def refAttr (bytes : Bytes) : Option String := if bytes = [] then none else fromUtf8 bytes

section Collect

variable (reader : RecordReader)

def collectSymbols (slot : ℕ) (file : IndexedSourceFile) : List LinkedSymbol :=
  file.graph.defs.mapIdx fun i d =>
    { byteRange := d.position.map fun p => (p.1.toNat, p.2.toNat)
      id := ⟨slot, i⟩
      source := slot
      identity := monikerUri reader.scheme d.moniker
      name := lastName d.moniker
      kind := (fromUtf8 d.kind).getD "?"
      visibility := (fromUtf8 d.visibility).getD ""
      signature := fromUtf8Lossy d.signature
      parent := d.parent.map (SymbolId.mk slot)
      navigable := reader.isNavigableDef file.lang d
      lineRange := d.position.map (reader.lineRange file)
      callName := if d.callName = [] then none else some (fromUtf8Lossy d.callName)
      callArity := d.callArity }

def collectReferences (slot : ℕ) (file : IndexedSourceFile) : List IndexedReference :=
  file.graph.refs.mapIdx fun i r =>
    { id := ⟨slot, i⟩
      sourceSymbol := ⟨slot, r.source⟩
      targetIdentity := monikerUri reader.scheme r.target
      kind := (fromUtf8 r.kind).getD "?"
      callName := refAttr r.callName
      callArity := r.callArity
      confidence := refAttr r.confidence
      receiver := refAttr r.receiverHint
      aliasName := refAttr r.aliasName }

variable (m : CodeIndexMaterial)

/-- The symbol records of a slot, none where there is no such slot. -/
def fileSymbols (slot : ℕ) : List LinkedSymbol :=
  ((m.files[slot]?).map (collectSymbols reader slot)).getD []

def fileReferences (slot : ℕ) : List IndexedReference :=
  ((m.files[slot]?).map (collectReferences reader slot)).getD []

def sourceRecords : List SourceFileRecord :=
  m.files.map fun file => ⟨file.sourceRoot, reader.relPath file, file.lang.tag⟩

/-- The symbol table of the index. -/
def symbolTable : SymbolTable where
  shards := m.files.mapIdx fun slot file =>
    (collectSymbols reader slot file).map (·.toIndexedSymbol)
  placed f d s h := by
    rw [List.getElem?_mapIdx] at h
    cases hfile : m.files[f]? with
    | none => simp [hfile] at h
    | some file =>
      cases hd : file.graph.defs[d]? with
      | none => simp [hfile, hd, collectSymbols] at h
      | some x =>
        simp only [hfile, Option.map_some, Option.getD_some, List.getElem?_map, collectSymbols,
          List.getElem?_mapIdx, hd, Option.some.injEq] at h
        subst h
        simp

/-- The reference table of the index, in the order of the ids. -/
def references : List IndexedReference := (m.files.mapIdx (collectReferences reader)).flatten

def referenceIds : List ReferenceId := (references reader m).map (·.id)

/-! ### Ids are positions -/

variable {reader m}

theorem getElem?_fileReferences {f j : ℕ} {r : IndexedReference} :
    (fileReferences reader m f)[j]? = some r ↔
      ∃ file, m.files[f]? = some file ∧ (collectReferences reader f file)[j]? = some r := by
  unfold fileReferences
  cases hfile : m.files[f]? with
  | none => simp
  | some file => simp

theorem getElem?_collectReferences {f j : ℕ} {file : IndexedSourceFile} {r : IndexedReference}
    (h : (collectReferences reader f file)[j]? = some r) :
    r.id = ⟨f, j⟩ ∧ ∃ record, file.graph.refs[j]? = some record ∧
      r.sourceSymbol = ⟨f, record.source⟩ ∧
      r.targetIdentity = monikerUri reader.scheme record.target := by
  rw [collectReferences, getElem?_mapIdx] at h
  obtain ⟨record, hrecord, rfl⟩ := map_eq_some_iff.mp h
  exact ⟨rfl, record, hrecord, rfl, rfl⟩

theorem id_of_getElem?_fileReferences {f j : ℕ} {r : IndexedReference}
    (h : (fileReferences reader m f)[j]? = some r) : r.id = ⟨f, j⟩ := by
  obtain ⟨file, -, hr⟩ := getElem?_fileReferences.mp h
  exact (getElem?_collectReferences hr).1

theorem mem_references {r : IndexedReference} :
    r ∈ references reader m ↔ (fileReferences reader m r.id.file)[r.id.reference]? = some r := by
  simp only [references, mem_flatten, mem_mapIdx]
  refine ⟨?_, fun h => ?_⟩
  · rintro ⟨shard, ⟨f, hf, rfl⟩, hr⟩
    obtain ⟨j, hj⟩ := mem_iff_getElem?.mp hr
    rw [(getElem?_collectReferences hj).1]
    exact getElem?_fileReferences.mpr ⟨m.files[f], getElem?_eq_getElem hf, hj⟩
  · obtain ⟨file, hfile, hr⟩ := getElem?_fileReferences.mp h
    obtain ⟨hf, rfl⟩ := List.getElem?_eq_some_iff.mp hfile
    exact ⟨_, ⟨r.id.file, hf, rfl⟩, mem_of_getElem? hr⟩

theorem mem_referenceIds {id : ReferenceId} : id ∈ referenceIds reader m ↔
      ∃ r, (fileReferences reader m id.file)[id.reference]? = some r := by
  refine ⟨fun h => ?_, fun ⟨r, hr⟩ => ?_⟩
  · obtain ⟨r, hr, rfl⟩ := mem_map.mp h
    exact ⟨r, mem_references.mp hr⟩
  · have hid : r.id = id := id_of_getElem?_fileReferences hr
    exact mem_map.mpr ⟨r, mem_references.mpr (by rwa [hid]), hid⟩

theorem slotAligned_collectReferences (reader : RecordReader) :
    ∀ (files : List IndexedSourceFile) (n : ℕ), SlotAligned n (files.mapIdx fun slot file =>
      (collectReferences reader (n + slot) file).map (·.toReferenceRecord))
  | [], _ => trivial
  | file :: files, n => by
    rw [mapIdx_cons]
    refine ⟨?_, ?_⟩
    · refine ext_getElem? fun j => ?_
      by_cases hj : j < file.graph.refs.length
      · simp [collectReferences, hj]
      · simp [collectReferences, hj]
    · have hrest := slotAligned_collectReferences reader files (n + 1)
      simpa only [Nat.add_assoc, Nat.add_comm 1] using hrest

/-- The table of the read index. -/
def referenceTable (reader : RecordReader) (m : CodeIndexMaterial) : ReferenceTable where
  shards := m.files.mapIdx fun slot file =>
    (collectReferences reader slot file).map (·.toReferenceRecord)
  slotAligned := by simpa using slotAligned_collectReferences reader m.files 0

theorem ids_referenceTable (reader : RecordReader) (m : CodeIndexMaterial) :
    (referenceTable reader m).iter.map (·.id) = referenceIds reader m := by
  rw [ReferenceTable.iter, referenceIds, references, map_flatten, map_flatten]
  congr 1
  refine ext_getElem? fun f => ?_
  simp only [referenceTable, getElem?_map, getElem?_mapIdx, Option.map_map,
    Function.comp_def, map_map]

theorem referenceIds_nodup (reader : RecordReader) (m : CodeIndexMaterial) :
    (referenceIds reader m).Nodup := by
  rw [← ids_referenceTable]
  exact (referenceTable reader m).ids_nodup

end Collect

/-! ## The diff -/

/-- What two references must share to be the same reference. -/
structure ReferenceKey where
  sourceSymbolIdentity : String
  targetIdentity : String
  kind : String
  callName : Option String
  callArity : Option ℕ
  confidence : Option String
  receiver : Option String
  aliasName : Option String
  deriving DecidableEq

def referenceKey (reader : RecordReader) (m : CodeIndexMaterial) (r : IndexedReference) :
    Option ReferenceKey := do
  let source ← (m.symbolMoniker r.sourceSymbol).join
  return ⟨monikerUri reader.scheme source, r.targetIdentity, r.kind, r.callName, r.callArity,
    r.confidence, r.receiver, r.aliasName⟩

/-- The whole diff : what the rules read of it, and what the linkage does. -/
structure IndexGraphDiff extends CodeIndexGraphDiff where
  changedSymbols : List SymbolId := []
  removedSymbolIdentities : List String := []
  changedReferences : List ReferenceId := []
  removedReferences : List ReferenceId := []
  removedReferenceKinds : List String := []
  referenceIdRemaps : List (ReferenceId × ReferenceId) := []

section MatchRecords

variable {α κ : Type} [DecidableEq κ] (key key' : α → Option κ) (previous next : List α)

/-- The loop over the previous records : each with the record that `pop_index` gives for its
key. -/
def matchRecords : List (α × Option α) :=
  previous.zip ((KeyedMatch.pairs (previous.map key) (next.map key')).map (·.bind (next[·]?)))

/-- The records that are left when the loop ends. -/
def leftRecords : List α :=
  (KeyedMatch.leftover (previous.map key) (next.map key')).filterMap (next[·]?)

end MatchRecords

def symbolLinkageFieldsChanged (previous next : LinkedSymbol) : Bool :=
  previous.identity ≠ next.identity || previous.name ≠ next.name || previous.kind ≠ next.kind ||
    previous.visibility ≠ next.visibility || previous.signature ≠ next.signature ||
    previous.callName ≠ next.callName || previous.callArity ≠ next.callArity ||
    previous.navigable ≠ next.navigable

def symbolInventoryFieldsChanged (previous next : LinkedSymbol) : Bool :=
  previous.byteRange ≠ next.byteRange || previous.lineRange ≠ next.lineRange ||
    previous.parent ≠ next.parent

def diffSymbols (previous next : List LinkedSymbol) : IndexGraphDiff :=
  let matched := matchRecords (some ·.identity) (some ·.identity) previous next
  let added := (leftRecords (some ·.identity) (some ·.identity) previous next).map (·.id)
  let removed := matched.filterMap fun (s, found) => if found.isNone then some s else none
  let modified := matched.filterMap fun (s, found) => found.bind fun n =>
    if symbolLinkageFieldsChanged s n then some n else none
  let modifiedInventory := matched.filterMap fun (s, found) => found.bind fun n =>
    if !symbolLinkageFieldsChanged s n && symbolInventoryFieldsChanged s n then some n else none
  { addedSymbols := added
    modifiedSymbols := modified.map (·.id)
    modifiedSymbolIdentities := modified.map (·.identity)
    changedSymbols := modified.map (·.id) ++ added
    removedSymbols := removed.map (·.id)
    removedSymbolIdentities := removed.map (·.identity)
    modifiedInventorySymbols := modifiedInventory.map (·.id)
    modifiedInventorySymbolIdentities := modifiedInventory.map (·.identity)
    symbolIdRemaps := matched.filterMap fun (s, found) => found.bind fun n =>
      if !symbolLinkageFieldsChanged s n && s.id ≠ n.id then some (s.id, n.id) else none }

section GraphDiff

variable (reader : RecordReader) (m m' : CodeIndexMaterial)

def diffReferences (previous next : List IndexedReference) : IndexGraphDiff :=
  let matched := matchRecords (referenceKey reader m) (referenceKey reader m') previous next
  let removed := matched.filterMap fun (r, found) => if found.isNone then some r else none
  { changedReferences :=
      (leftRecords (referenceKey reader m) (referenceKey reader m') previous next).map (·.id)
    removedReferences := removed.map (·.id)
    removedReferenceKinds := removed.map (·.kind)
    referenceIdRemaps := matched.filterMap fun (r, found) => found.bind fun n =>
      if r.id ≠ n.id then some (r.id, n.id) else none }

/-- What one changed file adds to the diff. -/
def fileDiff (f : ℕ) : IndexGraphDiff :=
  if f < m'.files.length then
    let symbols := diffSymbols (fileSymbols reader m f) (fileSymbols reader m' f)
    let references :=
      diffReferences reader m m' (fileReferences reader m f) (fileReferences reader m' f)
    { symbols with
      changedReferences := references.changedReferences
      removedReferences := references.removedReferences
      removedReferenceKinds := references.removedReferenceKinds
      referenceIdRemaps := references.referenceIdRemaps }
  else {}

def graphDiff (changed : OrdSet ℕ) : IndexGraphDiff :=
  let diffs := changed.elems.map (fileDiff reader m m')
  { addedSymbols := diffs.flatMap (·.addedSymbols)
    modifiedSymbols := diffs.flatMap (·.modifiedSymbols)
    modifiedSymbolIdentities := diffs.flatMap (·.modifiedSymbolIdentities)
    modifiedInventorySymbols := diffs.flatMap (·.modifiedInventorySymbols)
    modifiedInventorySymbolIdentities := diffs.flatMap (·.modifiedInventorySymbolIdentities)
    removedSymbolIdentities := diffs.flatMap (·.removedSymbolIdentities)
    changedSymbols := diffs.flatMap (·.changedSymbols)
    removedSymbols := diffs.flatMap (·.removedSymbols)
    symbolIdRemaps := diffs.flatMap (·.symbolIdRemaps)
    changedReferences := diffs.flatMap (·.changedReferences)
    removedReferences := diffs.flatMap (·.removedReferences)
    removedReferenceKinds := diffs.flatMap (·.removedReferenceKinds)
    referenceIdRemaps := diffs.flatMap (·.referenceIdRemaps) }

end GraphDiff

/-- The kinds of `SymbolDelta`. -/
inductive SymbolDelta where
  | unchanged
  | additiveOnly
  | removedOnly
  | mixed
  deriving DecidableEq, Repr

def SymbolDelta.fromCodeIndex (diff : IndexGraphDiff) : SymbolDelta :=
  if diff.addedSymbols = [] ∧ diff.modifiedSymbols = [] ∧ diff.changedSymbols = [] ∧
      diff.removedSymbols = [] ∧ diff.modifiedSymbolIdentities = [] ∧
      diff.removedSymbolIdentities = [] ∧ diff.symbolIdRemaps = [] then .unchanged
  else if diff.addedSymbols ≠ [] ∧ diff.modifiedSymbols = [] ∧ diff.removedSymbols = [] ∧
      diff.symbolIdRemaps = [] ∧ ∀ s ∈ diff.changedSymbols, s ∈ diff.addedSymbols then .additiveOnly
  else if diff.removedSymbols ≠ [] ∧ diff.addedSymbols = [] ∧ diff.modifiedSymbols = [] ∧
      diff.changedSymbols = [] ∧ diff.symbolIdRemaps = [] then .removedOnly
  else .mixed

/-! ## What the diff keeps -/

section CollectMap

variable {α β : Type} [DecidableEq α]

/-- A map collected from pairs, the last one for each key. -/
def collectMap (l : List (α × β)) : AList fun _ : α => β :=
  l.foldl (fun map p => map.insert p.1 p.2) ∅

theorem lookup_foldl_insert_pairs {a : α} {b : β} : ∀ {l : List (α × β)}
    {map : AList fun _ : α => β},
    (l.foldl (fun map p => map.insert p.1 p.2) map).lookup a = some b →
      (a, b) ∈ l ∨ (∀ b', (a, b') ∉ l) ∧ map.lookup a = some b
  | [], map, h => Or.inr ⟨by simp, h⟩
  | (a', b') :: l, map, h => by
    rw [foldl_cons] at h
    rcases lookup_foldl_insert_pairs h with hin | ⟨hnot, hmap⟩
    · exact Or.inl (mem_cons_of_mem _ hin)
    · by_cases ha : a = a'
      · subst ha
        rw [AList.lookup_insert] at hmap
        obtain rfl := some.inj hmap
        exact Or.inl mem_cons_self
      · rw [AList.lookup_insert_ne ha] at hmap
        refine Or.inr ⟨fun x hx => ?_, hmap⟩
        rcases mem_cons.mp hx with heq | hx
        · exact ha (Prod.mk.inj heq).1
        · exact hnot x hx

theorem mem_foldl_insert_pairs {a : α} : ∀ {l : List (α × β)} {map : AList fun _ : α => β},
    a ∈ map ∨ (∃ b, (a, b) ∈ l) → a ∈ l.foldl (fun map p => map.insert p.1 p.2) map
  | [], map, h => by simpa using h
  | (a', b') :: l, map, h => by
    rw [foldl_cons]
    refine mem_foldl_insert_pairs ?_
    rw [AList.mem_insert]
    rcases h with h | ⟨b, hb⟩
    · exact Or.inl (Or.inr h)
    · rcases mem_cons.mp hb with heq | hb
      · exact Or.inl (Or.inl (Prod.mk.inj heq).1)
      · exact Or.inr ⟨b, hb⟩

/-- A map collected from pairs of which no two differ at one key. -/
theorem lookup_collectMap {l : List (α × β)}
    (h : ∀ a b b', (a, b) ∈ l → (a, b') ∈ l → b = b') {a : α} {b : β} :
    (collectMap l).lookup a = some b ↔ (a, b) ∈ l := by
  have hsound : ∀ b, (collectMap l).lookup a = some b → (a, b) ∈ l := fun b hb =>
    (lookup_foldl_insert_pairs hb).resolve_right fun hnone => by simp at hnone
  refine ⟨hsound b, fun hb => ?_⟩
  have hmem : a ∈ collectMap l := mem_foldl_insert_pairs (Or.inr ⟨b, hb⟩)
  obtain ⟨b', hb'⟩ := Option.isSome_iff_exists.mp (AList.lookup_isSome.mpr hmem)
  rw [h a b b' hb (hsound b' hb')]
  exact hb'

end CollectMap

/-- The id under which the rebase looks a reference up in the next index : none where the
reference is removed. -/
def nextReference (diff : IndexGraphDiff) (id : ReferenceId) : Option ReferenceId :=
  if id ∈ diff.removedReferences then none
  else some (((collectMap diff.referenceIdRemaps).lookup id).getD id)

/-- Two states of the index that differ in the changed slots only. -/
structure Updates (changed : OrdSet ℕ) (m m' : CodeIndexMaterial) : Prop where
  slots : ∀ f ∈ changed, f < m'.files.length
  same : ∀ f, f ∉ changed → m'.files[f]? = m.files[f]?

section Matched

variable {α κ : Type} [DecidableEq κ] {key key' : α → Option κ} {previous next : List α}

theorem mem_matchRecords_some {a b : α} : (a, some b) ∈ matchRecords key key' previous next ↔
    ∃ p i : ℕ, previous[p]? = some a ∧ next[i]? = some b ∧
      (pairs (previous.map key) (next.map key'))[p]? = some (some i) := by
  simp only [matchRecords, mem_iff_getElem?, getElem?_zip_eq_some, getElem?_map,
    map_eq_some_iff, Option.bind_eq_some_iff]
  refine ⟨?_, ?_⟩
  · rintro ⟨p, ha, _, hp, i, rfl, hb⟩
    exact ⟨p, i, ha, hb, hp⟩
  · rintro ⟨p, i, ha, hb, hp⟩
    exact ⟨p, ha, _, hp, i, rfl, hb⟩

theorem mem_matchRecords_none {a : α} : (a, none) ∈ matchRecords key key' previous next ↔
    ∃ p : ℕ, previous[p]? = some a ∧
      (pairs (previous.map key) (next.map key'))[p]? = some none := by
  simp only [matchRecords, mem_iff_getElem?, getElem?_zip_eq_some, getElem?_map, map_eq_some_iff]
  refine ⟨?_, ?_⟩
  · rintro ⟨p, ha, found, hp, hnone⟩
    cases found with
    | none => exact ⟨p, ha, hp⟩
    | some i =>
      -- A match is a position of `next`.
      obtain ⟨k, -, hk⟩ := pairs_key hp
      rw [getElem?_map] at hk
      obtain ⟨b, hb, -⟩ := map_eq_some_iff.mp hk
      simp [hb] at hnone
  · rintro ⟨p, ha, hp⟩
    exact ⟨p, ha, none, hp, rfl⟩

theorem mem_leftRecords {b : α} : b ∈ leftRecords key key' previous next ↔
    ∃ i : ℕ, next[i]? = some b ∧ (∃ k, key' b = some k) ∧
      some i ∉ pairs (previous.map key) (next.map key') := by
  simp only [leftRecords, mem_filterMap, mem_leftover, getElem?_map, map_eq_some_iff]
  refine ⟨?_, ?_⟩
  · rintro ⟨i, ⟨⟨k, b', hb', hk⟩, hi⟩, hb⟩
    rw [hb] at hb'
    obtain rfl := some.inj hb'
    exact ⟨i, hb, ⟨k, hk⟩, hi⟩
  · rintro ⟨i, hb, ⟨k, hk⟩, hi⟩
    exact ⟨i, ⟨⟨k, b, hb, hk⟩, hi⟩, hb⟩

end Matched

section KeptReferences

variable {reader : RecordReader} {m m' : CodeIndexMaterial} {changed : OrdSet ℕ}

/-- The matches of the references of a slot. -/
def referencePairs (reader : RecordReader) (m m' : CodeIndexMaterial) (f : ℕ) : List (Option ℕ) :=
  KeyedMatch.pairs ((fileReferences reader m f).map (referenceKey reader m))
    ((fileReferences reader m' f).map (referenceKey reader m'))

theorem length_referencePairs (reader : RecordReader) (m m' : CodeIndexMaterial) (f : ℕ) :
    (referencePairs reader m m' f).length = (fileReferences reader m f).length := by
  rw [referencePairs, pairs, length_matchAll, length_map]

theorem mem_fileDiffs {α : Type} {field : IndexGraphDiff → List α}
    (hu : Updates changed m m') {x : α} :
    x ∈ (changed.elems.map (fileDiff reader m m')).flatMap field ↔
      ∃ f ∈ changed, f < m'.files.length ∧ x ∈ field (fileDiff reader m m' f) := by
  simp only [mem_flatMap, mem_map, OrdSet.mem_elems]
  refine ⟨?_, ?_⟩
  · rintro ⟨_, ⟨f, hf, rfl⟩, hx⟩
    exact ⟨f, hf, hu.slots f hf, hx⟩
  · rintro ⟨f, hf, -, hx⟩
    exact ⟨_, ⟨f, hf, rfl⟩, hx⟩

section

variable (hu : Updates changed m m')

include hu

variable {id : ReferenceId}

theorem mem_removedReferences : id ∈ (graphDiff reader m m' changed).removedReferences ↔
      id.file ∈ changed ∧ (referencePairs reader m m' id.file)[id.reference]? = some none := by
  simp only [graphDiff, mem_fileDiffs hu, fileDiff]
  refine ⟨?_, ?_⟩
  · rintro ⟨f, hf, hlt, hid⟩
    rw [if_pos hlt] at hid
    simp only [diffReferences, mem_map, mem_filterMap, Prod.exists] at hid
    obtain ⟨r, ⟨r', found, hmatched, hr⟩, rfl⟩ := hid
    cases found with
    | some n => simp at hr
    | none =>
      obtain rfl : r' = r := by simpa using hr
      obtain ⟨p, hp, hnone⟩ := mem_matchRecords_none.mp hmatched
      rw [id_of_getElem?_fileReferences hp]
      exact ⟨hf, hnone⟩
  · rintro ⟨hf, hnone⟩
    have hlen : id.reference < (fileReferences reader m id.file).length := by
      rw [← length_referencePairs reader m m']
      exact (List.getElem?_eq_some_iff.mp hnone).1
    obtain ⟨r, hr⟩ : ∃ r, (fileReferences reader m id.file)[id.reference]? = some r :=
      ⟨_, getElem?_eq_getElem hlen⟩
    refine ⟨id.file, hf, hu.slots _ hf, ?_⟩
    rw [if_pos (hu.slots _ hf)]
    simp only [diffReferences, mem_map, mem_filterMap, Prod.exists]
    exact ⟨r, ⟨r, none, mem_matchRecords_none.mpr ⟨_, hr, hnone⟩, by simp⟩,
      id_of_getElem?_fileReferences hr⟩

variable {id id' : ReferenceId}

theorem mem_referenceIdRemaps : (id, id') ∈ (graphDiff reader m m' changed).referenceIdRemaps ↔
      id.file ∈ changed ∧ id'.file = id.file ∧ id ≠ id' ∧
        (referencePairs reader m m' id.file)[id.reference]? = some (some id'.reference) := by
  simp only [graphDiff, mem_fileDiffs hu, fileDiff]
  refine ⟨?_, ?_⟩
  · rintro ⟨f, hf, hlt, hid⟩
    rw [if_pos hlt] at hid
    simp only [diffReferences, mem_filterMap, Prod.exists] at hid
    obtain ⟨r, found, hmatched, hr⟩ := hid
    obtain ⟨n, rfl, hn⟩ := Option.bind_eq_some_iff.mp hr
    split_ifs at hn with hne
    obtain ⟨rfl, rfl⟩ := Prod.mk.inj (some.inj hn)
    obtain ⟨p, i, hp, hi, hpair⟩ := mem_matchRecords_some.mp hmatched
    rw [id_of_getElem?_fileReferences hp, id_of_getElem?_fileReferences hi] at hne ⊢
    exact ⟨hf, rfl, hne, hpair⟩
  · rintro ⟨hf, hfile, hne, hpair⟩
    obtain ⟨k, hk, hk'⟩ := pairs_key hpair
    rw [getElem?_map] at hk hk'
    obtain ⟨r, hr, -⟩ := map_eq_some_iff.mp hk
    obtain ⟨n, hn, -⟩ := map_eq_some_iff.mp hk'
    have hrid : r.id = id := id_of_getElem?_fileReferences hr
    have hnid : n.id = id' := by
      rw [id_of_getElem?_fileReferences hn, ← hfile]
    refine ⟨id.file, hf, hu.slots _ hf, ?_⟩
    rw [if_pos (hu.slots _ hf)]
    simp only [diffReferences, mem_filterMap, Prod.exists]
    refine ⟨r, some n, mem_matchRecords_some.mpr ⟨_, _, hr, hn, hpair⟩, ?_⟩
    simp [hrid, hnid, hne]

theorem mem_changedReferences : id ∈ (graphDiff reader m m' changed).changedReferences ↔
      id.file ∈ changed ∧ (∃ r, (fileReferences reader m' id.file)[id.reference]? = some r ∧
          ∃ k, referenceKey reader m' r = some k) ∧
        some id.reference ∉ referencePairs reader m m' id.file := by
  simp only [graphDiff, mem_fileDiffs hu, fileDiff]
  refine ⟨?_, ?_⟩
  · rintro ⟨f, hf, hlt, hid⟩
    rw [if_pos hlt] at hid
    simp only [diffReferences, mem_map] at hid
    obtain ⟨r, hr, rfl⟩ := hid
    obtain ⟨i, hi, hkey, hfree⟩ := mem_leftRecords.mp hr
    rw [id_of_getElem?_fileReferences hi]
    exact ⟨hf, ⟨r, hi, hkey⟩, hfree⟩
  · rintro ⟨hf, ⟨r, hr, hkey⟩, hfree⟩
    refine ⟨id.file, hf, hu.slots _ hf, ?_⟩
    rw [if_pos (hu.slots _ hf)]
    simp only [diffReferences, mem_map]
    exact ⟨r, mem_leftRecords.mpr ⟨_, hr, hkey, hfree⟩, id_of_getElem?_fileReferences hr⟩

theorem lookup_referenceIdRemaps :
    (collectMap (graphDiff reader m m' changed).referenceIdRemaps).lookup id = some id' ↔
      id.file ∈ changed ∧ id'.file = id.file ∧ id ≠ id' ∧
        (referencePairs reader m m' id.file)[id.reference]? = some (some id'.reference) := by
  rw [lookup_collectMap, mem_referenceIdRemaps hu]
  rintro a ⟨f, j⟩ ⟨f', j'⟩ hb hb'
  obtain ⟨-, hf, -, hj⟩ := (mem_referenceIdRemaps hu).mp hb
  obtain ⟨-, hf', -, hj'⟩ := (mem_referenceIdRemaps hu).mp hb'
  rw [hj] at hj'
  obtain rfl : j = j' := some.inj (some.inj hj')
  obtain rfl : f = f' := hf.trans hf'.symm
  rfl

theorem nextReference_of_notMem
    (hf : id.file ∉ changed) : nextReference (graphDiff reader m m' changed) id = some id := by
  have hkeep : id ∉ (graphDiff reader m m' changed).removedReferences := fun hin =>
    hf ((mem_removedReferences hu).mp hin).1
  have hnone : (collectMap (graphDiff reader m m' changed).referenceIdRemaps).lookup id = none :=
    Option.eq_none_iff_forall_ne_some.mpr fun _ hb =>
      hf ((lookup_referenceIdRemaps hu).mp hb).1
  rw [nextReference, if_neg hkeep, hnone, getD_none]

theorem nextReference_of_mem (hf : id.file ∈ changed) {found : Option ℕ}
    (h : (referencePairs reader m m' id.file)[id.reference]? = some found) :
    nextReference (graphDiff reader m m' changed) id = found.map (ReferenceId.mk id.file) := by
  cases found with
  | none =>
    rw [nextReference, if_pos ((mem_removedReferences hu).mpr ⟨hf, h⟩), Option.map_none]
  | some j =>
    have hkeep : id ∉ (graphDiff reader m m' changed).removedReferences := fun hin => by
      have hnone := ((mem_removedReferences hu).mp hin).2
      simp [h] at hnone
    rw [nextReference, if_neg hkeep, map_some, Option.some.injEq]
    by_cases hself : id = ⟨id.file, j⟩
    · have hnone : (collectMap (graphDiff reader m m' changed).referenceIdRemaps).lookup id =
          none := by
        refine Option.eq_none_iff_forall_ne_some.mpr fun b hb => ?_
        obtain ⟨-, hfile, hne, hb⟩ := (lookup_referenceIdRemaps hu).mp hb
        rw [h, Option.some.injEq, Option.some.injEq] at hb
        refine hne (hself.trans ?_)
        rw [hb, ← hfile]
      rw [hnone, getD_none]
      exact hself
    · have hsome : (collectMap (graphDiff reader m m' changed).referenceIdRemaps).lookup id =
          some ⟨id.file, j⟩ := (lookup_referenceIdRemaps hu).mpr ⟨hf, rfl, hself, h⟩
      rw [hsome, Option.getD_some]

/-- What the rebase makes of a reference : the same id in a file that has not changed, and its
match in one that has. -/
theorem nextReference_eq_some (hid : id ∈ referenceIds reader m) :
    nextReference (graphDiff reader m m' changed) id = some id' ↔ id.file ∉ changed ∧ id' = id ∨
        id.file ∈ changed ∧ id'.file = id.file ∧
          (referencePairs reader m m' id.file)[id.reference]? = some (some id'.reference) := by
  by_cases hf : id.file ∈ changed
  · obtain ⟨r, hr⟩ := mem_referenceIds.mp hid
    have hlen : id.reference < (referencePairs reader m m' id.file).length := by
      rw [length_referencePairs]
      exact (List.getElem?_eq_some_iff.mp hr).1
    have hpair := getElem?_eq_getElem hlen
    rw [nextReference_of_mem hu hf hpair, hpair]
    cases (referencePairs reader m m' id.file)[id.reference] with
    | none => simp [hf]
    | some j =>
      obtain ⟨f', j'⟩ := id'
      simp [hf, eq_comm]
  · rw [nextReference_of_notMem hu hf]
    simp [hf, eq_comm]

theorem nextReference_injective {a b id : ReferenceId}
    (ha : a ∈ referenceIds reader m) (hb : b ∈ referenceIds reader m)
    (hna : nextReference (graphDiff reader m m' changed) a = some id)
    (hnb : nextReference (graphDiff reader m m' changed) b = some id) : a = b := by
  rcases (nextReference_eq_some hu ha).mp hna with ⟨hfa, rfl⟩ | ⟨hfa, hida, hpa⟩
  · rcases (nextReference_eq_some hu hb).mp hnb with ⟨-, hab⟩ | ⟨hfb, hidb, -⟩
    · exact hab
    · exact absurd (hidb ▸ hfb) hfa
  · rcases (nextReference_eq_some hu hb).mp hnb with ⟨hfb, rfl⟩ | ⟨hfb, hidb, hpb⟩
    · exact absurd (hida ▸ hfa) hfb
    · have hfile : a.file = b.file := hida.symm.trans hidb
      rw [hfile] at hpa
      have hpos : a.reference = b.reference := pairs_injective hpa hpb
      cases a
      cases b
      simp_all

variable (hid : id ∈ referenceIds reader m)
  (h : nextReference (graphDiff reader m m' changed) id = some id')

include hid h

/-- A kept reference has the same key, in the same slot. -/
theorem nextReference_key :
    id'.file = id.file ∧ ∃ r r', (fileReferences reader m id.file)[id.reference]? = some r ∧
      (fileReferences reader m' id'.file)[id'.reference]? = some r' ∧ (r = r' ∧ id.file ∉ changed ∨
          ∃ k, referenceKey reader m r = some k ∧ referenceKey reader m' r' = some k) := by
  rcases (nextReference_eq_some hu hid).mp h with ⟨hf, rfl⟩ | ⟨-, hfile, hpair⟩
  · obtain ⟨r, hr⟩ := mem_referenceIds.mp hid
    refine ⟨rfl, r, r, hr, ?_, Or.inl ⟨rfl, hf⟩⟩
    rwa [fileReferences, hu.same _ hf]
  · obtain ⟨k, hk, hk'⟩ := pairs_key hpair
    rw [getElem?_map] at hk hk'
    obtain ⟨r, hr, hkey⟩ := map_eq_some_iff.mp hk
    obtain ⟨r', hr', hkey'⟩ := map_eq_some_iff.mp hk'
    exact ⟨hfile, r, r', hr, by rwa [hfile], Or.inr ⟨k, hkey, hkey'⟩⟩

theorem nextReference_mem : id' ∈ referenceIds reader m' := by
  obtain ⟨-, -, r', -, hr', -⟩ := nextReference_key hu hid h
  exact mem_referenceIds.mpr ⟨r', hr'⟩

/-- A reference that is reported as changed is no kept one. -/
theorem nextReference_notMem_changed :
    id' ∉ (graphDiff reader m m' changed).changedReferences := by
  rw [mem_changedReferences hu]
  rintro ⟨hf', -, hfree⟩
  rcases (nextReference_eq_some hu hid).mp h with ⟨hf, rfl⟩ | ⟨-, hfile, hpair⟩
  · exact hf hf'
  · rw [hfile] at hfree
    exact hfree (mem_of_getElem? hpair)

end

theorem referenceKey_isSome (h : m.Indexed) {f j : ℕ} {r : IndexedReference}
    (hr : (fileReferences reader m f)[j]? = some r) : ∃ k, referenceKey reader m r = some k := by
  obtain ⟨file, hfile, hr⟩ := getElem?_fileReferences.mp hr
  obtain ⟨-, record, hrecord, hsource, -⟩ := getElem?_collectReferences hr
  obtain ⟨d, hd⟩ := h.defAt_source (mem_of_getElem? hfile) (mem_of_getElem? hrecord)
  have hlt : record.source < file.graph.defs.length := by
    by_contra hge
    simp [CodeGraph.defAt, getElem?_eq_none (not_lt.mp hge)] at hd
  have hmoniker : m.symbolMoniker r.sourceSymbol = some (some d.moniker) := by
    simp [CodeIndexMaterial.symbolMoniker, hsource, hfile, CodeGraph.defCount, hlt, hd]
  refine Option.isSome_iff_exists.mp ?_
  simp [referenceKey, hmoniker]

/-- Every reference of the next index is kept or reported as changed. -/
theorem exists_nextReference (hu : Updates changed m m') (hm' : m'.Indexed) {id' : ReferenceId}
    (hid' : id' ∈ referenceIds reader m') :
    id' ∈ (graphDiff reader m m' changed).changedReferences ∨ ∃ id ∈ referenceIds reader m,
        nextReference (graphDiff reader m m' changed) id = some id' := by
  obtain ⟨r', hr'⟩ := mem_referenceIds.mp hid'
  by_cases hf : id'.file ∈ changed
  · by_cases hfree : some id'.reference ∈ referencePairs reader m m' id'.file
    · obtain ⟨p, hp⟩ := mem_iff_getElem?.mp hfree
      obtain ⟨k, hk, -⟩ := pairs_key hp
      rw [getElem?_map] at hk
      obtain ⟨r, hr, -⟩ := map_eq_some_iff.mp hk
      have hid : (⟨id'.file, p⟩ : ReferenceId) ∈ referenceIds reader m :=
        mem_referenceIds.mpr ⟨r, hr⟩
      exact Or.inr ⟨_, hid, (nextReference_eq_some hu hid).mpr (Or.inr ⟨hf, rfl, hp⟩)⟩
    · exact Or.inl ((mem_changedReferences hu).mpr
        ⟨hf, ⟨r', hr', referenceKey_isSome hm' hr'⟩, hfree⟩)
  · have hid : id' ∈ referenceIds reader m := by
      rw [fileReferences, hu.same _ hf] at hr'
      exact mem_referenceIds.mpr ⟨r', hr'⟩
    exact Or.inr ⟨id', hid, nextReference_of_notMem hu hf⟩

end KeptReferences

/-! ## Updates of the index -/

namespace CodeIndexMaterial

variable (m : CodeIndexMaterial)

/-- The slots that an update replaces : those whose flag has flipped, those that are edited and
not retired, and the new ones. -/
def changedFiles (change : IndexChange) : OrdSet ℕ :=
  OrdSet.ofList
    (((List.range m.slots.length).filter fun i => m.slots[i]?.any fun slot =>
        slot.retired ≠ change.retired i || i ∈ change.edited && !change.retired i) ++
      (List.range change.appended.length).map (m.slots.length + ·))

theorem mem_changedFiles {m : CodeIndexMaterial} {change : IndexChange} {i : ℕ} :
    i ∈ m.changedFiles change ↔ (∃ slot, m.slots[i]? = some slot ∧
        (slot.retired ≠ change.retired i ∨ i ∈ change.edited ∧ change.retired i = false)) ∨
      m.slots.length ≤ i ∧ i < m.slots.length + change.appended.length := by
  simp only [changedFiles, OrdSet.mem_ofList, mem_append, mem_filter, mem_range,
    mem_map, Option.any_eq_true, Bool.or_eq_true, Bool.and_eq_true, decide_eq_true_eq,
    Bool.not_eq_true']
  refine or_congr ⟨fun h => h.2, ?_⟩ ⟨?_, ?_⟩
  · rintro ⟨slot, hslot, h⟩
    exact ⟨(List.getElem?_eq_some_iff.mp hslot).1, slot, hslot, h⟩
  · rintro ⟨j, hj, rfl⟩
    omega
  · rintro ⟨hle, hlt⟩
    exact ⟨i - m.slots.length, by omega, by omega⟩

theorem getElem?_files_refresh (change : IndexChange) (i : ℕ) : (m.refresh change).files[i]? =
      if i < m.slots.length then (m.slots[i]?).map fun slot => (refreshSlot change i slot).file
      else (change.appended[i - m.slots.length]?).map fun x => x.1.file := by
  simp only [files, refresh, map_append, getElem?_append, length_map,
    length_mapIdx, getElem?_map, getElem?_mapIdx, Option.map_map]
  rfl

theorem updates_refresh (change : IndexChange) :
    Updates (m.changedFiles change) m (m.refresh change) where
  slots i hi := by
    have hlen : (m.refresh change).files.length = m.slots.length + change.appended.length := by
      simp [files, refresh]
    rw [hlen]
    rcases mem_changedFiles.mp hi with ⟨slot, hslot, -⟩ | ⟨-, hlt⟩
    · exact Nat.lt_add_right _ (List.getElem?_eq_some_iff.mp hslot).1
    · exact hlt
  same i hi := by
    rw [mem_changedFiles, not_or] at hi
    rw [getElem?_files_refresh, files, getElem?_map]
    split_ifs with hlt
    · have hslot := getElem?_eq_getElem hlt
      have hsame : refreshSlot change i m.slots[i] = m.slots[i] := by
        unfold refreshSlot
        rw [if_neg fun hne => hi.1 ⟨_, hslot, Or.inl hne⟩,
          if_neg fun hed => hi.1 ⟨_, hslot, Or.inr hed⟩]
      rw [hslot, map_some, map_some, hsame]
    · have hnone : change.appended.length ≤ i - m.slots.length := by omega
      rw [getElem?_eq_none hnone, getElem?_eq_none (not_lt.mp hlt)]
      rfl

end CodeIndexMaterial

end CodeMoniker
