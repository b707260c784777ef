import CodeMoniker.IndexedPredicates
import CodeMoniker.RuleScopes

/-!
# From symbol records to inventory records

The symbol table of the code index keeps one shard of records for each file. An inventory
record is computed from a symbol record, its source file and the table : the segments and the
compact form of its identity come from the moniker behind it, its ancestors from a walk over
the parents. The table places every record in its slot and every parent in the same file
(`SymbolTable.placed`), so the walk, and with it the inventory record, reads one shard only
(`inventoryRecord_congr`).
-/

namespace CodeMoniker

open List ByteCodec

/-! ## Records of the code index -/

/-- A symbol record with the fields that the inventory shows. -/
structure IndexedSymbol extends SymbolRecord where
  navigable : Bool
  lineRange : Option (ℕ × ℕ)
  deriving DecidableEq, Repr

structure SourceFileRecord where
  sourceRoot : ℕ
  relPath : String
  language : String
  deriving DecidableEq, Repr

/-- The source of a symbol whose file is not listed. -/
def missingSource : SourceFileRecord := ⟨0, "", ""⟩

/-- One shard of symbol records for each file slot, as `collect_symbols` fills it. -/
structure SymbolTable where
  shards : List (List IndexedSymbol)
  placed : ∀ (f d : ℕ) (s : IndexedSymbol), ((shards[f]?).getD [])[d]? = some s →
    s.id = ⟨f, d⟩ ∧ s.source = f ∧ ∀ p ∈ s.parent, p.file = f

namespace SymbolTable

def fileRecords (t : SymbolTable) (f : ℕ) : List IndexedSymbol := (t.shards[f]?).getD []

def iter (t : SymbolTable) : List IndexedSymbol := t.shards.flatten

/-- The record in the slot of an id. -/
def slot (t : SymbolTable) (id : SymbolId) : Option IndexedSymbol := (t.fileRecords id.file)[id.defIdx]?

def parentOf (t : SymbolTable) (id : SymbolId) : Option SymbolId := (t.slot id).bind (·.parent)

variable {t : SymbolTable}

theorem slot_eq_some {id : SymbolId} {s : IndexedSymbol} :
    t.slot id = some s ↔ s ∈ t.fileRecords id.file ∧ s.id = id := by
  refine ⟨fun h => ⟨mem_of_getElem? h, (t.placed _ _ _ h).1⟩, fun ⟨hmem, hid⟩ => ?_⟩
  obtain ⟨d, hd⟩ := mem_iff_getElem?.mp hmem
  have hdef : id.defIdx = d := by rw [← hid, (t.placed _ _ _ hd).1]
  rwa [slot, hdef]

theorem file_of_mem {f : ℕ} {s : IndexedSymbol} (h : s ∈ t.fileRecords f) :
    s.id.file = f ∧ s.source = f := by
  obtain ⟨d, hd⟩ := mem_iff_getElem?.mp h
  obtain ⟨hid, hsource, -⟩ := t.placed f d s hd
  exact ⟨by rw [hid], hsource⟩

theorem file_of_parentOf {id p : SymbolId} (h : t.parentOf id = some p) : p.file = id.file := by
  obtain ⟨s, hs, hp⟩ := Option.bind_eq_some_iff.mp h
  exact (t.placed _ _ _ hs).2.2 p hp

theorem mem_iter {s : IndexedSymbol} : s ∈ t.iter ↔ s ∈ t.fileRecords s.id.file := by
  refine ⟨fun h => ?_, fun h => ?_⟩
  · obtain ⟨shard, hshard, hs⟩ := mem_flatten.mp h
    obtain ⟨f, hf⟩ := mem_iff_getElem?.mp hshard
    have hmem : s ∈ t.fileRecords f := by rwa [fileRecords, hf]
    rwa [(file_of_mem hmem).1]
  · unfold fileRecords at h
    cases hshard : t.shards[s.id.file]? with
    | none => simp [hshard] at h
    | some shard =>
      rw [hshard] at h
      exact mem_flatten.mpr ⟨shard, mem_of_getElem? hshard, h⟩

variable (t : SymbolTable)

theorem ids_fileRecords (f : ℕ) :
    (t.fileRecords f).map (·.id) = (range (t.fileRecords f).length).map (SymbolId.mk f) := by
  refine ext_getElem? fun d => ?_
  cases hd : (t.fileRecords f)[d]? with
  | none =>
    have hlen : (t.fileRecords f).length ≤ d := getElem?_eq_none_iff.mp hd
    simp [hlen]
  | some s =>
    obtain ⟨hlen, hs⟩ := List.getElem?_eq_some_iff.mp hd
    simp [hlen, hs, (t.placed f d s hd).1]

theorem ids_fileRecords_nodup (f : ℕ) : ((t.fileRecords f).map (·.id)).Nodup := by
  rw [ids_fileRecords]
  refine nodup_range.map fun a b h => ?_
  exact (SymbolId.mk.inj h).2

theorem iter_eq_flatMap : t.iter = (range t.shards.length).flatMap t.fileRecords := by
  have hshards : t.shards = (range t.shards.length).map t.fileRecords := by
    refine ext_getElem? fun f => ?_
    by_cases hf : f < t.shards.length
    · simp [hf, fileRecords]
    · simp [hf]
  rw [iter, List.flatMap]
  exact congrArg List.flatten hshards

/-- The records of distinct files have distinct ids. -/
theorem ids_nodup {files : List ℕ} (h : files.Nodup) :
    ((files.flatMap t.fileRecords).map (·.id)).Nodup := by
  rw [map_flatMap]
  refine nodup_flatMap.mpr ⟨fun f _ => t.ids_fileRecords_nodup f, h.imp ?_⟩
  intro f f' hne
  refine disjoint_left.mpr fun id hid hid' => hne ?_
  obtain ⟨s, hs, rfl⟩ := mem_map.mp hid
  obtain ⟨s', hs', heq⟩ := mem_map.mp hid'
  rw [← (file_of_mem hs).1, ← (file_of_mem hs').1, heq]

theorem iter_ids_nodup : (t.iter.map (·.id)).Nodup := by
  rw [iter_eq_flatMap]
  exact t.ids_nodup nodup_range

end SymbolTable

/-! ## Identities -/

/-- The text through the end of the first occurrence of a marker. -/
def throughFirst (marker : List Char) : List Char → Option (List Char)
  | [] => if marker.isEmpty then some [] else none
  | c :: rest =>
    if marker.isPrefixOf (c :: rest) then some marker else (throughFirst marker rest).map (c :: ·)

def inventorySegment (s : Segment) : Option InventorySegment := do
  return ⟨← fromUtf8 s.kind, ← fromUtf8 s.name⟩

variable (identity : String)

def parseSegments : List InventorySegment :=
  match throughFirst "+moniker://".toList identity.toList with
  | none => []
  | some scheme =>
    match fromUri identity.toList ⟨scheme⟩ with
    | .error _ => []
    | .ok m => m.segments.filterMap inventorySegment

/-- What `render_compact_moniker` collects from the segments. -/
structure CompactParts where
  lang : Option String := none
  packages : List String := []
  dirs : List String := []
  modules : List String := []
  rest : List (String × String) := []

def CompactParts.add (p : CompactParts) (kind name : String) : CompactParts :=
  if kind = "lang" then { p with lang := some name }
  else if kind = "package" then { p with packages := p.packages ++ [name] }
  else if kind = "dir" then { p with dirs := p.dirs ++ [name] }
  else if kind = "module" then { p with modules := p.modules ++ [name] }
  else { p with rest := p.rest ++ [(kind, name)] }

def compactParts (m : Moniker) : Option CompactParts :=
  m.segments.foldlM (fun p s => do return p.add (← fromUtf8 s.kind) (← fromUtf8 s.name)) {}

/-- The separator before the entry `idx` of the remaining segments. -/
def restSeparator (hasModule wroteScope : Bool) (idx : ℕ) : String :=
  if idx = 0 ∧ hasModule then "."
  else if wroteScope || hasModule || 0 < idx then "/"
  else ""

def renderCompactMoniker (m : Moniker) : Option String := do
  let p ← compactParts m
  let head := p.lang.getD ((fromUtf8 m.project).getD ".")
  if p.packages.isEmpty && p.dirs.isEmpty && p.modules.isEmpty && p.rest.isEmpty then
    return head
  let wroteScope := !p.packages.isEmpty || !p.dirs.isEmpty
  let scope := if !p.packages.isEmpty then ".".intercalate p.packages else "/".intercalate p.dirs
  let hasModule := !p.modules.isEmpty
  let modules := if hasModule then (if wroteScope then "/" else "") ++ ".".intercalate p.modules else ""
  let rest := p.rest.zipIdx.map fun ((kind, name), idx) =>
    restSeparator hasModule wroteScope idx ++ kind ++ ":" ++ name
  return head ++ ":" ++ scope ++ modules ++ String.join rest

/-- `none` is the panic of `to_uri` on a moniker that is not UTF-8. -/
def compactMoniker (m : Moniker) (scheme : List Char) : Option String :=
  match renderCompactMoniker m with
  | some text => some text
  | none => (toUri m ⟨scheme⟩ : Except (Stop UriError) (List Char)).toOption.map String.ofList

def compactIdentity (scheme : List Char) : Option String :=
  match fromUri identity.toList ⟨scheme⟩ with
  | .error _ => none
  | .ok m => compactMoniker m scheme

def compactRecordIdentity : Option String := do
  let scheme ← throughFirst "://".toList identity.toList
  compactIdentity identity scheme

/-! ## Inventory records -/

/-- The ids of the table that a walk has not met. -/
def SymbolTable.unmet (t : SymbolTable) (ancestors : List SymbolId) : List SymbolId :=
  (t.iter.map (·.id)).filter (· ∉ ancestors)

theorem SymbolTable.unmet_lt {t : SymbolTable} {ancestors : List SymbolId} {id : SymbolId}
    (h : id ∉ ancestors) : (t.unmet (ancestors ++ [id])).length +
      (if (t.parentOf id).isSome then 1 else 0) < (t.unmet ancestors).length + 1 := by
  have hunmet : t.unmet (ancestors ++ [id]) = (t.unmet ancestors).filter (· ≠ id) := by
    rw [unmet, unmet, filter_filter]
    refine filter_congr fun x _ => ?_
    simp [and_comm]
  have hle : (t.unmet (ancestors ++ [id])).length ≤ (t.unmet ancestors).length := by
    rw [hunmet]
    exact length_filter_le _ _
  split_ifs with hparent
  · -- An id with a parent stands in the table, so it leaves the unmet ids.
    obtain ⟨p, hp⟩ := Option.isSome_iff_exists.mp hparent
    obtain ⟨s, hs, -⟩ := Option.bind_eq_some_iff.mp hp
    obtain ⟨hmem, hid⟩ := slot_eq_some.mp hs
    have hiter : s ∈ t.iter := mem_iter.mpr (by rwa [hid])
    have hin : id ∈ t.unmet ancestors :=
      mem_filter.mpr ⟨mem_map.mpr ⟨s, hiter, hid⟩, by simpa using h⟩
    rw [hunmet]
    have hlt : ((t.unmet ancestors).filter (· ≠ id)).length < (t.unmet ancestors).length :=
      length_filter_lt_length_iff_exists.mpr ⟨id, hin, by simp⟩
    omega
  · omega

/-- The walk over the parents, which stops at an id it has met. -/
def ancestorsFrom (t : SymbolTable) (ancestors : List SymbolId) (parent : Option SymbolId) :
    List SymbolId :=
  match parent with
  | none => ancestors
  | some id =>
    if id ∈ ancestors then ancestors
    else ancestorsFrom t (ancestors ++ [id]) (t.parentOf id)
termination_by (t.unmet ancestors).length + if parent.isSome then 1 else 0
decreasing_by
  exact SymbolTable.unmet_lt ‹_›

def symbolAncestors (t : SymbolTable) (s : IndexedSymbol) : List SymbolId := ancestorsFrom t [] s.parent

def inventoryRecord (t : SymbolTable) (source : SourceFileRecord) (s : IndexedSymbol) :
    InventorySymbol where
  id := s.id
  source := s.source
  identity := s.identity
  name := s.name
  kind := s.kind
  shape := (Shape.forKind s.kind).asStr
  visibility := s.visibility
  language := source.language
  sourcePath := source.relPath
  sourceRoot := source.sourceRoot
  srcset := ".".intercalate (((parseSegments s.identity).filter (·.kind = "srcset")).map (·.name))
  lineRange := s.lineRange
  navigable := s.navigable
  parent := s.parent
  ancestors := symbolAncestors t s
  segments := parseSegments s.identity

/-- The walk from a parent in a file reads the shard of that file only. -/
theorem ancestorsFrom_congr {t t' : SymbolTable} {f : ℕ} (h : t.fileRecords f = t'.fileRecords f)
    (ancestors : List SymbolId) (parent : Option SymbolId) (hp : ∀ p ∈ parent, p.file = f) :
    ancestorsFrom t ancestors parent = ancestorsFrom t' ancestors parent := by
  induction ancestors, parent using ancestorsFrom.induct t with
  | case1 ancestors => rw [ancestorsFrom, ancestorsFrom]
  | case2 ancestors id hmet => rw [ancestorsFrom, ancestorsFrom, if_pos hmet, if_pos hmet]
  | case3 ancestors id hmet ih =>
    have hfile : id.file = f := hp id rfl
    have hparent : t'.parentOf id = t.parentOf id := by
      rw [SymbolTable.parentOf, SymbolTable.parentOf, SymbolTable.slot, SymbolTable.slot, hfile, h]
    rw [ancestorsFrom, ancestorsFrom, if_neg hmet, if_neg hmet, hparent]
    refine ih fun p hp => ?_
    rw [SymbolTable.file_of_parentOf hp, hfile]

theorem inventoryRecord_congr {t t' : SymbolTable} {f : ℕ}
    (h : t.fileRecords f = t'.fileRecords f) {source : SourceFileRecord} {s : IndexedSymbol}
    (hs : s ∈ t.fileRecords f) : inventoryRecord t source s = inventoryRecord t' source s := by
  obtain ⟨d, hd⟩ := mem_iff_getElem?.mp hs
  have hparent := (t.placed f d s hd).2.2
  have hancestors : symbolAncestors t s = symbolAncestors t' s := ancestorsFrom_congr h [] _ hparent
  rw [inventoryRecord, inventoryRecord, hancestors]

end CodeMoniker
