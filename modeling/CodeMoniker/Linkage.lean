import CodeMoniker.OrdSet

/-!
# Symbols, references and linkage

Records of the code index and the published linkage over them.

References are stored by file slot, and the record at slot `i`, position `j` has the id
`⟨i, j⟩` : `ReferenceTable` keeps that as a field, so an id determines its record and ids
increase along the table (`ReferenceTable.ids_sorted`). The catalog of symbol ordinals
(`SymbolOrdinalCatalog`) keeps two maps that are inverse to each other, which all of its
operations preserve. The linkage gives each reference one decision (`LinkageSnapshot`).
-/

namespace CodeMoniker

open List

/-! ## Identifiers and records -/

structure SymbolId where
  file : ℕ
  defIdx : ℕ
  deriving DecidableEq, Repr

structure ReferenceId where
  file : ℕ
  reference : ℕ
  deriving DecidableEq, Repr

/-- The derived order : the file first. -/
def ReferenceId.lt (a b : ReferenceId) : Prop :=
  a.file < b.file ∨ a.file = b.file ∧ a.reference < b.reference

theorem ReferenceId.lt_irrefl (a : ReferenceId) : ¬a.lt a := by
  unfold ReferenceId.lt
  omega

/-- An index into the symbol catalog. -/
abbrev SymbolOrdinal := ℕ

/-- The position of a reference in the reference table. -/
abbrev ReferenceOrdinal := ℕ

abbrev SymbolSet := OrdSet SymbolOrdinal

abbrev ReferenceSet := OrdSet ReferenceOrdinal

structure ReferenceRecord where
  id : ReferenceId
  sourceSymbol : SymbolId
  targetIdentity : String
  kind : String
  deriving DecidableEq, Repr

/-! ## Reference table -/

/-- From slot `n` on, the record at position `j` of slot `i` has the id `⟨i, j⟩`. -/
def SlotAligned : ℕ → List (List ReferenceRecord) → Prop
  | _, [] => True
  | n, shard :: shards =>
    shard.map (·.id) = (List.range shard.length).map (⟨n, ·⟩) ∧ SlotAligned (n + 1) shards

instance : ∀ n shards, Decidable (SlotAligned n shards)
  | _, [] => inferInstanceAs (Decidable True)
  | n, _ :: shards =>
    have := instDecidableSlotAligned (n + 1) shards
    inferInstanceAs (Decidable (_ ∧ _))

/-- One shard of reference records for each file slot. -/
structure ReferenceTable where
  shards : List (List ReferenceRecord)
  slotAligned : SlotAligned 0 shards

namespace ReferenceTable

variable (t : ReferenceTable)

def iter : List ReferenceRecord := t.shards.flatten

def fileRecords (slot : ℕ) : List ReferenceRecord := (t.shards[slot]?).getD []

/-- The record under an id : its slot first, then a scan. -/
def reference (t : ReferenceTable) (id : ReferenceId) : Option ReferenceRecord :=
  match (t.fileRecords id.file)[id.reference]? with
  | some record => if record.id = id then some record else t.iter.find? (·.id = id)
  | none => t.iter.find? (·.id = id)

theorem reference_eq_some {t : ReferenceTable} {id : ReferenceId} {r : ReferenceRecord}
    (h : t.reference id = some r) : r ∈ t.iter ∧ r.id = id := by
  have hscan : t.iter.find? (·.id = id) = some r → r ∈ t.iter ∧ r.id = id := fun hf =>
    ⟨mem_of_find?_eq_some hf, by simpa using find?_some hf⟩
  unfold reference at h
  split at h
  · next record hrec =>
    split_ifs at h with hid
    · obtain rfl := Option.some.inj h
      refine ⟨?_, hid⟩
      unfold fileRecords at hrec
      cases hs : t.shards[id.file]? with
      | none => simp [hs] at hrec
      | some shard =>
        rw [hs] at hrec
        exact mem_flatten.mpr
          ⟨shard, mem_of_getElem? hs, mem_of_getElem? hrec⟩
    · exact hscan h
  · exact hscan h

theorem file_of_mem_shard {n : ℕ} {shard : List ReferenceRecord}
    (hids : shard.map (·.id) = (range shard.length).map (⟨n, ·⟩)) : ∀ r ∈ shard, r.id.file = n := by
  intro r hr
  have hmem : r.id ∈ (range shard.length).map (ReferenceId.mk n) := hids ▸ mem_map_of_mem hr
  obtain ⟨j, -, hj⟩ := mem_map.mp hmem
  rw [← hj]

/-- Ids increase along the shards from slot `n` on. -/
theorem sorted_of_slotAligned : ∀ (n : ℕ) (shards : List (List ReferenceRecord)),
    SlotAligned n shards →
      (shards.flatten.map (·.id)).Pairwise ReferenceId.lt ∧ ∀ r ∈ shards.flatten, n ≤ r.id.file
  | _, [], _ => by simp
  | n, shard :: shards, ⟨hids, hrest⟩ => by
    obtain ⟨hsorted, hfile⟩ := sorted_of_slotAligned (n + 1) shards hrest
    have hhead := file_of_mem_shard hids
    refine ⟨?_, ?_⟩
    · rw [flatten_cons, map_append, pairwise_append, hids]
      refine ⟨?_, hsorted, ?_⟩
      · exact pairwise_map.mpr (pairwise_lt_range.imp fun h => Or.inr ⟨rfl, h⟩)
      · intro a ha b hb
        obtain ⟨j, -, rfl⟩ := mem_map.mp ha
        obtain ⟨r, hr, rfl⟩ := mem_map.mp hb
        exact Or.inl (hfile r hr)
    · intro r hr
      rcases mem_append.mp hr with hr | hr
      · rw [hhead r hr]
      · exact (Nat.le_succ n).trans (hfile r hr)

theorem ids_sorted : (t.iter.map (·.id)).Pairwise ReferenceId.lt :=
  (sorted_of_slotAligned 0 t.shards t.slotAligned).1

theorem ids_nodup : (t.iter.map (·.id)).Nodup :=
  t.ids_sorted.imp fun {a b} hlt hab => by
    subst hab
    exact ReferenceId.lt_irrefl a hlt

/-- An id determines its record. -/
theorem eq_of_id_eq {t : ReferenceTable} {r r' : ReferenceRecord} (hr : r ∈ t.iter)
    (hr' : r' ∈ t.iter) (h : r.id = r'.id) : r = r' :=
  inj_on_of_nodup_map t.ids_nodup hr hr' h

theorem reference_of_mem {t : ReferenceTable} {r : ReferenceRecord} (hr : r ∈ t.iter) :
    t.reference r.id = some r := by
  obtain ⟨x, hx⟩ : ∃ x, t.reference r.id = some x := by
    have hscan : ∃ x, t.iter.find? (·.id = r.id) = some x :=
      Option.isSome_iff_exists.mp (find?_isSome.mpr ⟨r, hr, by simp⟩)
    unfold reference
    split
    · split_ifs
      · exact ⟨_, rfl⟩
      · exact hscan
    · exact hscan
  obtain ⟨hxmem, hxid⟩ := reference_eq_some hx
  rw [hx, eq_of_id_eq hxmem hr hxid]

end ReferenceTable

/-! ## Catalog of symbol ordinals -/

/-- Ordinals of the live symbols, in both directions. -/
structure SymbolOrdinalCatalog where
  nextOrdinal : ℕ
  ids : SymbolOrdinal → Option SymbolId
  ordinalsById : SymbolId → Option SymbolOrdinal
  inverse : ∀ o id, ids o = some id ↔ ordinalsById id = some o

namespace SymbolOrdinalCatalog

def empty : SymbolOrdinalCatalog := ⟨0, fun _ => none, fun _ => none, by simp⟩

variable (c : SymbolOrdinalCatalog)

def ordinal (id : SymbolId) : Option SymbolOrdinal := c.ordinalsById id

def id (o : SymbolOrdinal) : Option SymbolId := c.ids o

theorem id_eq_some_iff {c : SymbolOrdinalCatalog} {o : SymbolOrdinal} {id : SymbolId} :
    c.id o = some id ↔ c.ordinal id = some o := c.inverse o id

/-- `unbind_id` : forget the id at an ordinal. -/
def unbindId (o : SymbolOrdinal) : SymbolOrdinalCatalog where
  nextOrdinal := c.nextOrdinal
  ids o' := if o' = o then none else c.ids o'
  ordinalsById id :=
    if c.ids o = some id ∧ c.ordinalsById id = some o then none else c.ordinalsById id
  inverse o' id := by
    have h := c.inverse o' id
    have h' := c.inverse o id
    simp only [h', and_self]
    by_cases ho : o' = o
    · subst ho
      simp
    · rw [if_neg ho]
      split_ifs with hid
      · simp only [h, hid, Option.some.injEq, iff_false]
        exact fun heq => ho heq.symm
      · exact h

/-- The ordinals by id once the id that stands at `o` has been released. -/
def releasedAt (o : SymbolOrdinal) (id : SymbolId) :
    Option SymbolOrdinal :=
  if c.ids o = some id then none else c.ordinalsById id

theorem releasedAt_eq_some {c : SymbolOrdinalCatalog} {o o' : SymbolOrdinal} {id : SymbolId} :
    c.releasedAt o id = some o' ↔ o' ≠ o ∧ c.ids o' = some id := by
  have h := c.inverse o id
  have h' := c.inverse o' id
  unfold releasedAt
  split_ifs with hid
  · simp only [false_iff, not_and, h', h.mp hid, Option.some.injEq]
    exact fun hne heq => hne heq.symm
  · rw [h']
    refine ⟨fun ho => ⟨?_, ho⟩, fun ho => ho.2⟩
    rintro rfl
    exact hid (h'.mpr ho)

/-- `bind_id` : the id that stood at the ordinal is released, then the ordinal that held
the id. -/
def bindId (o : SymbolOrdinal) (id : SymbolId) :
    SymbolOrdinalCatalog where
  nextOrdinal := c.nextOrdinal
  ids o' := if o' = o then some id else if c.releasedAt o id = some o' then none else c.ids o'
  ordinalsById id' := if id' = id then some o else c.releasedAt o id'
  inverse o' id' := by
    by_cases ho : o' = o
    · subst ho
      by_cases hid : id' = id
      · simp [hid]
      · have hne : id ≠ id' := Ne.symm hid
        simp [hid, hne, releasedAt_eq_some]
    · by_cases hid : id' = id
      · subst hid
        have hne : o ≠ o' := Ne.symm ho
        simp [ho, hne, releasedAt_eq_some]
      · simp only [ho, hid, if_false, releasedAt_eq_some, ne_eq, not_false_eq_true, true_and]
        split_ifs with hids
        · simpa [hids] using fun heq => hid heq.symm
        · rfl

/-- `push` : the ordinal an id already has, else the next one. `none` is the panic on an
exhausted ordinal space. -/
def push (id : SymbolId) : Option (SymbolOrdinal × SymbolOrdinalCatalog) :=
  match c.ordinal id with
  | some o => some (o, c)
  | none =>
    if c.nextOrdinal < 2 ^ 32 - 1 then
      let bound := c.bindId c.nextOrdinal id
      some (c.nextOrdinal, { bound with nextOrdinal := c.nextOrdinal + 1 })
    else none

end SymbolOrdinalCatalog

/-! ## Linkage snapshot -/

structure LinkageEdge where
  reference : ReferenceId
  target : SymbolId
  deriving DecidableEq, Repr

inductive CandidateReason where
  | weakNameMatch
  | multipleTargets
  | ambiguousLookup
  deriving DecidableEq, Repr

def CandidateReason.asStr : CandidateReason → String
  | weakNameMatch => "weak_name_match"
  | multipleTargets => "multiple_targets"
  | ambiguousLookup => "ambiguous_lookup"

structure CandidateReference where
  reference : ReferenceId
  targets : List SymbolId
  reason : CandidateReason
  deriving DecidableEq, Repr

inductive DynamicReason where
  | conditionalCompilation
  | dynamicAttribute
  | descriptorOrFrameworkInjected
  | duckTypedCandidateSet
  | mixinContract
  | externalDependencyUnindexed
  | runtimeImport
  | runtimeMutation
  | preprocessorExpansion
  | insufficientLocalFacts
  deriving DecidableEq, Repr

def DynamicReason.asStr : DynamicReason → String
  | conditionalCompilation => "conditional_compilation"
  | dynamicAttribute => "dynamic_attribute"
  | descriptorOrFrameworkInjected => "descriptor_or_framework_injected"
  | duckTypedCandidateSet => "duck_typed_candidate_set"
  | mixinContract => "mixin_contract"
  | externalDependencyUnindexed => "external_dependency_unindexed"
  | runtimeImport => "runtime_import"
  | runtimeMutation => "runtime_mutation"
  | preprocessorExpansion => "preprocessor_expansion"
  | insufficientLocalFacts => "insufficient_local_facts"

structure DynamicReference where
  reference : ReferenceId
  targetIdentity : String
  reason : DynamicReason
  candidates : List SymbolId
  deriving DecidableEq, Repr

structure ExternalReference where
  reference : ReferenceId
  targetIdentity : String
  deriving DecidableEq, Repr

inductive UnresolvedReason where
  | manifestBlocked
  | visibility
  | languageBoundary
  | missingQuery
  | noCandidate
  | ambiguous
  | unsupportedLanguageRule
  | incompleteExtractorMetadata
  deriving DecidableEq, Repr

def UnresolvedReason.asStr : UnresolvedReason → String
  | manifestBlocked => "manifest_blocked"
  | visibility => "visibility"
  | languageBoundary => "language_boundary"
  | missingQuery => "missing_query"
  | noCandidate => "no_candidate"
  | ambiguous => "ambiguous"
  | unsupportedLanguageRule => "unsupported_language_rule"
  | incompleteExtractorMetadata => "incomplete_extractor_metadata"

structure UnresolvedReference where
  reference : ReferenceId
  targetIdentity : String
  reason : UnresolvedReason
  deriving DecidableEq, Repr

/-- The projection of the stored decisions, one for each reference. -/
structure LinkageSnapshot where
  resolved : List LinkageEdge
  candidates : List CandidateReference
  external : List ExternalReference
  dynamic : List DynamicReference
  blocked : List UnresolvedReference
  unresolved : List UnresolvedReference
  oneDecision : (resolved.map (·.reference) ++ candidates.map (·.reference) ++
    external.map (·.reference) ++ dynamic.map (·.reference) ++ blocked.map (·.reference) ++
    unresolved.map (·.reference)).Nodup

namespace LinkageSnapshot

/-- The view of the blocked references that the manifest policy blocks. -/
def manifestBlocked (l : LinkageSnapshot) : List UnresolvedReference :=
  l.blocked.filter (·.reason = .manifestBlocked)

theorem resolved_nodup (l : LinkageSnapshot) : (l.resolved.map (·.reference)).Nodup := by
  have h := l.oneDecision
  simp only [append_assoc] at h
  exact h.of_append_left

/-- A resolved reference has no other decision. -/
theorem resolved_ne {l : LinkageSnapshot} {e : LinkageEdge} {id : ReferenceId}
    (he : e ∈ l.resolved) (hid : id ∈ l.candidates.map (·.reference) ++
      l.external.map (·.reference) ++ l.dynamic.map (·.reference) ++ l.blocked.map (·.reference) ++
      l.unresolved.map (·.reference)) : e.reference ≠ id := by
  have h := l.oneDecision
  simp only [append_assoc] at h hid
  exact (nodup_append.mp h).2.2 _ (mem_map_of_mem he) _ hid

theorem eq_of_reference_eq {l : LinkageSnapshot} {e e' : LinkageEdge} (he : e ∈ l.resolved)
    (he' : e' ∈ l.resolved) (h : e.reference = e'.reference) : e = e' :=
  inj_on_of_nodup_map l.resolved_nodup he he' h

end LinkageSnapshot

end CodeMoniker
