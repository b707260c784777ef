import CodeMoniker.SymbolRecords

/-!
# Building the symbol inventory

The full inventory : the facets of `SymbolInventoryIndex`, none of them with an empty posting,
and the candidates for each compact identity. Indexing a record and unindexing one keep both
(`SymbolInventory.indexAt`, `SymbolInventory.unindexRecord`). `Lists` says which records an
inventory holds and that its catalog names them; `build` lists the records of the table
(`lists_build`). An inventory is determined by the records it lists up to the choice of the
ordinals (`Lists.renames`).
-/

namespace CodeMoniker

open List SymbolOrdinalCatalog SymbolInventoryIndex
open Option (some.inj)

/-! ## Removing postings -/

namespace Postings

variable {κ : Type} [DecidableEq κ]

/-- `remove_posting` : a posting that becomes empty goes. -/
def removeRef (m : Postings κ) (k : κ) (o : SymbolOrdinal) : Postings κ :=
  match m.lookup k with
  | none => m
  | some s =>
    let rest := s.filter (· ≠ o)
    if rest.card = 0 then m.erase k else m.insert k rest

/-- No key has an empty posting. -/
def Kept (m : Postings κ) : Prop := ∀ k s, m.lookup k = some s → ∃ o, o ∈ s

theorem mem_get_removeRef {m : Postings κ} {k k' : κ} {o o' : SymbolOrdinal} :
    o' ∈ (m.removeRef k o).get k' ↔ o' ∈ m.get k' ∧ ¬(k' = k ∧ o' = o) := by
  unfold removeRef
  cases hl : m.lookup k with
  | none =>
    by_cases hk : k' = k
    · subst hk
      simp [get, hl]
    · simp [hk]
  | some s =>
    by_cases hk : k' = k
    · subst hk
      by_cases hrest : (s.filter (· ≠ o)).card = 0
      · have hnone : ∀ x ∈ s, x = o := by
          intro x hx
          by_contra hne
          have hmem : x ∈ (s.filter (· ≠ o)).elems := OrdSet.mem_filter.mpr ⟨hx, hne⟩
          rw [length_eq_zero_iff.mp hrest] at hmem
          simp at hmem
        simpa [get, hl, hrest] using hnone o'
      · simp [get, hl, hrest]
    · by_cases hrest : (s.filter (· ≠ o)).card = 0
      · simp [get, hrest, hk]
      · simp [get, hrest, hk]

theorem Kept.empty : Kept (∅ : Postings κ) := by
  intro k s h
  simp at h

theorem Kept.insertRef {m : Postings κ} (h : m.Kept) (k : κ) (o : SymbolOrdinal) :
    (m.insertRef k o).Kept := by
  intro k' s hs
  by_cases hk : k' = k
  · subst hk
    rw [Postings.insertRef, AList.lookup_insert, Option.some.injEq] at hs
    exact ⟨o, by simp [← hs]⟩
  · rw [Postings.insertRef, AList.lookup_insert_ne hk] at hs
    exact h k' s hs

theorem Kept.removeRef {m : Postings κ} (h : m.Kept) (k : κ) (o : SymbolOrdinal) :
    (m.removeRef k o).Kept := by
  unfold Postings.removeRef
  cases hl : m.lookup k with
  | none => exact h
  | some s =>
    intro k' s' hs'
    dsimp only at hs'
    by_cases hrest : (s.filter (· ≠ o)).card = 0
    · rw [if_pos hrest] at hs'
      by_cases hk : k' = k
      · subst hk
        simp at hs'
      · rw [AList.lookup_erase_ne hk] at hs'
        exact h k' s' hs'
    · rw [if_neg hrest] at hs'
      by_cases hk : k' = k
      · subst hk
        rw [AList.lookup_insert, Option.some.injEq] at hs'
        obtain ⟨x, hx⟩ := exists_mem_of_length_pos (Nat.pos_of_ne_zero hrest)
        exact ⟨x, by rwa [← hs']⟩
      · rw [AList.lookup_insert_ne hk] at hs'
        exact h k' s' hs'

end Postings

section RemovePosting

variable {κ : Type} [DecidableEq κ]

/-- `remove_posting`, once for each key. -/
def removePosting (m : Postings κ) (keys : List κ) (o : SymbolOrdinal) : Postings κ :=
  keys.foldl (fun m k => m.removeRef k o) m

theorem mem_removePosting {k : κ} {o o' : SymbolOrdinal} : ∀ {keys : List κ} {m : Postings κ},
    o' ∈ (removePosting m keys o).get k ↔ o' ∈ m.get k ∧ ¬(o' = o ∧ k ∈ keys)
  | [], m => by simp [removePosting]
  | k' :: keys, m => by
    have ih : o' ∈ (removePosting (m.removeRef k' o) keys o).get k ↔ _ := mem_removePosting
    rw [removePosting, foldl_cons, ← removePosting, ih, Postings.mem_get_removeRef, mem_cons]
    tauto

variable {m : Postings κ}

theorem Postings.Kept.insertPosting (h : m.Kept) (keys : List κ)
    (o : SymbolOrdinal) : (insertPosting m keys o).Kept := by
  induction keys generalizing m with
  | nil => exact h
  | cons k keys ih => exact ih (h.insertRef k o)

theorem Postings.Kept.removePosting (h : m.Kept) (keys : List κ)
    (o : SymbolOrdinal) : (removePosting m keys o).Kept := by
  induction keys generalizing m with
  | nil => exact h
  | cons k keys ih => exact ih (h.removeRef k o)

/-- The posting under a key, as a set. -/
def Postings.posting (m : Postings κ) (k : κ) : Option (Set SymbolOrdinal) :=
  (m.lookup k).map fun s => {o | o ∈ s}

theorem Postings.Kept.posting_eq_some (h : m.Kept) {k : κ}
    {s : Set SymbolOrdinal} : m.posting k = some s ↔ s.Nonempty ∧ s = {o | o ∈ m.get k} := by
  unfold Postings.posting Postings.get
  cases hl : m.lookup k with
  | none =>
    simp only [Option.map_none, reduceCtorEq, Option.getD_none, OrdSet.notMem_empty, false_iff,
      not_and]
    rintro ⟨o, ho⟩ rfl
    exact ho
  | some p =>
    obtain ⟨o, ho⟩ := h k p hl
    simp only [Option.map_some, Option.some.injEq, Option.getD_some]
    exact ⟨fun heq => ⟨heq ▸ ⟨o, ho⟩, heq.symm⟩, fun heq => heq.2.symm⟩

theorem Postings.Kept.posting_image {m m' : Postings κ} (h : m.Kept) (h' : m'.Kept)
    {ρ : SymbolOrdinal → SymbolOrdinal} {k : κ} (hk : {o | o ∈ m'.get k} = ρ '' {o | o ∈ m.get k}) :
    m'.posting k = (m.posting k).map (ρ '' ·) := by
  ext s
  rw [h'.posting_eq_some, hk, Option.map_eq_some_iff]
  refine ⟨?_, ?_⟩
  · rintro ⟨hne, rfl⟩
    exact ⟨_, h.posting_eq_some.mpr ⟨Set.image_nonempty.mp hne, rfl⟩, rfl⟩
  · rintro ⟨p, hp, rfl⟩
    obtain ⟨hne, rfl⟩ := h.posting_eq_some.mp hp
    exact ⟨hne.image ρ, rfl⟩

/-- Postings over the same records at other ordinals hold the other ordinals. -/
theorem Files.image {m m' : Postings κ} {keys : InventorySymbol → List κ}
    {records records' : InventoryRecords} (h : Files m keys records)
    (h' : Files m' keys records') {ρ : SymbolOrdinal → SymbolOrdinal}
    (hmap : ∀ o r, records.lookup o = some r → records'.lookup (ρ o) = some r)
    (hsurj : ∀ o' r, records'.lookup o' = some r → ∃ o, records.lookup o = some r ∧ ρ o = o')
    (k : κ) : {o | o ∈ m'.get k} = ρ '' {o | o ∈ m.get k} := by
  ext o'
  refine ⟨fun ho' => ?_, ?_⟩
  · obtain ⟨r, hr, hk⟩ := (h' k o').mp ho'
    obtain ⟨o, ho, rfl⟩ := hsurj o' r hr
    exact ⟨o, (h k o).mpr ⟨r, ho, hk⟩, rfl⟩
  · rintro ⟨o, ho, rfl⟩
    obtain ⟨r, hr, hk⟩ := (h k o).mp ho
    exact (h' k (ρ o)).mpr ⟨r, hmap o r hr, hk⟩

theorem Files.erase {keys : InventorySymbol → List κ}
    {records : InventoryRecords} (h : Files m keys records) {o : SymbolOrdinal}
    {r : InventorySymbol} (hr : records.lookup o = some r) :
    Files (removePosting m (keys r) o) keys (records.erase o) := by
  intro k o'
  rw [mem_removePosting, h k o']
  by_cases ho : o' = o
  · subst ho
    simp [hr]
  · simp [ho]

end RemovePosting

/-! ## Facets -/

/-- The facets of the inventory. -/
inductive FacetKey where
  | identity
  | name
  | naturalName
  | kind
  | shape
  | visibility
  | language
  | source
  | sourcePath
  | sourceRoot
  | srcset
  | segment
  | owner
  deriving DecidableEq, Repr

namespace FacetKey

def Key : FacetKey → Type
  | source | sourceRoot => ℕ
  | segment => InventorySegment
  | owner => SymbolId
  | _ => String

instance : (c : FacetKey) → DecidableEq c.Key
  | source | sourceRoot => inferInstanceAs (DecidableEq ℕ)
  | segment => inferInstanceAs (DecidableEq InventorySegment)
  | owner => inferInstanceAs (DecidableEq SymbolId)
  | identity | name | naturalName | kind | shape | visibility | language | sourcePath | srcset =>
    inferInstanceAs (DecidableEq String)

/-- The keys that a record has in a facet. -/
def keys : (c : FacetKey) → InventorySymbol → List c.Key
  | identity, r => [r.identity]
  | name, r => [r.name]
  | naturalName, r => [CodeMoniker.naturalName r.name]
  | kind, r => [r.kind]
  | shape, r => [r.shape]
  | visibility, r => [r.visibility]
  | language, r => [r.language]
  | source, r => [r.source]
  | sourcePath, r => [r.sourcePath]
  | sourceRoot, r => [r.sourceRoot]
  | srcset, r => [r.srcset]
  | segment, r => r.segments
  | owner, r => r.owners

end FacetKey

namespace SymbolInventoryFacets

def postings (f : SymbolInventoryFacets) : (c : FacetKey) → Postings c.Key
  | .identity => f.byIdentity
  | .name => f.byName
  | .naturalName => f.byNaturalName
  | .kind => f.byKind
  | .shape => f.byShape
  | .visibility => f.byVisibility
  | .language => f.byLanguage
  | .source => f.bySource
  | .sourcePath => f.bySourcePath
  | .sourceRoot => f.bySourceRoot
  | .srcset => f.bySrcset
  | .segment => f.bySegment
  | .owner => f.byOwner

def removeFacets (f : SymbolInventoryFacets) (r : InventorySymbol) (o : SymbolOrdinal) :
    SymbolInventoryFacets where
  byIdentity := removePosting f.byIdentity [r.identity] o
  byName := removePosting f.byName [r.name] o
  byNaturalName := removePosting f.byNaturalName [naturalName r.name] o
  byKind := removePosting f.byKind [r.kind] o
  byShape := removePosting f.byShape [r.shape] o
  byVisibility := removePosting f.byVisibility [r.visibility] o
  byLanguage := removePosting f.byLanguage [r.language] o
  bySource := removePosting f.bySource [r.source] o
  bySourcePath := removePosting f.bySourcePath [r.sourcePath] o
  bySourceRoot := removePosting f.bySourceRoot [r.sourceRoot] o
  bySrcset := removePosting f.bySrcset [r.srcset] o
  bySegment := removePosting f.bySegment r.segments o
  byOwner := removePosting f.byOwner r.owners o

/-- No facet has an empty posting. -/
def Kept (f : SymbolInventoryFacets) : Prop := ∀ c, (f.postings c).Kept

variable {f : SymbolInventoryFacets}

theorem describe_iff {records : InventoryRecords} :
    f.Describe records ↔ ∀ c : FacetKey, Files (f.postings c) c.keys records := by
  refine ⟨fun h c => ?_, fun h => ?_⟩
  · cases c with
    | identity => exact h.identity
    | name => exact h.name
    | naturalName => exact h.naturalName
    | kind => exact h.kind
    | shape => exact h.shape
    | visibility => exact h.visibility
    | language => exact h.language
    | source => exact h.source
    | sourcePath => exact h.sourcePath
    | sourceRoot => exact h.sourceRoot
    | srcset => exact h.srcset
    | segment => exact h.segment
    | owner => exact h.owner
  · exact ⟨h .identity, h .name, h .naturalName, h .kind, h .shape, h .visibility, h .language,
      h .source, h .sourcePath, h .sourceRoot, h .srcset, h .segment, h .owner⟩

theorem postings_insertFacets (f : SymbolInventoryFacets) (r : InventorySymbol)
    (o : SymbolOrdinal) (c : FacetKey) :
    (f.insertFacets r o).postings c = insertPosting (f.postings c) (c.keys r) o := by
  cases c <;> rfl

theorem postings_removeFacets (f : SymbolInventoryFacets) (r : InventorySymbol)
    (o : SymbolOrdinal) (c : FacetKey) :
    (f.removeFacets r o).postings c = removePosting (f.postings c) (c.keys r) o := by
  cases c <;> rfl

theorem Kept.empty : Kept {} := by
  intro c
  cases c <;> exact Postings.Kept.empty

theorem Kept.insertFacets (h : f.Kept) (r : InventorySymbol)
    (o : SymbolOrdinal) : (f.insertFacets r o).Kept := by
  intro c
  rw [postings_insertFacets]
  exact (h c).insertPosting _ _

theorem Kept.removeFacets (h : f.Kept) (r : InventorySymbol)
    (o : SymbolOrdinal) : (f.removeFacets r o).Kept := by
  intro c
  rw [postings_removeFacets]
  exact (h c).removePosting _ _

theorem Describe.removeFacets {records : InventoryRecords}
    (h : f.Describe records) {o : SymbolOrdinal} {r : InventorySymbol}
    (hr : records.lookup o = some r) : (f.removeFacets r o).Describe (records.erase o) := by
  refine describe_iff.mpr fun c => ?_
  rw [postings_removeFacets]
  exact (describe_iff.mp h c).erase hr

end SymbolInventoryFacets

/-! ## Compact identities -/

/-- The ordinals for each hash of a compact identity : one ordinal, or a list once there have
been two. -/
structure CompactIdentities where
  identities : AList fun _ : ℕ => SymbolOrdinal
  collisions : AList fun _ : ℕ => List SymbolOrdinal
  collided : ∀ h l, collisions.lookup h = some l → h ∈ identities ∧ l.Nodup

namespace CompactIdentities

def empty : CompactIdentities := ⟨∅, ∅, by simp⟩

variable (c : CompactIdentities)

def candidates (h : ℕ) : List SymbolOrdinal :=
  match c.collisions.lookup h with
  | some l => l
  | none => (c.identities.lookup h).toList

/-- `index_compact_identity`. -/
def index (h : ℕ) (o : SymbolOrdinal) : CompactIdentities :=
  match hone : c.identities.lookup h with
  | none =>
    { identities := c.identities.insert h o
      collisions := c.collisions
      collided := fun h' l hl => ⟨by simp [(c.collided h' l hl).1], (c.collided h' l hl).2⟩ }
  | some existing =>
    let l := (c.collisions.lookup h).getD [existing]
    { identities := c.identities
      collisions := c.collisions.insert h (if o ∈ l then l else l ++ [o])
      collided := by
        intro h' l' hl'
        by_cases hh : h' = h
        · subst hh
          have hnodup : l.Nodup := by
            cases hc : c.collisions.lookup h' with
            | none => simp [l, hc]
            | some m => simpa [l, hc] using (c.collided h' m hc).2
          refine ⟨AList.lookup_isSome.mp (by simp [hone]), ?_⟩
          rw [AList.lookup_insert, Option.some.injEq] at hl'
          rw [← hl']
          split_ifs with ho
          · exact hnodup
          · exact List.nodup_append.mpr ⟨hnodup, by simp, by grind⟩
        · rw [AList.lookup_insert_ne hh] at hl'
          exact c.collided h' l' hl' }

/-- `unindex_compact_identity`. -/
def unindex (h : ℕ) (o : SymbolOrdinal) : CompactIdentities :=
  match hcol : c.collisions.lookup h with
  | some l =>
    match hrest : l.filter (· ≠ o) with
    | [] =>
      { identities := c.identities.erase h
        collisions := c.collisions.erase h
        collided := by
          intro h' l' hl'
          by_cases hh : h' = h
          · subst hh
            simp at hl'
          · rw [AList.lookup_erase_ne hh] at hl'
            simpa [AList.mem_erase, hh] using c.collided h' l' hl' }
    | [remaining] =>
      { identities := c.identities.insert h remaining
        collisions := c.collisions.erase h
        collided := by
          intro h' l' hl'
          by_cases hh : h' = h
          · subst hh
            simp at hl'
          · rw [AList.lookup_erase_ne hh] at hl'
            simpa [hh] using c.collided h' l' hl' }
    | rest =>
      { identities := c.identities
        collisions := c.collisions.insert h rest
        collided := by
          intro h' l' hl'
          by_cases hh : h' = h
          · subst hh
            rw [AList.lookup_insert, Option.some.injEq] at hl'
            obtain ⟨hmem, hnodup⟩ := c.collided h' l hcol
            refine ⟨hmem, ?_⟩
            rw [← hl', ← hrest]
            exact hnodup.filter _
          · rw [AList.lookup_insert_ne hh] at hl'
            exact c.collided h' l' hl' }
  | none =>
    if c.identities.lookup h = some o then
      { identities := c.identities.erase h
        collisions := c.collisions
        collided := by
          intro h' l' hl'
          have hh : h' ≠ h := by
            rintro rfl
            rw [hcol] at hl'
            cases hl'
          simpa [AList.mem_erase, hh] using c.collided h' l' hl' }
    else c

theorem candidates_nodup (h : ℕ) : (c.candidates h).Nodup := by
  unfold candidates
  cases hcol : c.collisions.lookup h with
  | some l => exact (c.collided h l hcol).2
  | none => cases c.identities.lookup h <;> simp

theorem candidates_empty (h : ℕ) : empty.candidates h = [] := by simp [candidates, empty]

theorem collisions_of_identities {c : CompactIdentities} {h : ℕ}
    (hone : c.identities.lookup h = none) : c.collisions.lookup h = none := by
  cases hcol : c.collisions.lookup h with
  | none => rfl
  | some l => exact absurd (c.collided h l hcol).1 (AList.lookup_eq_none.mp hone)

theorem mem_candidates_index {c : CompactIdentities} {h h' : ℕ} {o o' : SymbolOrdinal} :
    o' ∈ (c.index h o).candidates h' ↔ h' = h ∧ o' = o ∨ o' ∈ c.candidates h' := by
  unfold index
  split
  · next hone =>
    have hcol := collisions_of_identities hone
    by_cases hh : h' = h
    · subst hh
      simp [candidates, hcol, hone]
    · simp [candidates, hh]
  · next existing hone =>
    by_cases hh : h' = h
    · subst hh
      simp only [candidates, AList.lookup_insert, hone]
      cases hcol : c.collisions.lookup h' with
      | none => grind
      | some l => grind
    · simp [candidates, hh]

theorem mem_candidates_unindex {c : CompactIdentities} {h h' : ℕ} {o o' : SymbolOrdinal} :
    o' ∈ (c.unindex h o).candidates h' ↔ o' ∈ c.candidates h' ∧ ¬(h' = h ∧ o' = o) := by
  unfold unindex
  split
  · next l hcol =>
    have hrest : ∀ x, x ∈ l.filter (· ≠ o) ↔ x ∈ l ∧ x ≠ o := by simp
    split
    · next heq =>
      rw [heq] at hrest
      by_cases hh : h' = h
      · subst hh
        simpa [candidates, hcol] using hrest o'
      · simp [candidates, hh]
    · next remaining heq =>
      rw [heq] at hrest
      by_cases hh : h' = h
      · subst hh
        simpa [candidates, hcol] using hrest o'
      · simp [candidates, hh]
    · next heq =>
      by_cases hh : h' = h
      · subst hh
        simp [candidates, hcol]
      · simp [candidates, hh]
  · next hcol =>
    split_ifs with hone
    · by_cases hh : h' = h
      · subst hh
        simp [candidates, hcol, hone]
      · simp [candidates, hh]
    · by_cases hh : h' = h
      · subst hh
        simp only [candidates, hcol, true_and, Option.mem_toList]
        grind
      · simp [hh]

end CompactIdentities

/-! ## The inventory -/

/-- The hash under which a record is a candidate. -/
def compactHash (hash : String → ℕ) (r : InventorySymbol) : Option ℕ :=
  (compactRecordIdentity r.identity).map hash

/-- The index with the candidates for each compact identity, under a hash function. -/
structure SymbolInventory (hash : String → ℕ) extends SymbolInventoryIndex where
  compact : CompactIdentities
  kept : facets.Kept
  compacted : ∀ h o, o ∈ compact.candidates h ↔
    ∃ r, records.lookup o = some r ∧ compactHash hash r = some h

namespace SymbolInventory

variable {hash : String → ℕ}

def empty (hash : String → ℕ) : SymbolInventory hash where
  toSymbolInventoryIndex := .empty
  compact := .empty
  kept := SymbolInventoryFacets.Kept.empty
  compacted h o := by simp [CompactIdentities.candidates_empty, SymbolInventoryIndex.empty]

def symbolIdsByCompactIdentity (x : SymbolInventory hash) (compact : String) : List SymbolId :=
  (((x.compact.candidates (hash compact)).filterMap x.record).filter fun r =>
    compactRecordIdentity r.identity = some compact).map (·.id)

/-- The candidates without the ordinal of a record. -/
def forget (hash : String → ℕ) (c : CompactIdentities) (r : InventorySymbol) (o : SymbolOrdinal) :
    CompactIdentities :=
  match compactHash hash r with
  | some h => c.unindex h o
  | none => c

/-- The candidates with the ordinal of a record. -/
def remember (hash : String → ℕ) (c : CompactIdentities) (r : InventorySymbol)
    (o : SymbolOrdinal) : CompactIdentities :=
  match compactHash hash r with
  | some h => c.index h o
  | none => c

theorem mem_forget {c : CompactIdentities} {r : InventorySymbol} {o o' : SymbolOrdinal} {h : ℕ} :
    o' ∈ (forget hash c r o).candidates h ↔
      o' ∈ c.candidates h ∧ ¬(o' = o ∧ compactHash hash r = some h) := by
  unfold forget
  cases hr : compactHash hash r with
  | none => simp
  | some h' =>
    rw [CompactIdentities.mem_candidates_unindex, Option.some.injEq, eq_comm (a := h), and_comm (a := h' = h)]

theorem mem_remember {c : CompactIdentities} {r : InventorySymbol} {o o' : SymbolOrdinal}
    {h : ℕ} : o' ∈ (remember hash c r o).candidates h ↔
      o' = o ∧ compactHash hash r = some h ∨ o' ∈ c.candidates h := by
  unfold remember
  cases hr : compactHash hash r with
  | none => simp
  | some h' =>
    rw [CompactIdentities.mem_candidates_index, Option.some.injEq, eq_comm (a := h), and_comm (a := h' = h)]

def withCatalog (x : SymbolInventory hash) (c : SymbolOrdinalCatalog) : SymbolInventory hash :=
  { x with catalog := c }

def unindexRecord (x : SymbolInventory hash) (o : SymbolOrdinal) : SymbolInventory hash :=
  match hr : x.records.lookup o with
  | none => x
  | some r =>
    { catalog := x.catalog
      records := x.records.erase o
      allSymbols := x.allSymbols.filter (· ≠ o)
      facets := x.facets.removeFacets r o
      compact := forget hash x.compact r o
      listed := fun o' => by simp [x.listed o', AList.mem_erase, and_comm]
      described := x.described.removeFacets hr
      kept := x.kept.removeFacets r o
      compacted := by
        intro h o'
        rw [mem_forget, x.compacted h o']
        by_cases ho : o' = o
        · subst ho
          simp [hr]
        · simp [ho] }

/-- The rest of `index_record`, at an ordinal without a record. -/
def indexAt (x : SymbolInventory hash) (o : SymbolOrdinal) (hfresh : o ∉ x.records)
    (r : InventorySymbol) : SymbolInventory hash where
  catalog := x.catalog
  records := x.records.insert o r
  allSymbols := x.allSymbols.insert o
  facets := x.facets.insertFacets r o
  compact := remember hash x.compact r o
  listed o' := by simp [x.listed o']
  described := x.described.insertFacets hfresh r
  kept := x.kept.insertFacets r o
  compacted := by
    intro h o'
    rw [mem_remember, x.compacted h o']
    by_cases ho : o' = o
    · subst ho
      have hnone : x.records.lookup o' = none := AList.lookup_eq_none.mpr hfresh
      simp [hnone]
    · simp [ho]

@[simp] theorem catalog_withCatalog (x : SymbolInventory hash) (c : SymbolOrdinalCatalog) :
    (x.withCatalog c).catalog = c := rfl

@[simp] theorem record_withCatalog (x : SymbolInventory hash) (c : SymbolOrdinalCatalog)
    (o : SymbolOrdinal) : (x.withCatalog c).record o = x.record o := rfl

@[simp] theorem catalog_unindexRecord (x : SymbolInventory hash) (o : SymbolOrdinal) :
    (x.unindexRecord o).catalog = x.catalog := by
  unfold unindexRecord
  split <;> rfl

@[simp] theorem record_unindexRecord (x : SymbolInventory hash) (o o' : SymbolOrdinal) :
    (x.unindexRecord o).record o' = if o' = o then none else x.record o' := by
  unfold unindexRecord
  split
  · next hr =>
    split_ifs with ho
    · rw [ho]
      exact hr
    · rfl
  · next r hr =>
    split_ifs with ho
    · subst ho
      simp [record]
    · simp [record, ho]

@[simp] theorem catalog_indexAt (x : SymbolInventory hash) (o : SymbolOrdinal)
    (hfresh : o ∉ x.records) (r : InventorySymbol) : (x.indexAt o hfresh r).catalog = x.catalog :=
  rfl

@[simp] theorem record_indexAt (x : SymbolInventory hash) (o o' : SymbolOrdinal)
    (hfresh : o ∉ x.records) (r : InventorySymbol) :
    (x.indexAt o hfresh r).record o' = if o' = o then some r else x.record o' := by
  split_ifs with ho
  · subst ho
    simp [record, indexAt]
  · simp [record, indexAt, ho]

theorem notMem_unindexRecord (x : SymbolInventory hash) (o : SymbolOrdinal) :
    o ∉ (x.unindexRecord o).records := by
  have hnone := record_unindexRecord x o o
  rw [if_pos rfl] at hnone
  exact AList.lookup_eq_none.mp hnone

/-- The ordinal of a new record : the preferred one, else the one `push` gives. -/
def claimOrdinal (c : SymbolOrdinalCatalog) (preferred : Option SymbolOrdinal) (id : SymbolId) :
    Option (SymbolOrdinal × SymbolOrdinalCatalog) :=
  match preferred with
  | some o => some (o, c.bindId o id)
  | none => c.push id

/-- `index_record`. -/
def indexRecord (x : SymbolInventory hash) (t : SymbolTable) (source : SourceFileRecord)
    (s : IndexedSymbol) (preferred : Option SymbolOrdinal) : Option (SymbolInventory hash) := do
  let (o, catalog) ← claimOrdinal x.catalog preferred s.id
  -- A record that stands at the ordinal goes first; without one `unindex_record` does nothing.
  let cleared := (x.withCatalog catalog).unindexRecord o
  return cleared.indexAt o (notMem_unindexRecord _ o) (inventoryRecord t source s)

def sourceAt (sources : List SourceFileRecord) (f : ℕ) : SourceFileRecord :=
  (sources[f]?).getD missingSource

def build (hash : String → ℕ) (sources : List SourceFileRecord) (t : SymbolTable) :
    Option (SymbolInventory hash) :=
  t.iter.foldlM (fun x s => x.indexRecord t (sourceAt sources s.source) s none) (empty hash)

/-! ## What an inventory lists -/

/-- The ordinals that `push` can give. -/
def ordinalSpace : ℕ := 2 ^ 32 - 1

/-- The inventory holds the records `R`, each at one ordinal that the catalog has given. -/
structure Lists (x : SymbolInventory hash) (R : Set InventorySymbol) : Prop where
  named : ∀ o id, x.catalog.id o = some id ↔ ∃ r, x.record o = some r ∧ r.id = id
  lists : ∀ r, r ∈ R ↔ ∃ o, x.record o = some r
  below : ∀ o r, x.record o = some r → o < x.catalog.nextOrdinal
  cap : x.catalog.nextOrdinal ≤ ordinalSpace

/-- `y` is `x` with the record `r` at the vacant ordinal `o`. -/
structure Adds (x : SymbolInventory hash) (o : SymbolOrdinal) (r : InventorySymbol)
    (y : SymbolInventory hash) : Prop where
  vacant : x.record o = none
  record : ∀ o', y.record o' = if o' = o then some r else x.record o'
  id : ∀ o', y.catalog.id o' = if o' = o then some r.id else x.catalog.id o'
  below : o < y.catalog.nextOrdinal
  mono : x.catalog.nextOrdinal ≤ y.catalog.nextOrdinal
  cap : y.catalog.nextOrdinal ≤ ordinalSpace

theorem lists_empty (hash : String → ℕ) : Lists (empty hash) ∅ where
  named o id := by simp [empty, SymbolInventoryIndex.empty, SymbolInventoryIndex.record,
    SymbolOrdinalCatalog.empty, SymbolOrdinalCatalog.id]
  lists r := by simp [empty, SymbolInventoryIndex.empty, SymbolInventoryIndex.record]
  below o r h := by simp [empty, SymbolInventoryIndex.empty, SymbolInventoryIndex.record] at h
  cap := Nat.zero_le _

section Lists

variable {x y : SymbolInventory hash} {R : Set InventorySymbol}

theorem Lists.id_eq (h : Lists x R) {o : SymbolOrdinal} {r : InventorySymbol}
    (hr : x.record o = some r) : x.catalog.id o = some r.id := (h.named o r.id).mpr ⟨r, hr, rfl⟩

/-- Records with the same id stand at the same ordinal. -/
theorem Lists.ordinal_unique (h : Lists x R) {o o' : SymbolOrdinal} {r r' : InventorySymbol}
    (hr : x.record o = some r) (hr' : x.record o' = some r') (hid : r.id = r'.id) : o = o' := by
  have ho := id_eq_some_iff.mp (h.id_eq hr)
  have ho' := id_eq_some_iff.mp (h.id_eq hr')
  rw [hid, ho'] at ho
  exact (some.inj ho).symm

theorem Lists.ordinal_eq_none (h : Lists x R) {id : SymbolId} (hid : ∀ r ∈ R, r.id ≠ id) :
    x.catalog.ordinal id = none := by
  refine Option.eq_none_iff_forall_ne_some.mpr fun o ho => ?_
  obtain ⟨r, hr, hrid⟩ := (h.named o id).mp (id_eq_some_iff.mpr ho)
  exact hid r ((h.lists r).mpr ⟨o, hr⟩) hrid

theorem Lists.adds (h : Lists x R) {o : SymbolOrdinal} {r : InventorySymbol} (ha : Adds x o r y) :
    Lists y (insert r R) where
  named o' id := by
    rw [ha.id, ha.record]
    split_ifs with ho
    · simp
    · exact h.named o' id
  lists r' := by
    rw [Set.mem_insert_iff, h.lists r']
    refine ⟨?_, fun ⟨o', ho'⟩ => ?_⟩
    · rintro (rfl | ⟨o', ho'⟩)
      · exact ⟨o, by simp [ha.record]⟩
      · have hne : o' ≠ o := by
          rintro rfl
          rw [ha.vacant] at ho'
          cases ho'
        exact ⟨o', by rw [ha.record, if_neg hne, ho']⟩
    · rw [ha.record] at ho'
      split_ifs at ho' with ho
      · exact Or.inl (some.inj ho').symm
      · exact Or.inr ⟨o', ho'⟩
  below o' r' ho' := by
    rw [ha.record] at ho'
    split_ifs at ho' with ho
    · rw [ho]
      exact ha.below
    · exact lt_of_lt_of_le (h.below o' r' ho') ha.mono
  cap := ha.cap

end Lists

/-! ## Indexing a record -/

theorem id_bindId {c : SymbolOrdinalCatalog} {o : SymbolOrdinal} {id : SymbolId}
    (hid : c.ordinal id = none) (o' : SymbolOrdinal) :
    (c.bindId o id).id o' = if o' = o then some id else c.id o' := by
  have hreleased : c.releasedAt o id = none := by
    unfold SymbolOrdinalCatalog.releasedAt
    split_ifs
    · rfl
    · exact hid
  simp [SymbolOrdinalCatalog.bindId, SymbolOrdinalCatalog.id, hreleased]

/-- The preferred ordinal is free for a record. -/
def Free (x : SymbolInventory hash) (preferred : Option SymbolOrdinal) : Prop :=
  ∀ o ∈ preferred, x.record o = none ∧ o < x.catalog.nextOrdinal

section IndexRecord

variable {x y : SymbolInventory hash} {R : Set InventorySymbol} {t : SymbolTable}
  {source : SourceFileRecord} {s : IndexedSymbol} {preferred : Option SymbolOrdinal}

theorem claimOrdinal_spec (hx : Lists x R) (hid : ∀ r ∈ R, r.id ≠ s.id) (hfree : x.Free preferred)
    {o : SymbolOrdinal} {c : SymbolOrdinalCatalog}
    (h : claimOrdinal x.catalog preferred s.id = some (o, c)) :
    x.record o = none ∧ (∀ o', c.id o' = if o' = o then some s.id else x.catalog.id o') ∧
      o < c.nextOrdinal ∧ x.catalog.nextOrdinal ≤ c.nextOrdinal ∧ c.nextOrdinal ≤ ordinalSpace ∧
      (preferred = some o ∨ preferred = none ∧ o = x.catalog.nextOrdinal) := by
  have hnone := hx.ordinal_eq_none hid
  cases preferred with
  | some o' =>
    obtain ⟨rfl, rfl⟩ := Prod.mk.inj (some.inj h)
    obtain ⟨hvacant, hbelow⟩ := hfree o' rfl
    exact ⟨hvacant, id_bindId hnone, hbelow, le_rfl, hx.cap, Or.inl rfl⟩
  | none =>
    simp only [claimOrdinal, push, hnone] at h
    split_ifs at h with hroom
    obtain ⟨rfl, rfl⟩ := Prod.mk.inj (some.inj h)
    have hvacant : x.record x.catalog.nextOrdinal = none := by
      refine Option.eq_none_iff_forall_ne_some.mpr fun r hr => ?_
      exact lt_irrefl _ (hx.below _ r hr)
    exact ⟨hvacant, id_bindId hnone, Nat.lt_succ_self _, Nat.le_succ _, hroom, Or.inr ⟨rfl, rfl⟩⟩

theorem adds_indexRecord (hx : Lists x R) (hid : ∀ r ∈ R, r.id ≠ s.id)
    (hfree : x.Free preferred) (h : x.indexRecord t source s preferred = some y) :
    ∃ o, Adds x o (inventoryRecord t source s) y ∧
      (preferred = some o ∨ preferred = none ∧ o = x.catalog.nextOrdinal) := by
  obtain ⟨⟨o, c⟩, hclaim, hy⟩ := Option.bind_eq_some_iff.mp h
  obtain rfl := some.inj hy
  obtain ⟨hvacant, hids, hbelow, hmono, hcap, horigin⟩ := claimOrdinal_spec hx hid hfree hclaim
  refine ⟨o, ⟨hvacant, fun o' => ?_, fun o' => ?_, ?_, ?_, ?_⟩, horigin⟩
  · simp only [record_indexAt, record_unindexRecord, record_withCatalog]
    split_ifs <;> rfl
  · simpa [inventoryRecord] using hids o'
  · simpa using hbelow
  · simpa using hmono
  · simpa using hcap

/-- Indexing goes through as long as there are ordinals. -/
theorem indexRecord_isSome (hroom : x.catalog.nextOrdinal < ordinalSpace) :
    ∃ y, x.indexRecord t source s preferred = some y ∧
      y.catalog.nextOrdinal ≤ x.catalog.nextOrdinal + 1 := by
  have hclaim : ∃ o c, claimOrdinal x.catalog preferred s.id = some (o, c) ∧
      c.nextOrdinal ≤ x.catalog.nextOrdinal + 1 := by
    cases preferred with
    | some o => exact ⟨o, _, rfl, Nat.le_succ _⟩
    | none =>
      unfold claimOrdinal push
      cases x.catalog.ordinal s.id with
      | some o => exact ⟨o, x.catalog, rfl, Nat.le_succ _⟩
      | none =>
        dsimp only
        rw [if_pos (show x.catalog.nextOrdinal < 2 ^ 32 - 1 from hroom)]
        exact ⟨_, _, rfl, le_rfl⟩
  obtain ⟨o, c, hclaim, hnext⟩ := hclaim
  unfold indexRecord
  rw [hclaim]
  exact ⟨_, rfl, by simpa using hnext⟩

end IndexRecord

/-! ## The inventory of a table -/

section Build

variable {sources : List SourceFileRecord} {t : SymbolTable}

/-- The inventory record of a symbol of the table. -/
def tableRecord (sources : List SourceFileRecord) (t : SymbolTable) (s : IndexedSymbol) :
    InventorySymbol := inventoryRecord t (sourceAt sources s.source) s

/-- The inventory records of the table. -/
def tableRecords (sources : List SourceFileRecord) (t : SymbolTable) : Set InventorySymbol :=
  {r | ∃ s ∈ t.iter, tableRecord sources t s = r}

theorem lists_foldlM : ∀ (l : List IndexedSymbol) {x y : SymbolInventory hash}
    {R : Set InventorySymbol}, Lists x R → (l.map (·.id)).Nodup → (∀ s ∈ l, ∀ r ∈ R, r.id ≠ s.id) →
    l.foldlM (fun x s => x.indexRecord t (sourceAt sources s.source) s none) x = some y →
    Lists y (R ∪ {r | ∃ s ∈ l, tableRecord sources t s = r})
  | [], x, y, R, hx, _, _, h => by
    obtain rfl := some.inj h
    simpa using hx
  | s :: l, x, y, R, hx, hnodup, hnew, h => by
    rw [foldlM_cons] at h
    obtain ⟨x', hstep, hrest⟩ := Option.bind_eq_some_iff.mp h
    rw [map_cons, nodup_cons] at hnodup
    have hfree : x.Free none := by simp [Free]
    obtain ⟨o, hadds, -⟩ := adds_indexRecord hx (hnew s mem_cons_self) hfree hstep
    have hnew' : ∀ s' ∈ l, ∀ r ∈ insert (tableRecord sources t s) R, r.id ≠ s'.id := by
      rintro s' hs' r (rfl | hr)
      · exact fun heq => hnodup.1 (mem_map.mpr ⟨s', hs', heq.symm⟩)
      · exact hnew s' (mem_cons_of_mem _ hs') r hr
    have hy := lists_foldlM l (hx.adds hadds) hnodup.2 hnew' hrest
    have hset : insert (tableRecord sources t s) R ∪ {r | ∃ s ∈ l, tableRecord sources t s = r} =
        R ∪ {r | ∃ s' ∈ s :: l, tableRecord sources t s' = r} := by
      ext r
      simp only [Set.mem_union, Set.mem_insert_iff, Set.mem_ofPred_eq, exists_mem_cons_iff]
      rw [eq_comm (a := r)]
      tauto
    rwa [← hset]

theorem lists_build {x : SymbolInventory hash} (h : build hash sources t = some x) :
    Lists x (tableRecords sources t) := by
  have hx := lists_foldlM t.iter (lists_empty hash) t.iter_ids_nodup (by simp) h
  rwa [Set.empty_union] at hx

theorem foldlM_isSome : ∀ (l : List IndexedSymbol) {x : SymbolInventory hash},
    x.catalog.nextOrdinal + l.length ≤ ordinalSpace →
    ∃ y, l.foldlM (fun x s => x.indexRecord t (sourceAt sources s.source) s none) x = some y
  | [], x, _ => ⟨x, rfl⟩
  | s :: l, x, h => by
    rw [length_cons] at h
    have hroom : x.catalog.nextOrdinal < ordinalSpace := by omega
    obtain ⟨x', hstep, hnext⟩ : ∃ x', x.indexRecord t (sourceAt sources s.source) s none = some x' ∧
        x'.catalog.nextOrdinal ≤ x.catalog.nextOrdinal + 1 := indexRecord_isSome hroom
    have hroom' : x'.catalog.nextOrdinal + l.length ≤ ordinalSpace := by omega
    obtain ⟨y, hy⟩ := foldlM_isSome l hroom'
    refine ⟨y, ?_⟩
    rw [foldlM_cons, hstep]
    exact hy

theorem build_isSome (hash : String → ℕ) (sources : List SourceFileRecord) {t : SymbolTable}
    (h : t.iter.length ≤ ordinalSpace) : ∃ x, build hash sources t = some x := by
  refine foldlM_isSome t.iter ?_
  simpa [empty, SymbolInventoryIndex.empty, SymbolOrdinalCatalog.empty] using h

/-- A table that some inventory lists fits in the ordinals. -/
theorem Lists.length_le {x : SymbolInventory hash} (h : Lists x (tableRecords sources t)) :
    t.iter.length ≤ ordinalSpace := by
  have hplace : ∀ s ∈ t.iter, ∃ o, x.record o = some (tableRecord sources t s) := fun s hs =>
    (h.lists _).mp ⟨s, hs, rfl⟩
  have hordinal : ∀ s ∈ t.iter, ∃ o, x.catalog.ordinal s.id = some o ∧
      o < x.catalog.nextOrdinal := by
    intro s hs
    obtain ⟨o, ho⟩ := hplace s hs
    exact ⟨o, id_eq_some_iff.mp (h.id_eq ho), h.below o _ ho⟩
  -- Distinct symbols have distinct ordinals below the next one.
  have hordinals : ((t.iter.map (·.id)).map fun id => (x.catalog.ordinal id).getD 0).Nodup := by
    refine t.iter_ids_nodup.map_on ?_
    intro id hid id' hid' heq
    obtain ⟨s, hs, rfl⟩ := mem_map.mp hid
    obtain ⟨s', hs', rfl⟩ := mem_map.mp hid'
    obtain ⟨o, ho, -⟩ := hordinal s hs
    obtain ⟨o', ho', -⟩ := hordinal s' hs'
    simp only [ho, ho', Option.getD_some] at heq
    subst heq
    have hid := id_eq_some_iff.mpr ho
    rw [id_eq_some_iff.mpr ho'] at hid
    exact (some.inj hid).symm
  have hsub : ((t.iter.map (·.id)).map fun id => (x.catalog.ordinal id).getD 0) ⊆
      range x.catalog.nextOrdinal := by
    intro o ho
    obtain ⟨id, hid, rfl⟩ := mem_map.mp ho
    obtain ⟨s, hs, rfl⟩ := mem_map.mp hid
    obtain ⟨o, ho, hlt⟩ := hordinal s hs
    simpa [ho] using hlt
  have hlen := (subperm_of_subset hordinals hsub).length_le
  rw [length_map, length_map, length_range] at hlen
  exact le_trans hlen h.cap

end Build

/-! ## Equality up to the ordinals -/

/-- `y` is `x` with each ordinal `o` written `ρ o`. -/
structure Renames (ρ : SymbolOrdinal → SymbolOrdinal) (x y : SymbolInventory hash) : Prop where
  bijective : Set.BijOn ρ {o | o ∈ x.allSymbols} {o | o ∈ y.allSymbols}
  record : ∀ o ∈ x.allSymbols, y.record (ρ o) = x.record o
  id : ∀ o ∈ x.allSymbols, y.catalog.id (ρ o) = x.catalog.id o
  ordinal : ∀ id, y.catalog.ordinal id = (x.catalog.ordinal id).map ρ
  posting : ∀ c k, (y.facets.postings c).posting k = ((x.facets.postings c).posting k).map (ρ '' ·)

section Renames

variable {x y : SymbolInventory hash} {R : Set InventorySymbol}

theorem mem_allSymbols {o : SymbolOrdinal} : o ∈ x.allSymbols ↔ ∃ r, x.record o = some r := by
  rw [x.listed, ← AList.lookup_isSome, Option.isSome_iff_exists]
  rfl

/-- The ordinal in `y` of the symbol that has the ordinal `o` in `x`. -/
def rename (x y : SymbolInventory hash) (o : SymbolOrdinal) : SymbolOrdinal :=
  ((x.catalog.id o).bind y.catalog.ordinal).getD 0

variable (hx : Lists x R)

include hx

theorem Lists.record_rename (hy : Lists y R) {o : SymbolOrdinal}
    {r : InventorySymbol} (hr : x.record o = some r) : y.record (rename x y o) = some r := by
  obtain ⟨o', ho'⟩ := (hy.lists r).mp ((hx.lists r).mpr ⟨o, hr⟩)
  have hordinal := id_eq_some_iff.mp (hy.id_eq ho')
  simpa [rename, hx.id_eq hr, hordinal] using ho'

theorem Lists.exists_rename (hy : Lists y R) {o' : SymbolOrdinal}
    {r : InventorySymbol} (hr : y.record o' = some r) :
    ∃ o, x.record o = some r ∧ rename x y o = o' := by
  obtain ⟨o, ho⟩ := (hx.lists r).mp ((hy.lists r).mpr ⟨o', hr⟩)
  exact ⟨o, ho, hy.ordinal_unique (hx.record_rename hy ho) hr rfl⟩

/-- Two inventories of the same records differ in the ordinals only. -/
theorem Lists.renames (hy : Lists y R) : Renames (rename x y) x y where
  bijective := by
    refine ⟨fun o ho => ?_, fun o ho o' ho' heq => ?_, fun o' ho' => ?_⟩
    · obtain ⟨r, hr⟩ := mem_allSymbols.mp ho
      exact mem_allSymbols.mpr ⟨r, hx.record_rename hy hr⟩
    · obtain ⟨r, hr⟩ := mem_allSymbols.mp ho
      obtain ⟨r', hr'⟩ := mem_allSymbols.mp ho'
      have hsame := hx.record_rename hy hr
      rw [heq, hx.record_rename hy hr'] at hsame
      exact hx.ordinal_unique hr hr' (congrArg (·.id) (some.inj hsame).symm)
    · obtain ⟨r, hr⟩ := mem_allSymbols.mp ho'
      obtain ⟨o, ho, heq⟩ := hx.exists_rename hy hr
      exact ⟨o, mem_allSymbols.mpr ⟨r, ho⟩, heq⟩
  record o ho := by
    obtain ⟨r, hr⟩ := mem_allSymbols.mp ho
    rw [hx.record_rename hy hr, hr]
  id o ho := by
    obtain ⟨r, hr⟩ := mem_allSymbols.mp ho
    rw [hy.id_eq (hx.record_rename hy hr), hx.id_eq hr]
  ordinal id := by
    ext o'
    rw [← id_eq_some_iff, hy.named, Option.map_eq_some_iff]
    refine ⟨?_, ?_⟩
    · rintro ⟨r, hr, rfl⟩
      obtain ⟨o, ho, heq⟩ := hx.exists_rename hy hr
      exact ⟨o, id_eq_some_iff.mp (hx.id_eq ho), heq⟩
    · rintro ⟨o, ho, rfl⟩
      obtain ⟨r, hr, hid⟩ := (hx.named o id).mp (id_eq_some_iff.mpr ho)
      exact ⟨r, hx.record_rename hy hr, hid⟩
  posting c k := by
    refine (x.kept c).posting_image (y.kept c) ?_
    exact (SymbolInventoryFacets.describe_iff.mp x.described c).image
      (SymbolInventoryFacets.describe_iff.mp y.described c)
      (fun o r hr => hx.record_rename hy hr) (fun o' r hr => hx.exists_rename hy hr) k

theorem mem_symbolIdsByCompactIdentity {compact : String} {id : SymbolId} :
    id ∈ x.symbolIdsByCompactIdentity compact ↔
      ∃ r ∈ R, compactRecordIdentity r.identity = some compact ∧ r.id = id := by
  simp only [symbolIdsByCompactIdentity, mem_map, mem_filter, mem_filterMap,
    x.compacted, decide_eq_true_eq, hx.lists]
  refine ⟨?_, ?_⟩
  · rintro ⟨r, ⟨⟨o, -, hr⟩, hcompact⟩, hid⟩
    exact ⟨r, ⟨o, hr⟩, hcompact, hid⟩
  · rintro ⟨r, ⟨o, hr⟩, hcompact, hid⟩
    exact ⟨r, ⟨⟨o, ⟨r, hr, by simp [compactHash, hcompact]⟩, hr⟩, hcompact⟩, hid⟩

theorem symbolIdsByCompactIdentity_nodup (compact : String) :
    (x.symbolIdsByCompactIdentity compact).Nodup := by
  unfold symbolIdsByCompactIdentity
  rw [filter_filterMap, map_filterMap]
  refine (x.compact.candidates_nodup _).filterMap ?_
  intro o o' id hid hid'
  obtain ⟨r, hr, hid⟩ := Option.map_eq_some_iff.mp hid
  obtain ⟨r', hr', hid'⟩ := Option.map_eq_some_iff.mp hid'
  have hsame : r.id = r'.id := by rw [hid, hid']
  exact hx.ordinal_unique (Option.mem_filter_iff.mp hr).1 (Option.mem_filter_iff.mp hr').1 hsame

theorem Lists.symbolIds_perm (hy : Lists y R) (compact : String) :
    (x.symbolIdsByCompactIdentity compact).Perm (y.symbolIdsByCompactIdentity compact) := by
  refine (perm_ext_iff_of_nodup (symbolIdsByCompactIdentity_nodup hx compact)
    (symbolIdsByCompactIdentity_nodup hy compact)).mpr fun id => ?_
  rw [mem_symbolIdsByCompactIdentity hx, mem_symbolIdsByCompactIdentity hy]

end Renames

end SymbolInventory

end CodeMoniker
