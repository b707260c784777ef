import CodeMoniker.InventoryBuild

/-!
# Refreshing the symbol inventory

`refresh` patches the inventory for the changed files : it retires the records of these files,
and indexes their new records, at the ordinal of a retired record with the same source and
identity where one is left (`ReusableOrdinals`). When the table has changed in these files only,
the result lists the new table, as `build` does, and an ordinal that both generations use denotes
the same source and identity in both (`refreshing_refresh`). Both facts go through every run of
refreshes (`Run.lists`, `Run.stable`), which gives `refresh_rebuilds`.
-/

namespace CodeMoniker

open List SymbolTable SymbolOrdinalCatalog
open Option (bind_eq_some_iff some.inj)

/-! ## Ordinals to reuse -/

/-- The ordinals of the retired records, by source and identity. -/
abbrev ReusableOrdinals := AList fun _ : ℕ × String => List SymbolOrdinal

namespace ReusableOrdinals

variable (pool : ReusableOrdinals)

def get (k : ℕ × String) : List SymbolOrdinal := (pool.lookup k).getD []

def push (k : ℕ × String) (o : SymbolOrdinal) : ReusableOrdinals :=
  pool.insert k (pool.get k ++ [o])

/-- The last ordinal under a key, and the pool without it. -/
def pop (k : ℕ × String) : Option SymbolOrdinal × ReusableOrdinals :=
  match (pool.get k).getLast? with
  | none => (none, pool)
  | some o => (some o, pool.insert k (pool.get k).dropLast)

@[simp] theorem get_insert (k k' : ℕ × String)
    (l : List SymbolOrdinal) : get (AList.insert k l pool) k' = if k' = k then l else pool.get k' := by
  unfold get
  split_ifs with hk
  · rw [hk, AList.lookup_insert]
    rfl
  · rw [AList.lookup_insert_ne hk]

end ReusableOrdinals

namespace SymbolInventory

variable {hash : String → ℕ}

/-! ## The refresh -/

def changedOrdinals (x : SymbolInventory hash) (changed : OrdSet ℕ) : List SymbolOrdinal :=
  (changed.elems.foldl (fun s f => match x.facets.bySource.lookup f with
    | some posting => s ∪ posting
    | none => s) (∅ : SymbolSet)).elems

/-- One round of the loop that fills the pool. -/
def offerOrdinal (x : SymbolInventory hash) (pool : ReusableOrdinals) (o : SymbolOrdinal) :
    ReusableOrdinals :=
  match x.record o with
  | some r => pool.push (r.source, r.identity) o
  | none => pool

def reusableOrdinals (x : SymbolInventory hash) (pending : List SymbolOrdinal) : ReusableOrdinals :=
  pending.foldl x.offerOrdinal ∅

def retireRecord (x : SymbolInventory hash) (o : SymbolOrdinal) : SymbolInventory hash :=
  (x.unindexRecord o).withCatalog (x.catalog.unbindId o)

/-- One round of the loop over the records of the changed files. -/
def reindexRecord (sources : List SourceFileRecord) (t : SymbolTable)
    (state : SymbolInventory hash × ReusableOrdinals) (entry : ℕ × IndexedSymbol) :
    Option (SymbolInventory hash × ReusableOrdinals) := do
  let (preferred, pool) := state.2.pop (entry.2.source, entry.2.identity)
  let x ← state.1.indexRecord t (sourceAt sources entry.1) entry.2 preferred
  return (x, pool)

/-- The records of the changed files, with their files. -/
def changedRecords (t : SymbolTable) (changed : OrdSet ℕ) : List (ℕ × IndexedSymbol) :=
  changed.elems.flatMap fun f => (t.fileRecords f).map (Prod.mk f)

/-- The last loop of `refresh_inventory`. -/
def retireUnbound (x : SymbolInventory hash) (o : SymbolOrdinal) : SymbolInventory hash :=
  if x.catalog.id o = none then x.withCatalog (x.catalog.unbindId o) else x

def refresh (x : SymbolInventory hash) (sources : List SourceFileRecord) (t : SymbolTable)
    (changed : OrdSet ℕ) : Option (SymbolInventory hash) := do
  let pending := x.changedOrdinals changed
  let pool := x.reusableOrdinals pending
  let cleared := pending.foldl retireRecord x
  let (y, _) ← (changedRecords t changed).foldlM (reindexRecord sources t) (cleared, pool)
  return pending.foldl retireUnbound y

/-! ## Retiring the records of the changed files -/

section Retire

variable {x : SymbolInventory hash} {R : Set InventorySymbol} {changed : OrdSet ℕ}

theorem mem_changedOrdinals {o : SymbolOrdinal} :
    o ∈ x.changedOrdinals changed ↔ ∃ r, x.record o = some r ∧ r.source ∈ changed := by
  have hfold : ∀ (files : List ℕ) (s : SymbolSet),
      o ∈ files.foldl (fun s f => match x.facets.bySource.lookup f with
        | some posting => s ∪ posting
        | none => s) s ↔ o ∈ s ∨ ∃ f ∈ files, o ∈ x.facets.bySource.get f := by
    intro files
    induction files with
    | nil => simp
    | cons f files ih =>
      intro s
      rw [foldl_cons, ih]
      cases hf : x.facets.bySource.lookup f with
      | none => simp [Postings.get, hf]
      | some posting => simp [Postings.get, hf, or_assoc]
  rw [changedOrdinals, OrdSet.mem_elems, hfold]
  simp only [OrdSet.notMem_empty, false_or, OrdSet.mem_elems, x.described.source _ o, mem_singleton]
  refine ⟨?_, ?_⟩
  · rintro ⟨f, hf, r, hr, rfl⟩
    exact ⟨r, hr, hf⟩
  · rintro ⟨r, hr, hf⟩
    exact ⟨r.source, hf, r, hr, rfl⟩

@[simp] theorem record_retireRecord (x : SymbolInventory hash) (o o' : SymbolOrdinal) :
    (x.retireRecord o).record o' = if o' = o then none else x.record o' := by
  simp [retireRecord]

@[simp] theorem id_retireRecord (x : SymbolInventory hash) (o o' : SymbolOrdinal) :
    (x.retireRecord o).catalog.id o' = if o' = o then none else x.catalog.id o' := rfl

theorem foldl_retireRecord : ∀ (pending : List SymbolOrdinal) (x : SymbolInventory hash),
    (∀ o, (pending.foldl retireRecord x).record o = if o ∈ pending then none else x.record o) ∧
      (∀ o, (pending.foldl retireRecord x).catalog.id o =
        if o ∈ pending then none else x.catalog.id o) ∧
      (pending.foldl retireRecord x).catalog.nextOrdinal = x.catalog.nextOrdinal
  | [], x => by simp
  | p :: pending, x => by
    obtain ⟨hrecord, hid, hnext⟩ := foldl_retireRecord pending (x.retireRecord p)
    rw [foldl_cons]
    refine ⟨fun o => ?_, fun o => ?_, hnext⟩
    · rw [hrecord, record_retireRecord]
      grind
    · rw [hid, id_retireRecord]
      grind

theorem Lists.cleared (h : Lists x R) :
    Lists ((x.changedOrdinals changed).foldl retireRecord x) {r ∈ R | r.source ∉ changed} := by
  obtain ⟨hrecord, hid, hnext⟩ := foldl_retireRecord (x.changedOrdinals changed) x
  have hsome : ∀ o r, ((x.changedOrdinals changed).foldl retireRecord x).record o = some r ↔
      x.record o = some r ∧ r.source ∉ changed := by
    intro o r
    rw [hrecord]
    split_ifs with ho
    · obtain ⟨r', hr', hsource⟩ := mem_changedOrdinals.mp ho
      grind
    · rw [mem_changedOrdinals] at ho
      grind
  refine ⟨fun o id => ?_, fun r => ?_, fun o r hr => ?_, ?_⟩
  · simp only [hid, hsome]
    split_ifs with ho
    · obtain ⟨r', hr', hsource⟩ := mem_changedOrdinals.mp ho
      grind
    · rw [mem_changedOrdinals] at ho
      rw [h.named]
      grind
  · simp only [Set.mem_ofPred_eq, h.lists, hsome]
    grind
  · rw [hnext]
    exact h.below o r ((hsome o r).mp hr).1
  · rw [hnext]
    exact h.cap

end Retire

/-! ## The pool -/

/-- The ordinals of the pool hold no record in `x`, and in `x₀` they held one with their key. -/
structure Pooled (x₀ x : SymbolInventory hash) (pool : ReusableOrdinals) : Prop where
  vacant : ∀ k, ∀ o ∈ pool.get k, x.record o = none
  keyed : ∀ k, ∀ o ∈ pool.get k, ∃ r, x₀.record o = some r ∧ (r.source, r.identity) = k
  nodup : ∀ k, (pool.get k).Nodup

/-- An ordinal of `y` that `x` had given out stood in `x` for the same source and identity. -/
structure Stable (x y : SymbolInventory hash) : Prop where
  mono : x.catalog.nextOrdinal ≤ y.catalog.nextOrdinal
  same : ∀ o r', y.record o = some r' → o < x.catalog.nextOrdinal →
    ∃ r, x.record o = some r ∧ r.source = r'.source ∧ r.identity = r'.identity

theorem Stable.trans {x y z : SymbolInventory hash} (h : Stable x y) (h' : Stable y z) :
    Stable x z where
  mono := h.mono.trans h'.mono
  same o r'' hr'' ho := by
    obtain ⟨r', hr', hsource', hidentity'⟩ := h'.same o r'' hr'' (lt_of_lt_of_le ho h.mono)
    obtain ⟨r, hr, hsource, hidentity⟩ := h.same o r' hr' ho
    exact ⟨r, hr, hsource.trans hsource', hidentity.trans hidentity'⟩

section Pool

variable {x₀ x y : SymbolInventory hash} {pool : ReusableOrdinals} {R : Set InventorySymbol}

/-- The pool holds ordinals of `seen`, each once and under the key of its record. -/
structure Offered (x : SymbolInventory hash) (seen : List SymbolOrdinal)
    (pool : ReusableOrdinals) : Prop where
  seen : ∀ k, ∀ o ∈ pool.get k, o ∈ seen
  keyed : ∀ k, ∀ o ∈ pool.get k, ∃ r, x.record o = some r ∧ (r.source, r.identity) = k
  nodup : ∀ k, (pool.get k).Nodup

theorem Offered.offerOrdinal {seen : List SymbolOrdinal} (h : Offered x seen pool)
    {o : SymbolOrdinal} (ho : o ∉ seen) : Offered x (o :: seen) (x.offerOrdinal pool o) := by
  unfold SymbolInventory.offerOrdinal
  cases hr : x.record o with
  | none => exact ⟨fun k o' ho' => mem_cons_of_mem _ (h.seen k o' ho'), h.keyed, h.nodup⟩
  | some r =>
    have hget : ∀ k o', o' ∈ (pool.push (r.source, r.identity) o).get k ↔
        o' ∈ pool.get k ∨ k = (r.source, r.identity) ∧ o' = o := by
      intro k o'
      simp only [ReusableOrdinals.push, ReusableOrdinals.get_insert]
      grind
    refine ⟨fun k o' ho' => ?_, fun k o' ho' => ?_, fun k => ?_⟩
    · rcases (hget k o').mp ho' with ho' | ⟨-, rfl⟩
      · exact mem_cons_of_mem _ (h.seen k o' ho')
      · exact mem_cons_self
    · rcases (hget k o').mp ho' with ho' | ⟨rfl, rfl⟩
      · exact h.keyed k o' ho'
      · exact ⟨r, hr, rfl⟩
    · change ((pool.push (r.source, r.identity) o).get k).Nodup
      rw [ReusableOrdinals.push, ReusableOrdinals.get_insert]
      split_ifs
      · refine nodup_append.mpr ⟨h.nodup _, by simp, fun a ha b hb => ?_⟩
        rw [mem_singleton.mp hb]
        rintro rfl
        exact ho (h.seen _ a ha)
      · exact h.nodup k

theorem Offered.foldl : ∀ (pending : List SymbolOrdinal) {seen : List SymbolOrdinal}
    {pool : ReusableOrdinals}, Offered x seen pool → (pending ++ seen).Nodup →
    Offered x (pending.reverse ++ seen) (pending.foldl x.offerOrdinal pool)
  | [], _, _, h, _ => h
  | o :: pending, seen, pool, h, hnodup => by
    have ho : o ∉ seen := fun hin =>
      (nodup_cons.mp hnodup).1 (mem_append_right _ hin)
    have hnodup' : (pending ++ o :: seen).Nodup := perm_middle.nodup_iff.mpr hnodup
    have hrest := Offered.foldl pending (h.offerOrdinal ho) hnodup'
    rwa [reverse_cons, append_assoc]

theorem pooled_reusableOrdinals (x : SymbolInventory hash) (changed : OrdSet ℕ) :
    Pooled x ((x.changedOrdinals changed).foldl retireRecord x)
      (x.reusableOrdinals (x.changedOrdinals changed)) := by
  have hempty : Offered x [] ∅ := by constructor <;> simp [ReusableOrdinals.get]
  have hnodup : (x.changedOrdinals changed ++ []).Nodup := by
    rw [append_nil]
    exact OrdSet.nodup _
  have hpool := Offered.foldl _ hempty hnodup
  obtain ⟨hrecord, -, -⟩ := foldl_retireRecord (x.changedOrdinals changed) x
  refine ⟨fun k o ho => ?_, hpool.keyed, hpool.nodup⟩
  have hin : o ∈ x.changedOrdinals changed := by simpa using hpool.seen k o ho
  rw [hrecord, if_pos hin]

theorem pop_spec (pool : ReusableOrdinals) (k : ℕ × String) :
    (∀ k', ((pool.pop k).2.get k').Sublist (pool.get k')) ∧
      ∀ o ∈ (pool.pop k).1, pool.get k = (pool.pop k).2.get k ++ [o] := by
  unfold ReusableOrdinals.pop
  cases hlast : (pool.get k).getLast? with
  | none => simp
  | some o =>
    refine ⟨fun k' => ?_, fun o' ho' => ?_⟩
    · dsimp only
      rw [ReusableOrdinals.get_insert]
      split_ifs with hk
      · rw [hk]
        exact dropLast_sublist _
      · exact Sublist.refl _
    · obtain rfl := some.inj ho'
      dsimp only
      rw [ReusableOrdinals.get_insert, if_pos rfl]
      exact (dropLast_append_getLast? o hlast).symm

theorem Pooled.pop (h : Pooled x₀ x pool) (k : ℕ × String) : Pooled x₀ x (pool.pop k).2 := by
  have hsub := (pop_spec pool k).1
  refine ⟨fun k' o ho => ?_, fun k' o ho => ?_, fun k' => ?_⟩
  · exact h.vacant k' o ((hsub k').subset ho)
  · exact h.keyed k' o ((hsub k').subset ho)
  · exact (h.nodup k').sublist (hsub k')

/-- The ordinal that leaves the pool was there under its own key only. -/
theorem Pooled.notMem_pop (h : Pooled x₀ x pool) {k : ℕ × String} {o : SymbolOrdinal}
    (ho : o ∈ (pool.pop k).1) : o ∈ pool.get k ∧ ∀ k', o ∉ (pool.pop k).2.get k' := by
  obtain ⟨hsub, hlast⟩ := pop_spec pool k
  have hin : o ∈ pool.get k := by
    rw [hlast o ho]
    simp
  refine ⟨hin, fun k' ho' => ?_⟩
  obtain ⟨r, hr, hk⟩ := h.keyed k o hin
  obtain ⟨r', hr', hk'⟩ := h.keyed k' o ((hsub k').subset ho')
  rw [hr] at hr'
  obtain rfl := some.inj hr'
  obtain rfl : k' = k := by rw [← hk', hk]
  have hnodup := h.nodup k'
  rw [hlast o ho, nodup_append] at hnodup
  exact hnodup.2.2 o ho' o mem_cons_self rfl

end Pool

/-! ## Indexing the new records -/

/-- How far the refresh of `x₀` has come : the inventory lists `R`, and the rest of the pool
may still be used. -/
structure Refreshing (x₀ : SymbolInventory hash)
    (state : SymbolInventory hash × ReusableOrdinals) (R : Set InventorySymbol) : Prop where
  lists : Lists state.1 R
  pooled : Pooled x₀ state.1 state.2
  stable : Stable x₀ state.1

section Reindex

variable {x₀ : SymbolInventory hash} {R R₀ : Set InventorySymbol}
  {state state' : SymbolInventory hash × ReusableOrdinals} {sources : List SourceFileRecord}
  {t : SymbolTable}

section Round

variable (h₀ : Lists x₀ R₀) (h : Refreshing x₀ state R) {entry : ℕ × IndexedSymbol}
  (hid : ∀ r ∈ R, r.id ≠ entry.2.id)
  (hstep : SymbolInventory.reindexRecord sources t state entry = some state')

include h₀ h hid hstep

/-- One round indexes one record, at the ordinal that leaves the pool where there is one. -/
theorem Refreshing.exists_adds : state'.2 = (state.2.pop (entry.2.source, entry.2.identity)).2 ∧
      ∃ o, Adds state.1 o (inventoryRecord t (sourceAt sources entry.1) entry.2) state'.1 ∧
        ((state.2.pop (entry.2.source, entry.2.identity)).1 = some o ∨
          (state.2.pop (entry.2.source, entry.2.identity)).1 = none ∧
            o = state.1.catalog.nextOrdinal) := by
  obtain ⟨x, pool⟩ := state
  obtain ⟨f, s⟩ := entry
  obtain ⟨y, hindex, hstate'⟩ := bind_eq_some_iff.mp hstep
  obtain rfl := some.inj hstate'
  have hfree : x.Free (pool.pop (s.source, s.identity)).1 := by
    intro o ho
    have hin := (h.pooled.notMem_pop ho).1
    obtain ⟨r, hr, -⟩ := h.pooled.keyed _ o hin
    exact ⟨h.pooled.vacant _ o hin, lt_of_lt_of_le (h₀.below o r hr) h.stable.mono⟩
  exact ⟨rfl, adds_indexRecord h.lists hid hfree hindex⟩

theorem Refreshing.reindexRecord :
    Refreshing x₀ state' (insert (inventoryRecord t (sourceAt sources entry.1) entry.2) R) := by
  obtain ⟨hpool, o, hadds, horigin⟩ := h.exists_adds h₀ hid hstep
  have hpooled := h.pooled.pop (entry.2.source, entry.2.identity)
  rw [← hpool] at hpooled
  refine ⟨h.lists.adds hadds, ⟨fun k o' ho' => ?_, hpooled.keyed, hpooled.nodup⟩,
    h.stable.mono.trans hadds.mono, fun o' r' hr' ho' => ?_⟩
  · have hne : o' ≠ o := by
      rintro rfl
      rcases horigin with horigin | ⟨-, rfl⟩
      · rw [hpool] at ho'
        exact (h.pooled.notMem_pop horigin).2 k ho'
      · -- A pushed ordinal is new, so no pool of `x₀` has it.
        obtain ⟨r, hr, -⟩ := hpooled.keyed k _ ho'
        exact absurd (h₀.below _ r hr) (not_lt.mpr h.stable.mono)
    exact (hadds.record o').trans ((if_neg hne).trans (hpooled.vacant k o' ho'))
  · rw [hadds.record] at hr'
    split_ifs at hr' with heq
    · subst heq
      obtain rfl := some.inj hr'
      rcases horigin with horigin | ⟨-, rfl⟩
      · obtain ⟨r, hr, hk⟩ := h.pooled.keyed _ o' (h.pooled.notMem_pop horigin).1
        exact ⟨r, hr, (Prod.mk.inj hk).1, (Prod.mk.inj hk).2⟩
      · exact absurd ho' (not_lt.mpr h.stable.mono)
    · exact h.stable.same o' r' hr' ho'

end Round

/-- The whole pass. The records that were there stay at their ordinals. -/
theorem Refreshing.foldlM (h₀ : Lists x₀ R₀) : ∀ (entries : List (ℕ × IndexedSymbol))
    {state state' : SymbolInventory hash × ReusableOrdinals} {R : Set InventorySymbol},
    Refreshing x₀ state R → (entries.map (·.2.id)).Nodup → (∀ e ∈ entries, ∀ r ∈ R, r.id ≠ e.2.id) →
    entries.foldlM (SymbolInventory.reindexRecord sources t) state = some state' →
    Refreshing x₀ state'
      (R ∪ {r | ∃ e ∈ entries, inventoryRecord t (sourceAt sources e.1) e.2 = r}) ∧
      ∀ o r, state.1.record o = some r → state'.1.record o = some r
  | [], state, state', R, h, _, _, hfold => by
    obtain rfl := some.inj hfold
    exact ⟨by simpa using h, fun _ _ hr => hr⟩
  | e :: entries, state, state', R, h, hnodup, hnew, hfold => by
    rw [foldlM_cons] at hfold
    obtain ⟨next, hstep, hrest⟩ := bind_eq_some_iff.mp hfold
    rw [map_cons, nodup_cons] at hnodup
    have hfresh := hnew e mem_cons_self
    obtain ⟨-, o', hadds, -⟩ := h.exists_adds h₀ hfresh hstep
    have hnew' : ∀ e' ∈ entries, ∀ r ∈ insert (inventoryRecord t (sourceAt sources e.1) e.2) R,
        r.id ≠ e'.2.id := by
      rintro e' he' r (rfl | hr)
      · exact fun heq => hnodup.1 (mem_map.mpr ⟨e', he', heq.symm⟩)
      · exact hnew e' (mem_cons_of_mem _ he') r hr
    obtain ⟨hend, hkept⟩ := Refreshing.foldlM h₀ entries (h.reindexRecord h₀ hfresh hstep) hnodup.2
      hnew' hrest
    have hset : insert (inventoryRecord t (sourceAt sources e.1) e.2) R ∪
        {r | ∃ e ∈ entries, inventoryRecord t (sourceAt sources e.1) e.2 = r} =
          R ∪ {r | ∃ e' ∈ e :: entries, inventoryRecord t (sourceAt sources e'.1) e'.2 = r} := by
      ext r
      simp only [Set.mem_union, Set.mem_insert_iff, Set.mem_ofPred_eq, exists_mem_cons_iff]
      rw [eq_comm (a := r)]
      tauto
    refine ⟨hset ▸ hend, fun o r hr => hkept o r ?_⟩
    have hne : o ≠ o' := by
      rintro rfl
      cases hr.symm.trans hadds.vacant
    rw [hadds.record, if_neg hne, hr]

theorem reindexRecord_isSome : ∀ (entries : List (ℕ × IndexedSymbol))
    {state : SymbolInventory hash × ReusableOrdinals},
    state.1.catalog.nextOrdinal + entries.length ≤ ordinalSpace →
    ∃ state', entries.foldlM (SymbolInventory.reindexRecord sources t) state = some state'
  | [], state, _ => ⟨state, rfl⟩
  | e :: entries, state, h => by
    rw [length_cons] at h
    have hroom : state.1.catalog.nextOrdinal < ordinalSpace := by omega
    obtain ⟨x, hindex, hnext⟩ : ∃ x, state.1.indexRecord t (sourceAt sources e.1) e.2
        (state.2.pop (e.2.source, e.2.identity)).1 = some x ∧
        x.catalog.nextOrdinal ≤ state.1.catalog.nextOrdinal + 1 := indexRecord_isSome hroom
    have hroom' : (x, (state.2.pop (e.2.source, e.2.identity)).2).1.catalog.nextOrdinal +
        entries.length ≤ ordinalSpace := by
      dsimp only
      omega
    obtain ⟨state', hstate'⟩ := reindexRecord_isSome entries hroom'
    have hstep : SymbolInventory.reindexRecord sources t state e =
        some (x, (state.2.pop (e.2.source, e.2.identity)).2) :=
      bind_eq_some_iff.mpr ⟨x, hindex, rfl⟩
    refine ⟨state', ?_⟩
    rw [foldlM_cons, hstep]
    exact hstate'

end Reindex

/-! ## The refreshed inventory -/

/-- The tables and the sources differ in the changed files only. -/
def DiffersIn (changed : OrdSet ℕ) (sources : List SourceFileRecord) (t : SymbolTable)
    (sources' : List SourceFileRecord) (t' : SymbolTable) : Prop :=
  ∀ f, f ∉ changed →
    t'.fileRecords f = t.fileRecords f ∧ sourceAt sources' f = sourceAt sources f

section Refresh

variable {x y : SymbolInventory hash} {sources sources' : List SourceFileRecord}
  {t t' : SymbolTable} {changed : OrdSet ℕ} {R : Set InventorySymbol}

theorem mem_tableRecords {r : InventorySymbol} : r ∈ tableRecords sources t ↔
    ∃ f, ∃ s ∈ t.fileRecords f, inventoryRecord t (sourceAt sources f) s = r := by
  refine ⟨?_, ?_⟩
  · rintro ⟨s, hs, rfl⟩
    have hfile := (file_of_mem (mem_iter.mp hs)).2
    exact ⟨s.id.file, s, mem_iter.mp hs, by rw [tableRecord, hfile]⟩
  · rintro ⟨f, s, hs, rfl⟩
    obtain ⟨hid, hsource⟩ := file_of_mem hs
    refine ⟨s, mem_iter.mpr (by rwa [hid]), ?_⟩
    rw [tableRecord, hsource]

theorem mem_changedRecords {e : ℕ × IndexedSymbol} :
    e ∈ changedRecords t changed ↔ e.1 ∈ changed ∧ e.2 ∈ t.fileRecords e.1 := by
  obtain ⟨f, s⟩ := e
  simp only [changedRecords, mem_flatMap, mem_map, Prod.mk.injEq, OrdSet.mem_elems]
  constructor
  · rintro ⟨f', hf', s', hs', rfl, rfl⟩
    exact ⟨hf', hs'⟩
  · rintro ⟨hf, hs⟩
    exact ⟨f, hf, s, hs, rfl, rfl⟩

theorem changedRecords_nodup (t : SymbolTable) (changed : OrdSet ℕ) :
    ((changedRecords t changed).map (·.2.id)).Nodup := by
  have hids : (changedRecords t changed).map (·.2.id) =
      (changed.elems.flatMap t.fileRecords).map (·.id) := by
    simp only [changedRecords, map_flatMap, map_map]
    rfl
  rw [hids]
  exact t.ids_nodup (OrdSet.nodup changed)

/-- The records that stay, with the new records of the changed files. -/
theorem tableRecords_eq (h : DiffersIn changed sources t sources' t') :
    {r ∈ tableRecords sources t | r.source ∉ changed} ∪
        {r | ∃ e ∈ changedRecords t' changed, inventoryRecord t' (sourceAt sources' e.1) e.2 = r} =
      tableRecords sources' t' := by
  ext r
  simp only [Set.mem_union, Set.mem_ofPred_eq, mem_tableRecords, mem_changedRecords]
  refine ⟨?_, ?_⟩
  · rintro (⟨⟨f, s, hs, rfl⟩, hkeep⟩ | ⟨⟨f, s⟩, ⟨-, hs⟩, rfl⟩)
    · have hf : f ∉ changed := by
        rwa [← (file_of_mem hs).2]
      obtain ⟨hrecords, hsource⟩ := h f hf
      refine ⟨f, s, by rwa [hrecords], ?_⟩
      rw [hsource]
      exact (inventoryRecord_congr hrecords.symm hs).symm
    · exact ⟨f, s, hs, rfl⟩
  · rintro ⟨f, s, hs, rfl⟩
    by_cases hf : f ∈ changed
    · exact Or.inr ⟨(f, s), ⟨hf, hs⟩, rfl⟩
    · obtain ⟨hrecords, hsource⟩ := h f hf
      have hs' : s ∈ t.fileRecords f := by rwa [← hrecords]
      refine Or.inl ⟨⟨f, s, hs', ?_⟩, ?_⟩
      · rw [hsource]
        exact inventoryRecord_congr hrecords.symm hs'
      · change s.source ∉ changed
        rwa [(file_of_mem hs).2]

theorem retireUnbound_record (x : SymbolInventory hash) (pending : List SymbolOrdinal) :
    (∀ o, (pending.foldl retireUnbound x).record o = x.record o) ∧
      (∀ o, (pending.foldl retireUnbound x).catalog.id o = x.catalog.id o) ∧
      (pending.foldl retireUnbound x).catalog.nextOrdinal = x.catalog.nextOrdinal := by
  induction pending generalizing x with
  | nil => simp
  | cons p pending ih =>
    obtain ⟨hrecord, hid, hnext⟩ := ih (x.retireUnbound p)
    rw [foldl_cons]
    refine ⟨fun o => ?_, fun o => ?_, ?_⟩
    · rw [hrecord, retireUnbound]
      split_ifs <;> rfl
    · rw [hid, retireUnbound]
      split_ifs with hp
      · simp only [catalog_withCatalog, SymbolOrdinalCatalog.id, SymbolOrdinalCatalog.unbindId]
        split_ifs with ho
        · rw [ho]
          exact hp.symm
        · rfl
      · rfl
    · rw [hnext, retireUnbound]
      split_ifs <;> rfl

theorem refreshing_cleared (hx : Lists x (tableRecords sources t)) :
    Refreshing x ((x.changedOrdinals changed).foldl retireRecord x,
      x.reusableOrdinals (x.changedOrdinals changed))
      {r ∈ tableRecords sources t | r.source ∉ changed} := by
  obtain ⟨hrecord, -, hnext⟩ := foldl_retireRecord (x.changedOrdinals changed) x
  refine ⟨hx.cleared, pooled_reusableOrdinals x changed, hnext.ge, fun o r hr _ => ?_⟩
  rw [hrecord] at hr
  split_ifs at hr
  exact ⟨r, hr, rfl, rfl⟩

/-- The records that stay have other ids than the new ones. -/
theorem changedRecords_id_ne (t t' : SymbolTable) (changed : OrdSet ℕ) :
    ∀ e ∈ changedRecords t' changed,
      ∀ r ∈ {r ∈ tableRecords sources t | r.source ∉ changed}, r.id ≠ e.2.id := by
  rintro e he r ⟨hr, hkeep⟩ heq
  obtain ⟨f, s, hs, rfl⟩ := mem_tableRecords.mp hr
  obtain ⟨hf, hs'⟩ := mem_changedRecords.mp he
  have hid : s.id = e.2.id := heq
  refine hkeep ?_
  change s.source ∈ changed
  rwa [(file_of_mem hs).2, ← (file_of_mem hs).1, hid, (file_of_mem hs').1]

theorem refreshing_refresh (hx : Lists x (tableRecords sources t))
    (hdiff : DiffersIn changed sources t sources' t') (h : x.refresh sources' t' changed = some y) :
    Lists y (tableRecords sources' t') ∧ Stable x y := by
  obtain ⟨⟨z, pool⟩, hfold, hy⟩ := bind_eq_some_iff.mp h
  obtain rfl := some.inj hy
  obtain ⟨hend, -⟩ := (refreshing_cleared hx).foldlM hx _ (changedRecords_nodup t' changed)
    (changedRecords_id_ne t t' changed) hfold
  rw [tableRecords_eq hdiff] at hend
  obtain ⟨hrecord', hid', hnext'⟩ := retireUnbound_record z (x.changedOrdinals changed)
  refine ⟨⟨fun o id => ?_, fun r => ?_, fun o r hr => ?_, ?_⟩, ?_, fun o r hr ho => ?_⟩
  · simpa only [hid', hrecord'] using hend.lists.named o id
  · simpa only [hrecord'] using hend.lists.lists r
  · rw [hnext']
    exact hend.lists.below o r (by rwa [← hrecord'])
  · rw [hnext']
    exact hend.lists.cap
  · rw [hnext']
    exact hend.stable.mono
  · exact hend.stable.same o r (by rwa [← hrecord']) ho

/-- The records of the other files stay at their ordinals. -/
theorem record_of_refresh (hx : Lists x (tableRecords sources t))
    (h : x.refresh sources' t' changed = some y) {o : SymbolOrdinal} {r : InventorySymbol}
    (hr : x.record o = some r) (hstays : r.source ∉ changed) : y.record o = some r := by
  obtain ⟨⟨z, pool⟩, hfold, hy⟩ := bind_eq_some_iff.mp h
  obtain rfl := some.inj hy
  obtain ⟨hrecord, -, -⟩ := foldl_retireRecord (x.changedOrdinals changed) x
  obtain ⟨hrecord', -, -⟩ := retireUnbound_record z (x.changedOrdinals changed)
  rw [hrecord']
  refine ((refreshing_cleared hx).foldlM hx _ (changedRecords_nodup t' changed)
    (changedRecords_id_ne t t' changed) hfold).2 o r ?_
  rw [hrecord, if_neg, hr]
  rw [mem_changedOrdinals]
  rintro ⟨r', hr', hchanged⟩
  obtain rfl := some.inj (hr.symm.trans hr')
  exact hstays hchanged

theorem source_of_mem_tableRecords {r : InventorySymbol} (hr : r ∈ tableRecords sources t) :
    r.source = r.id.file := by
  obtain ⟨f, s, hs, rfl⟩ := mem_tableRecords.mp hr
  obtain ⟨hfile, hsource⟩ := file_of_mem hs
  exact hsource.trans hfile.symm

/-- A refresh keeps the ordinals of the other files, and moves no ordinal to another file. -/
theorem refresh_ordinals (hx : Lists x (tableRecords sources t))
    (hdiff : DiffersIn changed sources t sources' t') (h : x.refresh sources' t' changed = some y) :
    (∀ id, id.file ∉ changed → y.catalog.ordinal id = x.catalog.ordinal id) ∧
      ∀ o id id', x.catalog.id o = some id → y.catalog.id o = some id' → id.file = id'.file := by
  obtain ⟨hy, hstable⟩ := refreshing_refresh hx hdiff h
  have hkeep : ∀ id o, id.file ∉ changed → x.catalog.ordinal id = some o →
      y.catalog.ordinal id = some o := by
    intro id o hid ho
    obtain ⟨r, hr, rfl⟩ := (hx.named o id).mp (id_eq_some_iff.mpr ho)
    have hsource := source_of_mem_tableRecords ((hx.lists r).mpr ⟨o, hr⟩)
    have hr' := record_of_refresh hx h hr (hsource ▸ hid)
    exact id_eq_some_iff.mp ((hy.named o r.id).mpr ⟨r, hr', rfl⟩)
  refine ⟨fun id hid => ?_, fun o id id' ho ho' => ?_⟩
  · cases ho : x.catalog.ordinal id with
    | some o => exact hkeep id o hid ho
    | none =>
      cases ho' : y.catalog.ordinal id with
      | none => rfl
      | some o' =>
        -- The record of a file that stays was there before.
        obtain ⟨r, hr, rfl⟩ := (hy.named o' id).mp (id_eq_some_iff.mpr ho')
        have hmem := (hy.lists r).mpr ⟨o', hr⟩
        rw [← tableRecords_eq hdiff] at hmem
        rcases hmem with ⟨hmem, -⟩ | ⟨e, he, hrecord⟩
        · obtain ⟨o, hr'⟩ := (hx.lists r).mp hmem
          have hid' := id_eq_some_iff.mp ((hx.named o r.id).mpr ⟨r, hr', rfl⟩)
          cases ho.symm.trans hid'
        · obtain ⟨hchanged, hs⟩ := mem_changedRecords.mp he
          have hfile : r.id.file = e.1 := by
            rw [← hrecord]
            exact (file_of_mem hs).1
          exact absurd (hfile ▸ hchanged) hid
  · obtain ⟨r, hr, rfl⟩ := (hx.named o id).mp ho
    obtain ⟨r', hr', rfl⟩ := (hy.named o id').mp ho'
    obtain ⟨r'', hr'', hsource, -⟩ := hstable.same o r' hr' (hx.below o r hr)
    obtain rfl := some.inj (hr.symm.trans hr'')
    rw [← source_of_mem_tableRecords ((hx.lists r).mpr ⟨o, hr⟩), hsource,
      source_of_mem_tableRecords ((hy.lists r').mpr ⟨o, hr'⟩)]

/-- The refresh goes through as long as the ordinals last. -/
theorem refresh_isSome (sources : List SourceFileRecord)
    (h : x.catalog.nextOrdinal + (changedRecords t changed).length ≤ ordinalSpace) :
    ∃ y, x.refresh sources t changed = some y := by
  obtain ⟨-, -, hnext⟩ := foldl_retireRecord (x.changedOrdinals changed) x
  rw [← hnext] at h
  obtain ⟨⟨z, pool⟩, hz⟩ : ∃ state, (changedRecords t changed).foldlM (reindexRecord sources t)
      ((x.changedOrdinals changed).foldl retireRecord x,
        x.reusableOrdinals (x.changedOrdinals changed)) = some state := reindexRecord_isSome _ h
  exact ⟨_, bind_eq_some_iff.mpr ⟨(z, pool), hz, rfl⟩⟩

end Refresh

/-! ## Runs -/

structure Generation (hash : String → ℕ) where
  sources : List SourceFileRecord
  table : SymbolTable
  inventory : SymbolInventory hash

/-- The generations of a run of refreshes from a build, the last one first. -/
inductive Run (hash : String → ℕ) : List (Generation hash) → Prop
  | build {sources : List SourceFileRecord} {t : SymbolTable} {x : SymbolInventory hash}
      (h : build hash sources t = some x) : Run hash [⟨sources, t, x⟩]
  | refresh {g : Generation hash} {gs : List (Generation hash)} {changed : OrdSet ℕ}
      {sources : List SourceFileRecord} {t : SymbolTable} {y : SymbolInventory hash}
      (hrun : Run hash (g :: gs)) (hdiff : DiffersIn changed g.sources g.table sources t)
      (h : g.inventory.refresh sources t changed = some y) : Run hash (⟨sources, t, y⟩ :: g :: gs)

theorem Run.lists {gs : List (Generation hash)} (h : Run hash gs) :
    ∀ g ∈ gs, Lists g.inventory (tableRecords g.sources g.table) := by
  induction h with
  | build h =>
    intro g hg
    rw [mem_singleton.mp hg]
    exact lists_build h
  | refresh hrun hdiff h ih =>
    intro g hg
    rcases mem_cons.mp hg with rfl | hg
    · exact (refreshing_refresh (ih _ mem_cons_self) hdiff h).1
    · exact ih g hg

theorem Run.stable {gs : List (Generation hash)} (h : Run hash gs) :
    gs.Pairwise fun later earlier => Stable earlier.inventory later.inventory := by
  induction h with
  | build h => simp
  | @refresh g gs changed sources t y hrun hdiff h ih =>
    have hlast := (refreshing_refresh (hrun.lists _ mem_cons_self) hdiff h).2
    refine pairwise_cons.mpr ⟨fun g' hg' => ?_, ih⟩
    rcases mem_cons.mp hg' with rfl | hg'
    · exact hlast
    · exact ((pairwise_cons.mp ih).1 g' hg').trans hlast

/-- `y` shows what the rebuilt inventory `z` shows, at ordinals of its own. -/
structure Rebuilds (y z : SymbolInventory hash) : Prop where
  renames : ∃ ρ, Renames ρ y z
  records : ∀ id, y.recordById id = z.recordById id
  postings : ∀ c k s, (y.facets.postings c).lookup k = some s →
    (∃ o, o ∈ s) ∧ ∀ o ∈ s, ∃ r, y.record o = some r ∧ k ∈ c.keys r
  compact : ∀ text, (y.symbolIdsByCompactIdentity text).Perm (z.symbolIdsByCompactIdentity text)
  inverse : ∀ o id, y.catalog.id o = some id ↔ y.catalog.ordinal id = some o

section Rebuilds

variable {y z : SymbolInventory hash} {R : Set InventorySymbol}

theorem Lists.recordById_eq_some (h : Lists y R) {id : SymbolId} {r : InventorySymbol} :
    y.recordById id = some r ↔ r ∈ R ∧ r.id = id := by
  rw [SymbolInventoryIndex.recordById, Option.bind_eq_bind, bind_eq_some_iff, h.lists]
  refine ⟨?_, ?_⟩
  · rintro ⟨o, ho, hr⟩
    have hid := id_eq_some_iff.mpr ho
    rw [h.id_eq hr] at hid
    exact ⟨⟨o, hr⟩, some.inj hid⟩
  · rintro ⟨⟨o, hr⟩, rfl⟩
    exact ⟨o, id_eq_some_iff.mp (h.id_eq hr), hr⟩

theorem Lists.rebuilds (hy : Lists y R) (hz : Lists z R) : Rebuilds y z where
  renames := ⟨_, hy.renames hz⟩
  records id := by
    ext r
    rw [hy.recordById_eq_some, hz.recordById_eq_some]
  postings c k s hs := by
    refine ⟨y.kept c k s hs, fun o ho => ?_⟩
    exact (SymbolInventoryFacets.describe_iff.mp y.described c k o).mp
      (Postings.mem_get.mpr ⟨s, hs, ho⟩)
  compact := hy.symbolIds_perm hz
  inverse _ _ := id_eq_some_iff

end Rebuilds

/-- After any run, a refresh for the files in which the table differs goes through while the
ordinals last. It gives what `build` gives on the new table, up to the ordinals and to the order
in which the symbols of a compact identity are listed. An ordinal that an earlier generation
used denotes the same source and identity there. -/
theorem refresh_rebuilds {g : Generation hash} {gs : List (Generation hash)}
    (hrun : Run hash (g :: gs)) {changed : OrdSet ℕ} {sources : List SourceFileRecord}
    {t : SymbolTable} (hdiff : DiffersIn changed g.sources g.table sources t) :
    (g.inventory.catalog.nextOrdinal + (changedRecords t changed).length ≤ ordinalSpace →
      ∃ y, g.inventory.refresh sources t changed = some y) ∧
    ∀ y, g.inventory.refresh sources t changed = some y →
      (∃ z, build hash sources t = some z ∧ Rebuilds y z) ∧
      ∀ g' ∈ g :: gs, ∀ o r r', g'.inventory.record o = some r → y.record o = some r' →
        r.source = r'.source ∧ r.identity = r'.identity := by
  refine ⟨refresh_isSome sources, fun y hy => ⟨?_, fun g' hg' o r r' hr hr' => ?_⟩⟩
  · have hlists := (refreshing_refresh (hrun.lists g mem_cons_self) hdiff hy).1
    obtain ⟨z, hz⟩ := build_isSome hash sources hlists.length_le
    exact ⟨z, hz, hlists.rebuilds (lists_build hz)⟩
  · have hstable := (pairwise_cons.mp (hrun.refresh hdiff hy).stable).1 g' hg'
    obtain ⟨r₀, hr₀, hsource, hidentity⟩ :=
      hstable.same o r' hr' ((hrun.lists g' hg').below o r hr)
    rw [hr] at hr₀
    obtain rfl := Option.some.inj hr₀
    exact ⟨hsource, hidentity⟩

/-! ### Refreshes of other files -/

/-- One refresh, for a set of files without `f`. -/
def RefreshesWithout (f : ℕ) (g next : Generation hash) : Prop :=
  ∃ changed, f ∉ changed ∧ DiffersIn changed g.sources g.table next.sources next.table ∧
    g.inventory.refresh next.sources next.table changed = some next.inventory

theorem RefreshesWithout.record_iff {f : ℕ} {g next : Generation hash}
    (h : RefreshesWithout f g next) (hx : Lists g.inventory (tableRecords g.sources g.table))
    {o : SymbolOrdinal} {r : InventorySymbol} (hr : r.source = f) :
    next.inventory.record o = some r ↔ g.inventory.record o = some r := by
  obtain ⟨changed, hf, hdiff, hy⟩ := h
  have hlists := (refreshing_refresh hx hdiff hy).1
  have hkeep : ∀ o, g.inventory.record o = some r → next.inventory.record o = some r :=
    fun o ho => record_of_refresh hx hy ho (hr ▸ hf)
  refine ⟨fun ho => ?_, hkeep o⟩
  -- The record was there before, and its id has one ordinal.
  have hmem := (hlists.lists r).mpr ⟨o, ho⟩
  rw [← tableRecords_eq hdiff] at hmem
  rcases hmem with ⟨hmem, -⟩ | ⟨e, he, hrecord⟩
  · obtain ⟨o', ho'⟩ := (hx.lists r).mp hmem
    rwa [hlists.ordinal_unique ho (hkeep o' ho') rfl]
  · obtain ⟨hchanged, hs⟩ := mem_changedRecords.mp he
    rw [← hr, ← hrecord] at hf
    exact absurd ((file_of_mem hs).2 ▸ hchanged) hf

/-- However often other files are refreshed after a run, the records of a file stay at their
ordinals, and the ids of the file keep theirs. -/
theorem records_stay {f : ℕ} {g next : Generation hash} {gs : List (Generation hash)}
    (hrun : Run hash (g :: gs)) (h : Relation.ReflTransGen (RefreshesWithout f) g next) :
    (∃ gs', Run hash (next :: gs')) ∧ (∀ o r, r.source = f →
        (next.inventory.record o = some r ↔ g.inventory.record o = some r)) ∧
      ∀ id, id.file = f → next.inventory.catalog.ordinal id = g.inventory.catalog.ordinal id := by
  induction h with
  | refl => exact ⟨⟨gs, hrun⟩, fun _ _ _ => Iff.rfl, fun _ _ => rfl⟩
  | @tail later next _ hstep ih =>
    obtain ⟨⟨gs', hrun'⟩, hrecords, hids⟩ := ih
    have hx := hrun'.lists later mem_cons_self
    refine ⟨?_, fun o r hr => (hstep.record_iff hx hr).trans (hrecords o r hr), fun id hid => ?_⟩
    · obtain ⟨changed, -, hdiff, hy⟩ := hstep
      exact ⟨_, hrun'.refresh hdiff hy⟩
    · obtain ⟨changed, hf, hdiff, hy⟩ := hstep
      exact ((refresh_ordinals hx hdiff hy).1 id (hid ▸ hf)).trans (hids id hid)

/-! ### Two files of one package -/

/-- A class in a directory of the package `io`. -/
def pipeIn (file : ℕ) (dir : String) : IndexedSymbol where
  byteRange := none
  id := ⟨file, 0⟩
  source := file
  identity := "code+moniker://./lang:java/package:io/dir:" ++ dir ++ "/class:Pipe"
  name := "Pipe"
  kind := "class"
  visibility := "public"
  signature := ""
  parent := none
  navigable := true
  lineRange := some (3, 3)

def pipes : SymbolTable where
  shards := [[pipeIn 0 "in"], [pipeIn 1 "out"]]
  placed f d s h := by
    match f, d with
    | 0, 0 =>
      obtain rfl : pipeIn 0 "in" = s := Option.some.inj h
      simp [pipeIn]
    | 1, 0 =>
      obtain rfl : pipeIn 1 "out" = s := Option.some.inj h
      simp [pipeIn]
    | 0, d + 1 => simp at h
    | 1, d + 1 => simp at h
    | f + 2, d => simp at h

def pipeSources : List SourceFileRecord :=
  [⟨0, "src/io/in/Pipe.java", "java"⟩, ⟨0, "src/io/out/Pipe.java", "java"⟩]

def firstFile : OrdSet ℕ := OrdSet.ofList [0]

/-- The refresh of an unchanged file moves its symbol behind the others of the same compact
identity. -/
theorem symbolIds_pipes : ((build String.length pipeSources pipes).map
        (·.symbolIdsByCompactIdentity "java:io/class:Pipe")) = some [⟨0, 0⟩, ⟨1, 0⟩] ∧
      (((build String.length pipeSources pipes).bind (·.refresh pipeSources pipes firstFile)).map
        (·.symbolIdsByCompactIdentity "java:io/class:Pipe")) = some [⟨1, 0⟩, ⟨0, 0⟩] := by
  decide +kernel

theorem refresh_rebuilds_pipes : ∃ x y z : SymbolInventory String.length,
    build String.length pipeSources pipes = some x ∧
      x.refresh pipeSources pipes firstFile = some y ∧
      build String.length pipeSources pipes = some z ∧ Rebuilds y z := by
  obtain ⟨x, hx⟩ : ∃ x, build String.length pipeSources pipes = some x :=
    build_isSome _ _ (by decide)
  have hdiff : DiffersIn firstFile pipeSources pipes pipeSources pipes :=
    fun f _ => ⟨rfl, rfl⟩
  obtain ⟨hsome, hall⟩ := refresh_rebuilds (Run.build hx) hdiff
  have hnext : (build String.length pipeSources pipes).map
      (·.catalog.nextOrdinal) = some 2 := by decide
  have hroom : x.catalog.nextOrdinal + (changedRecords pipes firstFile).length ≤
      ordinalSpace := by
    rw [hx] at hnext
    have hnext' : x.catalog.nextOrdinal = 2 := Option.some.inj hnext
    rw [hnext']
    decide
  obtain ⟨y, hy⟩ := hsome hroom
  obtain ⟨⟨z, hz, hrebuilds⟩, -⟩ := hall y hy
  exact ⟨x, y, z, hx, hy, hz, hrebuilds⟩

/-- The refresh of the first file leaves the second one out. -/
theorem records_stay_pipes : ∃ x y : SymbolInventory String.length,
    build String.length pipeSources pipes = some x ∧
      x.refresh pipeSources pipes firstFile = some y ∧
      y.catalog.ordinal ⟨1, 0⟩ = x.catalog.ordinal ⟨1, 0⟩ := by
  have hsome : ((build String.length pipeSources pipes).bind
      (·.refresh pipeSources pipes firstFile)).isSome := by decide +kernel
  obtain ⟨y, hy⟩ := Option.isSome_iff_exists.mp hsome
  obtain ⟨x, hx, hxy⟩ := bind_eq_some_iff.mp hy
  have hstep : RefreshesWithout 1 ⟨pipeSources, pipes, x⟩ ⟨pipeSources, pipes, y⟩ :=
    ⟨firstFile, by decide, fun f _ => ⟨rfl, rfl⟩, hxy⟩
  exact ⟨x, y, hx, hxy, (records_stay (.build hx) (.single hstep)).2.2 ⟨1, 0⟩ rfl⟩

end SymbolInventory

end CodeMoniker
