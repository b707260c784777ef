import CodeMoniker.CorridorSearch

/-!
# What a corridor holds

`CorridorQuery` collects what a corridor search depends on, and `CorridorQuery.Step` states over the
linkage which references it may follow. Each of the two searches computes the symbols at each
distance (`walkFrom_spec`) as long as no budget runs out : the forward search reads references that
are new to it at each frontier, the reverse search also takes up those that the first one has read.
`corridorBetween_exact` is the result : the members are the symbols whose two distances fit into the
depth, and the edges the references between two such symbols that fit with them.
-/

namespace CodeMoniker

open List LinkageReadIndex Walks OrdSet
open Option (some.inj)

/-- Everything a corridor search depends on. -/
structure CorridorQuery where
  linkage : LinkageSnapshot
  references : ReferenceTable
  symbols : SymbolOrdinalCatalog
  roots : List ℕ
  request : BoundedCorridorSetRequest

open CorridorTraversal

namespace CorridorQuery

variable (p : CorridorQuery)

def index : LinkageReadIndex :=
  fromSnapshotWithCatalog p.linkage p.references p.symbols p.roots

def traversal : CorridorTraversal :=
  CorridorTraversal.new p.index p.request.relations p.request.limits p.request.scope.asPathScope

/-- `e` is a resolved reference of an admitted relation from the symbol `u` to `v`, both in the
scope. -/
structure Step (e : BoundedPathEdge) (u v : SymbolOrdinal) : Prop where
  record : ∃ rec ∈ p.references.iter, rec.id = e.reference ∧ rec.sourceSymbol = e.source ∧
    AdmitsRelation p.request.relations rec.kind
  resolved : ⟨e.reference, e.target⟩ ∈ p.linkage.resolved
  source : p.symbols.ordinal e.source = some u
  target : p.symbols.ordinal e.target = some v
  sourceScope : u ∈ p.request.scope.symbols
  targetScope : v ∈ p.request.scope.symbols

def Edge (u v : SymbolOrdinal) : Prop := ∃ e, p.Step e u v

/-- The symbols of the request on one side, as far as they lie in the scope. -/
def side : TraversalDirection → Set SymbolOrdinal
  | .forward => {o | o ∈ p.request.source ∧ o ∈ p.request.scope.symbols}
  | .reverse => {o | o ∈ p.request.target ∧ o ∈ p.request.scope.symbols}

/-- One step of the search in a direction. -/
def Along : TraversalDirection → SymbolOrdinal → SymbolOrdinal → Prop
  | .forward, u, v => p.Edge u v
  | .reverse, u, v => p.Edge v u

/-- `d(from, v)` for the forward search, `d(v, to)` for the reverse one. -/
def Distance (direction : TraversalDirection) (n : ℕ) (v : SymbolOrdinal) : Prop :=
  Dist (p.Along direction) (p.side direction) n v

/-! ## References at a frontier -/

/-- The end of a reference that a search in some direction comes from. -/
def nearEnd (direction : TraversalDirection) (r : ReferenceOrdinal) : Option SymbolOrdinal :=
  match direction with
  | .forward => p.index.referenceSource r
  | .reverse => p.index.referenceTarget r

/-- The reference at a position is of an admitted relation. -/
def Admitted (r : ReferenceOrdinal) : Prop :=
  ∃ rec, p.references.iter[r]? = some rec ∧ AdmitsRelation p.request.relations rec.kind

/-- What a search reads at a frontier. -/
structure Offered (direction : TraversalDirection) (frontier : SymbolSet) (r : ReferenceOrdinal) :
    Prop where
  admitted : p.Admitted r
  near : ∃ u ∈ frontier, p.nearEnd direction r = some u
  far : ∀ v, p.traversal.farEnd direction r = some v → v ∈ p.request.scope.symbols

/-- The postings that a symbol has in a direction. -/
def directed (direction : TraversalDirection) (o : SymbolOrdinal) : List ReferenceSet :=
  match direction with
  | .forward => p.index.outgoingPostings o p.traversal.relations
  | .reverse => p.index.incomingPostings o p.traversal.relations

def opposite : TraversalDirection → TraversalDirection
  | .forward => .reverse
  | .reverse => .forward

variable {p} {direction : TraversalDirection} {frontier : SymbolSet} {r : ReferenceOrdinal}
  {u v o : SymbolOrdinal}

theorem admitsRelation_traversal {k : String} :
    AdmitsRelation p.traversal.relations k ↔ AdmitsRelation p.request.relations k :=
  admitsRelation_congr (fun _ => mem_eraseDups) k

/-- A reference stands at its near end. -/
theorem exists_mem_directed : (∃ s ∈ p.directed direction o, r ∈ s) ↔
    p.Admitted r ∧ p.nearEnd direction r = some o := by
  cases direction with
  | forward =>
    refine exists_mem_outgoingPostings.trans ?_
    simp only [nearEnd, Admitted, index, referenceSource_eq_some, admitsRelation_traversal]
    constructor
    · rintro ⟨rec, hrec, ho, hk⟩
      exact ⟨⟨rec, hrec, hk⟩, rec, hrec, ho⟩
    · rintro ⟨⟨rec, hrec, hk⟩, rec', hrec', ho⟩
      obtain rfl : rec = rec' := some.inj (hrec.symm.trans hrec')
      exact ⟨rec, hrec, ho, hk⟩
  | reverse =>
    refine exists_mem_incomingPostings.trans ?_
    simp only [nearEnd, Admitted, index, referenceTarget_eq_some, admitsRelation_traversal]
    constructor
    · rintro ⟨rec, e, hrec, he, hid, ho, hk⟩
      exact ⟨⟨rec, hrec, hk⟩, rec, e, hrec, he, hid, ho⟩
    · rintro ⟨⟨rec, hrec, hk⟩, rec', e, hrec', he, hid, ho⟩
      obtain rfl : rec = rec' := some.inj (hrec.symm.trans hrec')
      exact ⟨rec, e, hrec, he, hid, ho, hk⟩

variable (p) in
/-- The references without a far end. -/
def withoutFarEnd : TraversalDirection → ReferenceSet
  | .forward => p.index.referencesWithoutTarget
  | .reverse => p.index.referencesWithoutSource

theorem mem_withoutFarEnd (hr : p.Admitted r) :
    r ∈ p.withoutFarEnd direction ↔ p.traversal.farEnd direction r = none := by
  obtain ⟨rec, hrec, -⟩ := hr
  cases direction with
  | forward => exact mem_referencesWithoutTarget hrec
  | reverse =>
    have hsource : r ∈ p.index.referencesWithoutSource ↔
        (p.references.iter.map fun r => p.symbols.ordinal r.sourceSymbol)[r]? = some none :=
      mem_missing
    refine hsource.trans ?_
    change _ ↔ ((p.references.iter.map fun r => p.symbols.ordinal r.sourceSymbol)[r]?).join = none
    rw [getElem?_map, hrec]
    simp

variable (p direction frontier) in
/-- The references that a search reads at a frontier. -/
def offeredSet : ReferenceSet :=
  unionOf (referencePostingsFromSymbols p.index direction frontier p.traversal.relations) ∩
    unionOf (p.withoutFarEnd direction ::
      p.request.scope.symbols.elems.flatMap (p.directed (opposite direction)))

theorem mem_offeredSet : r ∈ p.offeredSet direction frontier ↔ p.Offered direction frontier r := by
  have hpostings : (∃ s ∈ referencePostingsFromSymbols p.index direction frontier
      p.traversal.relations, r ∈ s) ↔
      p.Admitted r ∧ ∃ u ∈ frontier, p.nearEnd direction r = some u := by
    have hdirected : referencePostingsFromSymbols p.index direction frontier
        p.traversal.relations = frontier.elems.flatMap (p.directed direction) := by
      cases direction <;> rfl
    rw [hdirected]
    constructor
    · rintro ⟨s, hs, hr⟩
      obtain ⟨u, hu, hs⟩ := mem_flatMap.mp hs
      obtain ⟨hadmitted, hnear⟩ := exists_mem_directed.mp ⟨s, hs, hr⟩
      exact ⟨hadmitted, u, hu, hnear⟩
    · rintro ⟨hadmitted, u, hu, hnear⟩
      obtain ⟨s, hs, hr⟩ := exists_mem_directed.mpr ⟨hadmitted, hnear⟩
      exact ⟨s, mem_flatMap.mpr ⟨u, hu, hs⟩, hr⟩
  have hfar : p.Admitted r → ((∃ s ∈ p.request.scope.symbols.elems.flatMap
      (p.directed (opposite direction)), r ∈ s) ↔
        ∃ v ∈ p.request.scope.symbols, p.traversal.farEnd direction r = some v) := by
    intro hadmitted
    have hnear : p.nearEnd (opposite direction) r = p.traversal.farEnd direction r := by
      cases direction <;> rfl
    constructor
    · rintro ⟨s, hs, hr⟩
      obtain ⟨v, hv, hs⟩ := mem_flatMap.mp hs
      exact ⟨v, hv, hnear ▸ (exists_mem_directed.mp ⟨s, hs, hr⟩).2⟩
    · rintro ⟨v, hv, hfar⟩
      obtain ⟨s, hs, hr⟩ := exists_mem_directed.mpr ⟨hadmitted, hnear.trans hfar⟩
      exact ⟨s, mem_flatMap.mpr ⟨v, hv, hs⟩, hr⟩
  unfold offeredSet
  rw [mem_inter, mem_unionOf, mem_unionOf, hpostings, exists_mem_cons_iff]
  constructor
  · rintro ⟨⟨hadmitted, hnear⟩, hscope⟩
    refine ⟨hadmitted, hnear, fun v hv => ?_⟩
    rw [mem_withoutFarEnd hadmitted, hfar hadmitted, hv] at hscope
    rcases hscope with hnone | ⟨v', hv', heq⟩
    · cases hnone
    · rw [some.inj heq]
      exact hv'
  · rintro ⟨hadmitted, hnear, hscope⟩
    refine ⟨⟨hadmitted, hnear⟩, ?_⟩
    rw [mem_withoutFarEnd hadmitted, hfar hadmitted]
    cases hv : p.traversal.farEnd direction r with
    | none => exact Or.inl rfl
    | some v => exact Or.inr ⟨v, hscope v hv, rfl⟩

theorem contains_iff :
    p.request.scope.asPathScope.contains p.index o = true ↔ o ∈ p.request.scope.symbols := by
  simp [BoundedCorridorScope.asPathScope, BoundedPathScope.fromSymbols, BoundedPathScope.contains]

theorem boundedFrontierReferences_eq (reuseSeen : Bool) (seen : ReferenceSet) (limit : ℕ) :
    boundedFrontierReferences p.index p.traversal.relations
        ⟨direction, frontier, p.request.scope.asPathScope, reuseSeen⟩ seen limit =
      (if reuseSeen then seen.filter fun r => referenceMatchesSelection p.index
          p.traversal.relations ⟨direction, frontier, p.request.scope.asPathScope, reuseSeen⟩ r
        else ∅, admitReferences seen limit (p.offeredSet direction frontier).elems ∅) := by
  have hterms : referenceScopeTerms p.index p.request.scope.asPathScope direction
      p.traversal.relations = some (p.withoutFarEnd direction ::
        p.request.scope.symbols.elems.flatMap (p.directed (opposite direction))) := by
    cases direction <;> rfl
  simp only [boundedFrontierReferences, hterms, inter_collect, offeredSet]

/-- A reference that was read is taken up again where it would be read now. -/
theorem referenceMatchesSelection_iff {reuseSeen : Bool} :
    referenceMatchesSelection p.index p.traversal.relations
      ⟨direction, frontier, p.request.scope.asPathScope, reuseSeen⟩ r = true ↔
        p.Offered direction frontier r := by
  have hmatches : referenceMatchesSelection p.index p.traversal.relations
      ⟨direction, frontier, p.request.scope.asPathScope, reuseSeen⟩ r =
        (p.nearEnd direction r).any fun near =>
          if near ∉ frontier ∨ ∃ o ∈ p.traversal.farEnd direction r,
              ¬p.request.scope.asPathScope.contains p.index o then false
          else (p.directed direction near).any (r ∈ ·) := by
    unfold referenceMatchesSelection
    cases direction <;>
    · dsimp only
      split <;>
      · next hnear =>
        rw [nearEnd, hnear]
        rfl
  have hscope : (¬∃ o ∈ p.traversal.farEnd direction r,
      ¬p.request.scope.asPathScope.contains p.index o = true) ↔
        ∀ v, p.traversal.farEnd direction r = some v → v ∈ p.request.scope.symbols := by
    simp only [contains_iff, Option.mem_def, not_exists, not_and, not_not]
  rw [hmatches]
  cases hnear : p.nearEnd direction r with
  | none =>
    constructor
    · intro h
      cases h
    · intro h
      obtain ⟨u, -, hu⟩ := h.near
      rw [hnear] at hu
      cases hu
  | some near =>
    have hstands : (p.directed direction near).any (r ∈ ·) = true ↔ p.Admitted r := by
      have hdirected := @exists_mem_directed p direction r near
      rw [hnear, eq_self, and_true] at hdirected
      rw [← hdirected, any_eq_true]
      simp only [decide_eq_true_eq]
    change (if near ∉ frontier ∨ _ then false else _) = true ↔ _
    constructor
    · intro h
      split_ifs at h with hout
      rw [not_or, not_not, hscope] at hout
      exact ⟨hstands.mp h, ⟨near, hout.1, hnear⟩, hout.2⟩
    · rintro ⟨hadmitted, ⟨u, hu, hnear'⟩, hfar⟩
      obtain rfl : near = u := some.inj (hnear.symm.trans hnear')
      rw [if_neg]
      · exact hstands.mpr hadmitted
      · rw [not_or, not_not, hscope]
        exact ⟨hu, hfar⟩

/-- What a round reads, unless the budget for references runs out. -/
theorem admitFrontier_spec {t t' : ReferenceTraversal} {maxEdges : ℕ} {batch : ReferenceSet}
    {limitReached : Bool}
    (hfresh : direction = .forward → ∀ r, p.Offered direction frontier r → r ∉ t.seen)
    (h : t.admitFrontier p.index p.traversal.relations
      ⟨direction, frontier, p.request.scope.asPathScope, direction = .reverse⟩ maxEdges =
        (batch, limitReached, t')) : t'.limitReached = (t.limitReached || limitReached) ∧
      (limitReached = false → (∀ r, r ∈ batch ↔ p.Offered direction frontier r) ∧
        ∀ r, r ∈ t'.seen ↔ r ∈ t.seen ∨ p.Offered direction frontier r) := by
  simp only [ReferenceTraversal.admitFrontier, boundedFrontierReferences_eq, Prod.mk.injEq] at h
  obtain ⟨rfl, rfl, rfl⟩ := h
  refine ⟨rfl, fun hlimit => ?_⟩
  have hadmitted : ∀ r, r ∈ (admitReferences t.seen (maxEdges - t.seen.card)
      (p.offeredSet direction frontier).elems ∅).1 ↔
        p.Offered direction frontier r ∧ r ∉ t.seen := by
    intro r
    rw [PathQuery.mem_admitReferences hlimit, mem_elems, mem_offeredSet]
    simp
  refine ⟨fun r => ?_, fun r => ?_⟩
  · rw [mem_union, hadmitted]
    cases direction with
    | forward =>
      simp only [reduceCtorEq, decide_false, Bool.false_eq_true, if_false, notMem_empty,
        false_or, and_iff_left_iff_imp]
      exact hfresh rfl r
    | reverse =>
      simp only [decide_true, if_true, OrdSet.mem_filter, referenceMatchesSelection_iff]
      tauto
  · change r ∈ t.seen ∪ _ ↔ _
    rw [OrdSet.mem_union, hadmitted]
    tauto

/-! ## Steps and references -/

theorem Along.mem_scope (h : p.Along direction u v) :
    u ∈ p.request.scope.symbols ∧ v ∈ p.request.scope.symbols := by
  cases direction with
  | forward =>
    obtain ⟨e, he⟩ := h
    exact ⟨he.sourceScope, he.targetScope⟩
  | reverse =>
    obtain ⟨e, he⟩ := h
    exact ⟨he.targetScope, he.sourceScope⟩

theorem Distance.mem_scope {n : ℕ} (h : p.Distance direction n v) :
    v ∈ p.request.scope.symbols := by
  cases n with
  | zero =>
    have hside : v ∈ p.side direction := dist_zero.mp h
    cases direction with
    | forward => exact hside.2
    | reverse => exact hside.2
  | succ n =>
    obtain ⟨-, u, -, huv⟩ := dist_succ_iff.mp h
    exact (Along.mem_scope huv).2

/-- A symbol has one distance. -/
theorem Distance.unique {n m : ℕ} (hn : p.Distance direction n v) (hm : p.Distance direction m v) :
    n = m := by
  rcases Nat.lt_trichotomy n m with hlt | heq | hgt
  · exact absurd hn.1 (hm.2 n hlt)
  · exact heq
  · exact absurd hm.1 (hn.2 m hgt)

/-- An admitted reference between two symbols of the scope is a step, and it becomes this edge. -/
theorem exists_step (hr : p.Admitted r) (hsource : p.index.referenceSource r = some u)
    (htarget : p.index.referenceTarget r = some v) (hu : u ∈ p.request.scope.symbols)
    (hv : v ∈ p.request.scope.symbols) : ∃ e, corridorEdge p.index r = some e ∧ p.Step e u v := by
  obtain ⟨rec, hrec, hk⟩ := hr
  obtain ⟨rec', hrec', hsrc⟩ := referenceSource_eq_some.mp hsource
  obtain rfl : rec = rec' := some.inj (hrec.symm.trans hrec')
  obtain ⟨rec', edge, hrec', hedge, hid, htgt⟩ := referenceTarget_eq_some.mp htarget
  obtain rfl : rec = rec' := some.inj (hrec.symm.trans hrec')
  have hsu : p.index.symbol u = some rec.sourceSymbol :=
    SymbolOrdinalCatalog.id_eq_some_iff.mpr hsrc
  have hsv : p.index.symbol v = some edge.target := SymbolOrdinalCatalog.id_eq_some_iff.mpr htgt
  have hrid : p.index.referenceId r = some rec.id := referenceId_eq_some.mpr ⟨rec, hrec, rfl⟩
  refine ⟨⟨rec.sourceSymbol, edge.target, rec.id⟩, ?_, ?_⟩
  · simp [corridorEdge, hsource, htarget, hsu, hsv, hrid]
  · refine ⟨⟨rec, mem_of_getElem? hrec, rfl, rfl, hk⟩, ?_, hsrc, htgt, hu, hv⟩
    rw [hid]
    exact hedge

/-- Every step stands in the reference table. -/
theorem Step.exists_reference {e : BoundedPathEdge} (h : p.Step e u v) : ∃ r, p.Admitted r ∧
    p.index.referenceSource r = some u ∧ p.index.referenceTarget r = some v ∧
      r ∈ p.index.classifications.resolved ∧ corridorEdge p.index r = some e := by
  obtain ⟨rec, hmem, hid, hsrc, hk⟩ := h.record
  obtain ⟨r, hrec⟩ := mem_iff_getElem?.mp hmem
  have hsource : p.index.referenceSource r = some u :=
    referenceSource_eq_some.mpr ⟨rec, hrec, hsrc ▸ h.source⟩
  have htarget : p.index.referenceTarget r = some v :=
    referenceTarget_eq_some.mpr ⟨rec, _, hrec, h.resolved, hid, h.target⟩
  have hsu : p.index.symbol u = some e.source := SymbolOrdinalCatalog.id_eq_some_iff.mpr h.source
  have hsv : p.index.symbol v = some e.target := SymbolOrdinalCatalog.id_eq_some_iff.mpr h.target
  have hrid : p.index.referenceId r = some e.reference := referenceId_eq_some.mpr ⟨rec, hrec, hid⟩
  have hresolved : r ∈ p.index.classifications.resolved :=
    mem_resolved.mpr ⟨rec, _, hrec, h.resolved, hid⟩
  refine ⟨r, ⟨rec, hrec, hk⟩, hsource, htarget, hresolved, ?_⟩
  simp [corridorEdge, hsource, htarget, hsu, hsv, hrid]

/-- One step of a search follows an admitted reference from its near end to its far end. -/
theorem along_iff (hu : u ∈ p.request.scope.symbols) : p.Along direction u v ↔
    v ∈ p.request.scope.symbols ∧ ∃ r, p.Admitted r ∧ p.nearEnd direction r = some u ∧
      p.traversal.farEnd direction r = some v := by
  cases direction with
  | forward =>
    constructor
    · rintro ⟨e, he⟩
      obtain ⟨r, hr, hsource, htarget, -⟩ := he.exists_reference
      exact ⟨he.targetScope, r, hr, hsource, htarget⟩
    · rintro ⟨hv, r, hr, hsource, htarget⟩
      obtain ⟨e, -, he⟩ := exists_step hr hsource htarget hu hv
      exact ⟨e, he⟩
  | reverse =>
    constructor
    · rintro ⟨e, he⟩
      obtain ⟨r, hr, hsource, htarget, -⟩ := he.exists_reference
      exact ⟨he.sourceScope, r, hr, htarget, hsource⟩
    · rintro ⟨hv, r, hr, htarget, hsource⟩
      obtain ⟨e, -, he⟩ := exists_step hr hsource htarget hv hu
      exact ⟨e, he⟩

/-! ## One round -/

/-- No budget has run out. -/
structure Unlimited (st : CorridorState) : Prop where
  symbols : st.search.symbolLimitReached = false
  edges : st.references.limitReached = false

/-- What the symbols of some references are collected into. -/
theorem foldl_addFarEnd : ∀ (rs : List ReferenceOrdinal) (acc : SymbolSet × CorridorState),
    (∀ v, v ∈ (rs.foldl (p.traversal.addFarEnd direction) acc).1 ↔
      v ∈ acc.1 ∨ ∃ r ∈ rs, p.traversal.farEnd direction r = some v) ∧
    (rs.foldl (p.traversal.addFarEnd direction) acc).2.references.seen = acc.2.references.seen ∧
    (rs.foldl (p.traversal.addFarEnd direction) acc).2.references.limitReached =
      acc.2.references.limitReached ∧
    (rs.foldl (p.traversal.addFarEnd direction) acc).2.search = acc.2.search
  | [], acc => by simp
  | r :: rs, acc => by
    obtain ⟨hmem, hseen, hlimit, hsearch⟩ :=
      foldl_addFarEnd rs (p.traversal.addFarEnd direction acc r)
    rw [foldl_cons]
    cases hr : p.traversal.farEnd direction r with
    | some symbol =>
      have hadd : p.traversal.addFarEnd direction acc r = (acc.1.insert symbol, acc.2) := by
        simp only [addFarEnd, hr]
      rw [hadd] at hmem hseen hlimit hsearch ⊢
      refine ⟨fun v => ?_, hseen, hlimit, hsearch⟩
      rw [hmem, mem_insert, exists_mem_cons_iff, hr, Option.some.injEq]
      constructor
      · rintro ((rfl | h) | h)
        · exact Or.inr (Or.inl rfl)
        · exact Or.inl h
        · exact Or.inr (Or.inr h)
      · rintro (h | rfl | h)
        · exact Or.inl (Or.inr h)
        · exact Or.inl (Or.inl rfl)
        · exact Or.inr h
    | none =>
      have hadd : p.traversal.addFarEnd direction acc r = (acc.1, acc.2.tallyMissingOrdinal) := by
        simp only [addFarEnd, hr]
      rw [hadd] at hmem hseen hlimit hsearch ⊢
      refine ⟨fun v => ?_, hseen, hlimit, hsearch⟩
      rw [hmem, exists_mem_cons_iff, hr]
      simp

/-- An offered reference with a far end is resolved. -/
theorem Offered.resolved (h : p.Offered direction frontier r)
    (hv : p.traversal.farEnd direction r = some v) : r ∈ p.index.classifications.resolved := by
  have htarget : ∃ o, p.index.referenceTarget r = some o := by
    obtain ⟨u, -, hu⟩ := h.near
    cases direction with
    | forward => exact ⟨v, hv⟩
    | reverse => exact ⟨u, hu⟩
  obtain ⟨o, ho⟩ := htarget
  obtain ⟨rec, e, hrec, he, hid, -⟩ := referenceTarget_eq_some.mp ho
  exact mem_resolved.mpr ⟨rec, e, hrec, he, hid⟩

/-- What the first half of a round does within the budgets. -/
structure Expanded (direction : TraversalDirection) (frontier reached : SymbolSet)
    (st : CorridorState) (next : SymbolSet) (st' : CorridorState) : Prop where
  next : ∀ v, v ∈ next ↔
    v ∉ reached ∧ ∃ r, p.Offered direction frontier r ∧ p.traversal.farEnd direction r = some v
  seen : ∀ r, r ∈ st'.references.seen ↔
    r ∈ st.references.seen ∨ p.Offered direction frontier r

/-- The two halves of `expand`. -/
theorem expand_eq (depth : ℕ) (reached : SymbolSet) (st : CorridorState) :
    ∃ batch limitReached references, st.references.admitFrontier p.index p.traversal.relations
        ⟨direction, frontier, p.request.scope.asPathScope, direction = .reverse⟩
        p.request.limits.maxEdges = (batch, limitReached, references) ∧
      ∃ found : SymbolSet × CorridorState,
        p.traversal.expand direction depth frontier reached st = (found.1 \ reached, found.2) ∧
        (∀ v, v ∈ found.1 ↔ ∃ r ∈ batch, r ∈ p.index.classifications.resolved ∧
          p.traversal.farEnd direction r = some v) ∧ found.2.references.seen = references.seen ∧
        found.2.references.limitReached = references.limitReached ∧
        found.2.search.symbolLimitReached = st.search.symbolLimitReached := by
  obtain ⟨batch, limitReached, references, hadmit⟩ : ∃ batch limitReached references,
      st.references.admitFrontier p.index p.traversal.relations
        ⟨direction, frontier, p.request.scope.asPathScope, direction = .reverse⟩
        p.request.limits.maxEdges = (batch, limitReached, references) := ⟨_, _, _, rfl⟩
  have hrecord : (st.recordDepth direction depth).references = st.references ∧
      (st.recordDepth direction depth).search.symbolLimitReached =
        st.search.symbolLimitReached := by
    cases direction <;> exact ⟨rfl, rfl⟩
  obtain ⟨hmem, hseen, hlimit, hsearch⟩ := @foldl_addFarEnd p direction
    (batch ∩ p.index.classifications.resolved).elems
    (∅, { st.recordDepth direction depth with references := references })
  refine ⟨batch, limitReached, references, hadmit, p.traversal.symbolsFromReferences
    { st.recordDepth direction depth with references := references } direction
    (batch ∩ p.index.classifications.resolved), ?_, fun v => ?_, hseen, hlimit, ?_⟩
  · have hindex : p.traversal.index = p.index := rfl
    have hscope : p.traversal.scope = p.request.scope.asPathScope := rfl
    have hlimits : p.traversal.limits = p.request.limits := rfl
    simp only [expand, hrecord.1, hindex, hscope, hlimits, hadmit]
  · refine (hmem v).trans ?_
    simp only [notMem_empty, false_or, mem_elems, mem_inter, and_assoc]
  · exact (congrArg BoundedCorridorSearch.symbolLimitReached hsearch).trans hrecord.2

variable {st : CorridorState}

/-- A limit that was reached stays reached. -/
theorem Unlimited.of_expand {depth : ℕ} {reached : SymbolSet}
    (h : Unlimited (p.traversal.expand direction depth frontier reached st).2) : Unlimited st := by
  obtain ⟨batch, limitReached, references, hadmit, found, hexpand, -, -, hlimit, hsymbol⟩ :=
    @expand_eq p direction frontier depth reached st
  rw [hexpand] at h
  have hreferences : references.limitReached = (st.references.limitReached || limitReached) := by
    simp only [ReferenceTraversal.admitFrontier, Prod.mk.injEq] at hadmit
    obtain ⟨-, rfl, rfl⟩ := hadmit
    rfl
  have hedges := hlimit.symm.trans h.edges
  rw [hreferences, Bool.or_eq_false_iff] at hedges
  exact ⟨hsymbol.symm.trans h.symbols, hedges.1⟩

theorem expand_spec (depth : ℕ) (reached : SymbolSet)
    (hfresh : direction = .forward → ∀ r, p.Offered direction frontier r → r ∉ st.references.seen)
    (h : Unlimited (p.traversal.expand direction depth frontier reached st).2) :
    Expanded (p := p) direction frontier reached st
      (p.traversal.expand direction depth frontier reached st).1
      (p.traversal.expand direction depth frontier reached st).2 := by
  obtain ⟨batch, limitReached, references, hadmit, found, hexpand, hmem, hseen, hlimit, -⟩ :=
    @expand_eq p direction frontier depth reached st
  obtain ⟨hreferences, hcomplete⟩ := admitFrontier_spec hfresh hadmit
  rw [hexpand] at h ⊢
  have hedges := hlimit.symm.trans h.edges
  rw [hreferences, Bool.or_eq_false_iff] at hedges
  obtain ⟨hbatch, hread⟩ := hcomplete hedges.2
  refine ⟨fun v => ?_, fun r => ?_⟩
  · rw [mem_sdiff, hmem]
    constructor
    · rintro ⟨⟨r, hr, -, hv⟩, hout⟩
      exact ⟨hout, r, (hbatch r).mp hr, hv⟩
    · rintro ⟨hout, r, hr, hv⟩
      exact ⟨⟨r, (hbatch r).mpr hr, hr.resolved hv, hv⟩, hout⟩
  · rw [hseen]
    exact hread r

/-- Unless the budget for symbols runs out, all candidates are admitted. -/
theorem admitSymbols_spec {candidates : SymbolSet} {limits : BoundedPathLimits}
    (h : Unlimited (st.admitSymbols candidates limits).2) :
    Unlimited st ∧ (st.admitSymbols candidates limits).1 = candidates := by
  obtain ⟨hfree, hcut⟩ := Bool.or_eq_false_iff.mp h.symbols
  refine ⟨⟨hfree, h.edges⟩, ?_⟩
  simp only [CorridorState.admitSymbols, hcut, Bool.false_eq_true, if_false]
  ext v
  by_cases hv : v ∈ st.seenSymbols
  · simp [hv]
  · simp [hv]

/-! ## The walk -/

variable (p) in
/-- A search in a direction reads the reference when it comes to the symbols at distance `n`. -/
def ReadAt (direction : TraversalDirection) (n : ℕ) (r : ReferenceOrdinal) : Prop :=
  p.Admitted r ∧ (∃ u, p.Distance direction n u ∧ p.nearEnd direction r = some u) ∧
    ∀ v, p.traversal.farEnd direction r = some v → v ∈ p.request.scope.symbols

/-- The layer at a depth holds the symbol. -/
def AtDepth (layers : List SymbolSet) (n : ℕ) (o : SymbolOrdinal) : Prop :=
  ∃ layer, layers[n]? = some layer ∧ o ∈ layer

/-- Before the round at depth `d`, after the references in `before` were read by another search. -/
structure WalkInv (direction : TraversalDirection) (before : ReferenceSet) (d : ℕ)
    (frontier reached : SymbolSet) (exact : List SymbolSet) (st : CorridorState) : Prop where
  fresh : direction = .forward → before = ∅
  length : exact.length = d + 1
  layers : ∀ n o, AtDepth exact n o ↔ n ≤ d ∧ p.Distance direction n o
  frontier : ∀ o, o ∈ frontier ↔ p.Distance direction d o
  reached : ∀ o, o ∈ reached ↔ o ∈ Ball (p.Along direction) (p.side direction) d
  seen : ∀ r, r ∈ st.references.seen ↔ r ∈ before ∨ ∃ n < d, p.ReadAt direction n r

/-- What a whole walk collects. -/
structure WalkPost (direction : TraversalDirection) (before : ReferenceSet)
    (layers : CorridorLayers) (st : CorridorState) : Prop where
  layers : ∀ n o, AtDepth layers.exact n o ↔
    n ≤ p.request.limits.maxDepth ∧ p.Distance direction n o
  seen : ∀ r, r ∈ st.references.seen ↔
    r ∈ before ∨ ∃ n ≤ p.request.limits.maxDepth, p.ReadAt direction n r

section Round

variable {before : ReferenceSet} {d : ℕ} {reached next : SymbolSet} {exact : List SymbolSet}
  {st st' : CorridorState}

section

variable (h : WalkInv (p := p) direction before d frontier reached exact st)

include h

theorem WalkInv.offered_iff : p.Offered direction frontier r ↔ p.ReadAt direction d r := by
  constructor
  · rintro ⟨hr, ⟨u, hu, hnear⟩, hfar⟩
    exact ⟨hr, ⟨u, (h.frontier u).mp hu, hnear⟩, hfar⟩
  · rintro ⟨hr, ⟨u, hu, hnear⟩, hfar⟩
    exact ⟨hr, ⟨u, (h.frontier u).mpr hu, hnear⟩, hfar⟩

/-- The forward search reads no reference twice. -/
theorem WalkInv.unseen :
    direction = .forward → ∀ r, p.Offered direction frontier r → r ∉ st.references.seen := by
  intro hforward r hr hseen
  rw [h.seen, h.fresh hforward] at hseen
  obtain ⟨n, hn, -, ⟨u, hu, hnear⟩, -⟩ := hseen.resolve_left (notMem_empty r)
  obtain ⟨-, ⟨v, hv, hnear'⟩, -⟩ := h.offered_iff.mp hr
  obtain rfl : u = v := some.inj (hnear.symm.trans hnear')
  have := hu.unique hv
  omega

variable (hx : Expanded (p := p) direction frontier reached st next st')

include hx

theorem WalkInv.mem_next : v ∈ next ↔ p.Distance direction (d + 1) v := by
  rw [hx.next, h.reached]
  refine Iff.trans (and_congr_right fun _ => ?_) dist_succ_iff.symm
  constructor
  · rintro ⟨r, hr, hv⟩
    obtain ⟨hadmitted, ⟨u, hu, hnear⟩, hfar⟩ := h.offered_iff.mp hr
    exact ⟨u, hu, (along_iff hu.mem_scope).mpr ⟨hfar v hv, r, hadmitted, hnear, hv⟩⟩
  · rintro ⟨u, hu, huv⟩
    have hscope : p.Distance direction d u := hu
    obtain ⟨hv, r, hadmitted, hnear, hfar⟩ := (along_iff hscope.mem_scope).mp huv
    refine ⟨r, h.offered_iff.mpr ⟨hadmitted, ⟨u, hu, hnear⟩, fun v' hv' => ?_⟩, hfar⟩
    obtain rfl : v = v' := some.inj (hfar.symm.trans hv')
    exact hv

theorem WalkInv.seen_succ : ∀ r, r ∈ st'.references.seen ↔
      r ∈ before ∨ ∃ n < d + 1, p.ReadAt direction n r := by
  intro r
  rw [hx.seen, h.seen, h.offered_iff, or_assoc]
  refine or_congr_right ⟨?_, ?_⟩
  · rintro (⟨n, hn, hr⟩ | hr)
    · exact ⟨n, by omega, hr⟩
    · exact ⟨d, by omega, hr⟩
  · rintro ⟨n, hn, hr⟩
    rcases Nat.lt_or_ge n d with hlt | hge
    · exact Or.inl ⟨n, hlt, hr⟩
    · obtain rfl : n = d := by omega
      exact Or.inr hr

/-- A round that leads nowhere ends the walk with everything collected. -/
theorem WalkInv.ended (hd : d ≤ p.request.limits.maxDepth)
    (hnext : next = ∅ ∨ d = p.request.limits.maxDepth) :
    WalkPost (p := p) direction before ⟨exact⟩ st' := by
  have hlast : ∀ n ≤ p.request.limits.maxDepth, ∀ o, p.Distance direction n o → n ≤ d := by
    intro n hn o ho
    rcases hnext with hnext | rfl
    · by_contra hlt
      have hno : ∀ v, ¬Dist (p.Along direction) (p.side direction) (d + 1) v := fun v hv => by
        have := (h.mem_next hx).mpr hv
        simp [hnext] at this
      obtain ⟨m, hm, hreach⟩ := mem_ball_of_no_dist hno ho.1
      exact ho.2 m (by omega) hreach
    · exact hn
  refine ⟨fun n o => ?_, fun r => ?_⟩
  · rw [h.layers]
    constructor
    · rintro ⟨hn, ho⟩
      exact ⟨by omega, ho⟩
    · rintro ⟨hn, ho⟩
      exact ⟨hlast n hn o ho, ho⟩
  · rw [h.seen_succ hx]
    refine or_congr_right ⟨?_, ?_⟩
    · rintro ⟨n, hn, hr⟩
      exact ⟨n, by omega, hr⟩
    · rintro ⟨n, hn, hr⟩
      obtain ⟨u, hu, -⟩ := hr.2.1
      have := hlast n hn u hu
      exact ⟨n, by omega, hr⟩

theorem WalkInv.layers_succ (n : ℕ) (o : SymbolOrdinal) :
    AtDepth (exact ++ [next]) n o ↔ n ≤ d + 1 ∧ p.Distance direction n o := by
  have hlength := h.length
  rcases Nat.lt_trichotomy n (d + 1) with hlt | rfl | hgt
  · have hleft : (exact ++ [next])[n]? = exact[n]? := getElem?_append_left (by omega)
    have hlayers := h.layers n o
    unfold AtDepth at hlayers ⊢
    rw [hleft, hlayers]
    constructor
    · rintro ⟨hn, ho⟩
      exact ⟨by omega, ho⟩
    · rintro ⟨hn, ho⟩
      exact ⟨by omega, ho⟩
  · have hright : (exact ++ [next])[d + 1]? = some next := by
      rw [← hlength, getElem?_concat_length]
    unfold AtDepth
    rw [hright]
    constructor
    · rintro ⟨layer, hlayer, ho⟩
      obtain rfl := some.inj hlayer
      exact ⟨le_rfl, (h.mem_next hx).mp ho⟩
    · rintro ⟨-, ho⟩
      exact ⟨next, rfl, (h.mem_next hx).mpr ho⟩
  · have hnone : (exact ++ [next])[n]? = none := by
      rw [getElem?_eq_none_iff, length_append, length_singleton]
      omega
    unfold AtDepth
    rw [hnone]
    constructor
    · rintro ⟨layer, hlayer, -⟩
      cases hlayer
    · rintro ⟨hn, -⟩
      omega

/-- The invariant after a full round. -/
theorem WalkInv.step {st'' : CorridorState} (hreferences : st''.references = st'.references) :
    WalkInv (p := p) direction before (d + 1) next (reached ∪ next) (exact ++ [next]) st'' where
  fresh := h.fresh
  length := by rw [length_append, h.length, length_singleton]
  layers := h.layers_succ hx
  frontier _ := h.mem_next hx
  reached o := by rw [mem_union, h.reached, h.mem_next hx, mem_ball_succ_iff]; rfl
  seen r := by rw [hreferences]; exact h.seen_succ hx r

end

end Round

theorem walkFrom_zero (frontier reached : SymbolSet) (exact : List SymbolSet) (st : CorridorState) :
    p.traversal.walkFrom direction 0 frontier reached exact st =
      (let round := p.traversal.expand direction p.request.limits.maxDepth frontier reached st
       if round.1 ≠ ∅ then
        (⟨exact⟩, { round.2 with search := { round.2.search with depthLimitReached := true } })
       else (⟨exact⟩, round.2)) := rfl

theorem walkFrom_succ (left : ℕ) (frontier reached : SymbolSet) (exact : List SymbolSet)
    (st : CorridorState) : p.traversal.walkFrom direction (left + 1) frontier reached exact st =
      (let round := p.traversal.expand direction (p.request.limits.maxDepth - (left + 1)) frontier
        reached st
       let admitted := round.2.admitSymbols round.1 p.request.limits
       if round.1 = ∅ then (⟨exact⟩, round.2)
       else if admitted.1 = ∅ then (⟨exact⟩, admitted.2)
       else if admitted.2.search.symbolLimitReached then (⟨exact ++ [admitted.1]⟩, admitted.2)
       else p.traversal.walkFrom direction left admitted.1 (reached ∪ admitted.1)
        (exact ++ [admitted.1]) admitted.2) := rfl

/-- A walk that stays within the budgets has started within them. -/
theorem Unlimited.of_walkFrom : ∀ {left : ℕ} {frontier reached : SymbolSet} {exact : List SymbolSet}
    {st : CorridorState},
    Unlimited (p.traversal.walkFrom direction left frontier reached exact st).2 → Unlimited st
  | 0, frontier, reached, exact, st, h => by
    rw [walkFrom_zero] at h
    simp only at h
    have hround : Unlimited
        (p.traversal.expand direction p.request.limits.maxDepth frontier reached st).2 := by
      split_ifs at h
      · exact ⟨h.symbols, h.edges⟩
      · exact h
    exact hround.of_expand
  | left + 1, frontier, reached, exact, st, h => by
    rw [walkFrom_succ] at h
    simp only at h
    have hround : Unlimited (p.traversal.expand direction
        (p.request.limits.maxDepth - (left + 1)) frontier reached st).2 := by
      split_ifs at h
      · exact h
      · exact (admitSymbols_spec h).1
      · exact (admitSymbols_spec h).1
      · exact (admitSymbols_spec h.of_walkFrom).1
    exact hround.of_expand

/-- A walk within the budgets collects every symbol in reach, at its distance. -/
theorem walkFrom_spec {before : ReferenceSet} : ∀ {left : ℕ} {frontier reached : SymbolSet}
    {exact : List SymbolSet} {st : CorridorState}, left ≤ p.request.limits.maxDepth →
    WalkInv (p := p) direction before (p.request.limits.maxDepth - left) frontier reached exact st →
    Unlimited (p.traversal.walkFrom direction left frontier reached exact st).2 →
    WalkPost (p := p) direction before
      (p.traversal.walkFrom direction left frontier reached exact st).1
      (p.traversal.walkFrom direction left frontier reached exact st).2
  | 0, frontier, reached, exact, st, _, hinv, hfree => by
    rw [walkFrom_zero] at hfree ⊢
    rw [Nat.sub_zero] at hinv
    simp only at hfree ⊢
    have hround : Unlimited
        (p.traversal.expand direction p.request.limits.maxDepth frontier reached st).2 := by
      split_ifs at hfree
      · exact ⟨hfree.symbols, hfree.edges⟩
      · exact hfree
    have hended := hinv.ended (expand_spec _ _ hinv.unseen hround) le_rfl (Or.inr rfl)
    split_ifs
    · exact ⟨hended.layers, hended.seen⟩
    · exact hended
  | left + 1, frontier, reached, exact, st, hle, hinv, hfree => by
    rw [walkFrom_succ] at hfree ⊢
    simp only at hfree ⊢
    set d := p.request.limits.maxDepth - (left + 1) with hd
    have hsucc : p.request.limits.maxDepth - left = d + 1 := by omega
    set round := p.traversal.expand direction d frontier reached st with hround
    split_ifs at hfree ⊢ with hnext hadmitted hcut
    · exact hinv.ended (expand_spec _ _ hinv.unseen hfree) (by omega) (Or.inl hnext)
    · obtain ⟨-, hall⟩ := admitSymbols_spec hfree
      exact absurd (hall ▸ hadmitted) hnext
    · exact absurd (hfree.symbols.symm.trans hcut) Bool.false_ne_true
    · obtain ⟨hbefore, hall⟩ := admitSymbols_spec hfree.of_walkFrom
      have hstep : WalkInv (p := p) direction before (d + 1) round.1 (reached ∪ round.1)
          (exact ++ [round.1]) (round.2.admitSymbols round.1 p.request.limits).2 :=
        hinv.step (expand_spec _ _ hinv.unseen hbefore) rfl
      rw [hall] at hfree ⊢
      rw [← hsucc] at hstep
      exact walkFrom_spec (by omega) hstep hfree

variable (p) in
/-- The symbols of the request that a search starts from. -/
def start : TraversalDirection → SymbolSet
  | .forward => p.request.source.filter fun o => p.request.scope.asPathScope.contains p.index o
  | .reverse => p.request.target.filter fun o => p.request.scope.asPathScope.contains p.index o

theorem mem_start : o ∈ p.start direction ↔ o ∈ p.side direction := by
  cases direction with
  | forward => exact mem_filter.trans (and_congr_right fun _ => contains_iff)
  | reverse => exact mem_filter.trans (and_congr_right fun _ => contains_iff)

theorem walkInv_start (hfresh : direction = .forward → st.references.seen = ∅) :
    WalkInv (p := p) direction st.references.seen 0 (p.start direction) (p.start direction)
      [p.start direction] st where
  fresh := hfresh
  length := rfl
  layers n o := by
    unfold AtDepth
    cases n with
    | zero => simpa [Distance] using mem_start
    | succ n => simp
  frontier o := mem_start.trans dist_zero.symm
  reached o := mem_start.trans mem_ball_zero.symm
  seen r := by simp

theorem Unlimited.of_side {same : Bool} {symbols : SymbolSet} {st : CorridorState}
    (h : Unlimited (p.traversal.side direction same symbols st).2) : Unlimited st := by
  unfold CorridorTraversal.side at h
  split_ifs at h
  · exact h
  · exact h
  · exact Unlimited.of_walkFrom h

theorem side_spec (hstart : p.start direction ≠ ∅)
    (hfresh : direction = .forward → st.references.seen = ∅)
    (h : Unlimited (p.traversal.side direction false (p.start direction) st).2) :
    WalkPost (p := p) direction st.references.seen
      (p.traversal.side direction false (p.start direction) st).1
      (p.traversal.side direction false (p.start direction) st).2 := by
  have hwalk : p.traversal.side direction false (p.start direction) st =
      p.traversal.walkFrom direction p.request.limits.maxDepth (p.start direction)
        (p.start direction) [p.start direction] st := by
    simp only [CorridorTraversal.side, hstart, if_false, Bool.false_eq_true]
    rfl
  rw [hwalk] at h ⊢
  refine walkFrom_spec le_rfl ?_ h
  rw [Nat.sub_self]
  exact walkInv_start hfresh

/-! ## The join -/

theorem length_cumulativeFrom : ∀ (layers : List SymbolSet) (reached : SymbolSet),
    (cumulativeFrom reached layers).length = layers.length
  | [], _ => rfl
  | layer :: layers, reached => congrArg (· + 1) (length_cumulativeFrom layers (reached ∪ layer))

/-- A cumulative layer holds the symbols up to its depth. -/
theorem mem_cumulativeFrom : ∀ {layers : List SymbolSet} {reached within : SymbolSet} {n : ℕ},
    (cumulativeFrom reached layers)[n]? = some within →
      (o ∈ within ↔ o ∈ reached ∨ ∃ m ≤ n, AtDepth layers m o)
  | [], reached, within, n, h => by cases h
  | layer :: layers, reached, within, 0, h => by
    obtain rfl : reached ∪ layer = within := some.inj h
    simp [AtDepth]
  | layer :: layers, reached, within, n + 1, h => by
    have ih := @mem_cumulativeFrom layers (reached ∪ layer) within n h
    rw [ih, mem_union, or_assoc]
    refine or_congr_right ⟨?_, ?_⟩
    · rintro (ho | ⟨m, hm, hlayer⟩)
      · exact ⟨0, by omega, layer, rfl, ho⟩
      · exact ⟨m + 1, by omega, hlayer⟩
    · rintro ⟨m, hm, l, hl, ho⟩
      cases m with
      | zero =>
        obtain rfl : layer = l := some.inj hl
        exact Or.inl ho
      | succ m => exact Or.inr ⟨m, by omega, l, hl, ho⟩

/-- The members stand in two layers whose depths fit. -/
theorem mem_corridorMembers {maxDepth : ℕ} {forward reverse : List SymbolSet}
    (hreverse : reverse ≠ []) : o ∈ corridorMembers maxDepth forward reverse ↔
      ∃ n, AtDepth forward n o ∧ ∃ m ≤ maxDepth - n, AtDepth reverse m o := by
  have hlength : (cumulativeSymbolLayers reverse).length = reverse.length :=
    length_cumulativeFrom reverse ∅
  have hpos : 0 < reverse.length := length_pos_of_ne_nil hreverse
  have hlayer : ∀ (layer : SymbolSet) (n : ℕ),
      o ∈ layerMembers maxDepth (cumulativeSymbolLayers reverse) (layer, n) ↔
        o ∈ layer ∧ ∃ m ≤ maxDepth - n, AtDepth reverse m o := by
    intro layer n
    set k := min (maxDepth - n) (reverse.length - 1) with hk
    obtain ⟨within, hwithin⟩ : ∃ within, (cumulativeSymbolLayers reverse)[k]? = some within :=
      ⟨_, getElem?_eq_getElem (by omega)⟩
    have hmembers : layerMembers maxDepth (cumulativeSymbolLayers reverse) (layer, n) =
        layer ∩ within := by
      unfold layerMembers
      rw [hlength, ← hk, hwithin]
    rw [hmembers, mem_inter, mem_cumulativeFrom hwithin]
    simp only [notMem_empty, false_or]
    refine and_congr_right fun _ => ⟨?_, ?_⟩
    · rintro ⟨m, hm, hlayer⟩
      exact ⟨m, by omega, hlayer⟩
    · rintro ⟨m, hm, l, hl, ho⟩
      have hlt : m < reverse.length := (List.getElem?_eq_some_iff.mp hl).1
      exact ⟨m, by omega, l, hl, ho⟩
  unfold corridorMembers
  rw [mem_foldl_union]
  simp only [notMem_empty, false_or, Prod.exists, hlayer, mem_zipIdx_iff_getElem?]
  constructor
  · rintro ⟨layer, n, hn, ho, hm⟩
    exact ⟨n, ⟨layer, hn, ho⟩, hm⟩
  · rintro ⟨n, ⟨layer, hn, ho⟩, hm⟩
    exact ⟨layer, n, hn, ho, hm⟩

/-- The depth of a symbol is its distance. -/
theorem WalkPost.layerDepth_eq_some {before : ReferenceSet} {layers : CorridorLayers}
    {st : CorridorState} (h : WalkPost (p := p) direction before layers st) {n : ℕ} :
    layerDepth layers.exact o = some n ↔
      n ≤ p.request.limits.maxDepth ∧ p.Distance direction n o := by
  unfold layerDepth
  rw [findIdx?_eq_some_iff_getElem, ← h.layers]
  constructor
  · rintro ⟨hlt, ho, -⟩
    exact ⟨layers.exact[n], getElem?_eq_getElem hlt, of_decide_eq_true ho⟩
  · rintro ⟨layer, hlayer, ho⟩
    obtain ⟨hlt, rfl⟩ := List.getElem?_eq_some_iff.mp hlayer
    refine ⟨hlt, decide_eq_true ho, fun m hm hmo => ?_⟩
    have hn := ((h.layers n o).mp ⟨_, hlayer, ho⟩).2
    have hm' := ((h.layers m o).mp ⟨_, getElem?_eq_getElem (hm.trans hlt), of_decide_eq_true hmo⟩).2
    have := hn.unique hm'
    omega

/-! ## The answer -/

variable (p) in
/-- A corridor between the two sides, as far as the two searches stayed within the budgets. -/
structure Exact (s : BoundedCorridorSearch) : Prop where
  members : ∀ id, id ∈ s.members ↔ ∃ o i j, p.symbols.ordinal id = some o ∧
    p.Distance .forward i o ∧ p.Distance .reverse j o ∧ i + j ≤ p.request.limits.maxDepth
  edges : ∀ e, e ∈ s.edges ↔ ∃ u v i j, p.Step e u v ∧ p.Distance .forward i u ∧
    p.Distance .reverse j v ∧ i + 1 + j ≤ p.request.limits.maxDepth

section Finish

variable {before : ReferenceSet} {forward reverse : CorridorLayers} {st st' : CorridorState}

section

variable (hforward : WalkPost (p := p) .forward ∅ forward st)

include hforward

theorem mem_members
    (hreverse : WalkPost (p := p) .reverse before reverse st') (hstart : p.start .reverse ≠ ∅) :
    o ∈ corridorMembers p.request.limits.maxDepth forward.exact reverse.exact ↔
      ∃ i j, p.Distance .forward i o ∧ p.Distance .reverse j o ∧
        i + j ≤ p.request.limits.maxDepth := by
  have hne : reverse.exact ≠ [] := by
    obtain ⟨u, hu⟩ := ne_empty_iff.mp hstart
    obtain ⟨layer, hlayer, -⟩ :=
      (hreverse.layers 0 u).mpr ⟨Nat.zero_le _, dist_zero.mpr (mem_start.mp hu)⟩
    rintro hnil
    rw [hnil] at hlayer
    cases hlayer
  rw [mem_corridorMembers hne]
  constructor
  · rintro ⟨i, hi, j, hj, hij⟩
    rw [hforward.layers] at hi
    rw [hreverse.layers] at hij
    exact ⟨i, j, hi.2, hij.2, by omega⟩
  · rintro ⟨i, j, hi, hj, hij⟩
    exact ⟨i, (hforward.layers i o).mpr ⟨by omega, hi⟩, j, by omega,
      (hreverse.layers j o).mpr ⟨by omega, hj⟩⟩

theorem inCorridor_iff (hreverse : WalkPost (p := p) .reverse before reverse st') :
    inCorridor p.index p.request.limits.maxDepth forward.exact reverse.exact r = true ↔
      ∃ u v i j, p.index.referenceSource r = some u ∧ p.index.referenceTarget r = some v ∧
        p.Distance .forward i u ∧ p.Distance .reverse j v ∧
          i + 1 + j ≤ p.request.limits.maxDepth := by
  unfold inCorridor
  constructor
  · intro h
    split at h
    · next u v hu hv =>
      split at h
      · next i j hi hj =>
        rw [hforward.layerDepth_eq_some] at hi
        rw [hreverse.layerDepth_eq_some] at hj
        exact ⟨u, v, i, j, hu, hv, hi.2, hj.2, of_decide_eq_true h⟩
      · cases h
    · cases h
  · rintro ⟨u, v, i, j, hu, hv, hi, hj, hij⟩
    have hforwardDepth : layerDepth forward.exact u = some i :=
      hforward.layerDepth_eq_some.mpr ⟨by omega, hi⟩
    have hreverseDepth : layerDepth reverse.exact v = some j :=
      hreverse.layerDepth_eq_some.mpr ⟨by omega, hj⟩
    rw [hu, hv]
    simp only [hforwardDepth, hreverseDepth]
    exact decide_eq_true hij

theorem mem_edges
    (hreverse : WalkPost (p := p) .reverse st.references.seen reverse st') {e : BoundedPathEdge} :
    e ∈ (corridorEdgeReferences p.index p.request.limits.maxDepth st'.references.seen forward.exact
        reverse.exact).elems.filterMap (corridorEdge p.index) ↔
      ∃ u v i j, p.Step e u v ∧ p.Distance .forward i u ∧ p.Distance .reverse j v ∧
        i + 1 + j ≤ p.request.limits.maxDepth := by
  rw [mem_filterMap]
  simp only [corridorEdgeReferences, OrdSet.mem_elems, OrdSet.mem_filter, OrdSet.mem_inter,
    inCorridor_iff hforward hreverse]
  constructor
  · rintro ⟨r, ⟨⟨hseen, -⟩, u, v, i, j, hu, hv, hi, hj, hij⟩, he⟩
    have hadmitted : p.Admitted r := by
      rcases (hreverse.seen r).mp hseen with hseen | ⟨n, -, hr⟩
      · obtain ⟨n, -, hr⟩ := ((hforward.seen r).mp hseen).resolve_left (OrdSet.notMem_empty r)
        exact hr.1
      · exact hr.1
    obtain ⟨e', he', hstep⟩ := exists_step hadmitted hu hv hi.mem_scope hj.mem_scope
    obtain rfl : e = e' := some.inj (he.symm.trans he')
    exact ⟨u, v, i, j, hstep, hi, hj, hij⟩
  · rintro ⟨u, v, i, j, hstep, hi, hj, hij⟩
    obtain ⟨r, hadmitted, hu, hv, hresolved, he⟩ := hstep.exists_reference
    -- The forward search comes to `u`, and reads the reference there.
    have hread : p.ReadAt .forward i r := by
      refine ⟨hadmitted, ⟨u, hi, hu⟩, fun v' hv' => ?_⟩
      obtain rfl : v = v' := some.inj (hv.symm.trans hv')
      exact hstep.targetScope
    have hseen : r ∈ st.references.seen := (hforward.seen r).mpr (Or.inr ⟨i, by omega, hread⟩)
    have hseen' := (hreverse.seen r).mpr (Or.inl hseen)
    exact ⟨r, ⟨⟨hseen', hresolved⟩, u, v, i, j, hu, hv, hi, hj, hij⟩, he⟩

end

end Finish

theorem runBetween_exact {s : BoundedCorridorSearch}
    (hdisjoint : ∀ o ∈ p.request.source, o ∉ p.request.target)
    (hs : p.traversal.runBetween p.request.source p.request.target = some s)
    (hsymbols : s.symbolLimitReached = false) (hedges : s.edgeLimitReached = false) :
    p.Exact s := by
  have hends : p.traversal.endpointsBetween p.request.source p.request.target =
      if p.start .forward ≠ ∅ ∧ p.start .reverse ≠ ∅ then
        some (p.start .forward, p.start .reverse) else none := rfl
  unfold runBetween at hs
  rw [hends] at hs
  by_cases hne : p.start .forward ≠ ∅ ∧ p.start .reverse ≠ ∅
  · rw [if_pos hne] at hs
    have hsame : p.start .forward ≠ p.start .reverse := by
      intro heq
      obtain ⟨o, ho⟩ := ne_empty_iff.mp hne.1
      have hsource : o ∈ p.side .forward := mem_start.mp ho
      have htarget : o ∈ p.side .reverse := mem_start.mp (heq ▸ ho)
      exact hdisjoint o hsource.1 htarget.1
    simp only [Option.bind_eq_bind, Option.bind_some, hsame, decide_false, Bool.false_eq_true,
      if_false, Option.pure_def, Option.some.injEq] at hs
    set first := CorridorState.admitSymbols {} (p.start .forward) p.traversal.limits with hfirst
    set second := first.2.admitSymbols (p.start .reverse) p.traversal.limits with hsecond
    have hfree : Unlimited (p.traversal.side .reverse false second.1
        (p.traversal.side .forward false first.1 second.2).2).2 := by
      rw [← hs] at hsymbols hedges
      exact ⟨hsymbols, hedges⟩
    -- Both starts were admitted as they are.
    obtain ⟨hfree', hreverse⟩ := admitSymbols_spec hfree.of_side.of_side
    obtain ⟨-, hforward⟩ := admitSymbols_spec hfree'
    rw [hforward, hreverse] at hs hfree
    have hpost := side_spec hne.1 (fun _ => rfl) hfree.of_side
    have hpost' := side_spec hne.2 (fun h => nomatch h) hfree
    rw [← hs]
    refine ⟨fun id => ?_, fun e => ?_⟩
    · have hid : ∀ o, p.index.symbol o = some id ↔ p.symbols.ordinal id = some o :=
        fun o => SymbolOrdinalCatalog.id_eq_some_iff
      refine mem_filterMap.trans ⟨?_, ?_⟩
      · rintro ⟨o, ho, hsome⟩
        obtain ⟨i, j, hi, hj, hij⟩ := (mem_members hpost hpost' hne.2).mp ho
        exact ⟨o, i, j, (hid o).mp hsome, hi, hj, hij⟩
      · rintro ⟨o, i, j, hsome, hi, hj, hij⟩
        exact ⟨o, (mem_members hpost hpost' hne.2).mpr ⟨i, j, hi, hj, hij⟩, (hid o).mpr hsome⟩
    · exact (mem_mergeSort).trans (mem_edges hpost hpost')
  · rw [if_neg hne] at hs
    cases hs

/-- A corridor that raises neither the limit for symbols nor the one for references is exact : its
members are the symbols `v` of the scope with `d(source, v) + d(v, target) ≤ max_depth`, and its
edges the admitted references from `u` to `v` with `d(source, u) + 1 + d(v, target) ≤ max_depth`. -/
theorem corridorBetween_exact (p : CorridorQuery)
    (hdisjoint : ∀ o ∈ p.request.source, o ∉ p.request.target) {s : BoundedCorridorSearch}
    (hs : corridorBetween p.index p.request = some s) (hsymbols : s.symbolLimitReached = false)
    (hedges : s.edgeLimitReached = false) : p.Exact s := by
  unfold corridorBetween at hs
  split_ifs at hs
  exact runBetween_exact hdisjoint hs hsymbols hedges

/-- Four symbols of one file in a row, and the corridor between the first and the third. -/
def fourInARow : CorridorQuery where
  linkage := ⟨[⟨⟨0, 0⟩, ⟨0, 1⟩⟩, ⟨⟨0, 1⟩, ⟨0, 2⟩⟩, ⟨⟨0, 2⟩, ⟨0, 3⟩⟩], [], [], [], [], [], by decide⟩
  references := ⟨[[⟨⟨0, 0⟩, ⟨0, 0⟩, "code+moniker://app/fn:b", "calls"⟩,
    ⟨⟨0, 1⟩, ⟨0, 1⟩, "code+moniker://app/fn:c", "calls"⟩,
    ⟨⟨0, 2⟩, ⟨0, 0⟩, "code+moniker://app/fn:d", "calls"⟩]], by decide⟩
  symbols := (((SymbolOrdinalCatalog.empty.bindId 0 ⟨0, 0⟩).bindId 1 ⟨0, 1⟩).bindId 2
    ⟨0, 2⟩).bindId 3 ⟨0, 3⟩
  roots := [0]
  request :=
    { source := OrdSet.ofList [0]
      target := OrdSet.ofList [2]
      relations := ["calls"]
      limits := ⟨4, 8, 8⟩
      scope := ⟨OrdSet.ofList [0, 1, 2, 3], by decide⟩ }

theorem corridorBetween_exact_fourInARow :
    ∃ s, corridorBetween fourInARow.index fourInARow.request = some s ∧
      s.members = [⟨0, 0⟩, ⟨0, 1⟩, ⟨0, 2⟩] ∧ fourInARow.Exact s := by
  have hrun : (corridorBetween fourInARow.index fourInARow.request).map
      (fun s => (s.members, s.symbolLimitReached, s.edgeLimitReached)) =
      some ([⟨0, 0⟩, ⟨0, 1⟩, ⟨0, 2⟩], false, false) := by
    decide +kernel
  obtain ⟨s, hs, hfields⟩ := Option.map_eq_some_iff.mp hrun
  obtain ⟨hmembers, hsymbol, hedge⟩ := by simpa using hfields
  exact ⟨s, hs, hmembers, corridorBetween_exact fourInARow (by decide) hs hsymbol hedge⟩

end CorridorQuery

end CodeMoniker
