import CodeMoniker.PathSearch
import CodeMoniker.Walks

/-!
# Correctness of the bounded path search

`PathQuery` collects what a search depends on : the linkage, the reference table, the
symbol catalog, the source roots and the request. Its admissible paths are stated over
these (`PathQuery.Path`), not over the index the search reads.

The walk is a breadth-first search of the relation `PathQuery.Edge`. Its invariant
(`WalkInv`) says that the visited symbols are a ball and the frontier a sphere around the
source set; the round in which a budget runs out is the last one, so a partial layer
never grows into a wrong path (`walk_spec`). `searchBetween_spec` is the result.
-/

namespace CodeMoniker

open List LinkageReadIndex PathTraversal OrdSet
open Option (some.inj)

/-! ## Admissible paths -/

/-- Everything a search between two symbol sets depends on. -/
structure PathQuery where
  linkage : LinkageSnapshot
  references : ReferenceTable
  symbols : SymbolOrdinalCatalog
  roots : List ℕ
  request : BoundedPathSetRequest

namespace PathQuery

variable (p : PathQuery)

def index : LinkageReadIndex :=
  fromSnapshotWithCatalog p.linkage p.references p.symbols p.roots

def traversal : PathTraversal :=
  PathTraversal.new p.index p.request.relations p.request.avoid p.request.limits p.request.scope

/-- `e` is a resolved reference of an admitted relation, from the symbol `u` to `v`. -/
structure Step (e : BoundedPathEdge) (u v : SymbolOrdinal) : Prop where
  record : ∃ rec ∈ p.references.iter, rec.id = e.reference ∧ rec.sourceSymbol = e.source ∧
    AdmitsRelation p.request.relations rec.kind
  resolved : ⟨e.reference, e.target⟩ ∈ p.linkage.resolved
  source : p.symbols.ordinal e.source = some u
  target : p.symbols.ordinal e.target = some v

/-- The symbol lies in the scope and is not to be avoided. -/
structure Allowed (o : SymbolOrdinal) : Prop where
  scope : p.request.scope.contains p.index o
  avoid : ∀ a ∈ p.request.avoid, p.symbols.ordinal a ≠ some o

/-- Consecutive steps from `u` to `v`, all of whose targets are allowed. -/
def Walk : SymbolOrdinal → List BoundedPathEdge → SymbolOrdinal → Prop
  | u, [], v => u = v
  | u, e :: es, v => ∃ w, p.Step e u w ∧ p.Allowed w ∧ Walk w es v

/-- A walk from the source set to the target set, its first symbol allowed too. -/
def Path (es : List BoundedPathEdge) : Prop :=
  ∃ u ∈ p.request.source, ∃ v ∈ p.request.target, p.Allowed u ∧ p.Walk u es v

/-- What one step of the search follows. -/
def Edge (u v : SymbolOrdinal) : Prop := (∃ e, p.Step e u v) ∧ p.Allowed v

/-- Where the search starts. -/
def start : Set SymbolOrdinal := {o | o ∈ p.request.source ∧ p.Allowed o}

variable {p} {o : SymbolOrdinal}

theorem mem_avoided :
    o ∈ p.traversal.avoided ↔ ∃ a ∈ p.request.avoid, p.symbols.ordinal a = some o := by
  simp [traversal, new, LinkageReadIndex.ordinal, index, fromSnapshotWithCatalog]

theorem allowed_iff :
    p.Allowed o ↔ p.request.scope.contains p.index o ∧ o ∉ p.traversal.avoided := by
  rw [mem_avoided]
  refine ⟨fun h => ⟨h.scope, fun ⟨a, ha, hao⟩ => h.avoid a ha hao⟩, fun h => ⟨h.1, ?_⟩⟩
  exact fun a ha hao => h.2 ⟨a, ha, hao⟩

theorem mem_endpointOrdinals {s : SymbolSet} {o : SymbolOrdinal} :
    o ∈ p.traversal.endpointOrdinals s ↔ o ∈ s ∧ p.Allowed o := by
  rw [allowed_iff]
  simp [endpointOrdinals, traversal, new]

theorem admitsRelation_traversal {k : String} :
    AdmitsRelation p.traversal.relations k ↔ AdmitsRelation p.request.relations k :=
  admitsRelation_congr (fun _ => mem_eraseDups) k

variable {es : List BoundedPathEdge}

theorem reach_of_walk {v : SymbolOrdinal} :
    ∀ {n : ℕ} {u : SymbolOrdinal}, Walks.Reach p.Edge p.start n u → p.Walk u es v →
      Walks.Reach p.Edge p.start (n + es.length) v := by
  induction es with
  | nil =>
    intro n u hu huv
    obtain rfl : u = v := huv
    exact hu
  | cons e es ih =>
    intro n u hu ⟨w, hstep, hw, hwv⟩
    have hreach : Walks.Reach p.Edge p.start (n + 1) w := ⟨u, hu, ⟨e, hstep⟩, hw⟩
    have := ih hreach hwv
    rwa [length_cons, Nat.add_comm es.length, ← Nat.add_assoc]

/-! ## The references a frontier offers -/

theorem exists_mem_boundaryPostings {selected : OrdSet ℕ} {postings : Postings ℕ}
    {r : ReferenceOrdinal} :
    (∃ s ∈ boundaryPostings selected postings, r ∈ s) ↔ ∃ b ∈ selected, r ∈ postings.get b := by
  simp only [Postings.mem_get]
  unfold boundaryPostings
  split_ifs
  · simp only [mem_filterMap]
    refine ⟨fun ⟨s, ⟨b, hb, hs⟩, hr⟩ => ⟨b, hb, s, hs, hr⟩, fun ⟨b, hb, s, hs, hr⟩ => ?_⟩
    exact ⟨s, ⟨b, hb, hs⟩, hr⟩
  · simp only [mem_map, mem_filter, decide_eq_true_eq]
    refine ⟨?_, ?_⟩
    · rintro ⟨_, ⟨e, ⟨he, hb⟩, rfl⟩, hr⟩
      exact ⟨e.1, hb, e.2, AList.mem_lookup_iff.mpr he, hr⟩
    · rintro ⟨b, hb, s, hs, hr⟩
      exact ⟨s, ⟨⟨b, s⟩, ⟨AList.mem_lookup_iff.mp hs, hb⟩, rfl⟩, hr⟩

variable (p) in
/-- The references the search reads at a frontier. -/
def offered (frontier : SymbolSet) : ReferenceSet :=
  let postings :=
    referencePostingsFromSymbols p.index .forward frontier p.traversal.relations
  match referenceScopeTerms p.index p.request.scope .forward p.traversal.relations with
  | none => unionOf postings
  | some terms => unionOf postings ∩ unionOf terms

theorem boundedFrontierReferences_forward (frontier : SymbolSet) (seen : ReferenceSet) (limit : ℕ) :
    boundedFrontierReferences p.index p.traversal.relations
        ⟨.forward, frontier, p.request.scope, false⟩ seen limit =
      (∅, admitReferences seen limit (p.offered frontier).elems ∅) := by
  unfold boundedFrontierReferences offered
  simp only [Bool.false_eq_true, if_false]
  cases referenceScopeTerms p.index p.request.scope .forward p.traversal.relations with
  | none => simp only [union_collect]
  | some terms => simp only [inter_collect]

theorem contains_symbols {symbols : SymbolSet} {v : SymbolOrdinal}
    (hall : p.request.scope.all = false) (hsym : p.request.scope.symbols = some symbols) :
    p.request.scope.contains p.index v ↔ v ∈ symbols := by
  simp [BoundedPathScope.contains, hall, hsym]

variable {v : SymbolOrdinal}

theorem contains_files (hall : p.request.scope.all = false)
    (hsym : p.request.scope.symbols = none) (hroots : p.request.scope.sourceRoots = ∅) :
    p.request.scope.contains p.index v ↔
      ∃ id, p.symbols.id v = some id ∧ id.file ∈ p.request.scope.sourceFiles := by
  have hid : p.index.symbol v = p.symbols.id v := rfl
  unfold BoundedPathScope.contains
  rw [hsym, hid]
  cases p.symbols.id v with
  | none => simp [hall]
  | some id => simp [hall, hroots]

theorem contains_roots (hall : p.request.scope.all = false)
    (hsym : p.request.scope.symbols = none) (hroots : p.request.scope.sourceRoots ≠ ∅) :
    p.request.scope.contains p.index v ↔ ∃ id root, p.symbols.id v = some id ∧
      p.roots[id.file]? = some root ∧ root ∈ p.request.scope.sourceRoots := by
  have hid : p.index.symbol v = p.symbols.id v := rfl
  have hfile : p.index.sourceRootsByFile = p.roots := rfl
  unfold BoundedPathScope.contains
  rw [hsym, hid, hfile]
  cases p.symbols.id v with
  | none => simp [hall]
  | some id =>
    simp only [hall, Bool.false_eq_true, if_false, hroots, ne_eq, not_false_eq_true, if_true]
    split
    · next root hroot => simp [hroot]
    · next hroot => simp [hroot]

variable {r : ReferenceOrdinal}

/-- The postings of a scope hold the references whose target lies in it. -/
theorem exists_mem_scopePostings {rec : ReferenceRecord}
    (hrec : p.references.iter[r]? = some rec) (hk : AdmitsRelation p.request.relations rec.kind)
    {symbols : SymbolSet} (hall : p.request.scope.all = false)
    (hsym : p.request.scope.symbols = some symbols) :
    (∃ s ∈ symbols.elems.flatMap (fun o => p.index.incomingPostings o p.traversal.relations),
      r ∈ s) ↔ ∃ v, p.index.referenceTarget r = some v ∧ p.request.scope.contains p.index v := by
  simp only [mem_flatMap, contains_symbols hall hsym]
  refine ⟨?_, ?_⟩
  · rintro ⟨s, ⟨v, hv, hs⟩, hr⟩
    obtain ⟨rec', e, hrec', he, hid, ht, -⟩ := exists_mem_incomingPostings.mp ⟨s, hs, hr⟩
    exact ⟨v, referenceTarget_eq_some.mpr ⟨rec', e, hrec', he, hid, ht⟩, hv⟩
  · rintro ⟨v, ht, hv⟩
    obtain ⟨rec', e, hrec', he, hid, ht⟩ := referenceTarget_eq_some.mp ht
    obtain rfl : rec = rec' := some.inj (hrec.symm.trans hrec')
    obtain ⟨s, hs, hr⟩ := exists_mem_incomingPostings.mpr
      ⟨rec, e, hrec, he, hid, ht, admitsRelation_traversal.mpr hk⟩
    exact ⟨s, ⟨v, hv, hs⟩, hr⟩

/-- A reference of an admitted relation passes the scope terms if its target is in the scope
or unknown. -/
theorem scopeTerms_iff {rec : ReferenceRecord}
    (hrec : p.references.iter[r]? = some rec) (hk : AdmitsRelation p.request.relations rec.kind) :
    (∀ terms ∈ referenceScopeTerms p.index p.request.scope .forward p.traversal.relations,
      ∃ s ∈ terms, r ∈ s) ↔
      ∀ v, p.index.referenceTarget r = some v → p.request.scope.contains p.index v := by
  have hmissing : r ∈ p.index.referencesWithoutTarget ↔ p.index.referenceTarget r = none :=
    mem_referencesWithoutTarget hrec
  -- Every kind of scope lists the references of its members beside those without a target.
  have hterms : ∀ terms : List ReferenceSet, ((∃ s ∈ terms, r ∈ s) ↔
      ∃ v, p.index.referenceTarget r = some v ∧ p.request.scope.contains p.index v) →
      ((∃ s ∈ p.index.referencesWithoutTarget :: terms, r ∈ s) ↔
        ∀ v, p.index.referenceTarget r = some v → p.request.scope.contains p.index v) := by
    intro terms h
    rw [exists_mem_cons_iff, hmissing, h]
    cases p.index.referenceTarget r with
    | none => simp
    | some v => simp
  unfold referenceScopeTerms
  cases hall : p.request.scope.all with
  | true => simp [BoundedPathScope.contains, hall]
  | false =>
    simp only [Bool.false_eq_true, if_false]
    cases hsym : p.request.scope.symbols with
    | some symbols =>
      simp only [Option.mem_def, Option.some.injEq, forall_eq']
      exact hterms _ (exists_mem_scopePostings hrec hk hall hsym)
    | none =>
      by_cases hroots : p.request.scope.sourceRoots = ∅
      · simp only [hroots, ne_eq, not_true_eq_false, if_false, Option.mem_def, Option.some.injEq,
          forall_eq']
        refine hterms _ ?_
        rw [exists_mem_boundaryPostings]
        simp only [contains_files hall hsym hroots]
        refine ⟨?_, ?_⟩
        · rintro ⟨b, hb, hr⟩
          obtain ⟨v, id, hv, hid, rfl⟩ := mem_byFile.mp hr
          exact ⟨v, hv, id, hid, hb⟩
        · rintro ⟨v, hv, id, hid, hb⟩
          exact ⟨id.file, hb, mem_byFile.mpr ⟨v, id, hv, hid, rfl⟩⟩
      · simp only [hroots, ne_eq, not_false_eq_true, if_true, Option.mem_def, Option.some.injEq,
          forall_eq']
        refine hterms _ ?_
        rw [exists_mem_boundaryPostings]
        simp only [contains_roots hall hsym hroots]
        refine ⟨?_, ?_⟩
        · rintro ⟨b, hb, hr⟩
          obtain ⟨v, id, hv, hid, hroot⟩ := mem_byRoot.mp hr
          exact ⟨v, hv, id, b, hid, hroot, hb⟩
        · rintro ⟨v, hv, id, b, hid, hroot, hb⟩
          exact ⟨b, hb, mem_byRoot.mpr ⟨v, id, hv, hid, hroot⟩⟩

variable {frontier : SymbolSet}

theorem mem_offered {r : ReferenceOrdinal} : r ∈ p.offered frontier ↔
      (∃ rec, p.references.iter[r]? = some rec ∧ AdmitsRelation p.request.relations rec.kind ∧
        ∃ u ∈ frontier, p.symbols.ordinal rec.sourceSymbol = some u) ∧
      ∀ v, p.index.referenceTarget r = some v → p.request.scope.contains p.index v := by
  have hpostings : (∃ s ∈ referencePostingsFromSymbols p.index .forward frontier
      p.traversal.relations, r ∈ s) ↔
      ∃ rec, p.references.iter[r]? = some rec ∧ AdmitsRelation p.request.relations rec.kind ∧
        ∃ u ∈ frontier, p.symbols.ordinal rec.sourceSymbol = some u := by
    simp only [referencePostingsFromSymbols, mem_flatMap]
    refine ⟨?_, ?_⟩
    · rintro ⟨s, ⟨u, hu, hs⟩, hr⟩
      obtain ⟨rec, hrec, hsrc, hk⟩ := exists_mem_outgoingPostings.mp ⟨s, hs, hr⟩
      exact ⟨rec, hrec, admitsRelation_traversal.mp hk, u, hu, hsrc⟩
    · rintro ⟨rec, hrec, hk, u, hu, hsrc⟩
      obtain ⟨s, hs, hr⟩ := exists_mem_outgoingPostings.mpr
        ⟨rec, hrec, hsrc, admitsRelation_traversal.mpr hk⟩
      exact ⟨s, ⟨u, hu, hs⟩, hr⟩
  have hoffered : r ∈ p.offered frontier ↔
      (∃ s ∈ referencePostingsFromSymbols p.index .forward frontier p.traversal.relations, r ∈ s) ∧
      ∀ terms ∈ referenceScopeTerms p.index p.request.scope .forward p.traversal.relations,
        ∃ s ∈ terms, r ∈ s := by
    unfold offered
    cases referenceScopeTerms p.index p.request.scope .forward p.traversal.relations with
    | none => simp
    | some terms => simp
  rw [hoffered, hpostings]
  refine and_congr_right fun ⟨rec, hrec, hk, _⟩ => scopeTerms_iff hrec hk

/-! ## One round -/

theorem mem_of_mem_admitReferences {seen : ReferenceSet} {limit : ℕ} {r : ReferenceOrdinal} :
    ∀ {rs : List ReferenceOrdinal} {admitted : ReferenceSet},
      r ∈ (admitReferences seen limit rs admitted).1 → r ∈ admitted ∨ r ∈ rs ∧ r ∉ seen
  | [], admitted, h => Or.inl h
  | x :: rs, admitted, h => by
    unfold admitReferences at h
    split_ifs at h with hx hlimit
    · rcases mem_of_mem_admitReferences h with h | ⟨h, hs⟩
      · exact Or.inl h
      · exact Or.inr ⟨by simp [h], hs⟩
    · exact Or.inl h
    · rcases mem_of_mem_admitReferences h with h | ⟨h, hs⟩
      · rcases mem_insert.mp h with rfl | h
        · exact Or.inr ⟨by simp, hx⟩
        · exact Or.inl h
      · exact Or.inr ⟨by simp [h], hs⟩

/-- Within the budget every unseen reference is admitted. -/
theorem mem_admitReferences {seen : ReferenceSet} {limit : ℕ} {r : ReferenceOrdinal} :
    ∀ {rs : List ReferenceOrdinal} {admitted : ReferenceSet},
      (admitReferences seen limit rs admitted).2 = false →
      (r ∈ (admitReferences seen limit rs admitted).1 ↔ r ∈ admitted ∨ r ∈ rs ∧ r ∉ seen)
  | [], admitted, _ => by simp [admitReferences]
  | x :: rs, admitted, h => by
    unfold admitReferences at h ⊢
    split_ifs at h ⊢ with hx hlimit
    · rw [mem_admitReferences h, mem_cons]
      refine or_congr_right ⟨fun ⟨h1, h2⟩ => ⟨Or.inr h1, h2⟩, fun ⟨h1, h2⟩ => ⟨?_, h2⟩⟩
      exact h1.resolve_left fun heq => h2 (heq ▸ hx)
    · rw [mem_admitReferences h, mem_insert, mem_cons]
      refine ⟨?_, ?_⟩
      · rintro ((rfl | h) | ⟨h1, h2⟩)
        · exact Or.inr ⟨Or.inl rfl, hx⟩
        · exact Or.inl h
        · exact Or.inr ⟨Or.inr h1, h2⟩
      · rintro (h | ⟨rfl | h1, h2⟩)
        · exact Or.inl (Or.inr h)
        · exact Or.inl (Or.inl rfl)
        · exact Or.inr ⟨h1, h2⟩

/-- The reference `r` runs from `u` to `v` and has the id `id`. -/
def Ends (r : ReferenceOrdinal) (u v : SymbolOrdinal) (id : ReferenceId) : Prop :=
  p.index.referenceSource r = some u ∧ p.index.referenceTarget r = some v ∧
    p.index.referenceId r = some id

/-- Targets and witnesses agree with the references read so far. -/
structure WitnessInv (read : ReferenceOrdinal → Prop) (w : TargetWitnesses) : Prop where
  targets : ∀ v, v ∈ w.targets ↔ ∃ r u id, read r ∧ p.Ends r u v id
  some_of_mem : ∀ v ∈ w.targets, ∃ x, w.witnesses v = some x
  ends : ∀ v u id, w.witnesses v = some (u, id) → ∃ r, read r ∧ p.Ends r u v id

theorem addWitness_spec {read : ReferenceOrdinal → Prop} {w : TargetWitnesses}
    (hw : WitnessInv (p := p) read w) (r : ReferenceOrdinal) :
    WitnessInv (p := p) (fun x => read x ∨ x = r) (p.traversal.addWitness w r) ∧
      (p.traversal.addWitness w r).references.seen = w.references.seen ∧
      (p.traversal.addWitness w r).references.limitReached = w.references.limitReached := by
  have hindex : p.traversal.index = p.index := rfl
  unfold addWitness
  rw [hindex]
  split
  · next u v id hu hv hid =>
    refine ⟨⟨fun v' => ?_, fun v' hv' => ?_, fun v' u' id' h => ?_⟩, rfl, rfl⟩
    · rw [mem_insert, hw.targets]
      refine ⟨?_, ?_⟩
      · rintro (rfl | ⟨x, u', id', hx, hends⟩)
        · exact ⟨r, u, id, Or.inr rfl, hu, hv, hid⟩
        · exact ⟨x, u', id', Or.inl hx, hends⟩
      · rintro ⟨x, u', id', hx | rfl, hends⟩
        · exact Or.inr ⟨x, u', id', hx, hends⟩
        · exact Or.inl (some.inj (hends.2.1.symm.trans hv))
    · by_cases hvv : v' = v
      · subst hvv
        cases h : w.witnesses v' with
        | none => exact ⟨(u, id), by simp [h]⟩
        | some x => exact ⟨x, by simp [h]⟩
      · obtain ⟨x, hx⟩ := hw.some_of_mem v' ((mem_insert.mp hv').resolve_left hvv)
        exact ⟨x, by simp [hvv, hx]⟩
    · by_cases hvv : v' = v
      · subst hvv
        simp only [if_true] at h
        cases hold : w.witnesses v' with
        | none =>
          rw [hold] at h
          obtain ⟨rfl, rfl⟩ := by simpa using h
          exact ⟨r, Or.inr rfl, hu, hv, hid⟩
        | some x =>
          rw [hold] at h
          obtain rfl : x = (u', id') := by simpa using h
          obtain ⟨y, hy, hends⟩ := hw.ends v' u' id' hold
          exact ⟨y, Or.inl hy, hends⟩
      · simp only [hvv, if_false] at h
        obtain ⟨y, hy, hends⟩ := hw.ends v' u' id' h
        exact ⟨y, Or.inl hy, hends⟩
  · next hno =>
    refine ⟨⟨fun v' => ?_, hw.some_of_mem, fun v' u' id' h => ?_⟩, rfl, rfl⟩
    · rw [hw.targets]
      refine ⟨fun ⟨x, u', id', hx, hends⟩ => ⟨x, u', id', Or.inl hx, hends⟩, ?_⟩
      rintro ⟨x, u', id', hx | rfl, hends⟩
      · exact ⟨x, u', id', hx, hends⟩
      · exact absurd hends.2.2 (hno u' v' id' hends.1 hends.2.1)
    · obtain ⟨y, hy, hends⟩ := hw.ends v' u' id' h
      exact ⟨y, Or.inl hy, hends⟩

theorem foldl_addWitness : ∀ (rs : List ReferenceOrdinal) {read : ReferenceOrdinal → Prop}
    {w : TargetWitnesses}, WitnessInv (p := p) read w →
    WitnessInv (p := p) (fun x => read x ∨ x ∈ rs) (rs.foldl p.traversal.addWitness w) ∧
      (rs.foldl p.traversal.addWitness w).references.seen = w.references.seen ∧
      (rs.foldl p.traversal.addWitness w).references.limitReached = w.references.limitReached
  | [], read, w, hw => by simpa using hw
  | r :: rs, read, w, hw => by
    obtain ⟨h1, h2, h3⟩ := addWitness_spec hw r
    obtain ⟨h4, h5, h6⟩ := foldl_addWitness rs h1
    rw [foldl_cons]
    refine ⟨?_, h5.trans h2, h6.trans h3⟩
    simpa only [mem_cons, or_assoc] using h4

theorem targetWitnesses_spec (references : ReferenceTraversal) (resolved : ReferenceSet) :
    WitnessInv (p := p) (· ∈ resolved) (p.traversal.targetWitnesses references resolved) ∧
      (p.traversal.targetWitnesses references resolved).references.seen = references.seen ∧
      (p.traversal.targetWitnesses references resolved).references.limitReached =
        references.limitReached := by
  have hempty : WitnessInv (p := p) (fun _ => False) ⟨∅, fun _ => none, references⟩ :=
    ⟨by simp, by simp, by simp⟩
  have h := foldl_addWitness resolved.elems hempty
  simp only [false_or, mem_elems] at h
  exact h

/-- A resolved reference offered at a frontier is a step from it. -/
theorem exists_step {r : ReferenceOrdinal} {u v : SymbolOrdinal}
    {id : ReferenceId} (hr : r ∈ p.offered frontier) (hends : p.Ends r u v id) :
    u ∈ frontier ∧ p.request.scope.contains p.index v ∧ ∃ e, e.reference = id ∧ p.Step e u v := by
  obtain ⟨⟨rec, hrec, hk, u', hu', hsrc⟩, hscope⟩ := mem_offered.mp hr
  obtain ⟨rec1, hrec1, hu⟩ := referenceSource_eq_some.mp hends.1
  obtain rfl : rec = rec1 := some.inj (hrec.symm.trans hrec1)
  obtain ⟨rec2, edge, hrec2, hedge, hid, hv⟩ := referenceTarget_eq_some.mp hends.2.1
  obtain rfl : rec = rec2 := some.inj (hrec.symm.trans hrec2)
  obtain ⟨rec3, hrec3, rfl⟩ := referenceId_eq_some.mp hends.2.2
  obtain rfl : rec = rec3 := some.inj (hrec.symm.trans hrec3)
  obtain rfl : u' = u := some.inj (hsrc.symm.trans hu)
  refine ⟨hu', hscope v hends.2.1, ⟨rec.sourceSymbol, edge.target, rec.id⟩, rfl, ?_⟩
  refine ⟨⟨rec, mem_of_getElem? hrec, rfl, rfl, hk⟩, ?_, hu, hv⟩
  rw [hid]
  exact hedge

/-- Every edge from a frontier is among the references offered. -/
theorem exists_offered {u v : SymbolOrdinal} (hu : u ∈ frontier)
    (h : p.Edge u v) : ∃ r id, r ∈ p.offered frontier ∧
      r ∈ p.index.classifications.resolved ∧ p.Ends r u v id := by
  obtain ⟨⟨e, hstep⟩, hv⟩ := h
  obtain ⟨rec, hmem, hid, hsrc, hk⟩ := hstep.record
  obtain ⟨r, hrec⟩ := mem_iff_getElem?.mp hmem
  have htarget : p.index.referenceTarget r = some v :=
    referenceTarget_eq_some.mpr ⟨rec, _, hrec, hstep.resolved, hid, hstep.target⟩
  have hsource : p.symbols.ordinal rec.sourceSymbol = some u := hsrc ▸ hstep.source
  refine ⟨r, rec.id, mem_offered.mpr ⟨⟨rec, hrec, hk, u, hu, hsource⟩, fun v' hv' => ?_⟩, ?_, ?_⟩
  · obtain rfl : v = v' := some.inj (htarget.symm.trans hv')
    exact hv.scope
  · exact mem_resolved.mpr ⟨rec, _, hrec, hstep.resolved, hid⟩
  · exact ⟨referenceSource_eq_some.mpr ⟨rec, hrec, hsource⟩, htarget,
      referenceId_eq_some.mpr ⟨rec, hrec, rfl⟩⟩

/-- What `expand` adds to a state that has not read the references of this frontier. -/
structure Expanded (frontier : SymbolSet) (st : PathState) (x : PathTraversal.Expansion) :
    Prop where
  next : ∀ v ∈ x.next, v ∉ st.visited ∧ p.Allowed v ∧
    ∃ u e, x.witnesses v = some (u, e.reference) ∧ u ∈ frontier ∧ p.Step e u v
  complete : x.limitReached = false → ∀ u ∈ frontier, ∀ v, p.Edge u v → v ∉ st.visited → v ∈ x.next
  visited : x.state.visited = st.visited
  predecessors : x.state.predecessors = st.predecessors
  seen : ∀ r ∈ x.state.references.seen, r ∈ st.references.seen ∨ r ∈ p.offered frontier
  edgeLimit : x.state.references.limitReached = (st.references.limitReached || x.limitReached)
  symbolLimit : x.state.search.symbolLimitReached = st.search.symbolLimitReached
  depthLimit : x.state.search.depthLimitReached = st.search.depthLimitReached
  path : x.state.search.path = st.search.path

/-- What `admitFrontier` reads at a frontier none of whose references has been read. -/
theorem admit_spec {t : ReferenceTraversal} (maxEdges : ℕ)
    (hfresh : ∀ r ∈ p.offered frontier, r ∉ t.seen) {batch : ReferenceSet} {limitReached : Bool}
    {t' : ReferenceTraversal}
    (h : t.admitFrontier p.index p.traversal.relations ⟨.forward, frontier, p.request.scope, false⟩
      maxEdges = (batch, limitReached, t')) : (∀ r ∈ batch, r ∈ p.offered frontier) ∧
      (limitReached = false → ∀ r ∈ p.offered frontier, r ∈ batch) ∧
      (∀ r ∈ t'.seen, r ∈ t.seen ∨ r ∈ p.offered frontier) ∧
      t'.limitReached = (t.limitReached || limitReached) := by
  simp only [ReferenceTraversal.admitFrontier, boundedFrontierReferences_forward, Prod.mk.injEq] at h
  obtain ⟨rfl, rfl, rfl⟩ := h
  have hsub : ∀ r ∈ (admitReferences t.seen (maxEdges - t.seen.card)
      (p.offered frontier).elems ∅).1, r ∈ p.offered frontier := fun r hr => by
    rcases mem_of_mem_admitReferences hr with hr | hr
    · simp at hr
    · exact hr.1
  refine ⟨fun r hr => ?_, fun hlim r hr => ?_, fun r hr => ?_, rfl⟩
  · exact hsub r ((mem_union.mp hr).resolve_left (notMem_empty r))
  · exact mem_union.mpr
      (Or.inr ((mem_admitReferences hlim).mpr (Or.inr ⟨hr, hfresh r hr⟩)))
  · exact (mem_union.mp hr).imp id (hsub r)

theorem expand_spec (depth : ℕ) {frontier : SymbolSet} {st : PathState}
    (hfresh : ∀ r ∈ p.offered frontier, r ∉ st.references.seen) :
    Expanded (p := p) frontier st (p.traversal.expand depth frontier st) := by
  obtain ⟨batch, limitReached, references, hadmit⟩ : ∃ batch limitReached references,
      st.references.admitFrontier p.index p.traversal.relations
        ⟨.forward, frontier, p.request.scope, false⟩ p.request.limits.maxEdges =
          (batch, limitReached, references) := ⟨_, _, _, rfl⟩
  obtain ⟨hsub, hall, hseen, hlimit⟩ := admit_spec _ hfresh hadmit
  obtain ⟨hw, hwseen, hwlimit⟩ := targetWitnesses_spec (p := p) references
    (batch ∩ p.index.classifications.resolved)
  set found := p.traversal.targetWitnesses references (batch ∩ p.index.classifications.resolved)
  have hx : p.traversal.expand depth frontier st =
      { next := (found.targets \ p.traversal.avoided) \ st.visited
        witnesses := found.witnesses
        limitReached := limitReached
        state := { st with
          references := found.references
          search := { st.search with depthReached := depth } } } := by
    have hindex : p.traversal.index = p.index := rfl
    have hscope : p.traversal.scope = p.request.scope := rfl
    have hlimits : p.traversal.limits = p.request.limits := rfl
    simp only [expand, hindex, hscope, hlimits, hadmit]
    rfl
  rw [hx]
  refine ⟨fun v hv => ?_, fun hlim u hu v huv hvis => ?_, rfl, rfl, fun r hr => ?_, ?_, rfl, rfl,
    rfl⟩
  · simp only [mem_sdiff] at hv
    obtain ⟨⟨hv, havoid⟩, hvis⟩ := hv
    obtain ⟨⟨u, id⟩, hwit⟩ := hw.some_of_mem v hv
    obtain ⟨r, hr, hends⟩ := hw.ends v u id hwit
    obtain ⟨hu, hscope, e, rfl, hstep⟩ := exists_step (hsub r (mem_inter.mp hr).1) hends
    exact ⟨hvis, allowed_iff.mpr ⟨hscope, havoid⟩, u, e, hwit, hu, hstep⟩
  · obtain ⟨r, id, hr, hres, hends⟩ := exists_offered hu huv
    have hmem := (hw.targets v).mpr ⟨r, u, id, mem_inter.mpr ⟨hall hlim r hr, hres⟩, hends⟩
    simp only [mem_sdiff]
    exact ⟨⟨hmem, (allowed_iff.mp huv.2).2⟩, hvis⟩
  · exact hseen r (hwseen ▸ hr)
  · exact hwlimit.trans hlimit

/-! ## The walk -/

open Walks

/-- Every visited symbol outside the source set knows a visited one that is one step
closer. -/
def Traced (st : PathState) : Prop :=
  ∀ v ∈ st.visited, ∀ n, Dist p.Edge p.start (n + 1) v →
    ∃ u e, st.predecessors v = some (u, e.reference) ∧ u ∈ st.visited ∧
      Dist p.Edge p.start n u ∧ p.Step e u v

/-- The state before the round at depth `d`, with no budget exceeded so far. -/
structure WalkInv (target : SymbolSet) (d : ℕ) (frontier : SymbolSet) (st : PathState) : Prop where
  visited : ∀ o, o ∈ st.visited ↔ o ∈ Ball p.Edge p.start d
  frontier : ∀ o, o ∈ frontier ↔ Dist p.Edge p.start d o
  seen : ∀ r ∈ st.references.seen, ∃ u m, p.index.referenceSource r = some u ∧ m < d ∧
    Dist p.Edge p.start m u
  traced : Traced (p := p) st
  target : ∀ o ∈ target, o ∉ Ball p.Edge p.start d
  edgeLimit : st.references.limitReached = false
  symbolLimit : st.search.symbolLimitReached = false
  depthLimit : st.search.depthLimitReached = false
  path : st.search.path = []

/-- Some budget ran out. -/
def LimitRaised (st : PathState) : Prop :=
  st.search.depthLimitReached ∨ st.search.symbolLimitReached ∨ st.references.limitReached

/-- After the walk : either the nearest targets are visited, or no target is and then a
budget ran out or none can be reached. -/
structure WalkPost (target : SymbolSet) (st : PathState) : Prop where
  traced : Traced (p := p) st
  path : st.search.path = []
  outcome :
    (∃ d < p.request.limits.maxDepth, (∃ o ∈ target, o ∈ st.visited) ∧
      (∀ o ∈ target, o ∈ st.visited → Dist p.Edge p.start (d + 1) o) ∧
      ∀ o ∈ target, o ∉ Ball p.Edge p.start d) ∨
    (∀ o ∈ target, o ∉ st.visited) ∧
      (LimitRaised st ∨ ∀ o ∈ target, ∀ m, ¬Reach p.Edge p.start m o)

section Round

variable {target frontier : SymbolSet} {d : ℕ} {st : PathState}

section

variable (h : WalkInv (p := p) target d frontier st)

include h

theorem WalkInv.fresh : ∀ r ∈ p.offered frontier, r ∉ st.references.seen := by
  intro r hr hseen
  obtain ⟨u, m, hu, hm, hdist⟩ := h.seen r hseen
  obtain ⟨⟨rec, hrec, -, u', hu', hsrc⟩, -⟩ := mem_offered.mp hr
  obtain ⟨rec', hrec', hsrc'⟩ := referenceSource_eq_some.mp hu
  obtain rfl : rec = rec' := some.inj (hrec.symm.trans hrec')
  obtain rfl : u' = u := some.inj (hsrc.symm.trans hsrc')
  exact ((h.frontier u').mp hu').2 m hm hdist.1

variable {x : PathTraversal.Expansion}

/-- The symbols a frontier leads to are one step further away. -/
theorem WalkInv.dist_next (hx : Expanded (p := p) frontier st x) {v : SymbolOrdinal}
    (hv : v ∈ x.next) : Dist p.Edge p.start (d + 1) v := by
  obtain ⟨hvis, hallowed, u, e, -, hu, hstep⟩ := hx.next v hv
  refine dist_succ_iff.mpr ⟨fun hball => hvis ((h.visited v).mpr hball), u, ?_, ⟨e, hstep⟩, hallowed⟩
  exact (h.frontier u).mp hu

theorem WalkInv.mem_next (hx : Expanded (p := p) frontier st x)
    (hlim : x.limitReached = false) {v : SymbolOrdinal} :
    v ∈ x.next ↔ Dist p.Edge p.start (d + 1) v := by
  refine ⟨h.dist_next hx, fun hv => ?_⟩
  obtain ⟨hout, u, hu, huv⟩ := dist_succ_iff.mp hv
  exact hx.complete hlim u ((h.frontier u).mpr hu) v huv fun hvis => hout ((h.visited v).mp hvis)

/-- A complete round that leads nowhere ends the search. -/
theorem WalkInv.unreachable (hx : Expanded (p := p) frontier st x)
    (hlim : x.limitReached = false) (hnext : x.next = ∅) :
    ∀ o ∈ target, ∀ m, ¬Reach p.Edge p.start m o := by
  have hno : ∀ v, ¬Dist p.Edge p.start (d + 1) v := fun v hv => by
    have := (h.mem_next hx hlim).mpr hv
    simp [hnext] at this
  exact fun o ho m hm => h.target o ho (mem_ball_of_no_dist hno hm)

theorem WalkInv.traced_visit (hx : Expanded (p := p) frontier st x) {next : SymbolSet}
    (hsub : ∀ v ∈ next, v ∈ x.next) {st' : PathState} (hvis : st'.visited = st.visited)
    (hpred : st'.predecessors = st.predecessors) :
    Traced (p := p) (visit st' next x.witnesses) := by
  intro v hv n hn
  simp only [visit, hvis, hpred, mem_union] at hv ⊢
  by_cases hnext : v ∈ next
  · obtain ⟨-, -, u, e, hwit, hu, hstep⟩ := hx.next v (hsub v hnext)
    have hv' := h.dist_next hx (hsub v hnext)
    have hud := (h.frontier u).mp hu
    obtain rfl : n = d := by
      rcases Nat.lt_trichotomy n d with hlt | rfl | hgt
      · exact absurd hn.1 (hv'.2 _ (by omega))
      · rfl
      · exact absurd hv'.1 (hn.2 _ (by omega))
    refine ⟨u, e, by simp [hnext, hwit], Or.inl ((h.visited u).mpr hud.mem_ball), hud, hstep⟩
  · obtain ⟨u, e, hpre, hu, hud, hstep⟩ := h.traced v (hv.resolve_right hnext) n hn
    exact ⟨u, e, by simpa [hnext] using hpre, Or.inl hu, hud, hstep⟩

end

end Round

/-- Either the symbol budget cut the candidates, or all of them are admitted. -/
theorem admitSymbols_spec {t : PathTraversal} {st st' : PathState} {candidates next : SymbolSet}
    (h : t.admitSymbols st candidates = (next, st')) :
    st'.visited = st.visited ∧ st'.predecessors = st.predecessors ∧
      st'.references = st.references ∧ st'.search.path = st.search.path ∧
      (∀ v ∈ next, v ∈ candidates) ∧
      (st'.search.symbolLimitReached = true ∨ next = candidates ∧ st' = st) := by
  simp only [admitSymbols] at h
  split_ifs at h
  · obtain ⟨rfl, rfl⟩ := Prod.mk.inj h
    exact ⟨rfl, rfl, rfl, rfl, fun v hv => OrdSet.mem_of_mem_take hv, Or.inl rfl⟩
  · obtain ⟨rfl, rfl⟩ := Prod.mk.inj h
    exact ⟨rfl, rfl, rfl, rfl, fun v hv => hv, Or.inr ⟨rfl, rfl⟩⟩

theorem walk_spec (target : SymbolSet) : ∀ (left : ℕ) (frontier : SymbolSet) (st : PathState),
    left ≤ p.request.limits.maxDepth →
    WalkInv (p := p) target (p.request.limits.maxDepth - left) frontier st →
    WalkPost (p := p) target (p.traversal.walk target left frontier st)
  | 0, frontier, st, _, h => by
    have hx := expand_spec (p := p) p.request.limits.maxDepth h.fresh
    have hlimits : p.traversal.limits = p.request.limits := rfl
    rw [walk]
    simp only [hlimits]
    set x := p.traversal.expand p.request.limits.maxDepth frontier st
    have hout : ∀ o ∈ target, o ∉ st.visited := fun o ho hv => h.target o ho ((h.visited o).mp hv)
    have htraced : Traced (p := p) x.state := by
      unfold Traced
      rw [hx.visited, hx.predecessors]
      exact h.traced
    have hpath : x.state.search.path = [] := hx.path.trans h.path
    split_ifs with hnext
    · refine ⟨htraced, hpath, Or.inr ⟨fun o ho => ?_, Or.inl (Or.inl rfl)⟩⟩
      rw [hx.visited]
      exact hout o ho
    · refine ⟨htraced, hpath, Or.inr ⟨fun o ho => hx.visited ▸ hout o ho, ?_⟩⟩
      cases hlim : x.limitReached with
      | true => exact Or.inl (Or.inr (Or.inr (by simp [hx.edgeLimit, hlim])))
      | false => exact Or.inr (h.unreachable hx hlim (by simpa using hnext))
  | left + 1, frontier, st, hle, h => by
    have hlimits : p.traversal.limits = p.request.limits := rfl
    rw [walk]
    simp only [hlimits]
    set d := p.request.limits.maxDepth - (left + 1) with hd
    have hx := expand_spec (p := p) d h.fresh
    set x := p.traversal.expand d frontier st
    obtain ⟨next, st', hadm⟩ : ∃ next st', p.traversal.admitSymbols x.state x.next = (next, st') :=
      ⟨_, _, rfl⟩
    obtain ⟨hvis, hpred, href, hpath, hsub, hcut⟩ := admitSymbols_spec hadm
    rw [hx.path, h.path] at hpath
    simp only [hadm]
    rw [hx.visited] at hvis
    rw [hx.predecessors] at hpred
    have hout : ∀ o ∈ target, o ∉ st.visited := fun o ho hv => h.target o ho ((h.visited o).mp hv)
    split_ifs with hnext hhit hstop
    · -- Nothing new was admitted.
      refine ⟨?_, hpath, Or.inr ⟨fun o ho => hvis ▸ hout o ho, ?_⟩⟩
      · unfold Traced
        rw [hvis, hpred]
        exact h.traced
      · rcases hcut with hcut | ⟨rfl, rfl⟩
        · exact Or.inl (Or.inr (Or.inl hcut))
        · cases hlim : x.limitReached with
          | true => exact Or.inl (Or.inr (Or.inr (by simp [hx.edgeLimit, hlim])))
          | false => exact Or.inr (h.unreachable hx hlim hnext)
    · -- A target was entered : all of them lie in the new layer.
      have htraced := h.traced_visit hx hsub hvis hpred
      obtain ⟨o, ho⟩ := ne_empty_iff.mp hhit
      obtain ⟨ho, hot⟩ := mem_inter.mp ho
      refine ⟨htraced, hpath, Or.inl ⟨d, by omega, ⟨o, hot, ?_⟩, fun o' ho' hv => ?_, h.target⟩⟩
      · exact mem_union.mpr (Or.inr ho)
      · have hmem : o' ∈ st'.visited ∪ next := hv
        rw [hvis] at hmem
        exact h.dist_next hx (hsub o' ((mem_union.mp hmem).resolve_left (hout o' ho')))
    · -- A budget ran out in this round.
      refine ⟨h.traced_visit hx hsub hvis hpred, hpath, Or.inr ⟨fun o ho hv => ?_, Or.inl ?_⟩⟩
      · have hmem : o ∈ st'.visited ∪ next := hv
        rw [hvis] at hmem
        rcases mem_union.mp hmem with hv | hv
        · exact hout o ho hv
        · exact hhit (ne_empty_iff.mpr ⟨o, mem_inter.mpr ⟨hv, ho⟩⟩)
      · rcases Bool.or_eq_true _ _ ▸ hstop with hstop | hstop
        · refine Or.inr (Or.inr ?_)
          have : st'.references.limitReached = true := by simp [href, hx.edgeLimit, hstop]
          exact this
        · exact Or.inr (Or.inl hstop)
    · -- The layer is complete and free of targets.
      simp only [Bool.or_eq_true, not_or, Bool.not_eq_true] at hstop
      obtain ⟨hlim, hsymbol⟩ := hstop
      have hsymbol' : st'.search.symbolLimitReached = false := hsymbol
      obtain ⟨rfl, rfl⟩ : next = x.next ∧ st' = x.state :=
        hcut.resolve_left (by simp [hsymbol'])
      have hd' : p.request.limits.maxDepth - left = d + 1 := by omega
      refine walk_spec target left x.next _ (by omega) ?_
      rw [hd']
      have hvisited : ∀ o, o ∈ st.visited ∪ x.next ↔ o ∈ Ball p.Edge p.start (d + 1) := fun o => by
        rw [mem_union, h.visited, h.mem_next hx hlim, mem_ball_succ_iff]
      refine ⟨fun o => ?_, fun o => h.mem_next hx hlim, fun r hr => ?_,
        h.traced_visit hx hsub hvis hpred, fun o ho hball => ?_, ?_, hsymbol, ?_, hpath⟩
      · rw [← hvisited o, ← hvis]
        rfl
      · rcases hx.seen r hr with hr | hr
        · obtain ⟨u, m, hu, hm, hdist⟩ := h.seen r hr
          exact ⟨u, m, hu, by omega, hdist⟩
        · obtain ⟨⟨rec, hrec, -, u, hu, hsrc⟩, -⟩ := mem_offered.mp hr
          exact ⟨u, d, referenceSource_eq_some.mpr ⟨rec, hrec, hsrc⟩, by omega,
            (h.frontier u).mp hu⟩
      · rcases mem_ball_succ_iff.mp hball with hball | hdist
        · exact h.target o ho hball
        · exact hhit (ne_empty_iff.mpr ⟨o, mem_inter.mpr ⟨(h.mem_next hx hlim).mpr hdist, ho⟩⟩)
      · have : x.state.references.limitReached = false := by simp [hx.edgeLimit, h.edgeLimit, hlim]
        exact this
      · have : x.state.search.depthLimitReached = false := by simp [hx.depthLimit, h.depthLimit]
        exact this

/-! ## Reading the path back -/

theorem Walk.snoc {e : BoundedPathEdge} {v w : SymbolOrdinal} (hstep : p.Step e v w)
    (hw : p.Allowed w) : ∀ {es : List BoundedPathEdge} {u : SymbolOrdinal}, p.Walk u es v →
      p.Walk u (es ++ [e]) w
  | [], u, h => by
    obtain rfl : u = v := h
    exact ⟨w, hstep, hw, rfl⟩
  | e' :: es, u, ⟨x, hstep', hx, hwalk⟩ => ⟨x, hstep', hx, Walk.snoc hstep hw hwalk⟩

/-- Following the predecessors from a visited symbol succeeds, with a path as long as its
distance. -/
theorem reconstruct_spec {st : PathState} (htraced : Traced (p := p) st) {source : SymbolSet}
    (hsource : ∀ o, o ∈ source ↔ o ∈ p.start) :
    ∀ (n : ℕ) {v : SymbolOrdinal} (fuel : ℕ) (path : List BoundedPathEdge), v ∈ st.visited →
      Dist p.Edge p.start n v → n < fuel →
      ∃ u ∈ p.start, ∃ es, reconstructPathFromAny p.index st.predecessors source fuel
        v path = some (es ++ path) ∧ p.Walk u es v ∧ es.length = n
  | 0, v, fuel + 1, path, _, hv, _ => by
    have hv' : v ∈ source := (hsource v).mpr (dist_zero.mp hv)
    refine ⟨v, dist_zero.mp hv, [], ?_, rfl, rfl⟩
    simp [reconstructPathFromAny, hv']
  | n + 1, v, fuel + 1, path, hvis, hv, hfuel => by
    have hout : v ∉ source := fun hmem => hv.2 0 (by omega) ((hsource v).mp hmem)
    obtain ⟨u, e, hpred, hu, hdist, hstep⟩ := htraced v hvis n hv
    obtain ⟨-, _, -, -, hallowed⟩ := dist_succ_iff.mp hv
    obtain ⟨u0, hu0, es, hrec, hwalk, hlen⟩ :=
      reconstruct_spec htraced hsource n fuel (e :: path) hu hdist (by omega)
    have hsu : p.index.symbol u = some e.source :=
      SymbolOrdinalCatalog.id_eq_some_iff.mpr hstep.source
    have hsv : p.index.symbol v = some e.target :=
      SymbolOrdinalCatalog.id_eq_some_iff.mpr hstep.target
    refine ⟨u0, hu0, es ++ [e], ?_, hwalk.snoc hstep hallowed, by simp [hlen]⟩
    rw [reconstructPathFromAny, if_neg hout, hpred]
    simpa [hsu, hsv] using hrec

/-! ## The answer -/

variable (p) in
/-- The request is refused : an endpoint set is empty or too large, the scope is too large,
or no symbol of an endpoint set is allowed. -/
def Refused : Prop :=
  p.request.source = ∅ ∨ p.request.target = ∅ ∨
    p.request.source.card > p.request.limits.maxSymbols ∨
    p.request.target.card > p.request.limits.maxSymbols ∨
    p.request.scope.exceeds p.request.limits.maxSymbols = true ∨
    (∀ o ∈ p.request.source, ¬p.Allowed o) ∨ ∀ o ∈ p.request.target, ¬p.Allowed o

/-- What the answer says about the admissible paths. -/
structure Answers (search : BoundedPathSearch) : Prop where
  sound : search.path ≠ [] ∨ p.Path [] → p.Path search.path
  depth : search.path.length ≤ p.request.limits.maxDepth
  shortest : ∀ es, p.Path es → search.path.length ≤ es.length
  complete : search.path = [] → ¬p.Path [] → search.depthLimitReached = false →
    search.symbolLimitReached = false → search.edgeLimitReached = false → ∀ es, ¬p.Path es

theorem endpointOrdinals_eq_empty {s : SymbolSet} :
    p.traversal.endpointOrdinals s = ∅ ↔ ∀ o ∈ s, ¬p.Allowed o := by
  simp only [eq_empty_iff, mem_endpointOrdinals, not_and]

theorem mem_start :
    o ∈ p.traversal.endpointOrdinals p.request.source ↔ o ∈ p.start := mem_endpointOrdinals

theorem path_of_walk {u v : SymbolOrdinal} {es : List BoundedPathEdge} (hu : u ∈ p.start)
    (hv : v ∈ p.traversal.endpointOrdinals p.request.target) (h : p.Walk u es v) : p.Path es :=
  ⟨u, hu.1, v, (mem_endpointOrdinals.mp hv).1, hu.2, h⟩

/-- An admissible path reaches an allowed target. -/
theorem reach_of_path (h : p.Path es) :
    ∃ v ∈ p.traversal.endpointOrdinals p.request.target, Reach p.Edge p.start es.length v := by
  obtain ⟨u, hu, v, hv, hallowed, hwalk⟩ := h
  have hstart : Reach p.Edge p.start 0 u := ⟨hu, hallowed⟩
  have hreach := reach_of_walk hstart hwalk
  rw [Nat.zero_add] at hreach
  refine ⟨v, mem_endpointOrdinals.mpr ⟨hv, ?_⟩, hreach⟩
  cases es with
  | nil =>
    obtain rfl : u = v := hwalk
    exact hallowed
  | cons e es =>
    obtain ⟨-, -, -, h⟩ := hreach
    exact h

theorem finish_spec {st : PathState}
    (h : WalkPost (p := p) (p.traversal.endpointOrdinals p.request.target) st)
    (hempty : ¬p.Path []) :
    ∃ search, p.traversal.finish (p.traversal.endpointOrdinals p.request.source)
      (p.traversal.endpointOrdinals p.request.target) st = some search ∧ Answers (p := p) search := by
  have hindex : p.traversal.index = p.index := rfl
  have hlimits : p.traversal.limits = p.request.limits := rfl
  unfold finish
  rcases h.outcome with ⟨d, hd, ⟨o, ho, hov⟩, hdist, hball⟩ | ⟨hnone, hraised⟩
  · obtain ⟨o, hfind⟩ : ∃ o, st.visited.elems.find?
        (· ∈ p.traversal.endpointOrdinals p.request.target) = some o :=
      Option.isSome_iff_exists.mp (find?_isSome.mpr ⟨o, hov, by simpa using ho⟩)
    have hvis : o ∈ st.visited := mem_of_find?_eq_some hfind
    have hot : o ∈ p.traversal.endpointOrdinals p.request.target := by
      simpa using find?_some hfind
    obtain ⟨u, hu, es, hrec, hwalk, hlen⟩ := reconstruct_spec h.traced (fun _ => mem_start) (d + 1)
      (p.request.limits.maxDepth + 1) [] hvis (hdist o hot hvis) (by omega)
    rw [append_nil] at hrec
    simp only [hfind, hindex, hlimits, hrec]
    refine ⟨_, rfl, fun _ => path_of_walk hu hot hwalk, ?_, fun es' hes' => ?_, fun hnil => ?_⟩
    · simp only
      omega
    · obtain ⟨v, hv, hreach⟩ := reach_of_path hes'
      by_contra hlt
      exact hball v hv (hreach.mem_ball (by simp only at hlt; omega))
    · simp only at hnil
      rw [hnil] at hlen
      simp at hlen
  · have hfind : st.visited.elems.find?
        (· ∈ p.traversal.endpointOrdinals p.request.target) = none := by
      rw [find?_eq_none]
      intro o ho
      simpa using fun hot => hnone o hot ho
    simp only [hfind]
    refine ⟨_, rfl, ?_, ?_, ?_, ?_⟩
    · rintro (hne | hp)
      · exact absurd h.path hne
      · exact absurd hp hempty
    · simp [h.path]
    · simp [h.path]
    · intro _ _ hdepth hsymbol hedge es hes
      obtain ⟨v, hv, hreach⟩ := reach_of_path hes
      rcases hraised with (hraised | hraised | hraised) | hunreachable
      · cases hraised.symm.trans hdepth
      · cases hraised.symm.trans hsymbol
      · cases hraised.symm.trans hedge
      · exact hunreachable v hv _ hreach

theorem walkInv_start {target : SymbolSet}
    (hdisjoint : ∀ o ∈ p.traversal.endpointOrdinals p.request.source, o ∉ target) :
    WalkInv (p := p) target 0 (p.traversal.endpointOrdinals p.request.source)
      { visited := p.traversal.endpointOrdinals p.request.source,
        search := { symbolLimitReached := false } } where
  visited o := by rw [mem_ball_zero]; exact mem_start
  frontier o := by rw [dist_zero]; exact mem_start
  seen r hr := absurd hr (notMem_empty r)
  traced v hv n hn := absurd (mem_start.mp hv) (hn.2 0 (by omega))
  target o ho hball := hdisjoint o (mem_start.mpr (mem_ball_zero.mp hball)) ho
  edgeLimit := rfl
  symbolLimit := rfl
  depthLimit := rfl
  path := rfl

theorem runBetween_eq_none
    (h : (∀ o ∈ p.request.source, ¬p.Allowed o) ∨ ∀ o ∈ p.request.target, ¬p.Allowed o) :
    p.traversal.runBetween p.request.source p.request.target = none := by
  rw [← endpointOrdinals_eq_empty, ← endpointOrdinals_eq_empty] at h
  unfold runBetween
  simp only [h, if_true]

theorem runBetween_spec (hcard : p.request.source.card ≤ p.request.limits.maxSymbols)
    (hsource : ¬∀ o ∈ p.request.source, ¬p.Allowed o)
    (htarget : ¬∀ o ∈ p.request.target, ¬p.Allowed o) :
    ∃ search, p.traversal.runBetween p.request.source p.request.target = some search ∧
      Answers (p := p) search := by
  have hlimits : p.traversal.limits = p.request.limits := rfl
  rw [← endpointOrdinals_eq_empty] at hsource htarget
  have hle : (p.traversal.endpointOrdinals p.request.source).card ≤ p.request.limits.maxSymbols :=
    (length_filter_le _ _).trans hcard
  have hcut : ¬(p.traversal.endpointOrdinals p.request.source).card >
      p.request.limits.maxSymbols := by omega
  unfold runBetween
  simp only [hsource, htarget, or_self, if_false, hlimits, hcut, decide_false, Bool.false_eq_true]
  split_ifs with hmeet
  · -- The endpoint sets share a symbol, and the empty path is the answer.
    obtain ⟨o, ho⟩ := ne_empty_iff.mp hmeet
    obtain ⟨hos, hot⟩ := mem_inter.mp ho
    have hpath : p.Path [] := path_of_walk (mem_start.mp hos) hot rfl
    obtain ⟨o, hfind⟩ : ∃ o, (p.traversal.endpointOrdinals p.request.source).elems.find?
        (· ∈ p.traversal.endpointOrdinals p.request.target) = some o :=
      Option.isSome_iff_exists.mp (find?_isSome.mpr ⟨o, hos, by simpa using hot⟩)
    have hmem : o ∈ p.traversal.endpointOrdinals p.request.source :=
      mem_of_find?_eq_some hfind
    unfold finish
    simp only [hfind, hlimits, reconstructPathFromAny, hmem, if_true]
    exact ⟨_, rfl, fun _ => hpath, by simp, by simp, fun _ hno => absurd hpath hno⟩
  · have hdisjoint : ∀ o ∈ p.traversal.endpointOrdinals p.request.source,
        o ∉ p.traversal.endpointOrdinals p.request.target := fun o hos hot =>
      hmeet (ne_empty_iff.mpr ⟨o, mem_inter.mpr ⟨hos, hot⟩⟩)
    have hempty : ¬p.Path [] := by
      rintro ⟨u, hu, v, hv, hallowed, rfl⟩
      exact hdisjoint u (mem_endpointOrdinals.mpr ⟨hu, hallowed⟩)
        (mem_endpointOrdinals.mpr ⟨hv, hallowed⟩)
    refine finish_spec (walk_spec _ _ _ _ le_rfl ?_) hempty
    rw [Nat.sub_self]
    exact walkInv_start hdisjoint

/-- The search refuses exactly the requests that are too large or have no allowed endpoint,
so it never fails to read a path back. Otherwise a path it returns is an admissible path
of at most `max_depth` steps and no admissible path is shorter; and if it returns none,
raises no flag and the endpoint sets share no allowed symbol, there is no admissible path
at all. -/
theorem searchBetween_spec (p : PathQuery) : (searchBetween p.index p.request = none ↔ p.Refused) ∧
      ∀ search, searchBetween p.index p.request = some search → Answers (p := p) search := by
  have hrun : ¬p.Refused → ∃ search, searchBetween p.index p.request = some search ∧
      Answers (p := p) search := by
    intro h
    simp only [Refused, not_or] at h
    obtain ⟨h1, h2, h3, h4, h5, h6, h7⟩ := h
    unfold searchBetween
    simp only [h1, h2, h3, h4, h5, or_self, if_false, Bool.false_eq_true]
    exact runBetween_spec (by omega) h6 h7
  have hnone : p.Refused → searchBetween p.index p.request = none := by
    intro h
    unfold searchBetween
    split_ifs with hguard
    · rfl
    · simp only [Refused, or_iff_not_imp_left] at h
      simp only [not_or] at hguard
      obtain ⟨h1, h2, h3, h4, h5⟩ := hguard
      exact runBetween_eq_none (or_iff_not_imp_left.mpr (h h1 h2 h3 h4 h5))
  refine ⟨⟨fun h => ?_, hnone⟩, fun search hsearch => ?_⟩
  · by_contra hno
    obtain ⟨search, hsearch, -⟩ := hrun hno
    rw [h] at hsearch
    cases hsearch
  · by_cases href : p.Refused
    · rw [hnone href] at hsearch
      cases hsearch
    · obtain ⟨search', hsearch', hans⟩ := hrun href
      obtain rfl : search = search' := Option.some.inj (hsearch.symm.trans hsearch')
      exact hans

/-! ## Avoided endpoints -/

variable (p) in
/-- As `Walk`, with the avoid set held against the inner symbols only. -/
def InnerWalk : SymbolOrdinal → List BoundedPathEdge → SymbolOrdinal → Prop
  | u, [], v => u = v
  | u, e :: es, v => ∃ w, p.Step e u w ∧ p.request.scope.contains p.index w ∧
      (es ≠ [] → ∀ a ∈ p.request.avoid, p.symbols.ordinal a ≠ some w) ∧ InnerWalk w es v

variable (p) in
/-- As `Path`, for endpoints that may be avoided. -/
def InnerPath (es : List BoundedPathEdge) : Prop :=
  ∃ u ∈ p.request.source, ∃ v ∈ p.request.target,
    p.request.scope.contains p.index u ∧ p.InnerWalk u es v

/-- Three symbols of one file, with one reference from the first to the last, and a search
from the first two to the last that avoids the first. -/
def avoidedSource : PathQuery where
  linkage := ⟨[⟨⟨0, 0⟩, ⟨0, 2⟩⟩], [], [], [], [], [], by decide⟩
  references := ⟨[[⟨⟨0, 0⟩, ⟨0, 0⟩, "code+moniker://app/fn:c", "calls"⟩]], by decide⟩
  symbols := ((SymbolOrdinalCatalog.empty.bindId 0 ⟨0, 0⟩).bindId 1 ⟨0, 1⟩).bindId 2 ⟨0, 2⟩
  roots := [0]
  request :=
    { source := OrdSet.ofList [0, 1]
      target := OrdSet.ofList [2]
      relations := []
      avoid := [⟨0, 0⟩]
      limits := ⟨4, 4, 4⟩
      scope := .everything }

/-- An avoided endpoint is dropped, so the search does not see the path that starts at
it. -/
theorem searchBetween_avoidedSource :
    (∃ search, searchBetween avoidedSource.index avoidedSource.request = some search ∧
      search.path = [] ∧ search.depthLimitReached = false ∧
      search.symbolLimitReached = false ∧ search.edgeLimitReached = false) ∧
    avoidedSource.InnerPath [⟨⟨0, 0⟩, ⟨0, 2⟩, ⟨0, 0⟩⟩] := by
  refine ⟨?_, ?_⟩
  · have hrun : (searchBetween avoidedSource.index avoidedSource.request).map
        (fun s => (s.path, s.depthLimitReached, s.symbolLimitReached, s.edgeLimitReached)) =
        some ([], false, false, false) := by decide +kernel
    obtain ⟨search, hsearch, hfields⟩ := Option.map_eq_some_iff.mp hrun
    obtain ⟨h1, h2, h3, h4⟩ := by simpa using hfields
    exact ⟨search, hsearch, h1, h2, h3, h4⟩
  · refine ⟨0, by decide, 2, by decide, rfl, 2, ?_, rfl, by simp, rfl⟩
    refine ⟨⟨_, mem_singleton.mpr rfl, rfl, rfl, Or.inl rfl⟩, by decide, by decide, by decide⟩

end PathQuery

end CodeMoniker
