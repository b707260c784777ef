import CodeMoniker.CorridorSearch
import CodeMoniker.DecisionRuns

/-!
# What a bounded search accounts for

Each of the four searches reads references and visits symbols within its budgets, and its
coverage counts every reference that was read in one class (`Accounts`). The counts are kept by
each admission (`ReferenceTraversal.Kept.admitFrontier`), so they hold after any number of
rounds ; that a reference has one class comes from the linkage, which decides it once.

The relations are only ever asked for the references of some symbol, and these are merged into
one increasing sequence (`boundedFrontierReferences_congr`). So neither their order nor a
repetition shows in an answer. `search_accounts` says both of all four searches.
-/

namespace CodeMoniker

open List LinkageReadIndex PathTraversal CorridorTraversal OrdSet
open Option (bind_eq_some_iff map_eq_some_iff some.inj)

/-! ## Classes of coverage -/

/-- What a reference that was read is counted as. -/
inductive CoverageClass where
  | resolved
  | external
  | candidate
  | dynamic
  | manifestBlocked
  | unresolved
  deriving DecidableEq, Repr

namespace CoverageClass

/-- The references of a class. -/
def references (c : ReferenceClassificationIndex) : CoverageClass → ReferenceSet
  | resolved => c.resolved
  | external => c.external
  | candidate => c.candidate
  | dynamic => c.dynamic
  | manifestBlocked => c.manifestBlocked
  | unresolved => c.unresolved

/-- A reference of the class, or one without a class, which is counted as unresolved. -/
def Counts (c : ReferenceClassificationIndex) (k : CoverageClass) (r : ReferenceOrdinal) : Prop :=
  r ∈ k.references c ∨ k = unresolved ∧ ∀ s ∈ c.classes, r ∉ s

instance (c : ReferenceClassificationIndex) (k : CoverageClass) : DecidablePred (k.Counts c) :=
  fun r => inferInstanceAs
    (Decidable (r ∈ k.references c ∨ k = unresolved ∧ ∀ s ∈ c.classes, r ∉ s))

end CoverageClass

/-- The count of a class. -/
def BoundedPathCoverage.count (coverage : BoundedPathCoverage) : CoverageClass → ℕ
  | .resolved => coverage.resolved
  | .external => coverage.external
  | .candidate => coverage.candidate
  | .dynamic => coverage.dynamic
  | .manifestBlocked => coverage.manifestBlocked
  | .unresolved => coverage.unresolved

namespace CoverageClass

variable {c : ReferenceClassificationIndex} {r : ReferenceOrdinal}

theorem mem_classes {s : ReferenceSet} :
    s ∈ c.classes ↔ ∃ k : CoverageClass, k.references c = s := by
  unfold ReferenceClassificationIndex.classes
  simp only [mem_cons, not_mem_nil, or_false]
  constructor
  · rintro (rfl | rfl | rfl | rfl | rfl | rfl)
    exacts [⟨resolved, rfl⟩, ⟨external, rfl⟩, ⟨candidate, rfl⟩, ⟨dynamic, rfl⟩,
      ⟨manifestBlocked, rfl⟩, ⟨unresolved, rfl⟩]
  · rintro ⟨k, rfl⟩
    cases k <;> simp [references]

/-- Where the classes are disjoint, each reference is counted once. -/
theorem existsUnique_counts (hdisjoint : c.classes.Pairwise fun s t => ∀ o ∈ s, o ∉ t) :
    ∃! k : CoverageClass, k.Counts c r := by
  have hone : ∀ j k : CoverageClass, r ∈ j.references c → r ∈ k.references c → j = k := by
    unfold ReferenceClassificationIndex.classes at hdisjoint
    simp only [pairwise_cons, mem_cons, not_mem_nil, or_false, forall_eq_or_imp,
      forall_eq] at hdisjoint
    intro j k hj hk
    cases j <;> cases k <;> simp only [references] at hj hk <;> grind
  by_cases h : ∃ k : CoverageClass, r ∈ k.references c
  · obtain ⟨k, hk⟩ := h
    refine ⟨k, Or.inl hk, fun j hj => ?_⟩
    rcases hj with hj | ⟨-, hj⟩
    · exact hone j k hj hk
    · exact absurd hk (hj _ (mem_classes.mpr ⟨k, rfl⟩))
  · have hnone : ∀ s ∈ c.classes, r ∉ s := fun s hs hr => by
      obtain ⟨k, rfl⟩ := mem_classes.mp hs
      exact h ⟨k, hr⟩
    refine ⟨unresolved, Or.inr ⟨rfl, hnone⟩, fun j hj => ?_⟩
    rcases hj with hj | ⟨hj, -⟩
    · exact absurd ⟨j, hj⟩ h
    · exact hj

/-- References that are counted once each are as many as the counts add up to. -/
theorem length_eq_sum_counts : ∀ {rs : List ReferenceOrdinal},
    (∀ r ∈ rs, ∃! k : CoverageClass, k.Counts c r) → rs.length =
      (rs.filter (resolved.Counts c ·)).length + (rs.filter (external.Counts c ·)).length +
        (rs.filter (candidate.Counts c ·)).length + (rs.filter (dynamic.Counts c ·)).length +
        (rs.filter (manifestBlocked.Counts c ·)).length + (rs.filter (unresolved.Counts c ·)).length
  | [], _ => rfl
  | r :: rs, h => by
    obtain ⟨k, hk, hunique⟩ := h r mem_cons_self
    have hcounts : ∀ j : CoverageClass, j.Counts c r ↔ j = k := fun j =>
      ⟨hunique j, fun hj => hj ▸ hk⟩
    have ih := length_eq_sum_counts fun x hx => h x (mem_cons_of_mem r hx)
    simp only [filter_cons, hcounts, length_cons]
    cases k <;> simp only [reduceCtorEq, decide_true, decide_false, if_true, Bool.false_eq_true,
      if_false, length_cons] <;> omega

end CoverageClass

/-! ## What an admission keeps -/

namespace ReferenceTraversal

variable {index : LinkageReadIndex} {relations : List String} {selection : ReferenceSelection}
  {maxEdges : ℕ} {t : ReferenceTraversal}

/-- The references read so far are within the budget, and the coverage counts them. -/
structure Kept (c : ReferenceClassificationIndex) (maxEdges : ℕ) (t : ReferenceTraversal) :
    Prop where
  budget : t.seen.card ≤ maxEdges
  total : t.coverage.total = t.seen.card
  counted : ∀ k : CoverageClass, t.coverage.count k = (t.seen.filter (k.Counts c)).card

theorem Kept.empty (c : ReferenceClassificationIndex) (maxEdges : ℕ) : Kept c maxEdges {} where
  budget := Nat.zero_le maxEdges
  total := rfl
  counted k := by cases k <;> rfl

theorem Kept.tallyMissingOrdinal {c : ReferenceClassificationIndex} (h : Kept c maxEdges t) :
    Kept c maxEdges t.tallyMissingOrdinal where
  budget := h.budget
  total := h.total
  counted k := by
    rw [show t.tallyMissingOrdinal.seen = t.seen from rfl, ← h.counted k]
    cases k <;> rfl

/-- The references that `observe` counts as unresolved : those of the class and those of none. -/
theorem card_unresolved_add_unclassified (c : ReferenceClassificationIndex)
    (references : ReferenceSet) : (references ∩ c.unresolved).card +
      (references \ (references ∩ c.resolved ∪ references ∩ c.external ∪ references ∩ c.candidate ∪
        references ∩ c.dynamic ∪ references ∩ c.manifestBlocked ∪ references ∩ c.unresolved)).card =
      (references.filter (CoverageClass.unresolved.Counts c)).card := by
  rw [← OrdSet.card_union]
  · congr 1
    ext r
    simp only [OrdSet.mem_union, OrdSet.mem_inter, OrdSet.mem_sdiff, OrdSet.mem_filter,
      CoverageClass.Counts, CoverageClass.references, ReferenceClassificationIndex.classes,
      forall_mem_cons, not_mem_nil, false_implies, implies_true]
    tauto
  · intro r hr hout
    exact (OrdSet.mem_sdiff.mp hout).2 (OrdSet.mem_union.mpr (Or.inr hr))

/-- What is observed is added to the counts of its classes. -/
theorem count_observe (t : ReferenceTraversal) (references : ReferenceSet) (k : CoverageClass) :
    (t.observe index references).coverage.count k =
      t.coverage.count k + (references.filter (k.Counts index.classifications)).card := by
  have hclass : ∀ j : CoverageClass, j ≠ .unresolved →
      references.filter (j.Counts index.classifications) =
        references ∩ j.references index.classifications := fun j hj => by
    ext r
    simp only [OrdSet.mem_filter, OrdSet.mem_inter, CoverageClass.Counts, hj, false_and, or_false]
  cases k with
  | unresolved =>
    rw [← card_unresolved_add_unclassified]
    rfl
  | resolved => rw [hclass _ (by decide)]; rfl
  | external => rw [hclass _ (by decide)]; rfl
  | candidate => rw [hclass _ (by decide)]; rfl
  | dynamic => rw [hclass _ (by decide)]; rfl
  | manifestBlocked => rw [hclass _ (by decide)]; rfl

theorem card_admitReferences_le {seen : ReferenceSet} {limit : ℕ} :
    ∀ {rs : List ReferenceOrdinal} {admitted : ReferenceSet}, admitted.card ≤ limit →
      (admitReferences seen limit rs admitted).1.card ≤ limit
  | [], _, h => h
  | r :: rs, admitted, h => by
    unfold admitReferences
    split_ifs with hseen hlimit
    · exact card_admitReferences_le h
    · exact h
    · have hinsert := card_insert_le r admitted
      exact card_admitReferences_le (by omega)

/-- An admission observes references that were not read before, as many as the budget has left. -/
theorem exists_admitFrontier_eq (t : ReferenceTraversal) (index : LinkageReadIndex)
    (relations : List String) (selection : ReferenceSelection) (maxEdges : ℕ) :
    ∃ admitted limitReached, admitted.card ≤ maxEdges - t.seen.card ∧ (∀ r ∈ t.seen, r ∉ admitted) ∧
      (t.admitFrontier index relations selection maxEdges).2.2 =
        { { t with limitReached := limitReached }.observe index admitted with
          seen := t.seen ∪ admitted } := by
  refine ⟨_, _, ?_, fun r hr hadmitted => ?_, rfl⟩
  · exact card_admitReferences_le (Nat.zero_le _)
  · rcases PathQuery.mem_of_mem_admitReferences hadmitted with h | h
    · exact notMem_empty r h
    · exact h.2 hr

theorem Kept.admitFrontier (h : Kept index.classifications maxEdges t) :
    Kept index.classifications maxEdges
      (t.admitFrontier index relations selection maxEdges).2.2 := by
  obtain ⟨admitted, limitReached, hcard, hfresh, heq⟩ :=
    exists_admitFrontier_eq t index relations selection maxEdges
  rw [heq]
  constructor
  · have hbudget := h.budget
    have hunion := card_union hfresh
    dsimp only
    omega
  · exact (congrArg (· + admitted.card) h.total).trans (card_union hfresh).symm
  · intro k
    have hcount := @count_observe index { t with limitReached := limitReached } admitted k
    dsimp only at hcount ⊢
    rw [OrdSet.filter_union, OrdSet.card_union fun r hr hr' =>
      hfresh r (OrdSet.mem_filter.mp hr).1 (OrdSet.mem_filter.mp hr').1, ← h.counted k]
    cases k <;> exact hcount

end ReferenceTraversal

/-! ## The walk of a path search -/

/-- The budgets of a path search are kept. -/
structure PathState.Kept (t : PathTraversal) (st : PathState) : Prop where
  references : st.references.Kept t.index.classifications t.limits.maxEdges
  visited : st.visited.card ≤ t.limits.maxSymbols

namespace PathTraversal

variable {t : PathTraversal} {st : PathState}

theorem kept_targetWitnesses {references : ReferenceTraversal} {resolved : ReferenceSet}
    (h : references.Kept t.index.classifications t.limits.maxEdges) :
    (t.targetWitnesses references resolved).references.Kept t.index.classifications
      t.limits.maxEdges := by
  have hfold : ∀ (rs : List ReferenceOrdinal) (w : TargetWitnesses),
      w.references.Kept t.index.classifications t.limits.maxEdges →
        (rs.foldl t.addWitness w).references.Kept t.index.classifications t.limits.maxEdges := by
    intro rs
    induction rs with
    | nil => exact fun w hw => hw
    | cons r rs ih =>
      intro w hw
      refine ih _ ?_
      unfold addWitness
      split
      · exact hw
      · exact hw.tallyMissingOrdinal
  exact hfold resolved.elems _ h

theorem kept_expand (depth : ℕ) (frontier : SymbolSet) (h : st.Kept t) :
    (t.expand depth frontier st).state.Kept t :=
  ⟨kept_targetWitnesses h.references.admitFrontier, h.visited⟩

theorem unvisited_expand {depth : ℕ} {frontier : SymbolSet} {v : SymbolOrdinal}
    (h : v ∈ (t.expand depth frontier st).next) : v ∉ st.visited :=
  (mem_sdiff.mp h).2

/-- The symbols that are admitted fit into the budget. -/
theorem admitSymbols_card (st : PathState) (candidates : SymbolSet) :
    (t.admitSymbols st candidates).1.card ≤ t.limits.maxSymbols - st.visited.card := by
  unfold admitSymbols
  dsimp only
  split_ifs with hcut
  · exact card_take_le _ candidates
  · exact Nat.not_lt.mp hcut

theorem kept_visit (h : st.Kept t) {next : SymbolSet} (hfresh : ∀ v ∈ st.visited, v ∉ next)
    (hcard : next.card ≤ t.limits.maxSymbols - st.visited.card)
    (witnesses : SymbolOrdinal → Option (SymbolOrdinal × ReferenceId)) :
    (visit st next witnesses).Kept t := by
  refine ⟨h.references, ?_⟩
  have hbudget := h.visited
  have hunion := card_union hfresh
  change (st.visited ∪ next).card ≤ t.limits.maxSymbols
  omega

theorem kept_walk {target : SymbolSet} : ∀ {left : ℕ} {frontier : SymbolSet} {st : PathState},
    st.Kept t → (t.walk target left frontier st).Kept t
  | 0, frontier, st, h => by
    have hx := kept_expand t.limits.maxDepth frontier h
    unfold walk
    dsimp only
    split_ifs
    · exact ⟨hx.references, hx.visited⟩
    · exact hx
  | left + 1, frontier, st, h => by
    have hx := kept_expand (t.limits.maxDepth - (left + 1)) frontier h
    obtain ⟨next, st', hentered⟩ : ∃ next st', t.admitSymbols
        (t.expand (t.limits.maxDepth - (left + 1)) frontier st).state
        (t.expand (t.limits.maxDepth - (left + 1)) frontier st).next = (next, st') := ⟨_, _, rfl⟩
    obtain ⟨hvisited, -, hreferences, -, hsub, -⟩ := PathQuery.admitSymbols_spec hentered
    have hcard := t.admitSymbols_card (t.expand (t.limits.maxDepth - (left + 1)) frontier st).state
      (t.expand (t.limits.maxDepth - (left + 1)) frontier st).next
    rw [hentered] at hcard
    have hst' : st'.Kept t := ⟨hreferences ▸ hx.references, hvisited ▸ hx.visited⟩
    have hfresh : ∀ v ∈ st'.visited, v ∉ next := fun v hv hnext =>
      unvisited_expand (hsub v hnext) (hvisited ▸ hv)
    have hvisit := kept_visit hst' hfresh
      (hvisited ▸ hcard) (t.expand (t.limits.maxDepth - (left + 1)) frontier st).witnesses
    rw [walk]
    simp only [hentered]
    split_ifs
    · exact hst'
    · exact ⟨hvisit.references, hvisit.visited⟩
    · exact hvisit
    · exact kept_walk hvisit

end PathTraversal

/-! ## The walks of a corridor -/

/-- The budgets of a corridor are kept. -/
structure CorridorState.Kept (t : CorridorTraversal) (st : CorridorState) : Prop where
  references : st.references.Kept t.index.classifications t.limits.maxEdges
  symbols : st.seenSymbols.card ≤ t.limits.maxSymbols

namespace CorridorTraversal

variable {t : CorridorTraversal} {st : CorridorState} {direction : TraversalDirection}

theorem kept_admitSymbols (h : st.Kept t) (candidates : SymbolSet) :
    (st.admitSymbols candidates t.limits).2.Kept t := by
  refine ⟨h.references, ?_⟩
  obtain ⟨unseen, hcard, hfresh, heq⟩ : ∃ unseen : SymbolSet,
      unseen.card ≤ t.limits.maxSymbols - st.seenSymbols.card ∧
        (∀ v ∈ st.seenSymbols, v ∉ unseen) ∧
        (st.admitSymbols candidates t.limits).2.seenSymbols = st.seenSymbols ∪ unseen := by
    unfold CorridorState.admitSymbols
    dsimp only
    refine ⟨_, ?_, fun v hv hunseen => ?_, rfl⟩
    · split_ifs with hcut
      · exact card_take_le _ _
      · simpa using hcut
    · have hout : v ∈ candidates \ st.seenSymbols := by
        split_ifs at hunseen
        · exact OrdSet.mem_of_mem_take hunseen
        · exact hunseen
      exact (OrdSet.mem_sdiff.mp hout).2 hv
  have hunion := card_union hfresh
  have hbudget := h.symbols
  rw [heq]
  omega

theorem kept_addFarEnd {acc : SymbolSet × CorridorState} (h : acc.2.Kept t) (r : ReferenceOrdinal) :
    (t.addFarEnd direction acc r).2.Kept t := by
  unfold addFarEnd
  split
  · exact h
  · exact ⟨h.references.tallyMissingOrdinal, h.symbols⟩

theorem kept_foldl_addFarEnd : ∀ (rs : List ReferenceOrdinal) {acc : SymbolSet × CorridorState},
    acc.2.Kept t → (rs.foldl (t.addFarEnd direction) acc).2.Kept t
  | [], _, h => h
  | r :: rs, _, h => kept_foldl_addFarEnd rs (kept_addFarEnd h r)

theorem kept_expand (h : st.Kept t) (direction : TraversalDirection) (depth : ℕ)
    (frontier reached : SymbolSet) : (t.expand direction depth frontier reached st).2.Kept t := by
  refine kept_foldl_addFarEnd _ ⟨?_, ?_⟩
  · cases direction <;> exact h.references.admitFrontier
  · cases direction <;> exact h.symbols

theorem kept_walkFrom : ∀ {left : ℕ} {frontier reached : SymbolSet} {exact : List SymbolSet}
    {st : CorridorState}, st.Kept t → (t.walkFrom direction left frontier reached exact st).2.Kept t
  | 0, frontier, reached, exact, st, h => by
    have hx := kept_expand h direction t.limits.maxDepth frontier reached
    unfold walkFrom
    dsimp only
    split_ifs
    · exact ⟨hx.references, hx.symbols⟩
    · exact hx
  | left + 1, frontier, reached, exact, st, h => by
    have hx := kept_expand h direction (t.limits.maxDepth - (left + 1)) frontier reached
    have hentered := kept_admitSymbols hx
      (t.expand direction (t.limits.maxDepth - (left + 1)) frontier reached st).1
    rw [walkFrom]
    dsimp only
    split_ifs
    · exact hx
    · exact hentered
    · exact hentered
    · exact kept_walkFrom hentered

theorem kept_side {same : Bool} {start : SymbolSet} (h : st.Kept t) :
    (t.side direction same start st).2.Kept t := by
  unfold side
  split_ifs
  · exact h
  · exact h
  · exact kept_walkFrom h

end CorridorTraversal

/-! ## Relations -/

section Relations

variable {index : LinkageReadIndex} {rs rs' : List String}

/-- The postings of a symbol hold the same references for the same relations. -/
theorem exists_mem_referencePostings_congr (h : ∀ k, k ∈ rs ↔ k ∈ rs') (m : Postings String)
    (r : ReferenceOrdinal) : (∃ p ∈ referencePostingsForRelations m rs, r ∈ p) ↔
      ∃ p ∈ referencePostingsForRelations m rs', r ∈ p := by
  simp only [exists_mem_referencePostings, admitsRelation_congr h]

theorem unionOf_flatMap_congr {f g : SymbolOrdinal → List ReferenceSet}
    (h : ∀ o r, (∃ p ∈ f o, r ∈ p) ↔ ∃ p ∈ g o, r ∈ p) (symbols : SymbolSet)
    (more : List ReferenceSet) :
    unionOf (more ++ symbols.elems.flatMap f) = unionOf (more ++ symbols.elems.flatMap g) := by
  have hflat : ∀ (f : SymbolOrdinal → List ReferenceSet) r,
      (∃ p ∈ symbols.elems.flatMap f, r ∈ p) ↔ ∃ o ∈ symbols.elems, ∃ p ∈ f o, r ∈ p := by
    intro f r
    simp only [mem_flatMap]
    constructor
    · rintro ⟨p, ⟨o, ho, hp⟩, hr⟩
      exact ⟨o, ho, p, hp, hr⟩
    · rintro ⟨o, ho, p, hp, hr⟩
      exact ⟨p, ⟨o, ho, hp⟩, hr⟩
  ext r
  simp only [mem_unionOf, mem_append, or_and_right, exists_or, hflat, h]

section

variable (h : ∀ k, k ∈ rs ↔ k ∈ rs')

include h

theorem unionOf_referencePostings_congr (direction : TraversalDirection) (symbols : SymbolSet) :
    unionOf (referencePostingsFromSymbols index direction symbols rs) =
      unionOf (referencePostingsFromSymbols index direction symbols rs') := by
  refine unionOf_flatMap_congr (fun o r => ?_) symbols []
  cases direction <;> exact exists_mem_referencePostings_congr h _ r

theorem referenceScopeTerms_congr (scope : BoundedPathScope) (direction : TraversalDirection) :
    (referenceScopeTerms index scope direction rs).map unionOf =
      (referenceScopeTerms index scope direction rs').map unionOf := by
  unfold referenceScopeTerms
  dsimp only
  by_cases hall : scope.all = true
  · rw [if_pos hall, if_pos hall]
  · rw [if_neg hall, if_neg hall]
    cases scope.symbols with
    | none => rfl
    | some symbols =>
      refine congrArg some (unionOf_flatMap_congr (fun o r => ?_) symbols [_])
      cases direction <;> exact exists_mem_referencePostings_congr h _ r

theorem referenceMatchesSelection_congr (selection : ReferenceSelection) (r : ReferenceOrdinal) :
    referenceMatchesSelection index rs selection r =
      referenceMatchesSelection index rs' selection r := by
  have hany : ∀ m, (referencePostingsForRelations m rs).any (r ∈ ·) =
      (referencePostingsForRelations m rs').any (r ∈ ·) := fun m => by
    rw [Bool.eq_iff_iff, any_eq_true, any_eq_true]
    simp only [decide_eq_true_eq]
    exact exists_mem_referencePostings_congr h m r
  unfold referenceMatchesSelection LinkageReadIndex.outgoingPostings
    LinkageReadIndex.incomingPostings
  cases selection.direction <;> simp only [hany]

/-- A frontier offers the same references, in the same sequence, for the same relations. -/
theorem boundedFrontierReferences_congr
    (selection : ReferenceSelection) (seen : ReferenceSet) (limit : ℕ) :
    boundedFrontierReferences index rs selection seen limit =
      boundedFrontierReferences index rs' selection seen limit := by
  have hterms := @referenceScopeTerms_congr index rs rs' h selection.scope selection.direction
  have hunion := @unionOf_referencePostings_congr index rs rs' h selection.direction
    selection.frontier
  unfold boundedFrontierReferences
  simp only [referenceMatchesSelection_congr h]
  cases ht : referenceScopeTerms index selection.scope selection.direction rs with
  | none =>
    cases ht' : referenceScopeTerms index selection.scope selection.direction rs' with
    | none => simp only [union_collect, hunion]
    | some terms' => simp [ht, ht'] at hterms
  | some terms =>
    cases ht' : referenceScopeTerms index selection.scope selection.direction rs' with
    | none => simp [ht, ht'] at hterms
    | some terms' =>
      rw [ht, ht'] at hterms
      simp only [inter_collect, hunion, some.inj hterms]

theorem admitFrontier_congr (t : ReferenceTraversal)
    (selection : ReferenceSelection) (maxEdges : ℕ) :
    t.admitFrontier index rs selection maxEdges = t.admitFrontier index rs' selection maxEdges := by
  unfold ReferenceTraversal.admitFrontier
  simp only [boundedFrontierReferences_congr h]

end

end Relations

namespace PathTraversal

variable (t : PathTraversal) {rs : List String}

section

variable (h : ∀ k, k ∈ rs ↔ k ∈ t.relations)

include h

theorem expand_congr (depth : ℕ) (frontier : SymbolSet) (st : PathState) :
    { t with relations := rs }.expand depth frontier st = t.expand depth frontier st := by
  unfold expand
  dsimp only
  rw [admitFrontier_congr h]
  rfl

theorem walk_congr (target : SymbolSet) : ∀ (left : ℕ) (frontier : SymbolSet) (st : PathState),
      { t with relations := rs }.walk target left frontier st = t.walk target left frontier st
  | 0, frontier, st => by
    unfold walk
    rw [expand_congr t h]
  | left + 1, frontier, st => by
    rw [walk, walk, expand_congr t h]
    simp only [walk_congr target left]
    rfl

theorem runBetween_congr (source target : SymbolSet) :
    { t with relations := rs }.runBetween source target = t.runBetween source target := by
  unfold runBetween
  simp only [walk_congr t h]
  rfl

theorem run_congr (source target : SymbolId) :
    { t with relations := rs }.run source target = t.run source target := by
  unfold run
  simp only [runBetween_congr t h]

end

end PathTraversal

namespace CorridorTraversal

variable (t : CorridorTraversal) {rs : List String} (h : ∀ k, k ∈ rs ↔ k ∈ t.relations)

include h

theorem expand_congr (direction : TraversalDirection)
    (depth : ℕ) (frontier reached : SymbolSet) (st : CorridorState) :
    { t with relations := rs }.expand direction depth frontier reached st =
      t.expand direction depth frontier reached st := by
  unfold expand
  dsimp only
  rw [admitFrontier_congr h]
  rfl

theorem walkFrom_congr (direction : TraversalDirection) :
    ∀ (left : ℕ) (frontier reached : SymbolSet) (exact : List SymbolSet) (st : CorridorState),
      { t with relations := rs }.walkFrom direction left frontier reached exact st =
        t.walkFrom direction left frontier reached exact st
  | 0, frontier, reached, exact, st => by
    unfold walkFrom
    rw [expand_congr t h]
  | left + 1, frontier, reached, exact, st => by
    rw [walkFrom, walkFrom, expand_congr t h]
    simp only [walkFrom_congr direction left]

theorem runBetween_congr (source target : SymbolSet) :
    { t with relations := rs }.runBetween source target = t.runBetween source target := by
  have hside : ∀ direction same start st,
      { t with relations := rs }.side direction same start st = t.side direction same start st :=
    fun direction same start st => by
      unfold side walk
      rw [walkFrom_congr t h]
  unfold runBetween
  simp only [hside]
  rfl

theorem run_congr (source target : SymbolId) :
    { t with relations := rs }.run source target = t.run source target := by
  unfold run
  simp only [runBetween_congr t h]

end CorridorTraversal

/-! ## The four searches -/

namespace PathTraversal

variable {t : PathTraversal} {source target : SymbolSet}

/-- The state that `runBetween` has reached when it answers. -/
def endState (t : PathTraversal) (source target : SymbolSet) : PathState :=
  let fromOrdinals := t.endpointOrdinals source
  let cut : Bool := fromOrdinals.card > t.limits.maxSymbols
  let fromOrdinals := if cut then fromOrdinals.take t.limits.maxSymbols else fromOrdinals
  let st : PathState := { visited := fromOrdinals, search := { symbolLimitReached := cut } }
  if fromOrdinals ∩ t.endpointOrdinals target ≠ ∅ then st
  else t.walk (t.endpointOrdinals target) t.limits.maxDepth fromOrdinals st

theorem kept_endState (t : PathTraversal) (source target : SymbolSet) :
    (t.endState source target).Kept t := by
  have hstart : ∀ (symbols : SymbolSet) (search : BoundedPathSearch),
      symbols.card ≤ t.limits.maxSymbols →
        PathState.Kept t { visited := symbols, search := search } :=
    fun symbols search h => ⟨ReferenceTraversal.Kept.empty _ _, h⟩
  have hcard : (if (t.endpointOrdinals source).card > t.limits.maxSymbols then
      (t.endpointOrdinals source).take t.limits.maxSymbols
      else t.endpointOrdinals source).card ≤ t.limits.maxSymbols := by
    split_ifs with hcut
    · exact card_take_le _ _
    · exact Nat.not_lt.mp hcut
  unfold endState
  simp only [decide_eq_true_eq]
  split_ifs at hcard ⊢
  all_goals first | exact hstart _ _ hcard | exact kept_walk (hstart _ _ hcard)

theorem finish_eq_some {st : PathState} {s : BoundedPathSearch}
    (h : t.finish source target st = some s) :
    s.coverage = st.references.coverage ∧ s.exploredSymbols = st.visited.card := by
  unfold finish at h
  dsimp only at h
  split at h
  · obtain ⟨path, -, hs⟩ := bind_eq_some_iff.mp h
    obtain rfl := some.inj hs
    exact ⟨rfl, rfl⟩
  · obtain rfl := some.inj h
    exact ⟨rfl, rfl⟩

/-- An answer reports what the search has read and visited. -/
theorem runBetween_eq_some {s : BoundedPathSearch} (h : t.runBetween source target = some s) :
    s.coverage = (t.endState source target).references.coverage ∧
      s.exploredSymbols = (t.endState source target).visited.card := by
  unfold runBetween at h
  by_cases hends : t.endpointOrdinals source = ∅ ∨ t.endpointOrdinals target = ∅
  · rw [if_pos hends] at h
    cases h
  · rw [if_neg hends] at h
    exact finish_eq_some h

end PathTraversal

namespace CorridorTraversal

variable {t : CorridorTraversal} {source target : SymbolSet}

/-- The state that `runBetween` has reached when it answers. -/
def endState (t : CorridorTraversal) (source target : SymbolSet) : CorridorState :=
  match t.endpointsBetween source target with
  | none => {}
  | some (source, target) =>
    let same : Bool := source = target
    let (forwardStart, st) := CorridorState.admitSymbols {} source t.limits
    let (reverseStart, st) := if same then (forwardStart, st) else st.admitSymbols target t.limits
    (t.side .reverse same reverseStart (t.side .forward same forwardStart st).2).2

theorem kept_endState (t : CorridorTraversal) (source target : SymbolSet) :
    (t.endState source target).Kept t := by
  have hstart : CorridorState.Kept t {} := ⟨.empty _ _, Nat.zero_le _⟩
  unfold endState
  split
  · exact hstart
  · dsimp only
    refine kept_side (kept_side ?_)
    split
    · exact kept_admitSymbols hstart _
    · exact kept_admitSymbols (kept_admitSymbols hstart _) _

/-- An answer reports what the search has read and seen. -/
theorem runBetween_eq_some {s : BoundedCorridorSearch} (h : t.runBetween source target = some s) :
    s.coverage = (t.endState source target).references.coverage ∧
      s.exploredSymbols = (t.endState source target).seenSymbols.card := by
  unfold runBetween at h
  obtain ⟨⟨source', target'⟩, hends, hs⟩ := bind_eq_some_iff.mp h
  obtain rfl := some.inj hs
  unfold endState
  rw [hends]
  exact ⟨rfl, rfl⟩

end CorridorTraversal

/-- What the engine can be asked. -/
inductive SearchRequest where
  | path (q : BoundedPathRequest)
  | pathBetween (q : BoundedPathSetRequest)
  | corridor (q : BoundedCorridorRequest)
  | corridorBetween (q : BoundedCorridorSetRequest)

inductive SearchAnswer where
  | path (s : BoundedPathSearch)
  | corridor (s : BoundedCorridorSearch)

namespace SearchAnswer

def coverage : SearchAnswer → BoundedPathCoverage
  | path s => s.coverage
  | corridor s => s.coverage

def exploredSymbols : SearchAnswer → ℕ
  | path s => s.exploredSymbols
  | corridor s => s.exploredSymbols

end SearchAnswer

/-- The symbols that a search has visited and the references that it has read, when it ends. -/
structure SearchEnd where
  visited : SymbolSet
  references : ReferenceTraversal

namespace SearchRequest

def relations : SearchRequest → List String
  | path q => q.relations
  | pathBetween q => q.relations
  | corridor q => q.relations
  | corridorBetween q => q.relations

def limits : SearchRequest → BoundedPathLimits
  | path q => q.limits
  | pathBetween q => q.limits
  | corridor q => q.limits
  | corridorBetween q => q.limits

def withRelations (relations : List String) : SearchRequest → SearchRequest
  | path q => path { q with relations := relations }
  | pathBetween q => pathBetween { q with relations := relations }
  | corridor q => corridor { q with relations := relations }
  | corridorBetween q => corridorBetween { q with relations := relations }

def answer (index : LinkageReadIndex) : SearchRequest → Option SearchAnswer
  | path q => (search index q).map .path
  | pathBetween q => (searchBetween index q).map .path
  | corridor q => (CodeMoniker.corridor index q).map .corridor
  | corridorBetween q => (CodeMoniker.corridorBetween index q).map .corridor

/-- The symbol as the endpoint of a search. -/
def endpoint (index : LinkageReadIndex) (symbol : SymbolId) : SymbolSet :=
  OrdSet.ofList (index.ordinal symbol).toList

/-- A search between two symbols is one between two sets. -/
def pathBetweenEndpoints (index : LinkageReadIndex) (q : BoundedPathRequest) :
    BoundedPathSetRequest :=
  ⟨endpoint index q.source, endpoint index q.target, q.relations, q.avoid, q.limits, q.scope⟩

def corridorBetweenEndpoints (index : LinkageReadIndex) (q : BoundedCorridorRequest) :
    BoundedCorridorSetRequest :=
  ⟨endpoint index q.source, endpoint index q.target, q.relations, q.limits, q.scope⟩

def pathEnd (index : LinkageReadIndex) (q : BoundedPathSetRequest) : SearchEnd :=
  let t := PathTraversal.new index q.relations q.avoid q.limits q.scope
  let st := t.endState q.source q.target
  ⟨st.visited, st.references⟩

def corridorEnd (index : LinkageReadIndex) (q : BoundedCorridorSetRequest) : SearchEnd :=
  let t := CorridorTraversal.new index q.relations q.limits q.scope.asPathScope
  let st := t.endState q.source q.target
  ⟨st.seenSymbols, st.references⟩

/-- Where a search ends. -/
def ended (index : LinkageReadIndex) : SearchRequest → SearchEnd
  | path q => pathEnd index (pathBetweenEndpoints index q)
  | pathBetween q => pathEnd index q
  | corridor q => corridorEnd index (corridorBetweenEndpoints index q)
  | corridorBetween q => corridorEnd index q

variable {index : LinkageReadIndex} {q : SearchRequest}

theorem kept_pathEnd (q : BoundedPathSetRequest) :
    (pathEnd index q).references.Kept index.classifications q.limits.maxEdges ∧
      (pathEnd index q).visited.card ≤ q.limits.maxSymbols := by
  have h := (new index q.relations q.avoid q.limits q.scope).kept_endState q.source
    q.target
  exact ⟨h.references, h.visited⟩

theorem kept_corridorEnd (q : BoundedCorridorSetRequest) :
    (corridorEnd index q).references.Kept index.classifications q.limits.maxEdges ∧
      (corridorEnd index q).visited.card ≤ q.limits.maxSymbols := by
  have h := (new index q.relations q.limits q.scope.asPathScope).kept_endState
    q.source q.target
  exact ⟨h.references, h.symbols⟩

theorem kept_ended (index : LinkageReadIndex) (q : SearchRequest) :
    (q.ended index).references.Kept index.classifications q.limits.maxEdges ∧
      (q.ended index).visited.card ≤ q.limits.maxSymbols := by
  cases q with
  | path q => exact kept_pathEnd (pathBetweenEndpoints index q)
  | pathBetween q => exact kept_pathEnd q
  | corridor q => exact kept_corridorEnd (corridorBetweenEndpoints index q)
  | corridorBetween q => exact kept_corridorEnd q

/-- A walk between two known symbols starts and ends at their ordinals. -/
theorem bind_ordinal_eq_some {α : Type} {f : SymbolSet → SymbolSet → Option α}
    {source target : SymbolId} {s : α}
    (h : ((index.ordinal source).bind fun i => (index.ordinal target).bind fun j =>
      f (ofList [i]) (ofList [j])) = some s) :
    f (endpoint index source) (endpoint index target) = some s := by
  obtain ⟨i, hi, h⟩ := bind_eq_some_iff.mp h
  obtain ⟨j, hj, h⟩ := bind_eq_some_iff.mp h
  rw [endpoint, endpoint, hi, hj]
  exact h

theorem answer_eq_some {a : SearchAnswer} (h : q.answer index = some a) :
    a.coverage = (q.ended index).references.coverage ∧
      a.exploredSymbols = (q.ended index).visited.card := by
  cases q with
  | path q =>
    obtain ⟨s, hs, rfl⟩ := map_eq_some_iff.mp h
    unfold search at hs
    split_ifs at hs
    exact runBetween_eq_some (bind_ordinal_eq_some hs)
  | pathBetween q =>
    obtain ⟨s, hs, rfl⟩ := map_eq_some_iff.mp h
    unfold searchBetween at hs
    split_ifs at hs
    exact runBetween_eq_some hs
  | corridor q =>
    obtain ⟨s, hs, rfl⟩ := map_eq_some_iff.mp h
    unfold CodeMoniker.corridor at hs
    split_ifs at hs
    exact runBetween_eq_some (bind_ordinal_eq_some hs)
  | corridorBetween q =>
    obtain ⟨s, hs, rfl⟩ := map_eq_some_iff.mp h
    unfold CodeMoniker.corridorBetween at hs
    split_ifs at hs
    exact runBetween_eq_some hs

/-- Requests for the same relations, in whatever order and however often, have one answer. -/
theorem answer_withRelations {relations : List String} (h : ∀ k, k ∈ relations ↔ k ∈ q.relations) :
    (q.withRelations relations).answer index = q.answer index := by
  have hdups : ∀ k, k ∈ relations.eraseDups ↔ k ∈ q.relations.eraseDups := fun k => by
    rw [mem_eraseDups, mem_eraseDups, h]
  have hnil : relations = [] ↔ q.relations = [] := by
    simp only [eq_nil_iff_forall_not_mem, h]
  cases q with
  | path q =>
    have hrun : (new index relations q.avoid q.limits q.scope).run q.source q.target =
        (new index q.relations q.avoid q.limits q.scope).run q.source q.target :=
      (new index q.relations q.avoid q.limits q.scope).run_congr hdups q.source
        q.target
    simp only [answer, withRelations, search, hrun]
  | pathBetween q =>
    have hrun : (new index relations q.avoid q.limits q.scope).runBetween q.source
        q.target = (new index q.relations q.avoid q.limits q.scope).runBetween
          q.source q.target :=
      (new index q.relations q.avoid q.limits q.scope).runBetween_congr hdups q.source
        q.target
    simp only [answer, withRelations, searchBetween, hrun]
  | corridor q =>
    have hrun : (new index relations q.limits q.scope.asPathScope).run q.source
        q.target = (new index q.relations q.limits q.scope.asPathScope).run
          q.source q.target :=
      (new index q.relations q.limits q.scope.asPathScope).run_congr hdups
        q.source q.target
    simp only [SearchRequest.relations] at hnil
    simp only [answer, withRelations, CodeMoniker.corridor, hrun, hnil]
  | corridorBetween q =>
    have hrun : (new index relations q.limits q.scope.asPathScope).runBetween
        q.source q.target = (new index q.relations q.limits
          q.scope.asPathScope).runBetween q.source q.target :=
      (new index q.relations q.limits q.scope.asPathScope).runBetween_congr hdups
        q.source q.target
    simp only [SearchRequest.relations] at hnil
    simp only [answer, withRelations, CodeMoniker.corridorBetween, hrun, hnil]

end SearchRequest

/-- What an answer says of the references that the search has read and the symbols that it has
visited. -/
structure Accounts (index : LinkageReadIndex) (q : SearchRequest) (a : SearchAnswer) : Prop where
  edges : (q.ended index).references.seen.card ≤ q.limits.maxEdges
  symbols : (q.ended index).visited.card ≤ q.limits.maxSymbols
  explored : a.exploredSymbols = (q.ended index).visited.card
  total : a.coverage.total = (q.ended index).references.seen.card
  oneClass : ∀ r ∈ (q.ended index).references.seen,
    ∃! k : CoverageClass, k.Counts index.classifications r
  counted : ∀ k : CoverageClass, a.coverage.count k =
    ((q.ended index).references.seen.filter (k.Counts index.classifications)).card
  sum : a.coverage.total = a.coverage.resolved + a.coverage.external + a.coverage.candidate +
    a.coverage.dynamic + a.coverage.manifestBlocked + a.coverage.unresolved

theorem accounts_of_answer {index : LinkageReadIndex} {q : SearchRequest} {a : SearchAnswer}
    (hdisjoint : index.classifications.classes.Pairwise fun s t => ∀ o ∈ s, o ∉ t)
    (h : q.answer index = some a) : Accounts index q a := by
  obtain ⟨hkept, hsymbols⟩ := q.kept_ended index
  obtain ⟨hcoverage, hexplored⟩ := SearchRequest.answer_eq_some h
  have hone : ∀ r ∈ (q.ended index).references.seen,
      ∃! k : CoverageClass, k.Counts index.classifications r := fun r _ =>
    CoverageClass.existsUnique_counts hdisjoint
  have hcounted : ∀ k : CoverageClass, a.coverage.count k =
      ((q.ended index).references.seen.filter (k.Counts index.classifications)).card :=
    fun k => hcoverage ▸ hkept.counted k
  have htotal : a.coverage.total = (q.ended index).references.seen.card :=
    hcoverage ▸ hkept.total
  refine ⟨hkept.budget, hsymbols, hexplored, htotal, hone, hcounted, ?_⟩
  calc a.coverage.total
      = (q.ended index).references.seen.elems.length := htotal
    _ = a.coverage.count .resolved + a.coverage.count .external + a.coverage.count .candidate +
        a.coverage.count .dynamic + a.coverage.count .manifestBlocked +
        a.coverage.count .unresolved := by
      simp only [hcounted]
      exact CoverageClass.length_eq_sum_counts hone

/-- Every search of a linkage accounts for what it has read within its budgets, and its answer
does not depend on the order of the relations or on how often one is listed. -/
theorem search_accounts (linkage : LinkageSnapshot) (references : ReferenceTable)
    (symbols : SymbolOrdinalCatalog) (roots : List ℕ) (q : SearchRequest) {relations : List String}
    (hrelations : ∀ k, k ∈ relations ↔ k ∈ q.relations) :
    (∀ a, q.answer (fromSnapshotWithCatalog linkage references symbols roots) = some a →
      Accounts (fromSnapshotWithCatalog linkage references symbols roots) q a) ∧
    (q.withRelations relations).answer (fromSnapshotWithCatalog linkage references symbols roots) =
      q.answer (fromSnapshotWithCatalog linkage references symbols roots) :=
  ⟨fun _ h => accounts_of_answer
      (ReferenceClassificationIndex.classes_disjoint linkage references.ids_nodup) h,
    SearchRequest.answer_withRelations hrelations⟩

/-- One symbol with a reference to a dead end and one to the target, and a budget for one of
them. -/
def deadAndLive : PathQuery where
  linkage := ⟨[⟨⟨0, 0⟩, ⟨0, 1⟩⟩, ⟨⟨0, 1⟩, ⟨0, 2⟩⟩], [], [], [], [], [], by decide⟩
  references := ⟨[[⟨⟨0, 0⟩, ⟨0, 0⟩, "code+moniker://app/fn:b", "dead"⟩,
    ⟨⟨0, 1⟩, ⟨0, 0⟩, "code+moniker://app/fn:c", "live"⟩]], by decide⟩
  symbols := ((SymbolOrdinalCatalog.empty.bindId 1 ⟨0, 0⟩).bindId 2 ⟨0, 1⟩).bindId 3 ⟨0, 2⟩
  roots := [0]
  request :=
    { source := OrdSet.ofList [1]
      target := OrdSet.ofList [3]
      relations := ["dead", "live"]
      avoid := []
      limits := ⟨1, 3, 1⟩
      scope := .everything }

theorem search_accounts_deadAndLive :
    (∃ a, (SearchRequest.pathBetween deadAndLive.request).answer deadAndLive.index = some a ∧
      a.coverage.total = 1 ∧ Accounts deadAndLive.index (.pathBetween deadAndLive.request) a) ∧
    ((SearchRequest.pathBetween deadAndLive.request).withRelations ["live", "dead", "live"]).answer
        deadAndLive.index =
      (SearchRequest.pathBetween deadAndLive.request).answer deadAndLive.index := by
  have hrelations : ∀ k, k ∈ ["live", "dead", "live"] ↔
      k ∈ (SearchRequest.pathBetween deadAndLive.request).relations := fun k => by
    simp [SearchRequest.relations, deadAndLive]
    tauto
  obtain ⟨haccounts, hsame⟩ := search_accounts deadAndLive.linkage deadAndLive.references
    deadAndLive.symbols deadAndLive.roots (.pathBetween deadAndLive.request) hrelations
  refine ⟨?_, hsame⟩
  have hrun : ((SearchRequest.pathBetween deadAndLive.request).answer deadAndLive.index).map
      (·.coverage.total) = some 1 := by decide +kernel
  obtain ⟨a, ha, htotal⟩ := map_eq_some_iff.mp hrun
  exact ⟨a, ha, htotal, haccounts a ha⟩

end CodeMoniker
