import CodeMoniker.LinkageRefresh

/-!
# One decision for each reference

In every state of every run the store has one decision for each reference of the index, at the
position of the reference, and the lists of the published snapshot partition the references, so
that the classes of its read index do (`one_decision_per_reference`). The invariant behind it is
`Linked`, which a full linkage establishes (`fullLinkage_spec`) and a refresh keeps
(`refreshIncrementalLinkage_spec`). Both always complete : no position that they read lies past
the table.
-/

namespace CodeMoniker

open List LinkageStore

/-! ## The published lists -/

namespace LinkageReportProjection

theorem references_project (scheme : List Char) (symbols : SymbolOrdinalCatalog)
    (r : IndexedReference) (p : LinkageReportProjection) (outcome : LinkageOutcome) :
    (p.project scheme symbols r outcome).references.Perm (r.id :: p.references) := by
  refine perm_iff_count.mpr fun id => ?_
  cases outcome with
  | unique targets =>
    simp only [project, projectUnique]
    split <;> simp [references, count_append, count_cons] <;> omega
  | candidate reason targets =>
    simp [project, references, count_append, count_cons]
    omega
  | external target =>
    simp [project, references, count_append, count_cons]
    omega
  | blocked reason =>
    simp [project, references, count_append, count_cons]
    omega
  | dynamic reason candidates =>
    simp [project, references, count_append, count_cons]
    omega
  | unknown reason =>
    simp [project, references, count_append, count_cons]
    omega

/-- The lists as the snapshot that they are when no reference is listed twice. -/
def toSnapshot (p : LinkageReportProjection) (h : p.references.Nodup) : LinkageSnapshot :=
  ⟨p.resolved, p.candidates, p.external, p.dynamic, p.blocked, p.unresolved, h⟩

end LinkageReportProjection

theorem projectDecisions_spec (scheme : List Char) (symbols : SymbolOrdinalCatalog)
    {references : List IndexedReference} : ∀ (decisions : List LinkageDecision)
    (p : LinkageReportProjection), Placed references decisions →
    ∃ report, decisions.foldlM (fun p d => (references[d.referenceIdx]?).map fun r =>
        p.project scheme symbols r d.outcome) p = some report ∧
      report.references.Perm (decisions.map (·.reference) ++ p.references)
  | [], p, _ => ⟨p, rfl, Perm.refl _⟩
  | d :: decisions, p, h => by
    have hplace := h d mem_cons_self
    rw [getElem?_map] at hplace
    obtain ⟨r, hr, hid⟩ := Option.map_eq_some_iff.mp hplace
    obtain ⟨report, hreport, hperm⟩ := projectDecisions_spec scheme symbols decisions
      (p.project scheme symbols r d.outcome) fun x hx => h x (mem_cons_of_mem d hx)
    refine ⟨report, ?_, hperm.trans ?_⟩
    · rw [foldlM_cons, hr]
      exact hreport
    · have hstep := p.references_project scheme symbols r d.outcome
      rw [hid] at hstep
      exact (hstep.append_left _).trans perm_middle

/-! ## The classes of the read index -/

namespace ReferenceClassificationIndex

/-- The six sets of references. -/
def classes (c : ReferenceClassificationIndex) : List ReferenceSet :=
  [c.resolved, c.external, c.candidate, c.dynamic, c.manifestBlocked, c.unresolved]

/-- The references of each class. -/
def classReferences (l : LinkageSnapshot) : List (List ReferenceId) :=
  [l.resolved.map (·.reference), l.external.map (·.reference), l.candidates.map (·.reference),
    l.dynamic.map (·.reference),
    (l.blocked.filter (·.reason = .manifestBlocked)).map (·.reference),
    (l.unresolved ++ l.blocked.filter (·.reason ≠ .manifestBlocked)).map (·.reference)]

theorem classes_fromLinkage (l : LinkageSnapshot) (ids : List ReferenceId) (hnd : ids.Nodup) :
    (fromLinkage l ids).classes = (classReferences l).map (ordinals ids) := by
  have hblocked : (fromLinkage l ids).manifestBlocked =
      ordinals ids ((l.blocked.filter (·.reason = .manifestBlocked)).map (·.reference)) := by
    ext o
    simp only [fromLinkage, LinkageSnapshot.manifestBlocked, mem_ordinals hnd, mem_map,
      mem_filter, mem_append]
    constructor
    · rintro ⟨id, ⟨u, ⟨hu, hreason⟩, rfl⟩, ho⟩
      exact ⟨_, ⟨u, ⟨hu.elim (fun h => h) (fun h => h.1), hreason⟩, rfl⟩, ho⟩
    · rintro ⟨id, ⟨u, ⟨hu, hreason⟩, rfl⟩, ho⟩
      exact ⟨_, ⟨u, ⟨Or.inl hu, hreason⟩, rfl⟩, ho⟩
  rw [classes, hblocked]
  rfl

theorem perm_classReferences (p : LinkageReportProjection) (h : p.references.Nodup) :
    (classReferences (p.toSnapshot h)).flatten.Perm p.references := by
  have hblocked : ((p.blocked.filter (·.reason = .manifestBlocked)).map (·.reference) ++
      (p.blocked.filter (·.reason ≠ .manifestBlocked)).map (·.reference)).Perm
        (p.blocked.map (·.reference)) := by
    rw [← map_append]
    refine Perm.map _ ?_
    have hsplit := filter_append_perm (fun u => decide (u.reason = .manifestBlocked)) p.blocked
    simpa using hsplit
  refine perm_iff_count.mpr fun id => ?_
  have hcount := perm_iff_count.mp hblocked id
  simp only [classReferences, LinkageReportProjection.toSnapshot,
    LinkageReportProjection.references, flatten_cons, flatten_nil, map_append,
    count_append, count_nil] at hcount ⊢
  omega

/-- A reference has one decision, so no reference is in two classes. -/
theorem classes_disjoint (l : LinkageSnapshot) {ids : List ReferenceId} (hnd : ids.Nodup) :
    (fromLinkage l ids).classes.Pairwise fun s t => ∀ o ∈ s, o ∉ t := by
  have hflat : (classReferences l).flatten.Nodup :=
    (perm_classReferences ⟨l.resolved, l.candidates, l.external, l.dynamic, l.blocked,
      l.unresolved⟩ l.oneDecision).nodup_iff.mpr l.oneDecision
  rw [classes_fromLinkage l ids hnd]
  refine pairwise_map.mpr ((nodup_flatten.mp hflat).2.imp fun {a b} hab o ho ho' => ?_)
  obtain ⟨id, hid, hget⟩ := (mem_ordinals hnd).mp ho
  obtain ⟨id', hid', hget'⟩ := (mem_ordinals hnd).mp ho'
  obtain rfl : id = id' := Option.some.inj (hget.symm.trans hget')
  exact disjoint_left.mp hab hid hid'

/-- The classes of a report on every reference are disjoint and leave none out. -/
theorem classes_partition {p : LinkageReportProjection} {ids : List ReferenceId}
    (hnd : ids.Nodup) (hperm : p.references.Perm ids) (h : p.references.Nodup) :
    (fromLinkage (p.toSnapshot h) ids).classes.Pairwise (fun s t => ∀ o ∈ s, o ∉ t) ∧
      ∀ o, (∃ s ∈ (fromLinkage (p.toSnapshot h) ids).classes, o ∈ s) ↔ o < ids.length := by
  refine ⟨classes_disjoint _ hnd, fun o => ?_⟩
  have hflat := perm_classReferences p h
  rw [classes_fromLinkage _ ids hnd]
  have hmem : ∀ id, (∃ l ∈ classReferences (p.toSnapshot h), id ∈ l) ↔ id ∈ ids := fun id => by
    rw [← mem_flatten, hflat.mem_iff, hperm.mem_iff]
  simp only [mem_map]
  constructor
  · rintro ⟨s, ⟨l, hl, rfl⟩, ho⟩
    obtain ⟨id, -, hget⟩ := (mem_ordinals hnd).mp ho
    exact (List.getElem?_eq_some_iff.mp hget).1
  · intro ho
    obtain ⟨l, hl, hid⟩ := (hmem ids[o]).mpr (getElem_mem ho)
    exact ⟨_, ⟨l, hl, rfl⟩, (mem_ordinals hnd).mpr ⟨_, hid, getElem?_eq_getElem ho⟩⟩

end ReferenceClassificationIndex

/-! ## Passes -/

section Passes

variable {reader : RecordReader} {m m' : CodeIndexMaterial} {symbols : SymbolOrdinalCatalog}
  {changed : OrdSet ℕ}

theorem Covers.placed {keep : ReferenceOrdinal → Prop} {decisions : List LinkageDecision}
    (h : Covers (referenceIds reader m) keep decisions) : Placed (references reader m) decisions :=
  fun _ hd => h.getElem? hd

/-- The snapshot of a store with a decision for each reference lists each reference once. -/
theorem projectSnapshot_spec (symbols : SymbolOrdinalCatalog) {store : LinkageStore}
    (h : Covers (referenceIds reader m) (fun _ => True) store.decisions) :
    ∃ snapshot, store.projectSnapshot reader m symbols = some snapshot ∧
      snapshot.report.references.Perm (referenceIds reader m) ∧
      snapshot.referenceIds = referenceIds reader m := by
  obtain ⟨report, hreport, hperm⟩ :=
    projectDecisions_spec reader.scheme symbols store.decisions {} h.placed
  have hall : (store.decisions.map (·.reference)).Perm (referenceIds reader m) := by
    have hfst := (h.perm (referenceIds_nodup reader m)).map Prod.fst
    rwa [map_map, zipIdx_map_fst] at hfst
  refine ⟨⟨report, referenceIds reader m⟩, ?_, ?_, rfl⟩
  · have hproject : projectDecisions reader.scheme symbols (references reader m)
        store.decisions = some report := hreport
    rw [projectSnapshot, hproject, Option.map_some]
  · refine hperm.trans ?_
    rw [LinkageReportProjection.references]
    simpa using hall

theorem covers_all (answers : LinkageAnswers symbols) :
    Covers (referenceIds reader m) (fun _ => True)
      ((references reader m).mapIdx fun i r => ⟨r.id, i, answers.resolveReference i r⟩) where
  nodup := by
    have hids : ((references reader m).mapIdx fun i r =>
        (⟨r.id, i, answers.resolveReference i r⟩ : LinkageDecision)).map (·.reference) =
          referenceIds reader m := by
      refine ext_getElem? fun i => ?_
      simp only [getElem?_map, getElem?_mapIdx, Option.map_map, referenceIds]
      rfl
    rw [hids]
    exact referenceIds_nodup reader m
  mem id i := by
    simp only [mem_iff_getElem?, getElem?_mapIdx, Option.map_eq_some_iff, referenceIds,
      getElem?_map, and_true]
    constructor
    · rintro ⟨_, ⟨j, r, hr, rfl⟩, rfl, rfl⟩
      exact ⟨r, hr, rfl⟩
    · rintro ⟨r, hr, rfl⟩
      exact ⟨_, ⟨i, r, hr, rfl⟩, rfl, rfl⟩

/-- A full linkage decides on every reference. -/
theorem fullLinkage_spec (answers : LinkageAnswers symbols) : ∃ store snapshot,
      LinkageStore.fullLinkage reader m symbols answers = some (store, snapshot) ∧
      Positions (referenceIds reader m) store.indexes.referenceIndexes ∧
      Covers (referenceIds reader m) (fun _ => True) store.decisions ∧
      snapshot.report.references.Perm (referenceIds reader m) ∧
      snapshot.referenceIds = referenceIds reader m := by
  have hstart : Covers (referenceIds reader m) (fun _ => True)
      ((references reader m).mapIdx fun i r => ⟨r.id, i, answers.resolveReference i r⟩) :=
    covers_all answers
  obtain ⟨refined, hrefined, hforall⟩ : ∃ refined,
      LinkageStore.refineDecisions (references reader m) (fun _ => true) answers.refinements
        ((references reader m).mapIdx fun i r => ⟨r.id, i, answers.resolveReference i r⟩) =
          some refined ∧ _ :=
    refineDecisions_spec answers.refinements _ answers.refinedKnown hstart.placed
  have hcovers : Covers (referenceIds reader m) (fun _ => True)
      (new m symbols (references reader m) refined).decisions :=
    hstart.of_refines hforall
  obtain ⟨snapshot, hsnapshot, hperm, hids⟩ := projectSnapshot_spec symbols hcovers
  refine ⟨_, snapshot, ?_, positions_referenceIndexes reader m, hcovers, hperm, hids⟩
  rw [LinkageStore.fullLinkage, hrefined]
  simp [hsnapshot]

variable (store : LinkageStore)

@[simp] theorem ensureResolvedTargetIndex_decisions :
    (store.ensureResolvedTargetIndex m symbols).decisions = store.decisions := by
  unfold ensureResolvedTargetIndex
  split <;> rfl

@[simp] theorem ensureResolvedTargetIndex_referenceIndexes :
    (store.ensureResolvedTargetIndex m symbols).indexes.referenceIndexes =
      store.indexes.referenceIndexes := by
  unfold ensureResolvedTargetIndex
  split <;> rfl

theorem foldl_referenceIndexes {α : Type} {step : LinkageStoreIndexes → α → LinkageStoreIndexes}
    (h : ∀ x a, (step x a).referenceIndexes = x.referenceIndexes) (l : List α)
    (x : LinkageStoreIndexes) : (l.foldl step x).referenceIndexes = x.referenceIndexes := by
  induction l generalizing x with
  | nil => rfl
  | cons a l ih => rw [foldl_cons, ih, h]

@[simp] theorem applyRefresh_referenceIndexes
    (references : List IndexedReference) (stale : ReferenceSet) (resolved : List LinkageDecision) :
    (store.applyRefresh references m stale resolved).indexes.referenceIndexes =
      store.indexes.referenceIndexes := by
  have hstep : ∀ (x : LinkageStoreIndexes) (r : IndexedReference),
      (x.addReference m r).referenceIndexes = x.referenceIndexes := by
    intro x r
    unfold LinkageStoreIndexes.addReference
    split <;> rfl
  have hfold : ∀ (l : List LinkageDecision) (store : LinkageStore),
      (l.foldl (addChangedDecision references m) store).indexes.referenceIndexes =
        store.indexes.referenceIndexes := by
    intro l
    induction l with
    | nil => exact fun _ => rfl
    | cons d l ih =>
      intro store
      rw [foldl_cons, ih, addChangedDecision]
      split
      · rfl
      · exact hstep _ _
  exact hfold resolved _

@[simp] theorem refreshResolvedTargetIndex_decisions (refreshed : ReferenceSet) :
    (store.refreshResolvedTargetIndex refreshed m symbols).decisions = store.decisions :=
  ensureResolvedTargetIndex_decisions store

@[simp] theorem refreshResolvedTargetIndex_referenceIndexes (refreshed : ReferenceSet) :
    (store.refreshResolvedTargetIndex refreshed m symbols).indexes.referenceIndexes =
      store.indexes.referenceIndexes := by
  have hstep : ∀ (x : LinkageStoreIndexes) (d : LinkageDecision),
      (addResolvedTarget m symbols x d).referenceIndexes = x.referenceIndexes :=
    fun _ _ => rfl
  refine (foldl_referenceIndexes hstep _ _).trans ?_
  exact ensureResolvedTargetIndex_referenceIndexes store

/-- With stable positions the ids are the same, and no reference is reported as changed. -/
theorem positionsStable_spec (hu : Updates changed m m') {store : LinkageStore}
    (hpos : Positions (referenceIds reader m) store.indexes.referenceIndexes)
    (hstable : store.positionsStable reader m' (graphDiff reader m m' changed) = true) :
    referenceIds reader m = referenceIds reader m' ∧
      (graphDiff reader m m' changed).changedReferences = [] := by
  simp only [positionsStable, Bool.and_eq_true, List.isEmpty_iff, decide_eq_true_eq] at hstable
  obtain ⟨⟨hremaps, hremoved⟩, hlen⟩ := hstable
  rw [hpos.length_eq (referenceIds_nodup reader m)] at hlen
  have hlen' : (referenceIds reader m).length = (referenceIds reader m').length := by
    rw [hlen, referenceIds, length_map]
  exact referenceIds_of_stable hu hremaps hremoved hlen'

/-- The positions of the new index, and the decisions that are left there. -/
theorem reposition_spec (hu : Updates changed m m') (hm' : m'.Indexed) {store : LinkageStore}
    (hpos : Positions (referenceIds reader m) store.indexes.referenceIndexes)
    (hcovers : Covers (referenceIds reader m) (fun _ => True) store.decisions) :
    Positions (referenceIds reader m')
        (store.reposition reader m' (graphDiff reader m m' changed)).indexes.referenceIndexes ∧
      ∃ keep, Covers (referenceIds reader m') keep
          (store.reposition reader m' (graphDiff reader m m' changed)).decisions ∧
        ∀ i id, (referenceIds reader m')[i]? = some id →
          keep i ∨ id ∈ (graphDiff reader m m' changed).changedReferences := by
  unfold reposition
  split_ifs with hstable
  · obtain ⟨hids, hnone⟩ := positionsStable_spec hu hpos hstable
    rw [hnone, ← hids]
    exact ⟨hpos, fun _ => True, hcovers, fun _ _ _ => Or.inl trivial⟩
  · exact ⟨positions_referenceIndexes reader m', Kept reader m m' changed,
      covers_rebase hu hcovers, fun i id hi => kept_or_changed hu hm' hi⟩

/-- A refresh leaves one decision for each reference of the new index. -/
theorem refreshIncrementalLinkage_spec (hu : Updates changed m m') (hm' : m'.Indexed)
    {store : LinkageStore} (hpos : Positions (referenceIds reader m) store.indexes.referenceIndexes)
    (hcovers : Covers (referenceIds reader m) (fun _ => True) store.decisions)
    (answers : LinkageAnswers symbols) : ∃ store' unchanged,
      store.refreshIncrementalLinkage reader m' symbols (graphDiff reader m m' changed) answers =
        some (store', unchanged) ∧
      Positions (referenceIds reader m') store'.indexes.referenceIndexes ∧
      Covers (referenceIds reader m') (fun _ => True) store'.decisions ∧
      (unchanged = true → referenceIds reader m = referenceIds reader m') := by
  obtain ⟨hpos', keep, hkeep, hchanged⟩ := reposition_spec hu hm' hpos hcovers
  unfold refreshIncrementalLinkage
  dsimp only
  generalize hmoved : (store.reposition reader m'
    (graphDiff reader m m' changed)).ensureResolvedTargetIndex m' symbols = moved
  have hposm : Positions (referenceIds reader m') moved.indexes.referenceIndexes := by
    rwa [← hmoved, ensureResolvedTargetIndex_referenceIndexes]
  have hkeepm : Covers (referenceIds reader m') keep moved.decisions := by
    rwa [← hmoved, ensureResolvedTargetIndex_decisions]
  generalize hstale : moved.staleReferences m' symbols (graphDiff reader m m' changed) answers =
    stale
  have hin : ∀ i id, (referenceIds reader m')[i]? = some id → keep i ∨ i ∈ stale := by
    intro i id hi
    rcases hchanged i id hi with hk | hid
    · exact Or.inl hk
    · refine Or.inr ?_
      rw [← hstale, staleReferences, OrdSet.mem_union, OrdSet.mem_union,
        referencesForIds, OrdSet.mem_ofList, mem_filterMap]
      exact Or.inl (Or.inl ⟨id, hid, (hposm id i).mpr hi⟩)
  have happlied := @covers_applyRefresh reader m' symbols answers moved keep stale hposm hkeepm hin
  split_ifs with hempty
  · refine ⟨_, _, rfl, ?_, happlied, fun hunchanged => ?_⟩
    · rwa [applyRefresh_referenceIndexes]
    · exact (positionsStable_spec hu hpos (Bool.and_eq_true_iff.mp hunchanged).1).1
  · obtain ⟨refined, hrefined, hforall⟩ : ∃ refined, LinkageStore.refineDecisions
        (references reader m')
        (fun id => id ∈ stale.elems.filterMap fun i => ((references reader m')[i]?).map (·.id))
        answers.refinements _ = some refined ∧ _ :=
      refineDecisions_spec answers.refinements _ answers.refinedKnown happlied.placed
    rw [hrefined]
    refine ⟨_, false, rfl, ?_, ?_, by simp⟩
    · rwa [refreshResolvedTargetIndex_referenceIndexes, applyRefresh_referenceIndexes]
    · rw [refreshResolvedTargetIndex_decisions]
      exact happlied.of_refines hforall

end Passes

/-! ## Runs -/

namespace LinkedWorkspace

variable {hash : String → ℕ} {reader : RecordReader}

/-- One decision for each reference, and a report on each. -/
structure Linked (reader : RecordReader) (s : LinkedWorkspace hash) : Prop where
  indexed : s.material.Indexed
  positions : Positions (referenceIds reader s.material) s.store.indexes.referenceIndexes
  covers : Covers (referenceIds reader s.material) (fun _ => True) s.store.decisions
  published : s.snapshot.report.references.Perm (referenceIds reader s.material)
  publishedIds : s.snapshot.referenceIds = referenceIds reader s.material

theorem files_eq_of_updates {m m' : CodeIndexMaterial} (hu : Updates ∅ m m') : m'.files = m.files :=
  ext_getElem? fun f => hu.same f (OrdSet.notMem_empty f)

theorem references_congr {m m' : CodeIndexMaterial} (h : m'.files = m.files) :
    references reader m' = references reader m := by
  rw [references, references, h]

/-- The refresh of a linked workspace completes and leaves it linked. -/
theorem Linked.refreshLinkage {s : LinkedWorkspace hash} (h : Linked reader s)
    (change : IndexChange) (paths : List String) {symbols : SymbolOrdinalCatalog}
    (answers : LinkageAnswers symbols) : ∃ store snapshot,
      s.refreshLinkage reader change paths symbols answers = some (store, snapshot) ∧
      ∀ y : SymbolInventory hash,
        Linked reader ⟨s.material.refresh change, y, store, snapshot⟩ := by
  have hu := s.material.updates_refresh change
  have hm' := h.indexed.refresh change
  unfold LinkedWorkspace.refreshLinkage
  dsimp only
  split_ifs with hempty hfull
  · -- No source has changed, so the references are those of the previous index.
    have hnone : s.material.changedFiles change = ∅ := by
      simp only [LinkageRefreshImpact.isEmpty, linkageImpact, Bool.and_eq_true,
        List.isEmpty_iff] at hempty
      exact OrdSet.eq_empty_iff.mpr fun f hf => by
        have hin := OrdSet.mem_elems.mpr hf
        rw [hempty.1.1.1] at hin
        simp at hin
    rw [hnone] at hu
    have hids : referenceIds reader (s.material.refresh change) =
        referenceIds reader s.material := by
      rw [referenceIds, referenceIds, references_congr (files_eq_of_updates hu)]
    refine ⟨_, _, rfl, fun y => ⟨hm', ?_, ?_, ?_, ?_⟩⟩
    · simpa only [hids] using h.positions
    · simpa only [hids] using h.covers
    · simpa only [hids] using h.published
    · simpa only [hids] using h.publishedIds
  · obtain ⟨store, snapshot, hlink, hpos, hcovers, hperm, hids⟩ := fullLinkage_spec answers
    exact ⟨store, snapshot, hlink, fun y => ⟨hm', hpos, hcovers, hperm, hids⟩⟩
  · obtain ⟨store, unchanged, hlink, hpos, hcovers, hsame⟩ :=
      refreshIncrementalLinkage_spec hu hm' h.positions h.covers answers
    have hdiff : s.store.refreshIncrementalLinkage reader (s.material.refresh change) symbols
        (s.diff reader change) answers = some (store, unchanged) := hlink
    rw [hdiff]
    cases unchanged with
    | true =>
      have hids := hsame rfl
      refine ⟨store, s.snapshot, rfl, fun y => ⟨hm', hpos, hcovers, ?_, ?_⟩⟩
      · simpa only [hids] using h.published
      · simpa only [hids] using h.publishedIds
    | false =>
      obtain ⟨snapshot, hsnapshot, hperm, hids⟩ := projectSnapshot_spec symbols hcovers
      refine ⟨store, snapshot, ?_, fun y => ⟨hm', hpos, hcovers, hperm, hids⟩⟩
      simp [hsnapshot]

theorem Reachable.linked {ok : (s : LinkedWorkspace hash) → IndexChange → List String →
      (symbols : SymbolOrdinalCatalog) → LinkageAnswers symbols → Prop}
    {s : LinkedWorkspace hash} (h : Reachable reader ok s) : Linked reader s := by
  induction h with
  | full hbuild hfull =>
    obtain ⟨store, snapshot, hlink, hpos, hcovers, hperm, hids⟩ := fullLinkage_spec _
    rw [hlink] at hfull
    obtain ⟨rfl, rfl⟩ := Prod.mk.inj (Option.some.inj hfull)
    exact ⟨CodeIndexMaterial.indexed_load _, hpos, hcovers, hperm, hids⟩
  | @edit s change paths y answers store snapshot hs hroots hok hinventory hrefresh ih =>
    obtain ⟨store', snapshot', hlink, hlinked⟩ := ih.refreshLinkage change paths answers
    rw [hlink] at hrefresh
    obtain ⟨rfl, rfl⟩ := Prod.mk.inj (Option.some.inj hrefresh)
    exact hlinked y

/-- After a full linkage and any edits, each with the diff of its own update, the store has
exactly one decision for each reference of the index, at the position of the reference. The
published lists have each reference once, so the classes of the read index are disjoint and
cover the references. -/
theorem one_decision_per_reference {ok : (s : LinkedWorkspace hash) → IndexChange → List String →
      (symbols : SymbolOrdinalCatalog) → LinkageAnswers symbols → Prop}
    {s : LinkedWorkspace hash} (h : Reachable reader ok s) :
    (s.store.decisions.map fun d => (d.reference, d.referenceIdx)).Perm
        (referenceIds reader s.material).zipIdx ∧
      s.snapshot.report.references.Perm (referenceIds reader s.material) ∧
      ∃ hnodup : s.snapshot.report.references.Nodup,
        let c := ReferenceClassificationIndex.fromLinkage (s.snapshot.report.toSnapshot hnodup)
          s.snapshot.referenceIds
        c.classes.Pairwise (fun a b => ∀ o ∈ a, o ∉ b) ∧
          ∀ o, (∃ a ∈ c.classes, o ∈ a) ↔ o < (referenceIds reader s.material).length := by
  have hlinked := h.linked
  have hnd := referenceIds_nodup reader s.material
  have hnodup : s.snapshot.report.references.Nodup := hlinked.published.nodup_iff.mpr hnd
  refine ⟨hlinked.covers.perm hnd, hlinked.published, hnodup, ?_⟩
  rw [hlinked.publishedIds]
  exact ReferenceClassificationIndex.classes_partition hnd hlinked.published hnodup

/-- Every definition is navigable and lies on the first line. -/
def plainReader : RecordReader :=
  ⟨"code+moniker".toList, (·.path), fun _ _ => true, fun _ _ => (1, 1)⟩

/-- No reference is resolved. -/
def undecided (symbols : SymbolOrdinalCatalog) : LinkageAnswers symbols where
  resolveReference _ _ := .unknown .noCandidate
  refinements := []
  candidate _ := none
  stale := ∅
  known := by simp [LinkageOutcome.targets, LinkageOutcome.linkageTargets]
  refinedKnown := by simp

/-- Two files are linked, then the second is removed. -/
theorem one_decision_per_reference_include : ∃ s : LinkedWorkspace String.length,
    s.material = afterRemoval "util.py" .python ∧ Reachable plainReader (fun _ _ _ _ _ => True) s ∧
      (s.store.decisions.map fun d => (d.reference, d.referenceIdx)).Perm [(⟨0, 0⟩, 0)] := by
  let m := twoFiles "util.py" .python
  obtain ⟨y, hy⟩ := Option.isSome_iff_exists.mp (by decide +kernel :
    ((SymbolInventory.build String.length (sourceRecords plainReader m)
      (symbolTable plainReader m)).bind fun x => x.refresh
        (sourceRecords plainReader (m.refresh removeSecond))
        (symbolTable plainReader (m.refresh removeSecond)) (m.changedFiles removeSecond)).isSome)
  obtain ⟨x, hx, hrefresh⟩ := Option.bind_eq_some_iff.mp hy
  obtain ⟨store, snapshot, hfull, -⟩ : ∃ store snapshot, LinkageStore.fullLinkage plainReader
      m x.catalog (undecided x.catalog) = some (store, snapshot) ∧ _ :=
    fullLinkage_spec (undecided x.catalog)
  have hstart : Reachable plainReader (fun _ _ _ _ _ => True)
      (⟨m, x, store, snapshot⟩ : LinkedWorkspace String.length) := .full hx hfull
  have hroots : KeepsRoots m removeSecond := by
    intro i slot hslot
    rcases mem_pair.mp (mem_of_getElem? hslot) with rfl | rfl
    · rfl
    · rfl
  obtain ⟨store', snapshot', hlink, -⟩ :=
    hstart.linked.refreshLinkage removeSecond ["util.py"] (undecided y.catalog)
  have hreach := Reachable.edit hstart hroots trivial hrefresh hlink
  exact ⟨_, rfl, hreach, (one_decision_per_reference hreach).1⟩

end LinkedWorkspace

end CodeMoniker
