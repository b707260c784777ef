import CodeMoniker.CodeGraphBuild
import CodeMoniker.StableSort

/-!
# Invariant of a graph under construction

A graph keeps, beside its definitions and references, an index from moniker to definition
that lookups rebuild when its size is off, and two caches of sorted monikers that the
mutations drop. `CodeGraph.apply` is one call on the graph, failing calls included, and
`CodeGraph.runOps` a sequence of calls after `CodeGraph::new`.

`CodeGraph.Consistent` says what all of this has to do with the definitions and references :
the index is the linear search, monikers are distinct, parents come before their children
and are proper ancestors, and a filled cache is the sorted list of the current state. Every
call keeps it (`CodeGraph.Consistent.apply`), so it holds after any sequence of calls
(`CodeGraph.construction_invariant`).
-/

namespace CodeMoniker

open List ByteCodec

namespace CodeGraph

/-! ## Calls -/

/-- The first definition with the moniker. -/
def linearFind (g : CodeGraph) (m : Moniker) : Option ℕ := g.defs.findIdx? (·.moniker = m)

def contains (g : CodeGraph) (m : Moniker) : Bool := (g.findDef m).isSome

/-- The outer `none` stands for the index out of range. -/
def locate (g : CodeGraph) (m : Moniker) : Option (Option Position) :=
  match g.findDef m with
  | none => some none
  | some i => (g.defAt i).map (·.position)

variable (l : List Moniker)

/-- Sorted by the encoded bytes. -/
def sortMonikers : List Moniker :=
  StableSort.stableSort (fun m => m.bytes.map UInt8.toNat) l

/-- The sorted monikers of the definitions, from the cache or into it. -/
def defMonikers (g : CodeGraph) : List Moniker × CodeGraph :=
  match g.defMonikersCache with
  | some cached => (cached, g)
  | none =>
    let sorted := sortMonikers (g.defs.map (·.moniker))
    (sorted, { g with defMonikersCache := some sorted })

/-- The sorted targets of the references, from the cache or into it. -/
def refTargets (g : CodeGraph) : List Moniker × CodeGraph :=
  match g.refTargetsCache with
  | some cached => (cached, g)
  | none =>
    let sorted := sortMonikers (g.refs.map (·.target))
    (sorted, { g with refTargetsCache := some sorted })

inductive GraphOp where
  | addDef (moniker : Moniker) (kind : Bytes) (parent : Moniker) (position : Option Position)
      (attrs : DefAttrs)
  | addRef (source target : Moniker) (kind : Bytes) (position : Option Position)
      (attrs : RefAttrs)
  | setDefCallMetadata (moniker : Moniker) (callName : Bytes) (callArity : ℕ)
  | defMonikers
  | refTargets

/-- The graph after a call, and the error that it returns. A failing call has only looked
into the index. -/
def apply (g : CodeGraph) : GraphOp → CodeGraph × Option GraphError
  | .addDef moniker kind parent position attrs =>
    match g.addDefAttrs moniker kind parent position attrs with
    | .ok g' => (g', none)
    | .error e => (g.withIndex, some e)
  | .addRef source target kind position attrs =>
    match g.addRefAttrs source target kind position attrs with
    | .ok g' => (g', none)
    | .error e => (g.withIndex, some e)
  | .setDefCallMetadata moniker callName callArity =>
    (g.setDefCallMetadata moniker callName callArity, none)
  | .defMonikers => (g.defMonikers.2, none)
  | .refTargets => (g.refTargets.2, none)

def runOps (root : Moniker) (kind : Bytes) (ops : List GraphOp) : CodeGraph :=
  ops.foldl (fun g op => (g.apply op).1) (withRoot root kind)

/-! ## Invariant -/

/-- `d` lies below an earlier definition that is a proper ancestor. -/
def HasOwner (g : CodeGraph) (i : ℕ) (d : DefRecord) : Prop :=
  ∃ p owner, d.parent = some p ∧ p < i ∧ g.defs[p]? = some owner ∧
    owner.moniker.isAncestorOf d.moniker = true ∧ owner.moniker ≠ d.moniker

structure Consistent (g : CodeGraph) : Prop where
  sized : g.index.entries.length = g.defs.length
  indexed : ∀ m, g.index.lookup m = g.linearFind m
  distinct : (g.defs.map (·.moniker)).Nodup
  root : ∃ d, g.defs[0]? = some d ∧ d.parent = none
  owned : ∀ i d, g.defs[i]? = some d → i ≠ 0 → HasOwner g i d
  sources : ∀ r ∈ g.refs, r.source < g.defs.length
  defCache : ∀ v ∈ g.defMonikersCache, v = sortMonikers (g.defs.map (·.moniker))
  refCache : ∀ v ∈ g.refTargetsCache, v = sortMonikers (g.refs.map (·.target))

theorem linearFind_eq_map (g : CodeGraph) (m : Moniker) :
    g.linearFind m = (g.defs.map (·.moniker)).findIdx? (· = m) := by
  rw [linearFind, findIdx?_map]
  rfl

variable {g : CodeGraph}

theorem linearFind_eq_none {m : Moniker} : g.linearFind m = none ↔ m ∉ g.defs.map (·.moniker) := by
  simp [linearFind, findIdx?_eq_none_iff]

theorem linearFind_eq_some {m : Moniker} {i : ℕ} (h : g.linearFind m = some i) :
    ∃ d, g.defs[i]? = some d ∧ d.moniker = m := by
  obtain ⟨hlt, hm, -⟩ := findIdx?_eq_some_iff_getElem.mp h
  exact ⟨g.defs[i], getElem?_eq_getElem hlt, by simpa using hm⟩

theorem Consistent.withIndex_eq (h : Consistent g) : g.withIndex = g :=
  if_pos h.sized

theorem Consistent.findDef (h : Consistent g) (m : Moniker) : g.findDef m = g.linearFind m := by
  rw [CodeGraph.findDef, h.withIndex_eq, h.indexed]

theorem consistent_withRoot (root : Moniker) (kind : Bytes) : Consistent (withRoot root kind) := by
  refine ⟨rfl, fun m => ?_, nodup_singleton _, ⟨_, rfl, rfl⟩, ?_, by simp [withRoot],
    by simp [withRoot], by simp [withRoot]⟩
  · by_cases hm : m = root
    · subst hm
      simp only [withRoot, AList.lookup_insert]
      simp [linearFind]
    · simp only [withRoot, AList.lookup_insert_ne hm]
      simp [linearFind, Ne.symm hm]
  · intro i d hd hi
    cases i with
    | zero => exact absurd rfl hi
    | succ i => simp [withRoot] at hd

variable {g g' : CodeGraph}

/-- Definitions at the end leave the owners of the earlier ones in place. -/
theorem HasOwner.append {i : ℕ} {d : DefRecord} {defs : List DefRecord}
    (h : HasOwner g i d) (hg' : g'.defs = g.defs ++ defs) : HasOwner g' i d := by
  obtain ⟨p, owner, hp, hlt, howner, hanc, hne⟩ := h
  have hin : p < g.defs.length := (List.getElem?_eq_some_iff.mp howner).1
  exact ⟨p, owner, hp, hlt, by rwa [hg', getElem?_append_left hin], hanc, hne⟩

theorem Consistent.addDefAttrs {moniker parent : Moniker} {kind : Bytes}
    {position : Option Position} {attrs : DefAttrs} (h : Consistent g)
    (hadd : g.addDefAttrs moniker kind parent position attrs = .ok g') : Consistent g' := by
  unfold CodeGraph.addDefAttrs at hadd
  simp only [h.findDef, h.withIndex_eq] at hadd
  split_ifs at hadd with hdup hanc
  split at hadd
  · cases hadd
  · next parentIdx hparent =>
    obtain rfl := Except.ok.inj hadd
    have hnew : g.linearFind moniker = none := by simpa using hdup
    have hfresh : moniker ∉ g.defs.map (·.moniker) := linearFind_eq_none.mp hnew
    obtain ⟨owner, howner, rfl⟩ := linearFind_eq_some hparent
    have hlt : parentIdx < g.defs.length := (List.getElem?_eq_some_iff.mp howner).1
    have hkey : moniker ∉ g.index := by
      rw [← AList.lookup_eq_none, h.indexed, hnew]
    refine ⟨?_, fun m => ?_, ?_, ?_, ?_, ?_, by simp, h.refCache⟩
    · rw [AList.entries_insert_of_notMem hkey, length_cons, h.sized, length_append]
      rfl
    · simp only [linearFind, findIdx?_append]
      by_cases hm : m = moniker
      · subst hm
        rw [AList.lookup_insert]
        simp only [linearFind] at hnew
        simp [hnew, addedDef]
      · rw [AList.lookup_insert_ne hm, h.indexed]
        simp [linearFind, addedDef, Ne.symm hm]
    · simp only [map_append, map_cons, map_nil]
      exact h.distinct.append (nodup_singleton _) (by simpa [addedDef] using hfresh)
    · obtain ⟨d, hd, hnone⟩ := h.root
      exact ⟨d, by rw [getElem?_append_left (by omega), hd], hnone⟩
    · intro i d hd hi
      rcases Nat.lt_or_ge i g.defs.length with hold | hend
      · rw [getElem?_append_left hold] at hd
        exact (h.owned i d hd hi).append rfl
      · rw [getElem?_append_right hend] at hd
        obtain ⟨hzero, rfl⟩ : i - g.defs.length = 0 ∧ _ = d := by
          have := (List.getElem?_eq_some_iff.mp hd).1
          simp only [length_singleton] at this
          have hz : i - g.defs.length = 0 := by omega
          rw [hz] at hd
          exact ⟨hz, Option.some.inj hd⟩
        refine ⟨parentIdx, owner, rfl, by omega, ?_, hanc, ?_⟩
        · simp only [getElem?_append_left hlt, howner]
        · intro heq
          have hmem : owner.moniker ∈ g.defs.map (·.moniker) :=
            mem_map_of_mem (mem_of_getElem? howner)
          rw [heq] at hmem
          exact hfresh hmem
    · intro r hr
      have := h.sources r hr
      simp only [length_append, length_singleton]
      omega

theorem Consistent.addRefAttrs {source target : Moniker} {kind : Bytes}
    {position : Option Position} {attrs : RefAttrs} (h : Consistent g)
    (hadd : g.addRefAttrs source target kind position attrs = .ok g') : Consistent g' := by
  unfold CodeGraph.addRefAttrs at hadd
  simp only [h.findDef, h.withIndex_eq] at hadd
  split at hadd
  · cases hadd
  · next sourceIdx hsource =>
    obtain rfl := Except.ok.inj hadd
    obtain ⟨d, hd, -⟩ := linearFind_eq_some hsource
    refine ⟨h.sized, h.indexed, h.distinct, h.root, h.owned, ?_, h.defCache, by simp⟩
    intro r hr
    rcases mem_append.mp hr with hr | hr
    · exact h.sources r hr
    · obtain rfl := mem_singleton.mp hr
      exact (List.getElem?_eq_some_iff.mp hd).1

/-- What the invariant reads of a definition. -/
def shape (d : DefRecord) : Moniker × Option ℕ := (d.moniker, d.parent)

/-- New data in definitions, references and caches left alone. -/
theorem Consistent.of_shape (h : Consistent g)
    (hdefs : g'.defs.map shape = g.defs.map shape) (hrefs : g'.refs = g.refs)
    (hindex : g'.index = g.index) (hdefCache : g'.defMonikersCache = g.defMonikersCache)
    (hrefCache : g'.refTargetsCache = g.refTargetsCache) : Consistent g' := by
  have hmonikers : g'.defs.map (·.moniker) = g.defs.map (·.moniker) := by
    have := congrArg (List.map Prod.fst) hdefs
    simpa only [map_map, Function.comp_def, shape] using this
  have hlen : g'.defs.length = g.defs.length := by simpa using congrArg List.length hdefs
  have hget : ∀ i, (g'.defs[i]?).map shape = (g.defs[i]?).map shape := fun i => by
    rw [← getElem?_map, hdefs, getElem?_map]
  refine ⟨by rw [hindex, hlen, h.sized], fun m => ?_, hmonikers ▸ h.distinct, ?_, ?_, ?_, ?_, ?_⟩
  · rw [hindex, h.indexed, linearFind_eq_map, linearFind_eq_map, hmonikers]
  · obtain ⟨d₀, hd₀, hnone⟩ := h.root
    obtain ⟨d, hd, hshape⟩ := Option.map_eq_some_iff.mp ((hget 0).trans (by rw [hd₀]; rfl))
    exact ⟨d, hd, (Prod.mk.inj hshape).2.trans hnone⟩
  · intro i d hd hi
    obtain ⟨d₀, hd₀, hshape⟩ := Option.map_eq_some_iff.mp ((hget i).symm.trans (by rw [hd]; rfl))
    obtain ⟨hm, hp⟩ := Prod.mk.inj hshape
    obtain ⟨p, owner₀, hparent, hlt, howner₀, hanc, hne⟩ := h.owned i d₀ hd₀ hi
    obtain ⟨owner, howner, hshape'⟩ :=
      Option.map_eq_some_iff.mp ((hget p).trans (by rw [howner₀]; rfl))
    obtain ⟨hm', -⟩ := Prod.mk.inj hshape'
    exact ⟨p, owner, hp ▸ hparent, hlt, howner, by rwa [hm', ← hm], by rwa [hm', ← hm]⟩
  · intro r hr
    rw [hlen]
    exact h.sources r (hrefs ▸ hr)
  · intro v hv
    rw [hmonikers]
    exact h.defCache v (hdefCache ▸ hv)
  · intro v hv
    rw [hrefs]
    exact h.refCache v (hrefCache ▸ hv)

theorem Consistent.setDefCallMetadata (h : Consistent g) (moniker : Moniker)
    (callName : Bytes) (callArity : ℕ) :
    Consistent (g.setDefCallMetadata moniker callName callArity) := by
  unfold CodeGraph.setDefCallMetadata
  split
  · rwa [h.withIndex_eq]
  · rw [h.withIndex_eq]
    refine h.of_shape ?_ rfl rfl rfl rfl
    apply ext_getElem?
    intro i
    simp only [getElem?_map, getElem?_modify, Option.map_eq_map, Option.map_map]
    congr 1
    funext d
    simp only [Function.comp_apply]
    split_ifs <;> rfl

theorem Consistent.defMonikers (h : Consistent g) :
    g.defMonikers.1 = sortMonikers (g.defs.map (·.moniker)) ∧ Consistent g.defMonikers.2 := by
  unfold CodeGraph.defMonikers
  split
  · next cached hcached => exact ⟨h.defCache cached hcached, h⟩
  · exact ⟨rfl, { h with defCache := by simp }⟩

theorem Consistent.refTargets (h : Consistent g) :
    g.refTargets.1 = sortMonikers (g.refs.map (·.target)) ∧ Consistent g.refTargets.2 := by
  unfold CodeGraph.refTargets
  split
  · next cached hcached => exact ⟨h.refCache cached hcached, h⟩
  · exact ⟨rfl, { h with refCache := by simp }⟩

/-! ## Runs -/

/-- One call keeps the invariant, whether it fails or not. -/
theorem Consistent.apply (h : Consistent g) (op : GraphOp) : Consistent (g.apply op).1 := by
  cases op with
  | addDef moniker kind parent position attrs =>
    simp only [CodeGraph.apply]
    split
    · next g' hg' => exact h.addDefAttrs hg'
    · rwa [h.withIndex_eq]
  | addRef source target kind position attrs =>
    simp only [CodeGraph.apply]
    split
    · next g' hg' => exact h.addRefAttrs hg'
    · rwa [h.withIndex_eq]
  | setDefCallMetadata moniker callName callArity =>
    exact h.setDefCallMetadata moniker callName callArity
  | defMonikers => exact h.defMonikers.2
  | refTargets => exact h.refTargets.2

theorem consistent_foldl (h : Consistent g) (ops : List GraphOp) :
    Consistent (ops.foldl (fun g op => (g.apply op).1) g) := by
  induction ops generalizing g with
  | nil => exact h
  | cons op ops ih => exact ih (h.apply op)

theorem consistent_runOps (root : Moniker) (kind : Bytes) (ops : List GraphOp) :
    Consistent (runOps root kind ops) :=
  consistent_foldl (consistent_withRoot root kind) ops

/-- A failing call leaves a consistent graph as it was. -/
theorem Consistent.apply_error (h : Consistent g) {op : GraphOp} {e : GraphError}
    (herr : (g.apply op).2 = some e) : (g.apply op).1 = g := by
  cases op with
  | addDef moniker kind parent position attrs =>
    simp only [CodeGraph.apply] at herr ⊢
    split at herr
    · cases herr
    · exact h.withIndex_eq
  | addRef source target kind position attrs =>
    simp only [CodeGraph.apply] at herr ⊢
    split at herr
    · cases herr
    · exact h.withIndex_eq
  | setDefCallMetadata => cases herr
  | defMonikers => cases herr
  | refTargets => cases herr

theorem perm_sortMonikers : (sortMonikers l).Perm l :=
  perm_insertionSort _ l

theorem pairwise_sortMonikers :
    (sortMonikers l).Pairwise fun a b => a.bytes.map UInt8.toNat ≤ b.bytes.map UInt8.toNat :=
  StableSort.sorted_stableSort

theorem isSome_linearFind (g : CodeGraph) (m : Moniker) :
    (g.linearFind m).isSome = g.defs.any (·.moniker = m) := by
  rw [linearFind, findIdx?_isSome]

theorem bind_linearFind (g : CodeGraph) (m : Moniker) :
    (g.linearFind m).bind g.defAt = g.defs.find? (·.moniker = m) := by
  rw [linearFind, find?_eq_bind_findIdx?_getElem?]
  rfl

theorem Consistent.locate (h : Consistent g) (m : Moniker) :
    g.locate m = some ((g.defs.find? (·.moniker = m)).bind (·.position)) := by
  unfold CodeGraph.locate
  rw [h.findDef, ← bind_linearFind]
  split
  · next hnone => simp [hnone]
  · next i hi =>
    obtain ⟨d, hd, -⟩ := linearFind_eq_some hi
    have hat : g.defAt i = some d := hd
    simp [hi, hat]

/-- After any calls on a new graph : monikers are distinct, every definition but the root
lies below an earlier one that is a proper ancestor of it, references leave from
definitions, the three lookups are linear searches of the definitions, the two sorted lists
are those of the current graph, and a call that returns an error changes nothing that can
be seen. -/
theorem construction_invariant (root : Moniker) (kind : Bytes) (ops : List GraphOp) :
    let g := runOps root kind ops
    (g.defs.map (·.moniker)).Nodup ∧
    (∀ i d, g.defs[i]? = some d → i ≠ 0 →
      ∃ p owner, d.parent = some p ∧ p < i ∧ g.defs[p]? = some owner ∧
        owner.moniker.isAncestorOf d.moniker = true ∧ owner.moniker ≠ d.moniker) ∧
    (∀ r ∈ g.refs, r.source < g.defs.length) ∧
    (∀ m, g.findDef m = g.defs.findIdx? (·.moniker = m) ∧
      g.contains m = g.defs.any (·.moniker = m) ∧
      g.locate m = some ((g.defs.find? (·.moniker = m)).bind (·.position))) ∧
    (g.defMonikers.1.Perm (g.defs.map (·.moniker)) ∧
      g.defMonikers.1.Pairwise fun a b => a.bytes.map UInt8.toNat ≤ b.bytes.map UInt8.toNat) ∧
    (g.refTargets.1.Perm (g.refs.map (·.target)) ∧
      g.refTargets.1.Pairwise fun a b => a.bytes.map UInt8.toNat ≤ b.bytes.map UInt8.toNat) ∧
    ∀ op e, (g.apply op).2 = some e →
      (g.apply op).1.defs = g.defs ∧ (g.apply op).1.refs = g.refs ∧
        ∀ m, (g.apply op).1.findDef m = g.findDef m ∧ (g.apply op).1.contains m = g.contains m ∧
          (g.apply op).1.locate m = g.locate m := by
  intro g
  have h : Consistent g := consistent_runOps root kind ops
  refine ⟨h.distinct, h.owned, h.sources, fun m => ⟨h.findDef m, ?_, h.locate m⟩, ?_, ?_, ?_⟩
  · rw [contains, h.findDef, isSome_linearFind]
  · rw [h.defMonikers.1]
    exact ⟨perm_sortMonikers _, pairwise_sortMonikers _⟩
  · rw [h.refTargets.1]
    exact ⟨perm_sortMonikers _, pairwise_sortMonikers _⟩
  · intro op e herr
    rw [h.apply_error herr]
    exact ⟨rfl, rfl, fun m => ⟨rfl, rfl, rfl⟩⟩

end CodeGraph

end CodeMoniker
