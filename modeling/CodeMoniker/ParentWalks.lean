import CodeMoniker.FuelLoops
import CodeMoniker.CodeGraphImage
import CodeMoniker.CodeGraphInvariant

/-!
# Walks along the parents of a graph

The evaluator climbs from a definition to its ancestors and gathers their references
(`CodeGraph.ancestorRefIndexes`), and the layout rules go down to the descendants of a
definition (`CodeGraph.descendantIdxs`). Neither loop marks what it has seen. In a built
graph the parent of a definition comes before it (`CodeGraph.Consistent.acyclic`). The
reader of stored graphs only checks that a parent is some definition, so the two loops come
to an end on what it returns exactly when the parent words in the bytes form no cycle
(`decode_walks_end_iff`). The places of these words follow from the lengths that stand before
them (`parentOffset`, `defEnd`).
-/

namespace CodeMoniker

open Option ByteCodec FuelLoops

namespace CodeGraph

/-! ## The tables of the evaluator -/

def parentOf (g : CodeGraph) (i : ℕ) : Option ℕ := (g.defAt i).bind (·.parent)

def childrenByParent (g : CodeGraph) (p : ℕ) : Option (List ℕ) :=
  let children := (g.defs.zipIdx.filter fun d => d.1.parent = some p).map (·.2)
  if children = [] then none else some children

def outRefsBySource (g : CodeGraph) (i : ℕ) : Option (List ℕ) :=
  let refs := (g.refs.zipIdx.filter fun r => r.1.source = i).map (·.2)
  if refs = [] then none else some refs

def inRefsByTarget (g : CodeGraph) (target : Bytes) : Option (List ℕ) :=
  let refs := (g.refs.zipIdx.filter fun r => r.1.target.bytes = target).map (·.2)
  if refs = [] then none else some refs

/-! ## The two walks -/

/-- The loop of `ancestor_ref_indexes`, at the next parent. -/
def ancestorLoop (g : CodeGraph) (outgoing : Bool) : ℕ → List ℕ → Option ℕ → Run (List ℕ)
  | 0, _, _ => .running
  | _ + 1, items, none => .done items
  | fuel + 1, items, some idx =>
    match g.defAt idx with
    | none => .panic
    | some d =>
      let refs := if outgoing then g.outRefsBySource idx else g.inRefsByTarget d.moniker.bytes
      ancestorLoop g outgoing fuel (items ++ refs.getD []) d.parent

def ancestorRefIndexes (g : CodeGraph) (outgoing : Bool) (fuel defIdx : ℕ) : Run (List ℕ) :=
  match g.defAt defIdx with
  | none => .panic
  | some d => ancestorLoop g outgoing fuel [] d.parent

def descendantIdxs (g : CodeGraph) (fuel ownerIdx : ℕ) : Run (Option (List ℕ)) :=
  match g.childrenByParent ownerIdx with
  | none => .done none
  | some directChildren =>
    match queueLoop (fun i => (g.childrenByParent i).getD []) fuel [] directChildren with
    | .done descendants => .done (some descendants)
    | .panic => .panic
    | .running => .running

variable {g : CodeGraph}

theorem mem_childrenByParent {c p : ℕ} :
    c ∈ (g.childrenByParent p).getD [] ↔ g.parentOf c = some p := by
  have hmem : c ∈ (g.defs.zipIdx.filter fun d => d.1.parent = some p).map (·.2) ↔
      g.parentOf c = some p := by
    simp only [List.mem_map, List.mem_filter, decide_eq_true_eq, parentOf, defAt, bind_eq_some_iff]
    constructor
    · rintro ⟨⟨d, i⟩, ⟨hd, hp⟩, rfl⟩
      exact ⟨d, List.mk_mem_zipIdx_iff_getElem?.mp hd, hp⟩
    · rintro ⟨d, hd, hp⟩
      exact ⟨(d, c), ⟨List.mk_mem_zipIdx_iff_getElem?.mpr hd, hp⟩, rfl⟩
  simp only [childrenByParent]
  split_ifs with hnil
  · rw [← hmem, hnil]
    simp
  · simpa using hmem

/-! ## The walks on well-formed graphs -/

/-- Parents are definitions. -/
def ParentsInRange (g : CodeGraph) : Prop := ∀ i p, g.parentOf i = some p → p < g.defs.length

/-- No definition is its own ancestor. -/
def ParentsAcyclic (g : CodeGraph) : Prop := Acyclic fun c p => g.parentOf c = some p

theorem parentOf_lt {i p : ℕ} (h : g.parentOf i = some p) : i < g.defs.length := by
  obtain ⟨d, hd, -⟩ := bind_eq_some_iff.mp h
  exact (List.getElem?_eq_some_iff.mp hd).1

theorem ParentsAcyclic.wellFounded (h : ParentsAcyclic g)
    (hrange : ParentsInRange g) : WellFounded fun p c => g.parentOf c = some p :=
  wellFounded_of_acyclic (Set.finite_Iio g.defs.length)
    (fun p c hp => ⟨hrange c p hp, parentOf_lt hp⟩) h.swap

theorem ParentsAcyclic.wellFounded_children (h : ParentsAcyclic g)
    (hrange : ParentsInRange g) : WellFounded fun c p => g.parentOf c = some p :=
  wellFounded_of_acyclic (Set.finite_Iio g.defs.length)
    (fun c p hp => ⟨parentOf_lt hp, hrange c p hp⟩) h

theorem ancestorLoop_done (hrange : ParentsInRange g) (outgoing : Bool) {i : ℕ}
    (h : Ends g.parentOf i) (items : List ℕ) : i < g.defs.length →
      ∃ fuel result, ancestorLoop g outgoing fuel items (g.parentOf i) = .done result := by
  induction h generalizing items with
  | last h => exact fun _ => ⟨1, items, by rw [h]; rfl⟩
  | @step i p h _ ih =>
    intro _
    have hlt : p < g.defs.length := hrange i p h
    have hd : g.defAt p = some g.defs[p] := List.getElem?_eq_getElem hlt
    have hparent : g.parentOf p = g.defs[p].parent := by rw [parentOf, hd]; rfl
    obtain ⟨fuel, result, hresult⟩ := ih (items ++ (if outgoing then g.outRefsBySource p
      else g.inRefsByTarget g.defs[p].moniker.bytes).getD []) hlt
    refine ⟨fuel + 1, result, ?_⟩
    rw [h, ancestorLoop, hd]
    rw [hparent] at hresult
    exact hresult

theorem ancestorRefIndexes_done (hrange : ParentsInRange g) (outgoing : Bool)
    {i : ℕ} (h : Ends g.parentOf i) (hi : i < g.defs.length) :
    ∃ fuel items, g.ancestorRefIndexes outgoing fuel i = .done items := by
  obtain ⟨fuel, items, hitems⟩ := ancestorLoop_done hrange outgoing h [] hi
  have hd : g.defAt i = some g.defs[i] := List.getElem?_eq_getElem hi
  refine ⟨fuel, items, ?_⟩
  rw [parentOf, hd] at hitems
  rw [ancestorRefIndexes, hd]
  exact hitems

theorem descendantIdxs_done (hwf : WellFounded fun c p => g.parentOf c = some p)
    (owner : ℕ) : ∃ fuel result, g.descendantIdxs fuel owner = .done result := by
  have hwf' : WellFounded fun c p => c ∈ (g.childrenByParent p).getD [] := by
    simpa only [mem_childrenByParent] using hwf
  unfold descendantIdxs
  cases g.childrenByParent owner with
  | none => exact ⟨0, none, rfl⟩
  | some children =>
    obtain ⟨fuel, result, hresult⟩ := queueLoop_done hwf' [] children
    exact ⟨fuel, some result, by simp only [hresult]⟩

/-- The parents of a built graph come before their children. -/
theorem Consistent.acyclic (h : Consistent g) : ParentsAcyclic g := by
  refine acyclic_of_lt fun c p hp => ?_
  obtain ⟨d, hd, hparent⟩ := bind_eq_some_iff.mp hp
  have hc : c ≠ 0 := by
    rintro rfl
    obtain ⟨root, hroot, hnone⟩ := h.root
    obtain rfl := some.inj (hd.symm.trans hroot)
    rw [hnone] at hparent
    cases hparent
  obtain ⟨p', _, hp', hlt, -⟩ := h.owned c d hd hc
  obtain rfl := some.inj (hparent.symm.trans hp')
  exact hlt

end CodeGraph

namespace CodeGraphEncoding

open CodeGraph

theorem parentsInRange_of_decode {buf : Bytes} {g : CodeGraph} (h : decode buf = .ok g) :
    ParentsInRange g := by
  intro i p hp
  obtain ⟨d, hd, hparent⟩ := bind_eq_some_iff.mp hp
  exact ((storable_of_decode h).defs d (List.mem_of_getElem? hd)).parent p hparent

/-! ## The parents in the bytes -/

variable (buf : Bytes)

/-- A definition at `off` has its parent behind its moniker and its kind. -/
def parentOffset (off : ℕ) : ℕ := fieldEnd 1 buf (fieldEnd 4 buf off)

/-- Behind the parent come the position, the visibility, the signature, the name and the arity of
a call, the binding and the origin. -/
def defEnd (off : ℕ) : ℕ :=
  let visibility := parentOffset buf off + 4 + (4 + 4)
  let callArity := fieldEnd 1 buf (fieldEnd 2 buf (fieldEnd 1 buf visibility))
  fieldEnd 1 buf (fieldEnd 1 buf (callArity + 2))

def defOffset (i : ℕ) : ℕ := (defEnd buf)^[i] headerLen

/-- Among the definitions that the header counts, `c` is stored with the parent `p`. -/
def StoredParent (c p : ℕ) : Prop :=
  c < wordAt 4 buf 4 ∧ wordAt 4 buf (parentOffset buf (defOffset buf c)) = p ∧ p ≠ noneU32

theorem readMoniker_eq_ok {buf : Bytes} {off : ℕ} {m : Moniker} {cur' : Cursor}
    (h : readMoniker ⟨buf, off⟩ = .ok (m, cur')) : cur' = ⟨buf, fieldEnd 4 buf off⟩ := by
  obtain ⟨_, _, hlen, h⟩ := Reader.bind_eq_ok.mp h
  obtain ⟨_, _, hbytes, hlift⟩ := Reader.bind_eq_ok.mp h
  obtain ⟨rfl, rfl⟩ := word_eq_ok hlen
  obtain rfl := take_eq_ok hbytes
  exact lift_eq_ok hlift

theorem decodeDef_eq_ok {buf : Bytes} {n off : ℕ} {d : DefRecord} {cur' : Cursor}
    (h : decodeDef n ⟨buf, off⟩ = .ok (d, cur')) : cur' = ⟨buf, defEnd buf off⟩ ∧
      ∀ p, d.parent = some p ↔ wordAt 4 buf (parentOffset buf off) = p ∧ p ≠ noneU32 := by
  simp only [decodeDef, Reader.bind_eq_ok] at h
  obtain ⟨_, _, hmoniker, _, _, hkind, parent, _, hparent, _, _, hreject, _, _, hposition, _, _,
    hvisibility, _, _, hsignature, _, _, hcallName, _, _, hcallArity, _, _, hbinding, _, _, horigin,
    hd⟩ := h
  obtain ⟨rfl, rfl⟩ := Prod.mk.inj (Except.ok.inj hd)
  obtain rfl := readMoniker_eq_ok hmoniker
  obtain rfl := field_eq_ok hkind
  obtain ⟨_, _, hword, hp⟩ := Reader.bind_eq_ok.mp hparent
  obtain ⟨rfl, rfl⟩ := word_eq_ok hword
  obtain ⟨rfl, rfl⟩ := Prod.mk.inj (Except.ok.inj hp)
  obtain rfl := reject_eq_ok hreject
  obtain ⟨_, _, hstart, hp⟩ := Reader.bind_eq_ok.mp hposition
  obtain ⟨-, rfl⟩ := word_eq_ok hstart
  obtain ⟨_, _, hend, hp⟩ := Reader.bind_eq_ok.mp hp
  obtain ⟨-, rfl⟩ := word_eq_ok hend
  obtain ⟨-, rfl⟩ := Prod.mk.inj (Except.ok.inj hp)
  obtain rfl := field_eq_ok hvisibility
  obtain rfl := field_eq_ok hsignature
  obtain rfl := field_eq_ok hcallName
  obtain ⟨_, _, hword, hp⟩ := Reader.bind_eq_ok.mp hcallArity
  obtain ⟨-, rfl⟩ := word_eq_ok hword
  obtain ⟨-, rfl⟩ := Prod.mk.inj (Except.ok.inj hp)
  obtain rfl := field_eq_ok hbinding
  refine ⟨field_eq_ok horigin, fun p => ?_⟩
  simp only [ite_none_left_eq_some, some.injEq]
  constructor
  · rintro ⟨hsome, rfl⟩
    exact ⟨rfl, hsome⟩
  · rintro ⟨rfl, hsome⟩
    exact ⟨hsome, rfl⟩

theorem storedParent_iff {buf : Bytes} {g : CodeGraph} (h : decode buf = .ok g) {c p : ℕ} :
    StoredParent buf c p ↔ g.parentOf c = some p := by
  obtain ⟨-, -, defCount, refCount, cur, hcount, -, hrecords, -⟩ := decode_eq_ok h
  obtain ⟨defs, mid, hdefs, hrefs⟩ := Reader.bind_eq_ok.mp hrecords
  obtain ⟨refs, _, -, hpair⟩ := Reader.bind_eq_ok.mp hrefs
  obtain ⟨rfl, -⟩ := Prod.mk.inj (Prod.mk.inj (Except.ok.inj hpair)).1
  have hlen := ((Yields.trivial (decodeDef defCount)).times defCount _ _ _ hdefs).1
  obtain rfl := readLE_eq_ok hcount
  have hread : ∀ d, g.defs[c]? = some d →
      (d.parent = some p ↔ wordAt 4 buf (parentOffset buf (defOffset buf c)) = p ∧ p ≠ noneU32) := by
    intro d hd
    obtain ⟨_, hdef⟩ := times_getElem? (fun h => (decodeDef_eq_ok h).1) hdefs hd
    exact (decodeDef_eq_ok hdef).2 p
  rw [StoredParent, parentOf, bind_eq_some_iff, ← hlen]
  constructor
  · rintro ⟨hc, hword⟩
    have hd := List.getElem?_eq_getElem hc
    exact ⟨_, hd, (hread _ hd).mpr hword⟩
  · rintro ⟨d, hd, hparent⟩
    exact ⟨(List.getElem?_eq_some_iff.mp hd).1, (hread d hd).mp hparent⟩

/-- Following the parents of any definition comes to one without a parent, and the walk to the
ancestors and the walk to the descendants of any definition come to an end. -/
structure WalksEnd (g : CodeGraph) : Prop where
  parents : ∀ i < g.defs.length, Ends g.parentOf i
  ancestors : ∀ i < g.defs.length, ∀ outgoing, ∃ fuel items,
    g.ancestorRefIndexes outgoing fuel i = .done items
  descendants : ∀ i < g.defs.length, ∃ fuel result, g.descendantIdxs fuel i = .done result

/-- On a graph that was read, all walks end if and only if the parent words in the bytes form no
cycle. -/
theorem decode_walks_end_iff (buf : Bytes) (g : CodeGraph) (h : decode buf = .ok g) :
    WalksEnd g ↔ Acyclic (StoredParent buf) := by
  have hacyclic : Acyclic (StoredParent buf) ↔ ParentsAcyclic g := by
    simp only [ParentsAcyclic, ← storedParent_iff h]
  rw [hacyclic]
  constructor
  · rintro ⟨hends, -, -⟩ i hcycle
    obtain ⟨p, hp, -⟩ := Relation.TransGen.head'_iff.mp hcycle
    exact (hends i (parentOf_lt hp)).not_transGen hcycle
  · intro hacyclic
    have hrange := parentsInRange_of_decode h
    have hends := ends_of_wellFounded (hacyclic.wellFounded hrange)
    refine ⟨fun i _ => hends i, fun i hi outgoing => ?_, fun i _ => ?_⟩
    · exact ancestorRefIndexes_done hrange outgoing (hends i) hi
    · exact descendantIdxs_done (hacyclic.wellFounded_children hrange) i

/-- A definition two steps below the root. -/
theorem decode_walks_end_nestedGraph :
    ∃ buf g, decode buf = .ok g ∧ g.parentOf 2 = some 1 ∧ WalksEnd g := by
  have h : ∃ buf, encode nestedGraph = .ok buf := ⟨_, rfl⟩
  obtain ⟨buf, hbuf⟩ := h
  have hdecode := decode_of_storable hbuf storable_nestedGraph
  refine ⟨buf, _, hdecode, rfl, (decode_walks_end_iff buf _ hdecode).mpr ?_⟩
  refine acyclic_of_lt fun c p hp => ?_
  have hparent := (storedParent_iff hdecode).mp hp
  rcases c with _ | _ | _ | c
  · cases hparent
  · cases hparent
    exact Nat.zero_lt_one
  · cases hparent
    exact Nat.one_lt_two
  · cases hparent

/-- A graph whose only definition is its own parent. -/
def selfParentGraph : CodeGraph :=
  CodeGraph.fromRecords
    [{ moniker := utilModule, kind := [109], parent := some 0, position := none,
       visibility := [], signature := [], callName := [], callArity := none,
       binding := [], origin := [] }] []

theorem ancestorLoop_selfParent (outgoing : Bool) : ∀ (fuel : ℕ) (items : List ℕ),
    ancestorLoop selfParentGraph outgoing fuel items (some 0) = .running
  | 0, _ => rfl
  | fuel + 1, _ => ancestorLoop_selfParent outgoing fuel _

theorem queueLoop_selfParent : ∀ (fuel : ℕ) (out : List ℕ),
    queueLoop (fun i => (selfParentGraph.childrenByParent i).getD []) fuel out [0] = .running
  | 0, _ => rfl
  | fuel + 1, _ => queueLoop_selfParent fuel _

/-- The reader accepts a definition that is its own parent, and then neither walk ends. -/
theorem decode_selfParent_walks_forever : ∃ buf g, decode buf = .ok g ∧ g = selfParentGraph ∧
    ¬Ends g.parentOf 0 ∧ (∀ fuel outgoing, g.ancestorRefIndexes outgoing fuel 0 = .running) ∧
      ∀ fuel, g.descendantIdxs fuel 0 = .running := by
  have hstorable : Storable selfParentGraph := by
    refine ⟨fun d hd => ?_, by simp [selfParentGraph, CodeGraph.fromRecords]⟩
    obtain rfl := List.mem_singleton.mp hd
    exact ⟨by simp [CodeGraph.defCount, selfParentGraph, CodeGraph.fromRecords], by simp, by simp⟩
  have h : ∃ buf, encode selfParentGraph = .ok buf := ⟨_, rfl⟩
  obtain ⟨buf, hbuf⟩ := h
  refine ⟨buf, selfParentGraph, decode_of_storable hbuf hstorable, rfl, ?_, ?_, ?_⟩
  · intro hends
    exact hends.not_transGen (Relation.TransGen.single rfl)
  · intro fuel outgoing
    exact ancestorLoop_selfParent outgoing fuel []
  · intro fuel
    have hchildren : selfParentGraph.childrenByParent 0 = some [0] := by decide
    rw [descendantIdxs, hchildren]
    simp only [queueLoop_selfParent]

end CodeGraphEncoding

end CodeMoniker
