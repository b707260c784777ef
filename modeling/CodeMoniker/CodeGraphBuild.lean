import CodeMoniker.CodeGraph
import CodeMoniker.MonikerQuery

/-!
# Building a code graph

Extraction starts a graph at the root of the file (`CodeGraph.withRoot`) and adds
definitions below definitions that are already there and references out of them. Both
operations look the parent or the source up in the index, so what they store is an index
into the definitions : a built graph has a root, and every parent and every source is one
of its definitions (`CodeGraph.Built.wellFormed`). Reading a definition by its index stops
the program when there is none (`CodeGraph.defAt`, `CodeGraph.root`).
-/

namespace CodeMoniker

open List ByteCodec

/-- The bytes of a literal of the source. -/
def byteString (s : String) : Bytes := Utf8.encode s.toList

instance (s : Segment) : Decidable s.Admitted :=
  decidable_of_iff (Utf8.Valid s.kind ∧ isUriKind s.kind ∧ Utf8.Valid s.name ∧
    s.kind.length ≤ maxComponentLen ∧ s.name.length ≤ maxComponentLen)
    ⟨fun ⟨a, b, c, d, e⟩ => ⟨a, b, c, d, e⟩, fun ⟨a, b, c, d, e⟩ => ⟨a, b, c, d, e⟩⟩

/-- The segment of a kind and a name. -/
def segmentOf (s : String × String) : Segment := ⟨byteString s.1, byteString s.2⟩

theorem admitted_dot : AdmittedProject (byteString ".") := ⟨by decide, by decide, by decide⟩

theorem admitted_app : AdmittedProject (byteString "app") := ⟨by decide, by decide, by decide⟩

/-- The project `.`, and below it the segments of a path. -/
def dotMoniker (path : List (String × String))
    (h : ∀ s ∈ path.map segmentOf, s.Admitted) : Moniker :=
  .ofParts (byteString ".") (path.map segmentOf) admitted_dot h

variable {path : List (String × String)}

theorem project_dotMoniker (h : ∀ s ∈ path.map segmentOf, s.Admitted) :
    (dotMoniker path h).project = byteString "." :=
  Moniker.project_ofParts admitted_dot h

theorem segments_dotMoniker (h : ∀ s ∈ path.map segmentOf, s.Admitted) :
    (dotMoniker path h).segments = path.map segmentOf :=
  Moniker.segments_ofParts admitted_dot h

theorem dotMoniker_of_tryMoniker (h : ∀ s ∈ path.map segmentOf, s.Admitted) :
    (MonikerBuilder.mk (byteString ".") (path.map segmentOf)).tryMoniker.toOption =
      some (dotMoniker path h) :=
  tryMoniker_ofParts _ h

namespace CodeGraph

/-- `none` stands for the index out of range. -/
def defAt (g : CodeGraph) (i : ℕ) : Option DefRecord := g.defs[i]?

/-- `none` stands for the index out of range. -/
def root (g : CodeGraph) : Option Moniker := (g.defAt 0).map (·.moniker)

/-! ## Operations -/

structure DefAttrs where
  visibility : Bytes := []
  signature : Bytes := []
  callName : Bytes := []
  callArity : Option ℕ := none
  binding : Bytes := []
  origin : Bytes := []

structure RefAttrs where
  receiverHint : Bytes := []
  aliasName : Bytes := []
  confidence : Bytes := []
  callName : Bytes := []
  callArity : Option ℕ := none
  binding : Bytes := []

inductive GraphError where
  | parentNotFound
  | parentNotAncestor
  | sourceNotFound
  | duplicateMoniker
  deriving DecidableEq

def defaultDefBinding (kind visibility : Bytes) : Bytes :=
  if kind = byteString "comment" then byteString "none"
  else if kind = byteString "local" ∨ kind = byteString "param" then byteString "local"
  else if visibility = byteString "private" ∨ visibility = byteString "module" then
    byteString "local"
  else if kind = byteString "module" then byteString "export"
  else if visibility ∈ ["public", "protected", "package"].map byteString then byteString "export"
  else byteString "local"

def defaultRefBinding (kind : Bytes) : Bytes :=
  if kind ∈ ["imports_symbol", "imports_module", "reexports"].map byteString then
    byteString "import"
  else if kind ∈ ["di_register", "di_require"].map byteString then byteString "inject"
  else if kind ∈ ["calls", "method_call", "reads", "writes", "member_of", "references",
      "uses_type", "returns_type", "instantiates", "extends", "implements",
      "annotates"].map byteString then
    byteString "local"
  else byteString "none"

/-- `CodeGraph::new` : the root and no reference. -/
def withRoot (root : Moniker) (rootKind : Bytes) : CodeGraph where
  defs :=
    [{ moniker := root, kind := rootKind, parent := none, position := none, visibility := [],
       signature := [], callName := [], callArity := none, binding := byteString "export",
       origin := byteString "extracted" }]
  refs := []
  index := (∅ : AList fun _ : Moniker => ℕ).insert root 0
  defMonikersCache := none
  refTargetsCache := none

/-- The graph after `find_def` has looked at its index : rebuilt when its size is not the
number of definitions. -/
def withIndex (g : CodeGraph) : CodeGraph :=
  if g.index.entries.length = g.defs.length then g
  else { g with index := (fromRecords g.defs g.refs).index }

def findDef (g : CodeGraph) (m : Moniker) : Option ℕ := g.withIndex.index.lookup m

/-- The record of a new definition, with the defaults of its binding and origin. -/
def addedDef (moniker : Moniker) (kind : Bytes) (parentIdx : ℕ) (position : Option Position)
    (attrs : DefAttrs) : DefRecord where
  moniker := moniker
  kind := kind
  parent := some parentIdx
  position := position
  visibility := attrs.visibility
  signature := attrs.signature
  callName := attrs.callName
  callArity := attrs.callArity
  binding :=
    if attrs.binding = [] then defaultDefBinding kind attrs.visibility else attrs.binding
  origin := if attrs.origin = [] then byteString "extracted" else attrs.origin

def addDefAttrs (g : CodeGraph) (moniker : Moniker) (kind : Bytes) (parent : Moniker)
    (position : Option Position) (attrs : DefAttrs) : Except GraphError CodeGraph :=
  if (g.findDef moniker).isSome then .error .duplicateMoniker
  else if ¬parent.isAncestorOf moniker then .error .parentNotAncestor
  else
    match g.findDef parent with
    | none => .error .parentNotFound
    | some parentIdx =>
      .ok
        { g.withIndex with
          defs := g.defs ++ [addedDef moniker kind parentIdx position attrs]
          index := g.withIndex.index.insert moniker g.defs.length
          defMonikersCache := none }

/-- The record of a new reference, with the default of its binding. -/
def addedRef (sourceIdx : ℕ) (target : Moniker) (kind : Bytes) (position : Option Position)
    (attrs : RefAttrs) : RefRecord where
  source := sourceIdx
  target := target
  kind := kind
  position := position
  receiverHint := attrs.receiverHint
  aliasName := attrs.aliasName
  confidence := attrs.confidence
  callName := attrs.callName
  callArity := attrs.callArity
  binding := if attrs.binding = [] then defaultRefBinding kind else attrs.binding

def addRefAttrs (g : CodeGraph) (source target : Moniker) (kind : Bytes)
    (position : Option Position) (attrs : RefAttrs) : Except GraphError CodeGraph :=
  match g.findDef source with
  | none => .error .sourceNotFound
  | some sourceIdx =>
    .ok
      { g.withIndex with
        refs := g.refs ++ [addedRef sourceIdx target kind position attrs]
        refTargetsCache := none }

def setDefCallMetadata (g : CodeGraph) (moniker : Moniker) (callName : Bytes) (callArity : ℕ) :
    CodeGraph :=
  match g.findDef moniker with
  | none => g.withIndex
  | some idx =>
    { g.withIndex with
      defs := g.defs.modify idx fun d => { d with callName := callName, callArity := some callArity } }

/-- A graph that the operations have built from a root. -/
inductive Built : CodeGraph → Prop
  | withRoot (root : Moniker) (kind : Bytes) : Built (withRoot root kind)
  | addDef {g g' : CodeGraph} {moniker parent : Moniker} {kind : Bytes}
      {position : Option Position} {attrs : DefAttrs} (hg : Built g)
      (h : g.addDefAttrs moniker kind parent position attrs = .ok g') : Built g'
  | addRef {g g' : CodeGraph} {source target : Moniker} {kind : Bytes}
      {position : Option Position} {attrs : RefAttrs} (hg : Built g)
      (h : g.addRefAttrs source target kind position attrs = .ok g') : Built g'
  | setCall {g : CodeGraph} (moniker : Moniker) (callName : Bytes) (callArity : ℕ)
      (hg : Built g) : Built (g.setDefCallMetadata moniker callName callArity)

/-! ## Indices of a built graph -/

/-- The graph has a root, and its parents and sources are indices of definitions. -/
structure WellFormed (g : CodeGraph) : Prop where
  root : g.defs ≠ []
  parents : ∀ d ∈ g.defs, ∀ p ∈ d.parent, p < g.defs.length
  sources : ∀ r ∈ g.refs, r.source < g.defs.length

/-- The index maps to definitions only. -/
def IndexInRange (g : CodeGraph) : Prop := ∀ m i, g.index.lookup m = some i → i < g.defs.length

theorem lookup_foldl_insert {m : Moniker} {i : ℕ} : ∀ {defs : List (DefRecord × ℕ)}
    {index : AList fun _ : Moniker => ℕ},
    (defs.foldl (fun index d => index.insert d.1.moniker d.2) index).lookup m = some i →
      index.lookup m = some i ∨ ∃ d, (d, i) ∈ defs
  | [], _, h => Or.inl h
  | d :: defs, index, h => by
    rcases @lookup_foldl_insert m i defs _ h with h | ⟨d', hd'⟩
    · by_cases hm : m = d.1.moniker
      · subst hm
        rw [AList.lookup_insert] at h
        obtain rfl := Option.some.inj h
        exact Or.inr ⟨d.1, mem_cons_self⟩
      · rw [AList.lookup_insert_ne hm] at h
        exact Or.inl h
    · exact Or.inr ⟨d', mem_cons_of_mem _ hd'⟩

theorem indexInRange_fromRecords (defs : List DefRecord) (refs : List RefRecord) :
    IndexInRange (fromRecords defs refs) := by
  intro m i h
  rcases lookup_foldl_insert h with h | ⟨d, hd⟩
  · simp at h
  · exact (List.getElem?_eq_some_iff.mp (mk_mem_zipIdx_iff_getElem?.mp hd)).1

@[simp] theorem defs_withIndex (g : CodeGraph) : g.withIndex.defs = g.defs := by
  unfold withIndex
  split_ifs <;> rfl

@[simp] theorem refs_withIndex (g : CodeGraph) : g.withIndex.refs = g.refs := by
  unfold withIndex
  split_ifs <;> rfl

variable {g : CodeGraph}

theorem IndexInRange.withIndex (h : IndexInRange g) : IndexInRange g.withIndex := by
  unfold CodeGraph.withIndex
  split_ifs
  · exact h
  · exact indexInRange_fromRecords g.defs g.refs

theorem IndexInRange.findDef_lt (h : IndexInRange g) {m : Moniker} {i : ℕ}
    (hi : g.findDef m = some i) : i < g.defs.length := by
  have hlt := h.withIndex m i hi
  rwa [defs_withIndex] at hlt

/-- `WellFormed` with the index, which the operations keep together. -/
def Sound (g : CodeGraph) : Prop := WellFormed g ∧ IndexInRange g

theorem sound_withRoot (root : Moniker) (kind : Bytes) : Sound (withRoot root kind) := by
  refine ⟨⟨by simp [withRoot], by simp [withRoot], by simp [withRoot]⟩, ?_⟩
  intro m i h
  by_cases hm : m = root
  · subst hm
    simp only [withRoot, AList.lookup_insert, Option.some.injEq] at h
    simp [withRoot, ← h]
  · simp only [withRoot, AList.lookup_insert_ne hm] at h
    simp at h

theorem Sound.addDefAttrs {g g' : CodeGraph} {moniker parent : Moniker} {kind : Bytes}
    {position : Option Position} {attrs : DefAttrs} (hg : Sound g)
    (h : g.addDefAttrs moniker kind parent position attrs = .ok g') : Sound g' := by
  obtain ⟨hwf, hidx⟩ := hg
  unfold CodeGraph.addDefAttrs at h
  split_ifs at h
  split at h
  · cases h
  · next parentIdx hparent =>
    have hlt : parentIdx < g.defs.length := hidx.findDef_lt hparent
    obtain rfl := Except.ok.inj h
    refine ⟨⟨by simp, ?_, ?_⟩, ?_⟩
    · intro d hd p hp
      simp only [length_append, length_singleton]
      rcases mem_append.mp hd with hd | hd
      · have := hwf.parents d hd p hp
        omega
      · obtain rfl := mem_singleton.mp hd
        obtain rfl := Option.some.inj hp
        omega
    · intro r hr
      have := hwf.sources r (by simpa using hr)
      simp only [length_append, length_singleton]
      omega
    · intro m i hi
      simp only [length_append, length_singleton]
      by_cases hm : m = moniker
      · subst hm
        simp only [AList.lookup_insert, Option.some.injEq] at hi
        omega
      · simp only [AList.lookup_insert_ne hm] at hi
        have := hidx.findDef_lt (m := m) hi
        omega

theorem Sound.addRefAttrs {g g' : CodeGraph} {source target : Moniker} {kind : Bytes}
    {position : Option Position} {attrs : RefAttrs} (hg : Sound g)
    (h : g.addRefAttrs source target kind position attrs = .ok g') : Sound g' := by
  obtain ⟨hwf, hidx⟩ := hg
  unfold CodeGraph.addRefAttrs at h
  split at h
  · cases h
  · next sourceIdx hsource =>
    have hlt : sourceIdx < g.defs.length := hidx.findDef_lt hsource
    obtain rfl := Except.ok.inj h
    refine ⟨⟨by simpa using hwf.root, by simpa using hwf.parents, ?_⟩, ?_⟩
    · intro r hr
      simp only [defs_withIndex]
      rcases mem_append.mp hr with hr | hr
      · exact hwf.sources r hr
      · obtain rfl := mem_singleton.mp hr
        exact hlt
    · intro m i hi
      simpa using hidx.findDef_lt (m := m) hi

theorem Sound.setDefCallMetadata (hg : Sound g) (moniker : Moniker)
    (callName : Bytes) (callArity : ℕ) :
    Sound (g.setDefCallMetadata moniker callName callArity) := by
  obtain ⟨hwf, hidx⟩ := hg
  unfold CodeGraph.setDefCallMetadata
  split
  · exact ⟨⟨by simpa using hwf.root, by simpa using hwf.parents, by simpa using hwf.sources⟩,
      hidx.withIndex⟩
  · next idx _ =>
    have hlen : ∀ f, (g.defs.modify idx f).length = g.defs.length := fun f => by simp
    refine ⟨⟨?_, ?_, ?_⟩, ?_⟩
    · intro hnil
      apply hwf.root
      have := congrArg List.length hnil
      rw [hlen] at this
      exact eq_nil_of_length_eq_zero this
    · intro d hd p hp
      simp only [hlen]
      obtain ⟨j, hj⟩ := getElem?_of_mem hd
      simp only [getElem?_modify] at hj
      obtain ⟨d', hd', rfl⟩ := Option.map_eq_some_iff.mp hj
      refine hwf.parents d' (mem_of_getElem? hd') p ?_
      -- the call metadata is all that a replaced definition gets
      split_ifs at hp <;> exact hp
    · intro r hr
      simp only [hlen]
      exact hwf.sources r (by simpa using hr)
    · intro m i hi
      simp only [hlen]
      exact hidx.findDef_lt (m := m) hi

theorem Built.sound (h : Built g) : Sound g := by
  induction h with
  | withRoot root kind => exact sound_withRoot root kind
  | addDef _ h ih => exact ih.addDefAttrs h
  | addRef _ h ih => exact ih.addRefAttrs h
  | setCall moniker callName callArity _ ih => exact ih.setDefCallMetadata moniker callName callArity

/-- A built graph has a root, and its parents and sources are definitions of it. -/
theorem Built.wellFormed (h : Built g) : WellFormed g := h.sound.1

theorem WellFormed.defAt_parent (h : WellFormed g) {d : DefRecord}
    (hd : d ∈ g.defs) {p : ℕ} (hp : d.parent = some p) : ∃ owner, g.defAt p = some owner :=
  ⟨_, getElem?_eq_getElem (h.parents d hd p hp)⟩

theorem WellFormed.defAt_source (h : WellFormed g) {r : RefRecord}
    (hr : r ∈ g.refs) : ∃ source, g.defAt r.source = some source :=
  ⟨_, getElem?_eq_getElem (h.sources r hr)⟩

theorem root_eq_none_iff : g.root = none ↔ g.defs = [] := by
  simp [root, defAt]

end CodeGraph

end CodeMoniker
