import CodeMoniker.Components
import CodeMoniker.RuleLogic

/-!
# Metrics of a type

`lcom4` counts the connected components among the direct callables of a type
(`lcom4_eq_card`). It links two of them by a reference of any kind, where calls and shared fields
are meant, so it counts those components only where the other references join nothing new
(`lcom4_eq_card_iff`).

`dit` walks the inheritance references with a set of the definitions on the path, which it
empties on the way back. It ends on cycles as well, and without cycles it is the length of
the longest chain (`ditFrom_longest`).
-/

namespace CodeMoniker

open List ByteCodec CodeGraphEncoding Components

def isCallRefKind (kind : Bytes) : Bool :=
  kind = byteString "calls" || kind = byteString "method_call"

def isInheritanceKind (kind : Bytes) : Bool :=
  kind = byteString "extends" || kind = byteString "inherits" || kind = byteString "inheritance" ||
    kind = byteString "subclasses"

namespace EvalCtx

variable (ctx : EvalCtx)

def directCallableIdxs (i : ctx.DefIdx) : List ctx.DefIdx :=
  (ctx.childrenByParent i).filter fun c => (ctx.defAt c).shape = some .callable

def directValueIdxs (i : ctx.DefIdx) : List ctx.DefIdx :=
  (ctx.childrenByParent i).filter fun c => (ctx.defAt c).shape = some .value

/-! ## Cohesion -/

/-- A method of the type; the code numbers them. -/
abbrev Callable (i : ctx.DefIdx) := {c : ctx.DefIdx // c ∈ ctx.directCallableIdxs i}

variable (i : ctx.DefIdx)

def methods : List (ctx.Callable i) := (ctx.directCallableIdxs i).attach

/-- A later method takes the entry of an earlier one with its moniker. -/
def methodPos (target : Bytes) : Option (ctx.Callable i) :=
  (ctx.methods i).reverse.find? fun m => (ctx.defAt m.1).moniker.bytes = target

def fields : List Bytes :=
  ((ctx.directValueIdxs i).map fun v => (ctx.defAt v).moniker.bytes).eraseDups

/-- What the methods refer to, in the order of the two loops. -/
def uses : List (ctx.Callable i × Bytes) :=
  (ctx.methods i).flatMap fun m =>
    (ctx.outRefsBySource m.1).map fun r => (m, (ctx.refAt r).target.bytes)

def fieldUsers (field : Bytes) : List (ctx.Callable i) :=
  ((ctx.uses i).filter fun use => use.2 = field).map (·.1)

def methodEdges : List (ctx.Callable i × ctx.Callable i) :=
  (ctx.uses i).filterMap fun use => (ctx.methodPos i use.2).map fun other => (use.1, other)

/-- The first user of a field is linked with the others. -/
def fieldEdges : List (ctx.Callable i × ctx.Callable i) :=
  (ctx.fields i).flatMap fun field =>
    match ctx.fieldUsers i field with
    | first :: rest => rest.map fun other => (first, other)
    | [] => []

def lcom4 : ℕ :=
  if ctx.methods i = [] then 0
  else components (ofEdges (ctx.methodEdges i ++ ctx.fieldEdges i)) (ctx.methods i)

/-! ### Components -/

variable {i}

/-- Some reference of the method has the moniker of the definition as its target. -/
def RefersTo (m c : ctx.DefIdx) : Prop :=
  ∃ r ∈ ctx.outRefsBySource m, (ctx.refAt r).target.bytes = (ctx.defAt c).moniker.bytes

def Calls (m c : ctx.DefIdx) : Prop :=
  ∃ r ∈ ctx.outRefsBySource m, (ctx.refAt r).target.bytes = (ctx.defAt c).moniker.bytes ∧
    isCallRefKind (ctx.refAt r).kind = true

def ShareField (i m m' : ctx.DefIdx) : Prop :=
  ∃ v ∈ ctx.directValueIdxs i, ctx.RefersTo m v ∧ ctx.RefersTo m' v

variable (i)

/-- Methods linked by calls and shared fields. -/
def cohesionGraph : SimpleGraph (ctx.Callable i) :=
  .fromRel fun m m' => ctx.Calls m.1 m'.1 ∨ ctx.ShareField i m.1 m'.1

/-- Methods linked by references of any kind and shared fields. -/
def linkGraph : SimpleGraph (ctx.Callable i) :=
  .fromRel fun m m' => ctx.RefersTo m.1 m'.1 ∨ ctx.ShareField i m.1 m'.1

variable {ctx i} {m : ctx.Callable i}

theorem mem_uses {target : Bytes} : (m, target) ∈ ctx.uses i ↔
      ∃ r ∈ ctx.outRefsBySource m.1, (ctx.refAt r).target.bytes = target := by
  simp only [uses, mem_flatMap, mem_map, Prod.mk.injEq]
  constructor
  · rintro ⟨m', -, r, hr, rfl, htarget⟩
    exact ⟨r, hr, htarget⟩
  · rintro ⟨r, hr, htarget⟩
    exact ⟨m, mem_attach _ _, r, hr, rfl, htarget⟩

theorem refersTo_iff_mem_uses {c : ctx.DefIdx} :
    ctx.RefersTo m.1 c ↔ (m, (ctx.defAt c).moniker.bytes) ∈ ctx.uses i := mem_uses.symm

theorem mem_fieldUsers {field : Bytes} : m ∈ ctx.fieldUsers i field ↔ (m, field) ∈ ctx.uses i := by
  simp only [fieldUsers, mem_map, mem_filter, decide_eq_true_eq]
  constructor
  · rintro ⟨⟨m', target⟩, ⟨huse, rfl⟩, rfl⟩
    exact huse
  · exact fun huse => ⟨(m, field), ⟨huse, rfl⟩, rfl⟩

theorem mem_fields {field : Bytes} :
    field ∈ ctx.fields i ↔ ∃ v ∈ ctx.directValueIdxs i, (ctx.defAt v).moniker.bytes = field := by
  rw [fields, mem_eraseDups, mem_map]

theorem bytes_of_methodPos {target : Bytes} {m : ctx.Callable i}
    (h : ctx.methodPos i target = some m) : (ctx.defAt m.1).moniker.bytes = target := by
  simpa using find?_some h

theorem eq_of_moniker_bytes (hdistinct : (ctx.graph.defs.map (·.moniker)).Nodup)
    {c c' : ctx.DefIdx} (h : (ctx.defAt c).moniker.bytes = (ctx.defAt c').moniker.bytes) :
    c = c' := by
  have hinj := inj_on_of_nodup_map hdistinct (get_mem _ c) (get_mem _ c')
    (Moniker.ext_bytes h)
  exact (hdistinct.of_map _).injective_get hinj

/-- Where the monikers are distinct, the table has each method. -/
theorem methodPos_eq (hdistinct : (ctx.graph.defs.map (·.moniker)).Nodup) (m : ctx.Callable i) :
    ctx.methodPos i (ctx.defAt m.1).moniker.bytes = some m := by
  cases hpos : ctx.methodPos i (ctx.defAt m.1).moniker.bytes with
  | none =>
    have hnone := find?_eq_none.mp hpos m (mem_reverse.mpr (mem_attach _ _))
    simp at hnone
  | some m' =>
    rw [Subtype.ext (eq_of_moniker_bytes hdistinct (bytes_of_methodPos hpos))]

variable (ctx i) in
/-- The graph that the code builds. -/
def builtGraph : SimpleGraph (ctx.Callable i) :=
  .fromRel fun m m' => (m, m') ∈ ctx.methodEdges i ++ ctx.fieldEdges i

variable {m m' : ctx.Callable i}

theorem mem_methodEdges (h : (m, m') ∈ ctx.methodEdges i) : ctx.RefersTo m.1 m'.1 := by
  obtain ⟨⟨n, target⟩, huse, hedge⟩ := mem_filterMap.mp h
  obtain ⟨other, hpos, heq⟩ := Option.map_eq_some_iff.mp hedge
  cases heq
  rw [refersTo_iff_mem_uses, bytes_of_methodPos hpos]
  exact huse

theorem mem_fieldEdges : (m, m') ∈ ctx.fieldEdges i ↔ ∃ field ∈ ctx.fields i, ∃ rest,
      ctx.fieldUsers i field = m :: rest ∧ m' ∈ rest := by
  simp only [fieldEdges, mem_flatMap]
  refine exists_congr fun field => and_congr_right fun _ => ?_
  cases ctx.fieldUsers i field with
  | nil => simp
  | cons first rest =>
    simp only [mem_map, Prod.mk.injEq, cons.injEq]
    constructor
    · rintro ⟨other, hother, rfl, rfl⟩
      exact ⟨rest, ⟨rfl, rfl⟩, hother⟩
    · rintro ⟨_, ⟨rfl, rfl⟩, hother⟩
      exact ⟨m', hother, rfl, rfl⟩

theorem shareField_of_users {field : Bytes} (hfield : field ∈ ctx.fields i)
    {m m' : ctx.Callable i} (hm : m ∈ ctx.fieldUsers i field)
    (hm' : m' ∈ ctx.fieldUsers i field) : ctx.ShareField i m.1 m'.1 := by
  obtain ⟨v, hv, rfl⟩ := mem_fields.mp hfield
  exact ⟨v, hv, refersTo_iff_mem_uses.mpr (mem_fieldUsers.mp hm),
    refersTo_iff_mem_uses.mpr (mem_fieldUsers.mp hm')⟩

theorem builtGraph_le : ctx.builtGraph i ≤ ctx.linkGraph i := by
  refine fromRel_mono fun m m' h => ?_
  rcases mem_append.mp h with h | h
  · exact Or.inl (mem_methodEdges h)
  · obtain ⟨field, hfield, rest, husers, hother⟩ := mem_fieldEdges.mp h
    refine Or.inr (shareField_of_users hfield ?_ ?_)
    · rw [husers]
      exact mem_cons_self
    · rw [husers]
      exact mem_cons_of_mem _ hother

/-- The users of a field are linked through the first of them. -/
theorem reachable_first {field : Bytes} (hfield : field ∈ ctx.fields i) {first : ctx.Callable i}
    {rest : List (ctx.Callable i)} (husers : ctx.fieldUsers i field = first :: rest)
    {m : ctx.Callable i} (hm : m ∈ ctx.fieldUsers i field) :
    (ctx.builtGraph i).Reachable first m := by
  by_cases heq : first = m
  · rw [heq]
  · rw [husers] at hm
    have hrest := (mem_cons.mp hm).resolve_left fun h => heq h.symm
    have hedge := mem_fieldEdges.mpr ⟨field, hfield, rest, husers, hrest⟩
    refine SimpleGraph.Adj.reachable ?_
    rw [builtGraph, SimpleGraph.fromRel_adj]
    exact ⟨heq, Or.inl (mem_append_right _ hedge)⟩

theorem reachable_of_linkGraph (hdistinct : (ctx.graph.defs.map (·.moniker)).Nodup)
    {m m' : ctx.Callable i} (h : (ctx.linkGraph i).Adj m m') :
    (ctx.builtGraph i).Reachable m m' := by
  have hlink : ∀ n n' : ctx.Callable i, ctx.RefersTo n.1 n'.1 ∨ ctx.ShareField i n.1 n'.1 →
      (ctx.builtGraph i).Reachable n n' := by
    rintro n n' (hrefers | ⟨v, hv, hn, hn'⟩)
    · by_cases heq : n = n'
      · rw [heq]
      · have hedge : (n, n') ∈ ctx.methodEdges i :=
          mem_filterMap.mpr ⟨_, refersTo_iff_mem_uses.mp hrefers, by
            rw [methodPos_eq hdistinct]
            rfl⟩
        refine SimpleGraph.Adj.reachable ?_
        rw [builtGraph, SimpleGraph.fromRel_adj]
        exact ⟨heq, Or.inl (mem_append_left _ hedge)⟩
    · have hfield := mem_fields.mpr ⟨v, hv, rfl⟩
      have hu := mem_fieldUsers.mpr (refersTo_iff_mem_uses.mp hn)
      have hu' := mem_fieldUsers.mpr (refersTo_iff_mem_uses.mp hn')
      obtain ⟨first, rest, husers⟩ := exists_cons_of_ne_nil (ne_nil_of_mem hu)
      exact (reachable_first hfield husers hu).symm.trans (reachable_first hfield husers hu')
  rw [linkGraph, SimpleGraph.fromRel_adj] at h
  rcases h.2 with h | h
  · exact hlink m m' h
  · exact (hlink m' m h).symm

/-- The metric is the number of components that references of any kind and shared fields make. -/
theorem lcom4_eq_card (hdistinct : (ctx.graph.defs.map (·.moniker)).Nodup) :
    ctx.lcom4 i = Nat.card (ctx.linkGraph i).ConnectedComponent := by
  have hle : ctx.builtGraph i ≤ ctx.linkGraph i := builtGraph_le
  have hcard := (card_connectedComponent_eq_iff hle).mpr fun a b => reachable_of_linkGraph hdistinct
  rw [hcard, lcom4]
  split_ifs with hempty
  · have hnone : IsEmpty (ctx.Callable i) := ⟨fun m => by
      have hm : m ∈ ctx.methods i := mem_attach _ _
      rw [hempty] at hm
      exact not_mem_nil hm⟩
    have : IsEmpty (ctx.builtGraph i).ConnectedComponent :=
      ⟨fun c => c.ind fun m => hnone.elim m⟩
    exact Nat.card_of_isEmpty.symm
  · exact components_eq_card (mem_ofEdges _) fun m => mem_attach _ _

/-- The number of components among the direct callables of a type, linked by calls and shared
fields, is what the metric gives if and only if every reference from one of them to another joins
two that calls and shared fields join already. -/
theorem lcom4_eq_card_iff (ctx : EvalCtx) (i : ctx.DefIdx)
    (hdistinct : (ctx.graph.defs.map (·.moniker)).Nodup) :
    ctx.lcom4 i = Nat.card (ctx.cohesionGraph i).ConnectedComponent ↔
      ∀ m m' : ctx.Callable i, ctx.RefersTo m.1 m'.1 → (ctx.cohesionGraph i).Reachable m m' := by
  have hle : ctx.cohesionGraph i ≤ ctx.linkGraph i := by
    refine fromRel_mono fun m m' h => h.imp_left ?_
    rintro ⟨r, hr, htarget, -⟩
    exact ⟨r, hr, htarget⟩
  rw [lcom4_eq_card hdistinct, card_connectedComponent_eq_iff hle]
  constructor
  · intro h m m' hrefers
    by_cases heq : m = m'
    · rw [heq]
    · refine h m m' ?_
      rw [linkGraph, SimpleGraph.fromRel_adj]
      exact ⟨heq, Or.inl (Or.inl hrefers)⟩
  · intro h m m' hadj
    rw [linkGraph, SimpleGraph.fromRel_adj] at hadj
    rcases hadj with ⟨hne, (hrefers | hshare) | (hrefers | hshare)⟩
    · exact h m m' hrefers
    · refine SimpleGraph.Adj.reachable ?_
      rw [cohesionGraph, SimpleGraph.fromRel_adj]
      exact ⟨hne, Or.inl (Or.inr hshare)⟩
    · exact (h m' m hrefers).symm
    · refine SimpleGraph.Adj.reachable ?_
      rw [cohesionGraph, SimpleGraph.fromRel_adj]
      exact ⟨hne, Or.inr (Or.inr hshare)⟩

end EvalCtx

/-! ### A method that only names another -/

def splitFile : Moniker := dotMoniker [("module", "a")] (by decide)

def splitClass : Moniker := dotMoniker [("module", "a"), ("class", "Split")] (by decide)

def methodA : Moniker :=
  dotMoniker [("module", "a"), ("class", "Split"), ("method", "a()")] (by decide)

def methodB : Moniker :=
  dotMoniker [("module", "a"), ("class", "Split"), ("method", "b()")] (by decide)

/-- The class `Split` has two methods, and `a` reads `b` without calling it. -/
def splitGraph : CodeGraph :=
  CodeGraph.runOps splitFile (byteString "module")
    [.addDef splitClass (byteString "class") splitFile none {},
     .addDef methodA (byteString "method") splitClass none {},
     .addDef methodB (byteString "method") splitClass none {},
     .addRef methodA methodB (byteString "reads") none {}]

def splitCtx : EvalCtx :=
  { callsLogCtx with
    graph := splitGraph
    closed := (CodeGraph.consistent_runOps _ _ _).closed }

theorem length_splitGraph : splitGraph.defs.length = 4 := by decide

def splitIdx : splitCtx.DefIdx := ⟨1, length_splitGraph ▸ by decide⟩

theorem not_adj_cohesionGraph_split (m m' : splitCtx.Callable splitIdx) :
    ¬(splitCtx.cohesionGraph splitIdx).Adj m m' := by
  have hcall : ∀ r : splitCtx.RefIdx, isCallRefKind (splitCtx.refAt r).kind = false := by
    decide
  have hfields : splitCtx.directValueIdxs splitIdx = [] := by decide
  have hnone : ∀ n n' : splitCtx.DefIdx,
      ¬(splitCtx.Calls n n' ∨ splitCtx.ShareField splitIdx n n') := by
    rintro n n' (⟨r, -, -, hr⟩ | ⟨v, hv, -⟩)
    · cases (hcall r).symm.trans hr
    · rw [hfields] at hv
      cases hv
  rw [EvalCtx.cohesionGraph, SimpleGraph.fromRel_adj]
  rintro ⟨-, h | h⟩
  · exact hnone _ _ h
  · exact hnone _ _ h

/-- Neither method calls the other and there is no field, so there are two components. -/
theorem not_lcom4_eq_card_split : splitCtx.lcom4 splitIdx = 1 ∧
      Nat.card (splitCtx.cohesionGraph splitIdx).ConnectedComponent = 2 := by
  refine ⟨by decide +kernel, ?_⟩
  have hnext : ∀ m m', m' ∈ ofEdges [] m ↔ (splitCtx.cohesionGraph splitIdx).Adj m m' :=
    fun m m' => iff_of_false not_mem_nil (not_adj_cohesionGraph_split m m')
  have hall : ∀ m, m ∈ splitCtx.methods splitIdx := fun m => mem_attach _ _
  rw [← components_eq_card hnext hall]
  decide +kernel

/-- Reading the method is what keeps the metric from the count. -/
theorem lcom4_eq_card_iff_split :
    splitCtx.lcom4 splitIdx = Nat.card (splitCtx.cohesionGraph splitIdx).ConnectedComponent ↔
      ∀ m m' : splitCtx.Callable splitIdx, splitCtx.RefersTo m.1 m'.1 →
        (splitCtx.cohesionGraph splitIdx).Reachable m m' :=
  splitCtx.lcom4_eq_card_iff splitIdx (CodeGraph.consistent_runOps _ _ _).distinct

/-! ## Inheritance -/

namespace EvalCtx

variable (ctx : EvalCtx)

/-- The first definition of a moniker. -/
def findDefIdx (target : Moniker) : Option ctx.DefIdx :=
  (List.finRange ctx.graph.defs.length).find? fun i => (ctx.defAt i).moniker.bytes = target.bytes

/-- What a definition inherits from : a definition of the file, or none. -/
def supertypes (i : ctx.DefIdx) : List (Option ctx.DefIdx) :=
  ((ctx.outRefsBySource i).filter fun r => isInheritanceKind (ctx.refAt r).kind).map fun r =>
    ctx.findDefIdx (ctx.refAt r).target

variable {ctx} in
/-- The depth that one inheritance reference asks for. -/
def visitSupertype (visit : ctx.DefIdx → Finset ctx.DefIdx → Option (ℕ × Finset ctx.DefIdx))
    (state : ℕ × Finset ctx.DefIdx) : Option ctx.DefIdx → Option (ℕ × Finset ctx.DefIdx)
  | none => some (max state.1 1, state.2)
  | some p => (visit p state.2).map fun found => (max state.1 (1 + found.1), found.2)

/-- `dit_from` on some fuel : the depth, and the set of the definitions that are being visited as
the call leaves it. -/
def ditFrom : ℕ → ctx.DefIdx → Finset ctx.DefIdx → Option (ℕ × Finset ctx.DefIdx)
  | 0, _, _ => none
  | fuel + 1, i, visiting =>
    if i ∈ visiting then some (0, visiting)
    else
      ((ctx.supertypes i).foldlM (visitSupertype (ditFrom fuel)) (0, insert i visiting)).map
        fun found => (found.1, found.2.erase i)

/-! ### Chains -/

def Inherits (i p : ctx.DefIdx) : Prop := some p ∈ ctx.supertypes i

/-- A chain of so many inheritance references from a definition. A reference to what is not in the
file ends it. -/
inductive InheritanceChain : ctx.DefIdx → ℕ → Prop
  | here (i : ctx.DefIdx) : InheritanceChain i 0
  | outside {i : ctx.DefIdx} (h : none ∈ ctx.supertypes i) : InheritanceChain i 1
  | up {i p : ctx.DefIdx} {n : ℕ} (h : ctx.Inherits i p) (hp : InheritanceChain p n) :
    InheritanceChain i (1 + n)

/-- No definition that the inheritance leads to comes back to itself. -/
def AcyclicFrom (i : ctx.DefIdx) : Prop :=
  ∀ p, Relation.ReflTransGen ctx.Inherits i p → ¬Relation.TransGen ctx.Inherits p p

variable {ctx}

theorem AcyclicFrom.up {i p : ctx.DefIdx} (h : ctx.AcyclicFrom i) (hp : ctx.Inherits i p) :
    ctx.AcyclicFrom p := fun q hq => h q (.head hp hq)

/-- The loop over the supertypes takes the maximum, if each of them leaves the set as it was. -/
theorem foldlM_visitSupertype
    {visit : ctx.DefIdx → Finset ctx.DefIdx → Option (ℕ × Finset ctx.DefIdx)}
    {visiting : Finset ctx.DefIdx} (depthOf : ctx.DefIdx → ℕ)
    (hvisit : ∀ p, visit p visiting = some (depthOf p, visiting)) :
    ∀ (ps : List (Option ctx.DefIdx)) (depth : ℕ),
      ps.foldlM (visitSupertype visit) (depth, visiting) =
        some (ps.foldl (fun depth p => max depth (1 + p.elim 0 depthOf)) depth, visiting)
  | [], _ => rfl
  | none :: ps, depth => by
    rw [foldlM_cons, foldl_cons, visitSupertype]
    exact foldlM_visitSupertype depthOf hvisit ps _
  | some p :: ps, depth => by
    rw [foldlM_cons, foldl_cons, visitSupertype, hvisit]
    exact foldlM_visitSupertype depthOf hvisit ps _

theorem isGreatest_foldl_max {α : Type} (f : α → ℕ) : ∀ (xs : List α) (start : ℕ),
    IsGreatest {n | n = start ∨ ∃ x ∈ xs, n = f x} (xs.foldl (fun n x => max n (f x)) start)
  | [], start => ⟨Or.inl rfl, by rintro n (rfl | ⟨x, hx, -⟩); exacts [le_rfl, nomatch hx]⟩
  | x :: xs, start => by
    obtain ⟨hmem, hle⟩ := isGreatest_foldl_max f xs (max start (f x))
    refine ⟨?_, ?_⟩
    · rcases hmem with heq | ⟨y, hy, heq⟩
      · rw [foldl_cons, heq]
        rcases max_choice start (f x) with h | h
        · exact Or.inl h
        · exact Or.inr ⟨x, mem_cons_self, h⟩
      · exact Or.inr ⟨y, mem_cons_of_mem x hy, heq⟩
    · have hstart : max start (f x) ≤ _ := hle (Or.inl rfl)
      rintro n (rfl | ⟨y, hy, rfl⟩)
      · exact (le_max_left _ _).trans hstart
      · rcases mem_cons.mp hy with rfl | hy
        · exact (le_max_right _ _).trans hstart
        · exact hle (Or.inr ⟨y, hy, rfl⟩)

/-- Enough fuel for the definitions that are not being visited : the call returns and leaves the
set as it found it. If nothing that is being visited can be reached, and what is reached has no
cycle, the depth is the length of the longest chain. -/
theorem ditFrom_spec : ∀ (fuel : ℕ) (i : ctx.DefIdx) (visiting : Finset ctx.DefIdx),
    visitingᶜ.card < fuel → ∃ depth, ctx.ditFrom fuel i visiting = some (depth, visiting) ∧
      (ctx.AcyclicFrom i → (∀ v ∈ visiting, ¬Relation.ReflTransGen ctx.Inherits i v) →
        IsGreatest {n | ctx.InheritanceChain i n} depth)
  | 0, _, _, h => absurd h (Nat.not_lt_zero _)
  | fuel + 1, i, visiting, h => by
    by_cases hi : i ∈ visiting
    · refine ⟨0, by rw [ditFrom, if_pos hi], fun _ hfree => ?_⟩
      exact absurd .refl (hfree i hi)
    · have hmem : i ∈ visitingᶜ := Finset.mem_compl.mpr hi
      have hfuel : (insert i visiting)ᶜ.card < fuel := by
        have hpos : 0 < visitingᶜ.card := Finset.card_pos.mpr ⟨i, hmem⟩
        rw [Finset.compl_insert, Finset.card_erase_of_mem hmem]
        omega
      have hvisit := fun p => ditFrom_spec fuel p (insert i visiting) hfuel
      choose depthOf hreturn hdepth using hvisit
      refine ⟨(ctx.supertypes i).foldl (fun depth p => max depth (1 + p.elim 0 depthOf)) 0, ?_,
        fun hacyclic hfree => ?_⟩
      · rw [ditFrom, if_neg hi, foldlM_visitSupertype depthOf hreturn, Option.map_some,
          Finset.erase_insert hi]
      · -- A supertype does not lead back to `i`, nor to what is being visited.
        have hup : ∀ p, ctx.Inherits i p →
            IsGreatest {n | ctx.InheritanceChain p n} (depthOf p) := by
          intro p hp
          refine hdepth p (hacyclic.up hp) fun v hv hpath => ?_
          rcases Finset.mem_insert.mp hv with rfl | hv
          · exact hacyclic v .refl (.head' hp hpath)
          · exact hfree v hv (.head hp hpath)
        obtain ⟨hin, hle⟩ := isGreatest_foldl_max
          (fun p : Option ctx.DefIdx => 1 + p.elim 0 depthOf) (ctx.supertypes i) 0
        refine ⟨?_, ?_⟩
        · rcases hin with heq | ⟨p, hp, heq⟩
          · rw [heq]
            exact .here i
          · rw [heq]
            cases p with
            | none => exact .outside hp
            | some p => exact .up hp (hup p hp).1
        · intro n hn
          cases hn with
          | here => exact Nat.zero_le _
          | outside hnone => exact hle (Or.inr ⟨none, hnone, rfl⟩)
          | @up _ p n hp hchain =>
            have hn : n ≤ depthOf p := (hup p hp).2 hchain
            exact (Nat.add_le_add_left hn 1).trans (hle (Or.inr ⟨some p, hp, rfl⟩))

/-- More fuel does not change what a call returns. -/
theorem ditFrom_extends : ∀ (fuel : ℕ) (i : ctx.DefIdx) (visiting : Finset ctx.DefIdx),
    Kleene.Extends (ctx.ditFrom fuel i visiting) (ctx.ditFrom (fuel + 1) i visiting)
  | 0, _, _ => Kleene.extends_none _
  | fuel + 1, i, visiting => by
    rw [ditFrom, ditFrom]
    split_ifs
    · exact .refl _
    · refine Kleene.Extends.map (Kleene.Extends.foldlM (fun state p => ?_) _ _) _
      cases p with
      | none => exact .refl _
      | some p => exact (ditFrom_extends fuel p state.2).map _

variable (ctx)

/-- Fuel for each of the definitions is enough. -/
def dit (i : ctx.DefIdx) : ℕ :=
  ((ctx.ditFrom (ctx.graph.defs.length + 1) i ∅).map (·.1)).getD 0

/-- On every graph, cycles and inheritance from itself included, the walk returns on any fuel
above the number of definitions, always with the same depth; and where no cycle is reached it
is the length of the longest chain. -/
theorem ditFrom_longest (i : ctx.DefIdx) :
    (∀ fuel, ctx.graph.defs.length < fuel → ctx.ditFrom fuel i ∅ = some (ctx.dit i, ∅)) ∧
      (ctx.AcyclicFrom i → IsGreatest {n | ctx.InheritanceChain i n} (ctx.dit i)) := by
  have hall : (∅ : Finset ctx.DefIdx)ᶜ.card < ctx.graph.defs.length + 1 := by
    rw [Finset.compl_empty, Finset.card_univ, Fintype.card_fin]
    exact Nat.lt_succ_self _
  obtain ⟨depth, hreturn, hdepth⟩ := ditFrom_spec _ i ∅ hall
  have hdit : ctx.dit i = depth := by rw [dit, hreturn, Option.map_some, Option.getD_some]
  rw [hdit]
  refine ⟨fun fuel hfuel => ?_, fun h => hdepth h fun v hv => absurd hv (Finset.notMem_empty v)⟩
  induction fuel, hfuel using Nat.le_induction with
  | base => exact hreturn
  | succ fuel _ ih => exact ditFrom_extends fuel i ∅ _ ih

end EvalCtx

end CodeMoniker
