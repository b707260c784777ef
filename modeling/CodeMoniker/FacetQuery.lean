import CodeMoniker.Inventory
import CodeMoniker.RuleExpr

/-!
# Facet queries

`eval_node` answers a rule expression over a universe of symbols with set operations on the
posting lists, and keeps the answers of its atoms in a cache under their source text. A symbol
is in the answer if and only if it is in the universe and its record satisfies the expression
(`nodePost`), whatever the cache holds from the other expressions of the plan.
-/

namespace CodeMoniker

open List hiding set
open ByteCodec SymbolInventoryIndex
open Option (getD_some map_some)

/-! ## Path candidates -/

def InventorySegment.toSegment (s : InventorySegment) : Segment :=
  ⟨Utf8.encode s.kind.toList, Utf8.encode s.name.toList⟩

def PathPattern.matchesTextSegments (pattern : PathPattern) (segs : List InventorySegment) : Bool :=
  matchSteps pattern.steps (segs.map (·.toSegment))

/-- A literal step of a pattern is one of the segments that the pattern matches. -/
theorem mem_of_matchSteps {kind name : Bytes} : ∀ {steps : List PatternStep} {segs : List Segment},
    matchSteps steps segs = true → .literal kind name ∈ steps → ⟨kind, name⟩ ∈ segs
  | [], _, _, hmem => by simp at hmem
  | step :: rest, segs, h, hmem => by
    rcases mem_cons.mp hmem with rfl | hrest
    · cases segs with
      | nil => simp [matchSteps] at h
      | cons seg segs =>
        simp only [matchSteps, matchStep, Bool.and_eq_true, decide_eq_true_eq] at h
        obtain ⟨⟨rfl, rfl⟩, -⟩ := h
        exact mem_cons_self
    · cases step with
      | doubleStar =>
        simp only [matchSteps, any_eq_true, mem_range] at h
        obtain ⟨k, -, hk⟩ := h
        exact mem_of_mem_drop (mem_of_matchSteps hk hrest)
      | literal | kindWildcard | nameWildcard | anySegment | regex =>
        cases segs with
        | nil => simp [matchSteps] at h
        | cons seg segs =>
          simp only [matchSteps, Bool.and_eq_true] at h
          exact mem_cons_of_mem _ (mem_of_matchSteps h.2 hrest)

/-- The text of a literal step, as a segment of the inventory. -/
def PatternStep.literalText : PatternStep → Option InventorySegment
  | .literal kind name => do
    let kind ← Utf8.decode? kind
    let name ← Utf8.decode? name
    some ⟨String.ofList kind, String.ofList name⟩
  | _ => none

theorem PatternStep.literalText_eq_some {step : PatternStep} {seg : InventorySegment}
    (h : step.literalText = some seg) : step = .literal seg.toSegment.kind seg.toSegment.name := by
  cases step with
  | literal kind name =>
    simp only [literalText, Option.bind_eq_bind, Option.bind_eq_some_iff, Option.some.injEq] at h
    obtain ⟨ks, hks, ns, hns, rfl⟩ := h
    simp only [InventorySegment.toSegment, String.toList_ofList]
    rw [Utf8.decode?_eq_some_iff.mp hks, Utf8.decode?_eq_some_iff.mp hns]
  | kindWildcard | nameWildcard | anySegment | regex | doubleStar => simp [literalText] at h

theorem InventorySegment.toSegment_injective : Function.Injective toSegment := by
  rintro ⟨k, n⟩ ⟨k', n'⟩ h
  simp only [toSegment, Segment.mk.injEq] at h
  have hk := String.toList_injective (Utf8.encode_injective h.1)
  have hn := String.toList_injective (Utf8.encode_injective h.2)
  rw [hk, hn]

variable {pattern : PathPattern}

/-- The literal steps of a pattern are segments of the records that match it. -/
theorem PathPattern.literal_mem {segs : List InventorySegment}
    (h : pattern.matchesTextSegments segs = true) {step : PatternStep} (hstep : step ∈ pattern.steps)
    {seg : InventorySegment} (hseg : step.literalText = some seg) : seg ∈ segs := by
  obtain rfl := PatternStep.literalText_eq_some hseg
  obtain ⟨seg', hmem, heq⟩ := mem_map.mp (mem_of_matchSteps h hstep)
  obtain rfl := InventorySegment.toSegment_injective heq
  exact hmem

/-! ## Set operations over lists -/

/-- `reduce` with the intersection. -/
def interReduce : List SymbolSet → Option SymbolSet
  | [] => none
  | s :: ss => some (ss.foldl (· ∩ ·) s)

/-- `reduce` with the union. -/
def unionReduce : List SymbolSet → Option SymbolSet
  | [] => none
  | s :: ss => some (ss.foldl (· ∪ ·) s)

variable {o : SymbolOrdinal}

theorem mem_foldl_inter : ∀ {ss : List SymbolSet} {s : SymbolSet},
    o ∈ ss.foldl (· ∩ ·) s ↔ o ∈ s ∧ ∀ t ∈ ss, o ∈ t
  | [], s => by simp
  | t :: ss, s => by
    rw [foldl_cons, mem_foldl_inter, OrdSet.mem_inter, forall_mem_cons, and_assoc]

theorem mem_interReduce {u : SymbolSet} {ss : List SymbolSet}
    (hsub : ∀ s ∈ ss, o ∈ s → o ∈ u) : o ∈ (interReduce ss).getD u ↔ o ∈ u ∧ ∀ s ∈ ss, o ∈ s := by
  cases ss with
  | nil => simp [interReduce]
  | cons s ss =>
    simp only [interReduce, getD_some, mem_foldl_inter, forall_mem_cons]
    exact ⟨fun h => ⟨hsub s mem_cons_self h.1, h⟩, fun h => h.2⟩

theorem mem_unionReduce {ss : List SymbolSet} : o ∈ (unionReduce ss).getD ∅ ↔ ∃ s ∈ ss, o ∈ s := by
  cases ss with
  | nil => simp [unionReduce]
  | cons s ss =>
    simp only [unionReduce, getD_some, OrdSet.mem_foldl_union fun s => s, exists_mem_cons_iff]

/-- The union of the postings whose key matches. -/
def unionPostings (m : Postings String) (p : String → Bool) : SymbolSet :=
  m.entries.foldl (fun result e => if p e.1 then result ∪ e.2 else result) ∅

theorem mem_unionPostings {m : Postings String} {p : String → Bool} {o : SymbolOrdinal} :
    o ∈ unionPostings m p ↔ ∃ k, p k = true ∧ o ∈ m.get k := by
  have hfold : ∀ (es : List (Sigma fun _ : String => ReferenceSet)) (s : SymbolSet),
      o ∈ es.foldl (fun result e => if p e.1 then result ∪ e.2 else result) s ↔
        o ∈ s ∨ ∃ e ∈ es, p e.1 = true ∧ o ∈ e.2 := by
    intro es
    induction es with
    | nil => simp
    | cons e es ih =>
      intro s
      rw [foldl_cons, ih, exists_mem_cons_iff]
      by_cases hp : p e.1 = true
      · simp only [hp, if_true, OrdSet.mem_union, true_and, or_assoc]
      · simp [hp]
  rw [unionPostings, hfold]
  simp only [OrdSet.notMem_empty, false_or]
  constructor
  · rintro ⟨e, he, hp, ho⟩
    exact ⟨e.1, hp, Postings.mem_get.mpr ⟨e.2, AList.mem_lookup_iff.mpr he, ho⟩⟩
  · rintro ⟨k, hp, ho⟩
    obtain ⟨s, hs, ho⟩ := Postings.mem_get.mp ho
    exact ⟨⟨k, s⟩, AList.mem_lookup_iff.mp hs, hp, ho⟩

/-! ## Evaluation -/

def Atom.raw : Atom → String
  | .mk _ _ _ raw _ => raw

abbrev AtomCache := AList fun _ : String => SymbolSet

/-- The postings that `eval_exact` reads for a projection. -/
def SymbolInventoryFacets.exactPostings (f : SymbolInventoryFacets) : Lhs → Option (Postings String)
  | .name => some f.byName
  | .kind => some f.byKind
  | .shape => some f.byShape
  | .visibility => some f.byVisibility
  | .srcset => some f.bySrcset
  | .moniker => some f.byIdentity
  | _ => none

/-- The postings that `eval_regex` scans for a projection. -/
def SymbolInventoryFacets.scannedPostings (f : SymbolInventoryFacets) :
    Lhs → Option (Postings String)
  | .name => some f.byName
  | .kind => some f.byKind
  | .shape => some f.byShape
  | .visibility => some f.byVisibility
  | .srcset => some f.bySrcset
  | _ => none

section Evaluation

variable (x : SymbolInventoryIndex) (u : SymbolSet)

def evalExact (lhs : Lhs) (rhs : Rhs) (op : Op) : SymbolSet :=
  match rhs with
  | .str value =>
    let matched := ((x.facets.exactPostings lhs).map (·.get value)).getD ∅
    if op = .ne then u \ matched else matched ∩ u
  | _ => ∅

def evalRegex (lhs : Lhs) (op : Op) (regex : Option Regex) : SymbolSet :=
  match regex with
  | some re =>
    let matched := ((x.facets.scannedPostings lhs).map (unionPostings · re)).getD ∅
    if op = .regexNoMatch then u \ matched else matched ∩ u
  | none => ∅

def exactSegmentCandidates (pattern : PathPattern) : Option SymbolSet :=
  interReduce ((pattern.steps.filterMap (·.literalText)).filterMap (x.facets.bySegment.lookup ·))

def evalPath (lhs : Lhs) (rhs : Rhs) : SymbolSet :=
  match lhs, rhs with
  | .moniker, .pathPattern pattern =>
    let candidates := ((exactSegmentCandidates x pattern).map (· ∩ u)).getD u
    candidates.filter fun o =>
      ((x.record o).any fun r => pattern.matchesTextSegments r.segments) = true
  | _, _ => ∅

def evalAtom : Atom → SymbolSet
  | .mk (.attr lhs) op rhs _ regex =>
    match op with
    | .eq | .ne => evalExact x u lhs rhs op
    | .regexMatch | .regexNoMatch => evalRegex x u lhs op regex
    | .pathMatch => evalPath x u lhs rhs
    | _ => ∅
  | _ => ∅

mutual

def evalNode : Node → AtomCache → SymbolSet × AtomCache
  | .atom a, cache =>
    match cache.lookup a.raw with
    | some cached => (cached, cache)
    | none => (evalAtom x u a, cache.insert a.raw (evalAtom x u a))
  | .and nodes, cache =>
    let (sets, cache) := evalNodes nodes cache
    ((interReduce sets).getD u, cache)
  | .or nodes, cache =>
    let (sets, cache) := evalNodes nodes cache
    ((unionReduce sets).getD ∅, cache)
  | .not node, cache =>
    let (set, cache) := evalNode node cache
    (u \ set, cache)
  | .implies left right, cache =>
    let (premise, cache) := evalNode left cache
    let (conclusion, cache) := evalNode right cache
    ((u \ premise) ∪ conclusion, cache)
  | .require _, cache | .verticalLayout _, cache | .quantifier _ _ _, cache => (∅, cache)

def evalNodes : List Node → AtomCache → List SymbolSet × AtomCache
  | [], cache => ([], cache)
  | node :: nodes, cache =>
    let (set, cache) := evalNode node cache
    let (sets, cache) := evalNodes nodes cache
    (set :: sets, cache)

end

end Evaluation

/-! ## Satisfaction

What an expression says about one record. -/

def InventorySymbol.exactValue (r : InventorySymbol) : Lhs → Option String
  | .name => some r.name
  | .kind => some r.kind
  | .shape => some r.shape
  | .visibility => some r.visibility
  | .srcset => some r.srcset
  | .moniker => some r.identity
  | _ => none

def InventorySymbol.scannedValue (r : InventorySymbol) (lhs : Lhs) : Option String :=
  if lhs = .moniker then none else r.exactValue lhs

def Atom.satisfiedBy (r : InventorySymbol) : Atom → Bool
  | .mk (.attr lhs) op rhs _ regex =>
    match op, rhs, regex with
    | .eq, .str value, _ => r.exactValue lhs = some value
    | .ne, .str value, _ => r.exactValue lhs ≠ some value
    | .regexMatch, _, some re => (r.scannedValue lhs).any re
    | .regexNoMatch, _, some re => !(r.scannedValue lhs).any re
    | .pathMatch, .pathPattern pattern, _ => lhs = .moniker && pattern.matchesTextSegments r.segments
    | _, _, _ => false
  | _ => false

mutual

def Node.satisfiedBy (r : InventorySymbol) : Node → Bool
  | .atom a => a.satisfiedBy r
  | .and nodes => Node.allSatisfiedBy r nodes
  | .or nodes => Node.anySatisfiedBy r nodes
  | .not node => !node.satisfiedBy r
  | .implies left right => !left.satisfiedBy r || right.satisfiedBy r
  | .require _ | .verticalLayout _ | .quantifier _ _ _ => false

def Node.allSatisfiedBy (r : InventorySymbol) : List Node → Bool
  | [] => true
  | node :: nodes => node.satisfiedBy r && Node.allSatisfiedBy r nodes

def Node.anySatisfiedBy (r : InventorySymbol) : List Node → Bool
  | [] => false
  | node :: nodes => node.satisfiedBy r || Node.anySatisfiedBy r nodes

end

/-- The symbols of the universe whose records pass a test. -/
def SymbolInventoryIndex.select (x : SymbolInventoryIndex) (u : SymbolSet)
    (p : InventorySymbol → Bool) : SymbolSet :=
  u.filter fun o => (x.record o).any p = true

theorem SymbolInventoryIndex.mem_select {x : SymbolInventoryIndex} {u : SymbolSet}
    {p : InventorySymbol → Bool} {o : SymbolOrdinal} :
    o ∈ x.select u p ↔ o ∈ u ∧ ∃ r, x.record o = some r ∧ p r = true := by
  simp only [select, OrdSet.mem_filter, Option.any_eq_true]

/-! ## Atoms select the records that satisfy them -/

section Atoms

variable {x : SymbolInventoryIndex} {u : SymbolSet} {o : SymbolOrdinal}

open SymbolInventoryFacets InventorySymbol in
theorem mem_exactPostings {lhs : Lhs} {value : String} :
    o ∈ ((x.facets.exactPostings lhs).map (·.get value)).getD ∅ ↔
      ∃ r, x.record o = some r ∧ r.exactValue lhs = some value := by
  unfold record
  cases lhs with
  | name => simpa [exactPostings, exactValue] using x.described.name.mem_get_single
  | kind => simpa [exactPostings, exactValue] using x.described.kind.mem_get_single
  | shape => simpa [exactPostings, exactValue] using x.described.shape.mem_get_single
  | visibility => simpa [exactPostings, exactValue] using x.described.visibility.mem_get_single
  | srcset => simpa [exactPostings, exactValue] using x.described.srcset.mem_get_single
  | moniker => simpa [exactPostings, exactValue] using x.described.identity.mem_get_single
  | _ => simp [exactPostings, exactValue]

/-- The scanned postings are the exact ones, but for the identities. -/
theorem scannedPostings_eq (f : SymbolInventoryFacets) (lhs : Lhs) :
    f.scannedPostings lhs = if lhs = .moniker then none else f.exactPostings lhs := by
  cases lhs <;> rfl

theorem mem_scannedPostings {lhs : Lhs} {re : Regex} :
    o ∈ ((x.facets.scannedPostings lhs).map (unionPostings · re)).getD ∅ ↔
      ∃ r, x.record o = some r ∧ (r.scannedValue lhs).any re = true := by
  rw [scannedPostings_eq]
  by_cases hlhs : lhs = .moniker
  · simp [hlhs, InventorySymbol.scannedValue]
  · simp only [hlhs, if_false, InventorySymbol.scannedValue, Option.any_eq_true]
    have hmem := fun value => @mem_exactPostings x o lhs value
    cases hm : x.facets.exactPostings lhs with
    | none =>
      simp only [hm, Option.map_none, Option.getD_none, OrdSet.notMem_empty, false_iff] at hmem ⊢
      rintro ⟨r, hr, value, hvalue, -⟩
      exact hmem value ⟨r, hr, hvalue⟩
    | some m =>
      simp only [hm, map_some, getD_some, mem_unionPostings] at hmem ⊢
      constructor
      · rintro ⟨value, hre, ho⟩
        obtain ⟨r, hr, hvalue⟩ := (hmem value).mp ho
        exact ⟨r, hr, value, hvalue, hre⟩
      · rintro ⟨r, hr, value, hvalue, hre⟩
        exact ⟨value, hre, (hmem value).mpr ⟨r, hr, hvalue⟩⟩

theorem SymbolInventoryIndex.mem_segmentPosting {seg : InventorySegment} {s : SymbolSet}
    (hs : x.facets.bySegment.lookup seg = some s) :
    o ∈ s ↔ ∃ r, x.record o = some r ∧ seg ∈ r.segments := by
  have h := x.described.segment seg o
  rw [Postings.mem_get] at h
  simpa [hs, record] using h

/-- Cutting down to the candidates loses no match. -/
theorem mem_candidates {r : InventorySymbol} (hr : x.record o = some r)
    (hmatch : pattern.matchesTextSegments r.segments = true) (ho : o ∈ u) :
    o ∈ ((exactSegmentCandidates x pattern).map (· ∩ u)).getD u := by
  have hall : ∀ s ∈ (pattern.steps.filterMap (·.literalText)).filterMap
      (x.facets.bySegment.lookup ·), o ∈ s := by
    intro s hs
    obtain ⟨seg, hseg, hlookup⟩ := mem_filterMap.mp hs
    obtain ⟨step, hstep, htext⟩ := mem_filterMap.mp hseg
    exact (mem_segmentPosting hlookup).mpr
      ⟨r, hr, pattern.literal_mem hmatch hstep htext⟩
  unfold exactSegmentCandidates
  generalize (pattern.steps.filterMap (·.literalText)).filterMap
    (x.facets.bySegment.lookup ·) = sets at hall
  cases sets with
  | nil => simpa [interReduce] using ho
  | cons s ss =>
    simp only [interReduce, map_some, getD_some, OrdSet.mem_inter, mem_foldl_inter]
    exact ⟨⟨hall s mem_cons_self, fun t ht => hall t (mem_cons_of_mem _ ht)⟩, ho⟩

theorem mem_universe_of_mem_candidates
    (h : o ∈ ((exactSegmentCandidates x pattern).map (· ∩ u)).getD u) : o ∈ u := by
  cases hc : exactSegmentCandidates x pattern with
  | none => simpa [hc] using h
  | some s =>
    simp only [hc, map_some, getD_some, OrdSet.mem_inter] at h
    exact h.2

theorem mem_evalPath {lhs : Lhs} {pattern : PathPattern} :
    o ∈ evalPath x u lhs (.pathPattern pattern) ↔ o ∈ u ∧ ∃ r, x.record o = some r ∧
        (lhs = .moniker ∧ pattern.matchesTextSegments r.segments = true) := by
  by_cases hlhs : lhs = .moniker
  · subst hlhs
    simp only [evalPath, OrdSet.mem_filter, Option.any_eq_true, true_and]
    constructor
    · rintro ⟨hc, hr⟩
      exact ⟨mem_universe_of_mem_candidates hc, hr⟩
    · rintro ⟨ho, r, hr, hmatch⟩
      exact ⟨mem_candidates hr hmatch ho, r, hr, hmatch⟩
  · have hempty : evalPath x u lhs (.pathPattern pattern) = ∅ := by
      cases lhs <;> first | rfl | exact absurd rfl hlhs
    simp [hempty, hlhs]

/-- A complement selects the records that fail the test. -/
theorem mem_sdiff_iff {s : SymbolSet} {p : InventorySymbol → Prop}
    (hu : x.Knows u) (hs : o ∈ s ↔ ∃ r, x.record o = some r ∧ p r) :
    o ∈ u \ s ↔ o ∈ u ∧ ∃ r, x.record o = some r ∧ ¬p r := by
  rw [OrdSet.mem_sdiff, hs]
  refine and_congr_right fun ho => ?_
  obtain ⟨r, hr⟩ := hu o ho
  simp [hr]

theorem mem_evalExact (hu : x.Knows u) {lhs : Lhs} {value : String}
    {op : Op} : o ∈ evalExact x u lhs (.str value) op ↔ o ∈ u ∧ ∃ r, x.record o = some r ∧
      (if op = .ne then r.exactValue lhs ≠ some value else r.exactValue lhs = some value) := by
  simp only [evalExact]
  by_cases hop : op = .ne
  · simp only [hop, if_true]
    exact mem_sdiff_iff hu mem_exactPostings
  · simp only [hop, if_false, OrdSet.mem_inter, mem_exactPostings]
    exact and_comm

theorem mem_evalRegex (hu : x.Knows u) {lhs : Lhs} {re : Regex} {op : Op} :
    o ∈ evalRegex x u lhs op (some re) ↔ o ∈ u ∧ ∃ r, x.record o = some r ∧
      (if op = .regexNoMatch then ¬(r.scannedValue lhs).any re = true
        else (r.scannedValue lhs).any re = true) := by
  simp only [evalRegex]
  by_cases hop : op = .regexNoMatch
  · simp only [hop, if_true]
    exact mem_sdiff_iff hu mem_scannedPostings
  · simp only [hop, if_false, OrdSet.mem_inter, mem_scannedPostings]
    exact and_comm

theorem evalAtom_eq_select (hu : x.Knows u) (a : Atom) :
    evalAtom x u a = x.select u a.satisfiedBy := by
  ext o
  rw [mem_select]
  obtain ⟨lhs, op, rhs, raw, regex⟩ := a
  cases lhs with
  | attr lhs =>
    cases op with
    | eq | ne =>
      cases rhs with
      | str value => simp [evalAtom, Atom.satisfiedBy, mem_evalExact hu]
      | _ => simp [evalAtom, Atom.satisfiedBy, evalExact]
    | regexMatch | regexNoMatch =>
      cases regex with
      | some re => simp [evalAtom, Atom.satisfiedBy, mem_evalRegex hu]
      | none => simp [evalAtom, Atom.satisfiedBy, evalRegex]
    | pathMatch =>
      cases rhs with
      | pathPattern pattern => simp [evalAtom, Atom.satisfiedBy, mem_evalPath]
      | _ => simp [evalAtom, Atom.satisfiedBy, evalPath]
    | _ => simp [evalAtom, Atom.satisfiedBy]
  | _ => simp [evalAtom, Atom.satisfiedBy]

end Atoms

/-! ## Expressions select the records that satisfy them -/

mutual

/-- The atoms that `eval_node` reaches. -/
def Node.atoms : Node → List Atom
  | .atom a => [a]
  | .and nodes | .or nodes => Node.atomsOf nodes
  | .not node => node.atoms
  | .implies left right => left.atoms ++ right.atoms
  | .require _ | .verticalLayout _ | .quantifier _ _ _ => []

def Node.atomsOf : List Node → List Atom
  | [] => []
  | node :: nodes => node.atoms ++ Node.atomsOf nodes

end

/-- The text of an atom determines it, as the parser reads it from there. -/
def Textual (atoms : List Atom) : Prop :=
  ∀ a ∈ atoms, ∀ b ∈ atoms, a.raw = b.raw → a = b

/-- Every answer in the cache is that of the atoms with its text. -/
def AtomCache.Answers (cache : AtomCache) (x : SymbolInventoryIndex) (u : SymbolSet)
    (atoms : List Atom) : Prop :=
  ∀ a ∈ atoms, ∀ s, cache.lookup a.raw = some s → s = evalAtom x u a

open Node

section Nodes

variable {x : SymbolInventoryIndex} {u : SymbolSet} {atoms : List Atom}

theorem AtomCache.answers_empty : AtomCache.Answers ∅ x u atoms := by
  intro a _ s h
  simp at h

theorem AtomCache.Answers.insert {cache : AtomCache} (h : cache.Answers x u atoms)
    (ht : Textual atoms) {a : Atom} (ha : a ∈ atoms) :
    AtomCache.Answers (cache.insert a.raw (evalAtom x u a)) x u atoms := by
  intro b hb s hs
  by_cases hraw : b.raw = a.raw
  · obtain rfl := ht b hb a ha hraw
    simpa using hs.symm
  · exact h b hb s (by simpa [hraw] using hs)

/-- The answers of `eval_node` to a list of expressions, and the cache it leaves. -/
def NodesPost (x : SymbolInventoryIndex) (u : SymbolSet) (atoms : List Atom) (nodes : List Node)
    (cache : AtomCache) : Prop :=
  (evalNodes x u nodes cache).1 = nodes.map (fun n => x.select u n.satisfiedBy) ∧
    (evalNodes x u nodes cache).2.Answers x u atoms

def NodePost (x : SymbolInventoryIndex) (u : SymbolSet) (atoms : List Atom) (node : Node)
    (cache : AtomCache) : Prop :=
  (evalNode x u node cache).1 = x.select u node.satisfiedBy ∧
    (evalNode x u node cache).2.Answers x u atoms

theorem Node.allSatisfiedBy_iff {r : InventorySymbol} : ∀ {nodes : List Node},
    allSatisfiedBy r nodes = true ↔ ∀ n ∈ nodes, n.satisfiedBy r = true
  | [] => by simp [allSatisfiedBy]
  | node :: nodes => by
    have ih := @Node.allSatisfiedBy_iff r nodes
    simp only [allSatisfiedBy, Bool.and_eq_true, forall_mem_cons, ih]

theorem Node.anySatisfiedBy_iff {r : InventorySymbol} : ∀ {nodes : List Node},
    anySatisfiedBy r nodes = true ↔ ∃ n ∈ nodes, n.satisfiedBy r = true
  | [] => by simp [anySatisfiedBy]
  | node :: nodes => by
    have ih := @Node.anySatisfiedBy_iff r nodes
    simp only [anySatisfiedBy, Bool.or_eq_true, exists_mem_cons_iff, ih]

theorem interReduce_select (hu : x.Knows u) (nodes : List Node) :
    (interReduce (nodes.map fun n => x.select u n.satisfiedBy)).getD u =
      x.select u (and nodes).satisfiedBy := by
  ext o
  rw [mem_interReduce, mem_select]
  · refine and_congr_right fun ho => ?_
    obtain ⟨r, hr⟩ := hu o ho
    simp [mem_select, ho, hr, satisfiedBy, allSatisfiedBy_iff]
  · intro s hs hos
    obtain ⟨n, -, rfl⟩ := mem_map.mp hs
    exact (mem_select.mp hos).1

theorem unionReduce_select (nodes : List Node) :
    (unionReduce (nodes.map fun n => x.select u n.satisfiedBy)).getD ∅ =
      x.select u (or nodes).satisfiedBy := by
  ext o
  rw [mem_unionReduce, mem_select]
  simp only [mem_map, exists_exists_and_eq_and, mem_select, satisfiedBy, anySatisfiedBy_iff]
  constructor
  · rintro ⟨n, hn, ho, r, hr, hsat⟩
    exact ⟨ho, r, hr, n, hn, hsat⟩
  · rintro ⟨ho, r, hr, n, hn, hsat⟩
    exact ⟨n, hn, ho, r, hr, hsat⟩

theorem sdiff_select (hu : x.Knows u) (node : Node) :
    u \ x.select u node.satisfiedBy = x.select u (not node).satisfiedBy := by
  ext o
  rw [OrdSet.mem_sdiff, mem_select, mem_select]
  refine and_congr_right fun ho => ?_
  obtain ⟨r, hr⟩ := hu o ho
  simp [ho, hr, satisfiedBy]

theorem implies_select (hu : x.Knows u) (left right : Node) :
    (u \ x.select u left.satisfiedBy) ∪ x.select u right.satisfiedBy =
      x.select u (implies left right).satisfiedBy := by
  ext o
  rw [sdiff_select hu, OrdSet.mem_union]
  simp only [mem_select, ← and_or_left]
  refine and_congr_right fun ho => ?_
  obtain ⟨r, hr⟩ := hu o ho
  simp [hr, satisfiedBy]

theorem select_of_unsatisfied {p : InventorySymbol → Bool} (h : ∀ r, p r = false) :
    ∅ = x.select u p := by
  ext o
  simp [mem_select, h]

mutual

theorem nodePost (hu : x.Knows u) (ht : Textual atoms) :
    ∀ (node : Node) (cache : AtomCache), (∀ a ∈ node.atoms, a ∈ atoms) →
      cache.Answers x u atoms → NodePost x u atoms node cache
  | .atom a, cache, hsub, hc => by
    have ha : a ∈ atoms := hsub a (by simp [Node.atoms])
    have hsat : evalAtom x u a = x.select u (Node.atom a).satisfiedBy := evalAtom_eq_select hu a
    unfold NodePost evalNode
    cases hl : cache.lookup a.raw with
    | some s => exact ⟨(hc a ha s hl).trans hsat, hc⟩
    | none => exact ⟨hsat, hc.insert ht ha⟩
  | .and nodes, cache, hsub, hc => by
    obtain ⟨hsets, hc'⟩ := nodesPost hu ht nodes cache (by simpa only [Node.atoms] using hsub) hc
    refine ⟨?_, by simpa only [evalNode] using hc'⟩
    simp only [evalNode, hsets]
    exact interReduce_select hu nodes
  | .or nodes, cache, hsub, hc => by
    obtain ⟨hsets, hc'⟩ := nodesPost hu ht nodes cache (by simpa only [Node.atoms] using hsub) hc
    refine ⟨?_, by simpa only [evalNode] using hc'⟩
    simp only [evalNode, hsets]
    exact unionReduce_select nodes
  | .not node, cache, hsub, hc => by
    obtain ⟨hset, hc'⟩ := nodePost hu ht node cache (by simpa only [Node.atoms] using hsub) hc
    refine ⟨?_, by simpa only [evalNode] using hc'⟩
    simp only [evalNode, hset]
    exact sdiff_select hu node
  | .implies left right, cache, hsub, hc => by
    simp only [Node.atoms, mem_append] at hsub
    obtain ⟨hleft, hc'⟩ := nodePost hu ht left cache (fun a ha => hsub a (Or.inl ha)) hc
    obtain ⟨hright, hc''⟩ := nodePost hu ht right _ (fun a ha => hsub a (Or.inr ha)) hc'
    refine ⟨?_, by simpa only [evalNode] using hc''⟩
    simp only [evalNode, hleft, hright]
    exact implies_select hu left right
  | .require _, cache, _, hc | .verticalLayout _, cache, _, hc | .quantifier _ _ _, cache, _, hc =>
    ⟨select_of_unsatisfied fun _ => rfl, hc⟩

theorem nodesPost (hu : x.Knows u) (ht : Textual atoms) :
    ∀ (nodes : List Node) (cache : AtomCache), (∀ a ∈ atomsOf nodes, a ∈ atoms) →
      cache.Answers x u atoms → NodesPost x u atoms nodes cache
  | [], cache, _, hc => ⟨rfl, hc⟩
  | node :: nodes, cache, hsub, hc => by
    simp only [atomsOf, mem_append] at hsub
    obtain ⟨hset, hc'⟩ := nodePost hu ht node cache (fun a ha => hsub a (Or.inl ha)) hc
    obtain ⟨hsets, hc''⟩ := nodesPost hu ht nodes _ (fun a ha => hsub a (Or.inr ha)) hc'
    refine ⟨?_, by simpa only [evalNodes] using hc''⟩
    simp only [evalNodes, hset, hsets, map_cons]

end

end Nodes

end CodeMoniker
