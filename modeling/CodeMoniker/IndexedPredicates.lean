import CodeMoniker.Inventory
import CodeMoniker.RuleExpr
import CodeMoniker.Uri

/-!
# Structural predicates over the published index

`IndexedPredicates` evaluates rule expressions on the symbols of the code index and the
resolved linkage. Its domains are lists of symbols or references together with a flag that
says whether the linkage may still add to them.

`Resolves` is a step of the linkage towards more resolved references. The tables built from
the better linkage extend the ones built before (`DomainExtends`), and the evaluation follows
the syntax tree, so a settled answer stays (`evaluate_stable`).
-/

namespace CodeMoniker

open List Kleene Extends

/-! ## The code index -/

structure SymbolRecord where
  byteRange : Option (ℕ × ℕ)
  id : SymbolId
  source : ℕ
  identity : String
  name : String
  kind : String
  visibility : String
  signature : String
  parent : Option SymbolId
  deriving DecidableEq, Repr

/-- The symbols and references of the workspace. References start at symbols of the index, and
the inventory lists every symbol under its identity. -/
structure CodeIndex where
  identityScheme : String
  symbols : List SymbolRecord
  references : ReferenceTable
  inventory : SymbolInventoryIndex
  sourced : ∀ r ∈ references.iter, ∃ s ∈ symbols, s.id = r.sourceSymbol
  inventoried : ∀ s ∈ symbols, ∃ o r, inventory.record o = some r ∧ r.id = s.id ∧
    r.identity = s.identity

def CodeIndex.symbol (index : CodeIndex) (id : SymbolId) : Option SymbolRecord :=
  index.symbols.find? (·.id = id)

/-! ## The tables -/

inductive Item where
  | symbol (id : SymbolId)
  | reference (r : ReferenceRecord)
  deriving DecidableEq, Repr

/-- `Vec::dedup` : drop an element that equals the one before it. -/
def dedupAdjacent {α : Type} [DecidableEq α] : List α → List α
  | [] => []
  | [x] => [x]
  | x :: y :: rest => if x = y then dedupAdjacent (y :: rest) else x :: dedupAdjacent (y :: rest)

theorem mem_dedupAdjacent {α : Type} [DecidableEq α] {a : α} :
    ∀ {xs : List α}, a ∈ dedupAdjacent xs ↔ a ∈ xs
  | [] => Iff.rfl
  | [x] => Iff.rfl
  | x :: y :: rest => by
    rw [dedupAdjacent]
    split_ifs with hxy
    · rw [mem_dedupAdjacent, hxy]
      simp
    · rw [mem_cons, mem_dedupAdjacent, mem_cons (b := x)]

structure IndexedPredicates where
  index : CodeIndex
  children : SymbolId → List SymbolId
  outgoing : SymbolId → List ReferenceRecord
  incoming : SymbolId → List ReferenceRecord
  targets : ReferenceId → Option SymbolId
  uncertainIncoming : List SymbolId
  uncertainChildren : List SymbolId

open NodeOutcome

namespace IndexedPredicates

section Tables

variable (index : CodeIndex) (linkage : LinkageSnapshot)

def targetsOf (id : ReferenceId) : Option SymbolId :=
  (linkage.resolved.find? (·.reference = id)).map (·.target)

def memberships : List ReferenceRecord :=
  index.references.iter.filter fun r => r.kind = "member_of"

/-- The order of the children : those without a position first, then by position, then by
id. -/
def childKey (id : SymbolId) : List ℕ :=
  (match (index.symbol id).bind (·.byteRange) with
    | none => [0]
    | some (s, e) => [1, s, e]) ++ [id.file, id.defIdx]

/-- The symbols with the parent `owner` that no membership speaks of, and the members whose
membership is resolved to `owner`. -/
def childrenOf (owner : SymbolId) : List SymbolId :=
  let nested := index.symbols.filter fun s =>
    s.id ∉ (memberships index).map (·.sourceSymbol) ∧ s.parent = some owner
  let members := (memberships index).filter fun r => targetsOf linkage r.id = some owner
  let all := nested.map (·.id) ++ members.map (·.sourceSymbol)
  dedupAdjacent (all.mergeSort fun a b => childKey index a ≤ childKey index b)

/-- The targets that candidate and dynamic references may turn out to have, for the references
that `select` admits. -/
def possibleTargets (select : ReferenceId → Bool) : List SymbolId :=
  (linkage.candidates.filter fun r => select r.reference).flatMap (·.targets) ++
    (linkage.dynamic.filter fun r => select r.reference).flatMap (·.candidates)

/-- The symbols under the target identities of references without a resolved target. -/
def identityTargets (references : List ReferenceRecord) : List SymbolId :=
  (references.filter fun r => targetsOf linkage r.id = none).flatMap fun r =>
    (index.inventory.facets.byIdentity.get r.targetIdentity).elems.filterMap fun o =>
      (index.inventory.record o).map (·.id)

def new : IndexedPredicates where
  index := index
  children := childrenOf index linkage
  outgoing id := index.references.iter.filter fun r => r.sourceSymbol = id
  incoming id := index.references.iter.filter fun r => targetsOf linkage r.id = some id
  targets := targetsOf linkage
  uncertainIncoming := possibleTargets linkage (fun _ => true) ++
    identityTargets index linkage index.references.iter
  uncertainChildren :=
    possibleTargets linkage (fun id => id ∈ (memberships index).map (·.id)) ++
      identityTargets index linkage (memberships index)

end Tables

/-! ## Evaluation -/

variable (p : IndexedPredicates)

def source : Item → SymbolId
  | .symbol id => id
  | .reference r => r.sourceSymbol

def childItems (owner : SymbolId) (select : String → Bool) : List Item × Bool :=
  (((p.children owner).filter fun id => (p.index.symbol id).any fun s => select s.kind).map
    Item.symbol, owner ∉ p.uncertainChildren)

def incomingItems (id : SymbolId) : List Item × Bool :=
  ((p.incoming id).map Item.reference, id ∉ p.uncertainIncoming)

def outgoingItems (id : SymbolId) : List Item × Bool :=
  ((p.outgoing id).map Item.reference, true)

/-- The items of a domain, and whether these are all of them. -/
def domain (d : Domain) (item : Item) : List Item × Bool :=
  match d with
  | .children kind => p.childItems (source item) (· = kind)
  | .childrenByShape shape => p.childItems (source item) fun k => (Shape.forKind k).asStr = shape
  | .outRefs | .sourceOutRefs => p.outgoingItems (source item)
  | .inRefs | .sourceInRefs => p.incomingItems (source item)
  | .targetInRefs =>
    match item with
    | .symbol _ => ([], false)
    | .reference r =>
      match p.targets r.id with
      | none => ([], false)
      | some target => p.incomingItems target
  | .targetOutRefs =>
    match item with
    | .symbol _ => ([], false)
    | .reference r =>
      match p.targets r.id with
      | none => ([], false)
      | some target => p.outgoingItems target
  | _ => ([], false)

/-- The attribute a projection of the source or the target stands for. -/
def ownAttribute : Lhs → Lhs
  | .sourceName | .targetName => .name
  | .sourceKind | .targetKind => .kind
  | .sourceSignature | .targetSignature => .signature
  | .sourceShape | .targetShape => .shape
  | .sourceMoniker | .targetMoniker => .moniker
  | .sourceSrcset | .targetSrcset => .srcset
  | .sourceVisibility | .targetVisibility => .visibility
  | lhs => lhs

def isTargetLhs : Lhs → Bool
  | .targetName | .targetKind | .targetSignature | .targetShape | .targetMoniker
  | .targetSrcset | .targetVisibility => true
  | _ => false

/-- An attribute of a symbol. -/
def symbolAttribute (id : SymbolId) (attr : Lhs) : Option Value := do
  let symbol ← p.index.symbol id
  match attr with
  | .srcset => return .str (← p.index.inventory.recordById id).srcset
  | .name => return .str symbol.name
  | .kind => return .str symbol.kind
  | .signature => return .str symbol.signature
  | .visibility => return .str symbol.visibility
  | .shape => return .str (Shape.forKind symbol.kind).asStr
  | .moniker =>
    return .moniker (← (fromUri symbol.identity.toList ⟨p.index.identityScheme.toList⟩).toOption)
  | _ => none

def scalar (lhs : Lhs) (item : Item) : Option Value :=
  if isTargetLhs lhs then
    match item with
    | .symbol _ => none
    | .reference r => (p.targets r.id).bind fun id => p.symbolAttribute id (ownAttribute lhs)
  else
    match lhs, item with
    | .kind, .reference r => some (.str r.kind)
    | lhs, item => p.symbolAttribute (source item) (ownAttribute lhs)

def collection (e : CollectionExpr) (item current : Item) : Option (List Value) :=
  match e with
  | .projection q => do
    let (items, complete) := p.domain q.domain (if q.current then current else item)
    if complete then
      let lhs ← Lhs.fromProjectionName (".".intercalate q.path)
      items.mapM (p.scalar lhs)
    else none
  | .unique inner => (collection inner item current).map uniqueValues
  | .binary op left right => do
    let left ← collection left item current
    let right ← collection right item current
    return op.apply left right
  | .pairProjection _ => none

/-- One source for all the items, which are symbols and have positions if there are several. -/
def inOneSource (several : Bool) : Option ℕ → List Item → Bool
  | _, [] => true
  | _, .reference _ :: _ => false
  | seen, .symbol id :: rest =>
    match p.index.symbol id with
    | none => false
    | some symbol =>
      if several ∧ symbol.byteRange = none then false
      else if ∃ s ∈ seen, s ≠ symbol.source then false
      else inOneSource several (some symbol.source) rest

def comparisonCollection (e : CollectionExpr) (item current : Item) (ordered : Bool) :
    Option (List Value) :=
  if ordered then
    match e with
    | .projection q =>
      let (items, complete) := p.domain q.domain (if q.current then current else item)
      if complete && p.inOneSource (items.length > 1) none items then p.collection e item current
      else none
    | _ => none
  else p.collection e item current

def collectionAtom (op : Op) (left right : CollectionExpr) (item current : Item) : AtomOutcome :=
  match p.comparisonCollection left item current (op = .isPrefix),
    p.comparisonCollection right item current (op = .isPrefix) with
  | some left, some right =>
    .ofBool (if op = .isPrefix then isPrefixOf left right else isSubset left right)
  | _, _ => .notApplicable

/-- Both sides of an atom that compares two collections. -/
def collectionSides : LhsExpr → Rhs → Option (CollectionExpr × CollectionExpr)
  | .collection left, .collection right => some (left, right)
  | _, _ => none

mutual

def node : Node → (item current : Item) → NodeOutcome
  | .atom a, item, current => atom a item current
  | .and children, item, current => .andOutcome false (nodes children item current)
  | .or children, item, current => .orOutcome false false (nodes children item current)
  | .not inner, item, current => (node inner item current).notOutcome
  | .implies premise conclusion, item, current =>
    (node premise item current).impliesOutcome (node conclusion item current)
  | .require _, _, _ => .notApplicable
  | .verticalLayout _, _, _ => .notApplicable
  | .quantifier kind d filter, item, _ =>
    let (items, complete) := p.domain d item
    .quantify kind (!complete) (items.map fun nested => (node filter nested item).truth)

def nodes : List Node → (item current : Item) → List NodeOutcome
  | [], _, _ => []
  | n :: rest, item, current => node n item current :: nodes rest item current

def number : NumberExpr → (item current : Item) → Option ℚ
  | .literal n, _, _ => some n
  | .size c, item, current => (p.collection c item current).map fun values => (values.length : ℚ)
  | .count d filter, item, _ =>
    let (items, complete) := p.domain d item
    if complete then
      (items.mapM fun nested => filterTruth filter nested item).map fun ts =>
        ((ts.count true : ℕ) : ℚ)
    else none
  | _, _, _ => none

/-- An item without a filter is counted. -/
def filterTruth : Option Node → (item current : Item) → Option Bool
  | some filter, item, current => (node filter item current).truth
  | none, _, _ => some true

def lhsValue : LhsExpr → (item current : Item) → Option Value
  | .attr lhs, item, _ => p.scalar lhs item
  | .number n, item, current => (number n item current).map .number
  | _, _, _ => none

/-- The right side where it is evaluated; the outer `none` is a literal, which `apply_op`
reads. -/
def rhsValue : Rhs → (item current : Item) → Option (Option Value)
  | .projection lhs, item, _ => some (p.scalar lhs item)
  | .currentProjection lhs, _, current => some (p.scalar lhs current)
  | .number n, item, current => some ((number n item current).map .number)
  | _, _, _ => none

def atom : Atom → (item current : Item) → AtomOutcome
  | .mk lhs op rhs _ regex, item, current =>
    match collectionSides lhs rhs with
    | some (left, right) => p.collectionAtom op left right item current
    | none =>
      match lhsValue lhs item current with
      | none => .notApplicable
      | some value =>
        match rhsValue rhs item current with
        | none => applyOp value op rhs regex
        | some none => .notApplicable
        | some (some right) => applyOpValues value op right

end

def evaluate (n : Node) (id : SymbolId) : Option Bool :=
  (p.node n (.symbol id) (.symbol id)).truth

/-! ## Better linkage -/

/-- The linkage leaves it open that `id` refers to `t` : `t` is a recorded candidate, or the
reference is unresolved and `t` has its target identity. -/
inductive Admits (index : CodeIndex) (l : LinkageSnapshot) (id : ReferenceId) (t : SymbolId) : Prop
  | candidate (c : CandidateReference) (hc : c ∈ l.candidates) (hid : c.reference = id)
      (ht : t ∈ c.targets)
  | dynamic (d : DynamicReference) (hd : d ∈ l.dynamic) (hid : d.reference = id)
      (ht : t ∈ d.candidates)
  | unresolved (u : UnresolvedReference) (hu : u ∈ l.blocked ++ l.unresolved)
      (hid : u.reference = id) (r : ReferenceRecord) (hr : r ∈ index.references.iter)
      (hrid : r.id = id) (s : SymbolRecord) (hs : s ∈ index.symbols) (ht : s.id = t)
      (hidentity : s.identity = r.targetIdentity)

/-- `l'` is `l` with some open references resolved by `choice` and all others unchanged. -/
structure Resolves (index : CodeIndex) (l l' : LinkageSnapshot)
    (choice : ReferenceId → Option SymbolId) : Prop where
  admitted : ∀ id t, choice id = some t → Admits index l id t
  resolved : ∀ e, e ∈ l'.resolved ↔ e ∈ l.resolved ∨ choice e.reference = some e.target
  candidates : ∀ c, c ∈ l'.candidates ↔ c ∈ l.candidates ∧ choice c.reference = none
  external : ∀ x, x ∈ l'.external ↔ x ∈ l.external
  dynamic : ∀ d, d ∈ l'.dynamic ↔ d ∈ l.dynamic ∧ choice d.reference = none
  blocked : ∀ u, u ∈ l'.blocked ↔ u ∈ l.blocked ∧ choice u.reference = none
  unresolved : ∀ u, u ∈ l'.unresolved ↔ u ∈ l.unresolved ∧ choice u.reference = none

/-- Tables that keep what is settled : the lists only grow, and the ones that are complete stay
as they are. -/
structure Improves (p p' : IndexedPredicates) : Prop where
  index : p'.index = p.index
  outgoing : p'.outgoing = p.outgoing
  targets : ∀ id, Extends (p.targets id) (p'.targets id)
  children : ∀ owner, (∀ c ∈ p.children owner, c ∈ p'.children owner) ∧
    (owner ∉ p.uncertainChildren →
      owner ∉ p'.uncertainChildren ∧ p'.children owner = p.children owner)
  incoming : ∀ id, (∀ r ∈ p.incoming id, r ∈ p'.incoming id) ∧
    (id ∉ p.uncertainIncoming → id ∉ p'.uncertainIncoming ∧ p'.incoming id = p.incoming id)

section Linkage

variable {index : CodeIndex} {l l' : LinkageSnapshot} {choice : ReferenceId → Option SymbolId}
  {id : ReferenceId} {t : SymbolId}

theorem targetsOf_eq_some : targetsOf l id = some t ↔ (⟨id, t⟩ : LinkageEdge) ∈ l.resolved := by
  unfold targetsOf
  rw [Option.map_eq_some_iff]
  refine ⟨fun ⟨e, he, ht⟩ => ?_, fun h => ?_⟩
  · have hid : e.reference = id := by simpa using find?_some he
    rw [← hid, ← ht]
    exact mem_of_find?_eq_some he
  · obtain ⟨e, he⟩ : ∃ e, l.resolved.find? (·.reference = id) = some e :=
      Option.isSome_iff_exists.mp (find?_isSome.mpr ⟨_, h, by simp⟩)
    have hid : e.reference = id := by simpa using find?_some he
    refine ⟨e, he, ?_⟩
    rw [LinkageSnapshot.eq_of_reference_eq (mem_of_find?_eq_some he) h hid]

theorem Admits.targetsOf_eq_none (h : Admits index l id t) : targetsOf l id = none := by
  rw [Option.eq_none_iff_forall_ne_some]
  intro t' ht'
  refine LinkageSnapshot.resolved_ne (targetsOf_eq_some.mp ht') ?_ (Eq.refl id)
  cases h with
  | candidate c hc hid =>
    have := mem_map_of_mem (f := (·.reference)) hc
    rw [hid] at this
    simp [this]
  | dynamic d hd hid =>
    have := mem_map_of_mem (f := (·.reference)) hd
    rw [hid] at this
    simp [this]
  | unresolved u hu hid =>
    have := mem_map_of_mem (f := (·.reference)) hu
    rw [hid, map_append, mem_append] at this
    rcases this with h | h
    · simp [h]
    · simp [h]

namespace Resolves

variable (h : Resolves index l l' choice)

include h

theorem targets_extends (id : ReferenceId) : Extends (targetsOf l id) (targetsOf l' id) := by
  intro t ht
  exact targetsOf_eq_some.mpr ((h.resolved _).mpr (Or.inl (targetsOf_eq_some.mp ht)))

theorem targetsOf_new (ht : targetsOf l' id = some t) :
    targetsOf l id = some t ∨ choice id = some t :=
  ((h.resolved _).mp (targetsOf_eq_some.mp ht)).imp_left targetsOf_eq_some.mpr

variable {select : ReferenceId → Bool} {references : List ReferenceRecord}

/-- A chosen target was uncertain before. -/
theorem mem_uncertain (hsub : ∀ r ∈ index.references.iter, select r.id = true → r ∈ references)
    {id : ReferenceId} {t : SymbolId} (hselect : select id = true) (ht : choice id = some t) :
    t ∈ possibleTargets l select ++ identityTargets index l references := by
  have hadmit := h.admitted id t ht
  have hnone := hadmit.targetsOf_eq_none
  rw [mem_append]
  cases hadmit with
  | candidate c hc hid ht =>
    refine Or.inl (mem_append_left _ (mem_flatMap.mpr ⟨c, ?_, ht⟩))
    exact mem_filter.mpr ⟨hc, by rw [hid, hselect]⟩
  | dynamic d hd hid ht =>
    refine Or.inl (mem_append_right _ (mem_flatMap.mpr ⟨d, ?_, ht⟩))
    exact mem_filter.mpr ⟨hd, by rw [hid, hselect]⟩
  | unresolved u hu hid r hr hrid s hs ht hidentity =>
    obtain ⟨o, rec, hrec, hrecid, hrecident⟩ := index.inventoried s hs
    refine Or.inr (mem_flatMap.mpr ⟨r, mem_filter.mpr ⟨hsub r hr ?_, ?_⟩, ?_⟩)
    · rw [hrid, hselect]
    · rw [hrid, hnone]
      rfl
    · have hfiled : o ∈ index.inventory.facets.byIdentity.get r.targetIdentity :=
        (index.inventory.described.identity _ _).mpr ⟨rec, hrec, by simp [hrecident, hidentity]⟩
      exact mem_filterMap.mpr ⟨o, hfiled, by rw [hrec, Option.map_some, hrecid, ht]⟩

/-- Nothing becomes uncertain. -/
theorem uncertain_subset
    (ht : t ∈ possibleTargets l' select ++ identityTargets index l' references) :
    t ∈ possibleTargets l select ++ identityTargets index l references := by
  simp only [possibleTargets, identityTargets, mem_append, mem_flatMap, mem_filter]
    at ht ⊢
  rcases ht with (⟨c, ⟨hc, hs⟩, ht⟩ | ⟨d, ⟨hd, hs⟩, ht⟩) | ⟨r, ⟨hr, hnone⟩, ht⟩
  · exact Or.inl (Or.inl ⟨c, ⟨((h.candidates c).mp hc).1, hs⟩, ht⟩)
  · exact Or.inl (Or.inr ⟨d, ⟨((h.dynamic d).mp hd).1, hs⟩, ht⟩)
  · refine Or.inr ⟨r, ⟨hr, ?_⟩, ht⟩
    simp only [decide_eq_true_eq] at hnone ⊢
    rw [Option.eq_none_iff_forall_ne_some]
    intro t' ht'
    rw [h.targets_extends r.id t' ht'] at hnone
    cases hnone

/-- Away from the uncertain symbols the references that lead to a symbol are the same. -/
theorem targetsOf_eq_iff (hsub : ∀ r ∈ index.references.iter, select r.id = true → r ∈ references)
    {id : ReferenceId} {t : SymbolId} (hselect : select id = true)
    (ht : t ∉ possibleTargets l select ++ identityTargets index l references) :
    targetsOf l' id = some t ↔ targetsOf l id = some t := by
  refine ⟨fun hnew => ?_, h.targets_extends id t⟩
  exact (h.targetsOf_new hnew).resolve_right fun hchoice =>
    ht (h.mem_uncertain hsub hselect hchoice)

theorem improves : Improves (new index l) (new index l') where
  index := rfl
  outgoing := rfl
  targets := h.targets_extends
  children owner := by
    refine ⟨fun c hc => ?_, fun howner => ⟨fun hnew => howner (h.uncertain_subset hnew), ?_⟩⟩
    · simp only [new, childrenOf, mem_dedupAdjacent, mem_mergeSort, mem_append,
        mem_map, mem_filter, decide_eq_true_eq] at hc ⊢
      rcases hc with hc | ⟨r, ⟨hr, ht⟩, hrc⟩
      · exact Or.inl hc
      · exact Or.inr ⟨r, ⟨hr, h.targets_extends r.id owner ht⟩, hrc⟩
    · have hmembers : ((memberships index).filter fun r => targetsOf l' r.id = some owner) =
          (memberships index).filter fun r => targetsOf l r.id = some owner := by
        refine filter_congr fun r hr => ?_
        rw [decide_eq_decide]
        refine h.targetsOf_eq_iff (fun r hr hm => ?_) (mem_map_of_mem hr |> decide_eq_true) howner
        obtain ⟨r', hr', hid⟩ := mem_map.mp (of_decide_eq_true hm)
        rwa [← ReferenceTable.eq_of_id_eq (mem_filter.mp hr').1 hr hid]
      simp only [new, childrenOf, hmembers]
  incoming id := by
    refine ⟨fun r hr => ?_, fun hid => ⟨fun hnew => hid (h.uncertain_subset hnew), ?_⟩⟩
    · simp only [new, mem_filter, decide_eq_true_eq] at hr ⊢
      exact ⟨hr.1, h.targets_extends r.id id hr.2⟩
    · refine filter_congr fun r hr => ?_
      rw [decide_eq_decide]
      exact h.targetsOf_eq_iff (fun r hr _ => hr) rfl hid

end Resolves

end Linkage

/-! ## Settled answers stay -/

/-- The items only grow, and a complete domain stays as it is. -/
def DomainExtends (d d' : List Item × Bool) : Prop :=
  (∀ x ∈ d.1, x ∈ d'.1) ∧ (d.2 = true → d' = d)

theorem domainExtends_open (d : List Item × Bool) : DomainExtends ([], false) d :=
  ⟨by simp, by simp⟩

namespace Improves

section Domains

variable {p p' : IndexedPredicates} (h : Improves p p')

include h

theorem childItems_extends (owner : SymbolId) (select : String → Bool) :
    DomainExtends (p.childItems owner select) (p'.childItems owner select) := by
  obtain ⟨hsub, hwhole⟩ := h.children owner
  unfold childItems
  rw [h.index]
  refine ⟨fun x hx => ?_, fun hcomplete => ?_⟩
  · obtain ⟨id, hid, rfl⟩ := mem_map.mp hx
    obtain ⟨hmem, hkind⟩ := mem_filter.mp hid
    exact mem_map_of_mem (mem_filter.mpr ⟨hsub id hmem, hkind⟩)
  · obtain ⟨hout, heq⟩ := hwhole (of_decide_eq_true hcomplete)
    simp only [heq, hout, of_decide_eq_true hcomplete]

theorem incomingItems_extends (id : SymbolId) :
    DomainExtends (p.incomingItems id) (p'.incomingItems id) := by
  obtain ⟨hsub, hwhole⟩ := h.incoming id
  unfold incomingItems
  refine ⟨fun x hx => ?_, fun hcomplete => ?_⟩
  · obtain ⟨r, hr, rfl⟩ := mem_map.mp hx
    exact mem_map_of_mem (hsub r hr)
  · obtain ⟨hout, heq⟩ := hwhole (of_decide_eq_true hcomplete)
    simp only [heq, hout, of_decide_eq_true hcomplete]

theorem outgoingItems_extends (id : SymbolId) :
    DomainExtends (p.outgoingItems id) (p'.outgoingItems id) := by
  unfold outgoingItems
  rw [h.outgoing]
  exact ⟨fun _ hx => hx, fun _ => rfl⟩

/-- A domain at the target of a reference : open until the reference is resolved. -/
theorem targetItems_extends {f f' : SymbolId → List Item × Bool}
    (hf : ∀ id, DomainExtends (f id) (f' id)) (r : ReferenceId) :
    DomainExtends (match p.targets r with
      | none => ([], false)
      | some target => f target) (match p'.targets r with
      | none => ([], false)
      | some target => f' target) := by
  cases ht : p.targets r with
  | none => exact domainExtends_open _
  | some target =>
    rw [h.targets r target ht]
    exact hf target

theorem domain_extends (d : Domain) (item : Item) :
    DomainExtends (p.domain d item) (p'.domain d item) := by
  cases d with
  | children kind => exact h.childItems_extends _ _
  | childrenByShape shape => exact h.childItems_extends _ _
  | outRefs => exact h.outgoingItems_extends _
  | sourceOutRefs => exact h.outgoingItems_extends _
  | inRefs => exact h.incomingItems_extends _
  | sourceInRefs => exact h.incomingItems_extends _
  | targetInRefs =>
    cases item with
    | symbol id => exact domainExtends_open _
    | reference r => exact h.targetItems_extends h.incomingItems_extends r.id
  | targetOutRefs =>
    cases item with
    | symbol id => exact domainExtends_open _
    | reference r => exact h.targetItems_extends h.outgoingItems_extends r.id
  | _ => exact domainExtends_open _

theorem scalar_extends (lhs : Lhs) (item : Item) :
    Extends (p.scalar lhs item) (p'.scalar lhs item) := by
  have hattr : p'.symbolAttribute = p.symbolAttribute := by
    funext id attr
    simp only [symbolAttribute, h.index]
  unfold scalar
  rw [hattr]
  split_ifs
  · cases item with
    | symbol id => exact refl _
    | reference r => exact (h.targets r.id).bind fun id _ => refl _
  · exact refl _

theorem collection_extends (item current : Item) : ∀ e : CollectionExpr,
    Extends (p.collection e item current) (p'.collection e item current)
  | .projection q => by
    have hd := h.domain_extends q.domain (if q.current then current else item)
    rw [collection, collection]
    cases hcomplete : (p.domain q.domain (if q.current then current else item)).2 with
    | false =>
      simp only [hcomplete, Bool.false_eq_true, if_false]
      exact extends_none _
    | true =>
      rw [hd.2 hcomplete]
      simp only [hcomplete, if_true]
      refine (refl _).bind fun lhs _ => mapM fun x _ => ?_
      exact h.scalar_extends lhs x
  | .unique inner => by
    rw [collection, collection]
    exact (collection_extends item current inner).map _
  | .binary op left right => by
    rw [collection, collection]
    refine (collection_extends item current left).bind fun l _ => ?_
    exact (collection_extends item current right).bind fun r _ => refl _
  | .pairProjection q => by
    rw [collection, collection]
    exact refl _

theorem comparisonCollection_extends (e : CollectionExpr) (item current : Item) (ordered : Bool) :
    Extends (p.comparisonCollection e item current ordered)
      (p'.comparisonCollection e item current ordered) := by
  have hone : p'.inOneSource = p.inOneSource := by
    funext several seen items
    induction items generalizing seen with
    | nil => rfl
    | cons x rest ih =>
      cases x with
      | reference r => rfl
      | symbol id => simp only [inOneSource, h.index, ih]
  cases ordered with
  | false => exact h.collection_extends item current e
  | true =>
    cases e with
    | projection q =>
      have hd := h.domain_extends q.domain (if q.current then current else item)
      simp only [comparisonCollection, if_true, hone]
      generalize (if q.current then current else item) = base at hd ⊢
      cases hcomplete : (p.domain q.domain base).2 with
      | false => exact extends_none _
      | true =>
        rw [hd.2 hcomplete]
        simp only [hcomplete, Bool.true_and]
        split_ifs
        · exact h.collection_extends item current _
        · exact extends_none _
    | _ => exact refl _

theorem collectionAtom_extends (op : Op) (left right : CollectionExpr) (item current : Item) :
    Extends (p.collectionAtom op left right item current).truth
      (p'.collectionAtom op left right item current).truth := by
  have hl := h.comparisonCollection_extends left item current (op = .isPrefix)
  have hr := h.comparisonCollection_extends right item current (op = .isPrefix)
  unfold collectionAtom
  cases hleft : p.comparisonCollection left item current (op = .isPrefix) with
  | none => exact extends_none _
  | some left' =>
    cases hright : p.comparisonCollection right item current (op = .isPrefix) with
    | none => exact extends_none _
    | some right' =>
      rw [hl left' hleft, hr right' hright]
      exact refl _

theorem quantify_extends (kind : QuantKind) (d : Domain) (item : Item) {f g : Item → Option Bool}
    (hfg : ∀ x, Extends (f x) (g x)) :
    Extends (quantify kind (!(p.domain d item).2) ((p.domain d item).1.map f)).truth
      (quantify kind (!(p'.domain d item).2) ((p'.domain d item).1.map g)).truth := by
  obtain ⟨hsub, hwhole⟩ := h.domain_extends d item
  have hfold : ∀ b, Extends
      (Kleene.fold b (!(p.domain d item).2) ((p.domain d item).1.map f))
      (Kleene.fold b (!(p'.domain d item).2) ((p'.domain d item).1.map g)) := by
    intro b
    refine fold_extends_map hsub (fun hcomplete => ?_) fun x _ => hfg x
    have hcomplete : (p.domain d item).2 = true := by simpa using hcomplete
    simp [hwhole hcomplete, hcomplete]
  rw [truth_quantify, truth_quantify]
  cases kind with
  | any => exact hfold true
  | all => exact hfold false
  | none => exact (hfold true).map _

end Domains

variable {p p' : IndexedPredicates}

theorem nodes_eq_map (p : IndexedPredicates) (item current : Item) : ∀ ns : List Node,
    p.nodes ns item current = ns.map fun n => p.node n item current
  | [] => by rw [nodes, map_nil]
  | n :: ns => by rw [nodes, map_cons, nodes_eq_map p item current ns]

mutual

theorem node_extends (h : Improves p p') : ∀ (n : Node) (item current : Item),
    Extends (p.node n item current).truth (p'.node n item current).truth
  | .atom a, item, current => by
    rw [node, node]
    exact atom_extends h a item current
  | .and children, item, current => by
    have hall := nodes_extends h children
    rw [node, node, truth_andOutcome, truth_andOutcome, nodes_eq_map,
      nodes_eq_map, map_map, map_map]
    exact fold_extends_map (fun _ hx => hx) (fun _ => ⟨rfl, rfl⟩) fun n hn => hall n hn item current
  | .or children, item, current => by
    have hall := nodes_extends h children
    rw [node, node, truth_orOutcome, truth_orOutcome, nodes_eq_map, nodes_eq_map, map_map, map_map]
    simp only [true_and, map_eq_nil_iff]
    split_ifs
    · exact extends_none _
    · exact fold_extends_map (fun _ hx => hx) (fun _ => ⟨rfl, rfl⟩) fun n hn => hall n hn item current
  | .not inner, item, current => by
    have hinner := node_extends h inner item current
    have hnot : ∀ o : NodeOutcome, o.notOutcome.truth = o.truth.map Bool.not := by
      intro o
      cases o <;> rfl
    rw [node, node, hnot, hnot]
    exact hinner.map _
  | .implies premise conclusion, item, current => by
    have hpremise := node_extends h premise item current
    have hconclusion := node_extends h conclusion item current
    have himplies : ∀ o o' : NodeOutcome, (o.impliesOutcome o').truth =
        o.truth.bind fun b => if b then o'.truth else some true := by
      intro o o'
      cases o <;> rfl
    rw [node, node, himplies, himplies]
    refine hpremise.bind fun b _ => ?_
    cases b with
    | false => exact refl _
    | true => exact hconclusion
  | .require _, _, _ => by
    rw [node, node]
    exact refl _
  | .verticalLayout _, _, _ => by
    rw [node, node]
    exact refl _
  | .quantifier kind d filter, item, current => by
    have hfilter := node_extends h filter
    rw [node, node]
    exact h.quantify_extends kind d item fun nested => hfilter nested item

theorem nodes_extends (h : Improves p p') : ∀ (ns : List Node), ∀ n ∈ ns, ∀ item current : Item,
    Extends (p.node n item current).truth (p'.node n item current).truth
  | [], _, hn, _, _ => nomatch hn
  | n :: ns, m, hm, item, current => by
    have hhead := node_extends h n item current
    have htail := nodes_extends h ns m
    rcases mem_cons.mp hm with rfl | hm
    · exact hhead
    · exact htail hm item current

theorem number_extends (h : Improves p p') : ∀ (n : NumberExpr) (item current : Item),
    Extends (p.number n item current) (p'.number n item current)
  | .literal _, _, _ => by
    rw [number, number]
    exact refl _
  | .size c, item, current => by
    rw [number, number]
    exact (h.collection_extends item current c).map _
  | .count d filter, item, current => by
    have hfilter := filterTruth_extends h filter
    have hd := h.domain_extends d item
    rw [number, number]
    cases hcomplete : (p.domain d item).2 with
    | false =>
      simp only [hcomplete, Bool.false_eq_true, if_false]
      exact extends_none _
    | true =>
      rw [hd.2 hcomplete]
      simp only [hcomplete, if_true]
      exact (mapM fun nested _ => hfilter nested item).map _
  | .projection _, _, _ | .aggregate _ _ _ _, _, _ | .metric _ _, _, _ | .entropy _, _, _ => by
    simp only [number]
    exact refl _

theorem filterTruth_extends (h : Improves p p') : ∀ (f : Option Node) (item current : Item),
    Extends (p.filterTruth f item current) (p'.filterTruth f item current)
  | some filter, item, current => by
    rw [filterTruth, filterTruth]
    exact node_extends h filter item current
  | none, _, _ => by
    rw [filterTruth, filterTruth]
    exact refl _

theorem lhsValue_extends (h : Improves p p') : ∀ (lhs : LhsExpr) (item current : Item),
    Extends (p.lhsValue lhs item current) (p'.lhsValue lhs item current)
  | .attr lhs, item, _ => by
    rw [lhsValue, lhsValue]
    exact h.scalar_extends lhs item
  | .number n, item, current => by
    rw [lhsValue, lhsValue]
    exact (number_extends h n item current).map _
  | .collection _, _, _ | .mode _, _, _ | .pairProjection _, _, _ | .segmentOf _ _, _, _ => by
    simp only [lhsValue]
    exact refl _

theorem rhsValue_extends (h : Improves p p') : ∀ (rhs : Rhs) (item current : Item),
    (p.rhsValue rhs item current = none ∧ p'.rhsValue rhs item current = none) ∨
      ∃ x y, p.rhsValue rhs item current = some x ∧ p'.rhsValue rhs item current = some y ∧
        Extends x y
  | .projection lhs, item, _ => by
    simp only [rhsValue]
    exact Or.inr ⟨_, _, rfl, rfl, h.scalar_extends lhs item⟩
  | .currentProjection lhs, _, current => by
    simp only [rhsValue]
    exact Or.inr ⟨_, _, rfl, rfl, h.scalar_extends lhs current⟩
  | .number n, item, current => by
    have hn := number_extends h n item current
    simp only [rhsValue]
    exact Or.inr ⟨_, _, rfl, rfl, hn.map _⟩
  | .regexStr _, _, _ | .moniker _, _, _ | .str _, _, _ | .pathPattern _, _, _
  | .pairProjection _, _, _ | .collection _, _, _ => by
    exact Or.inl (by simp only [rhsValue, and_self])

theorem atom_extends (h : Improves p p') : ∀ (a : Atom) (item current : Item),
    Extends (p.atom a item current).truth (p'.atom a item current).truth
  | .mk lhs op rhs raw regex, item, current => by
    have hlhs := lhsValue_extends h lhs item current
    have hrhs := rhsValue_extends h rhs item current
    rw [atom, atom]
    cases hsides : collectionSides lhs rhs with
    | some sides => exact h.collectionAtom_extends op sides.1 sides.2 item current
    | none =>
      simp only
      cases hvalue : p.lhsValue lhs item current with
      | none => exact extends_none _
      | some value =>
        rw [hlhs value hvalue]
        simp only
        rcases hrhs with ⟨hx, hy⟩ | ⟨x, y, hx, hy, hxy⟩
        · rw [hx, hy]
          exact refl _
        · rw [hx, hy]
          cases x with
          | none => exact extends_none _
          | some right =>
            rw [hxy right rfl]
            exact refl _

end

end Improves

/-- An answer that is settled on a linkage is the same on every linkage that resolves more of
its open references. -/
theorem evaluate_stable {index : CodeIndex} {l l' : LinkageSnapshot}
    {choice : ReferenceId → Option SymbolId} (h : Resolves index l l' choice) (n : Node)
    (id : SymbolId) (b : Bool) (hb : (new index l).evaluate n id = some b) :
    (new index l').evaluate n id = some b :=
  h.improves.node_extends n (.symbol id) (.symbol id) b hb

/-- A class and a method of it that names the class as a type. -/
def classSymbol : SymbolRecord :=
  ⟨some (0, 40), ⟨0, 0⟩, 0, "code+moniker://app/class:C", "C", "class", "public", "", none⟩

def methodSymbol : SymbolRecord :=
  ⟨some (10, 30), ⟨0, 1⟩, 0, "code+moniker://app/class:C/method:m()", "m()", "method", "public", "",
    some ⟨0, 0⟩⟩

def listed (s : SymbolRecord) : InventorySymbol :=
  ⟨s.id, s.source, s.identity, s.name, s.kind, (Shape.forKind s.kind).asStr, s.visibility, "java",
    "C.java", 0, "", none, true, s.parent, s.parent.toList, []⟩

def classIndex : CodeIndex where
  identityScheme := "code+moniker://"
  symbols := [classSymbol, methodSymbol]
  references := ⟨[[⟨⟨0, 0⟩, ⟨0, 1⟩, "code+moniker://app/class:C", "uses_type"⟩]], by decide⟩
  inventory := (SymbolInventoryIndex.empty.insertRecord 0 zero_notMem_empty
    (listed classSymbol)).insertRecord 1 (by decide) (listed methodSymbol)
  sourced := by decide
  inventoried s hs := by
    rcases List.mem_pair.mp hs with rfl | rfl
    · exact ⟨0, listed classSymbol, rfl, rfl, rfl⟩
    · exact ⟨1, listed methodSymbol, rfl, rfl, rfl⟩

def classCandidate : LinkageSnapshot :=
  ⟨[], [⟨⟨0, 0⟩, [⟨0, 0⟩], .multipleTargets⟩], [], [], [], [], by decide⟩

def classResolved : LinkageSnapshot := ⟨[⟨⟨0, 0⟩, ⟨0, 0⟩⟩], [], [], [], [], [], by decide⟩

def classChoice (id : ReferenceId) : Option SymbolId := if id = ⟨0, 0⟩ then some ⟨0, 0⟩ else none

theorem resolves_class : Resolves classIndex classCandidate classResolved classChoice where
  admitted id t h := by
    unfold classChoice at h
    split_ifs at h with hid
    obtain rfl := Option.some.inj h
    exact .candidate _ (mem_singleton.mpr rfl) hid.symm (mem_singleton.mpr rfl)
  resolved e := by
    obtain ⟨id, t⟩ := e
    by_cases hid : id = ⟨0, 0⟩
    · simp [classResolved, classCandidate, classChoice, hid, eq_comm]
    · simp [classResolved, classCandidate, classChoice, hid]
  candidates c := by
    by_cases hid : c.reference = ⟨0, 0⟩
    · simp [classResolved, classChoice, hid]
    · have hne : c ≠ ⟨⟨0, 0⟩, [⟨0, 0⟩], .multipleTargets⟩ := fun h => hid (by rw [h])
      simp [classResolved, classCandidate, hne]
  external x := Iff.rfl
  dynamic d := by simp [classResolved, classCandidate]
  blocked u := by simp [classResolved, classCandidate]
  unresolved u := by simp [classResolved, classCandidate]

/-- `count(in_refs) = 0`. -/
def noIncoming : Node :=
  .atom (.mk (.number (.count .inRefs none)) .eq (.number (.literal 0)) "count(in_refs) = 0" none)

/-- The count is settled for the method, and open for the class until the reference is
resolved. -/
theorem evaluate_stable_method : (new classIndex classCandidate).evaluate noIncoming ⟨0, 0⟩ = none ∧
      (new classIndex classResolved).evaluate noIncoming ⟨0, 1⟩ = some true :=
  ⟨by decide, evaluate_stable resolves_class noIncoming ⟨0, 1⟩ true (by decide)⟩

end IndexedPredicates

end CodeMoniker
