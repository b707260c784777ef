import CodeMoniker.WorkspaceEval

/-!
# Set answers and pointwise answers

The workspace compiler accepts an expression for the inventory plan by the projections and
operators of its atoms (`collectCapabilities`). It does not look at the right side of an
equality, and `eval_exact` answers both `=` and `!=` with no symbol unless that side is a
string literal.

A `Reading` gives every expression a truth value at every record : equality with a literal is
equality of the facet, and the rest is left open. The set that `eval_node` returns is the set
of records at which the expression is true, and `!=` is the complement of `=`, if and only if
the universe is empty or every equality of the expression is with a literal
(`evalNode_pointwise_iff`).
-/

namespace CodeMoniker

open List Node

/-! ## The compiler -/

def Lhs.asStr : Lhs → String
  | .name => "name"
  | .signature => "signature"
  | .sourceSignature => "source.signature"
  | .targetSignature => "target.signature"
  | .lines => "lines"
  | .startLine => "start_line"
  | .endLine => "end_line"
  | .startByte => "start_byte"
  | .endByte => "end_byte"
  | .kind => "kind"
  | .shape => "shape"
  | .visibility => "visibility"
  | .srcset => "srcset"
  | .text => "text"
  | .moniker => "uri"
  | .depth => "depth"
  | .parentMoniker => "parent"
  | .confidence => "confidence"
  | .parentName => "parent.name"
  | .parentKind => "parent.kind"
  | .parentShape => "parent.shape"
  | .sourceName => "source.name"
  | .sourceKind => "source.kind"
  | .sourceShape => "source.shape"
  | .sourceVisibility => "source.visibility"
  | .sourceSrcset => "source.srcset"
  | .sourceMoniker => "source"
  | .sourceParentMoniker => "source.parent"
  | .targetName => "target.name"
  | .targetKind => "target.kind"
  | .targetShape => "target.shape"
  | .targetVisibility => "target.visibility"
  | .targetSrcset => "target.srcset"
  | .targetMoniker => "target"
  | .targetParentMoniker => "target.parent"
  | .segmentName => "segment.name"
  | .segmentKind => "segment.kind"

/-- The name of an operator in a message. -/
def Op.debugName : Op → String
  | .eq => "Eq"
  | .ne => "Ne"
  | .lt => "Lt"
  | .le => "Le"
  | .gt => "Gt"
  | .ge => "Ge"
  | .regexMatch => "RegexMatch"
  | .regexNoMatch => "RegexNoMatch"
  | .ancestorOf => "AncestorOf"
  | .descendantOf => "DescendantOf"
  | .bindMatch => "BindMatch"
  | .pathMatch => "PathMatch"
  | .subset => "Subset"
  | .isPrefix => "Prefix"

/-- Capabilities and plan so far. -/
abbrev PlanState := Finset String × WorkspaceRulePlan

/-- The facet of the inventory that a projection reads. -/
def Lhs.facet : Lhs → Option String
  | .name => some "name"
  | .kind => some "kind"
  | .shape => some "shape"
  | .visibility => some "visibility"
  | .srcset => some "srcset"
  | .moniker => some "uri"
  | _ => none

def Op.operation : Op → Option String
  | .eq | .ne => some "exact"
  | .regexMatch | .regexNoMatch => some "regex"
  | .pathMatch => some "path"
  | _ => none

def Domain.countName : Domain → Option String
  | .inRefs => some "in_refs"
  | .outRefs => some "out_refs"
  | _ => none

def Rhs.isNumberLiteral : Rhs → Bool
  | .number (.literal _) => true
  | _ => false

/-- The error is the capability that is not supported. -/
def collectLinkageCountCapability (lhs : LhsExpr) (op : Op) (rhs : Rhs) (s : PlanState) :
    Except String PlanState :=
  match lhs with
  | .number (.count domain filter) =>
    if filter.isSome then .error "linkage.filtered-count"
    else
      match domain.countName with
      | none => .error "linkage.unsupported-domain"
      | some domain =>
        if !rhs.isNumberLiteral || op ∉ [Op.eq, .ne, .lt, .le, .gt, .ge] then
          .error "linkage.count-comparison"
        else .ok (insert (domain ++ ".count") s.1, .linkage)
  | _ => .error "non-attribute-expression"

def collectAtomCapability : Atom → PlanState → Except String PlanState
  | .mk (.attr lhs) op _ _ _, s =>
    match lhs.facet, op.operation with
    | none, _ => .error ("projection." ++ lhs.asStr)
    | some _, none => .error ("operator." ++ op.debugName)
    | some facet, some operation =>
      if op = .pathMatch ∧ lhs ≠ .moniker then .error "path.non-uri"
      else .ok (insert (facet ++ "." ++ operation) s.1, s.2)
  | .mk lhs op rhs _ _, s => collectLinkageCountCapability lhs op rhs s

mutual

def collectCapabilities : Node → PlanState → Except String PlanState
  | .atom a, s => collectAtomCapability a s
  | .and nodes, s | .or nodes, s => collectAllCapabilities nodes s
  | .not node, s => collectCapabilities node s
  | .implies left right, s => do
    let s ← collectCapabilities left s
    collectCapabilities right s
  | .require _, _ => .error "inventory.require"
  | .verticalLayout _, _ => .error "local.vertical_layout"
  | .quantifier _ _ _, _ => .error "inventory.quantifier"

def collectAllCapabilities : List Node → PlanState → Except String PlanState
  | [], s => .ok s
  | node :: nodes, s => do
    let s ← collectCapabilities node s
    collectAllCapabilities nodes s

end

/-- The compiler classifies the expression as one for the inventory. -/
def Node.InventoryPlan (node : Node) : Prop :=
  ∃ capabilities, collectCapabilities node (∅, .inventory) = .ok (capabilities, .inventory)

/-! ## What the compiler accepts -/

/-- A facet with an operator that the inventory answers. -/
def Atom.Supported : Atom → Prop
  | .mk (.attr lhs) op _ _ _ =>
    lhs.facet ≠ none ∧ op.operation ≠ none ∧ (op = .pathMatch → lhs = .moniker)
  | _ => False

mutual

def Node.Supported : Node → Prop
  | .atom a => a.Supported
  | .and nodes | .or nodes => Node.AllSupported nodes
  | .not node => node.Supported
  | .implies left right => left.Supported ∧ right.Supported
  | .require _ | .verticalLayout _ | .quantifier _ _ _ => False

def Node.AllSupported : List Node → Prop
  | [] => True
  | node :: nodes => node.Supported ∧ Node.AllSupported nodes

end

/-- A count leaves the inventory plan. -/
theorem plan_of_collectLinkageCount {lhs : LhsExpr} {op : Op} {rhs : Rhs} {s s' : PlanState}
    (h : collectLinkageCountCapability lhs op rhs s = .ok s') : s'.2 = .linkage := by
  unfold collectLinkageCountCapability at h
  split at h
  · split_ifs at h
    · split at h <;> cases h
    · split at h
      · cases h
      · obtain rfl := Except.ok.inj h
        rfl
  · cases h

theorem supported_of_collectAtom {a : Atom} {s s' : PlanState}
    (h : collectAtomCapability a s = .ok s') (hplan : s'.2 = .inventory) :
    s.2 = .inventory ∧ a.Supported := by
  obtain ⟨lhs, op, rhs, raw, regex⟩ := a
  cases lhs with
  | attr lhs =>
    simp only [collectAtomCapability] at h
    split at h
    · cases h
    · cases h
    · next hfacet hop =>
      split_ifs at h with hpath
      obtain rfl := Except.ok.inj h
      have hmoniker : op = .pathMatch → lhs = .moniker := fun hop' =>
        not_not.mp fun hne => hpath ⟨hop', hne⟩
      exact ⟨hplan, by simp [hfacet], by simp [hop], hmoniker⟩
  | _ =>
    simp only [collectAtomCapability] at h
    have hlinkage := plan_of_collectLinkageCount h
    rw [hplan] at hlinkage
    cases hlinkage

mutual

theorem supported_of_collect : ∀ {node : Node} {s s' : PlanState},
    collectCapabilities node s = .ok s' → s'.2 = .inventory → s.2 = .inventory ∧ node.Supported
  | .atom _, _, _, h, hplan => supported_of_collectAtom (by simpa only [collectCapabilities] using h) hplan
  | .and nodes, _, _, h, hplan => by
    simp only [collectCapabilities] at h
    simpa only [Node.Supported] using allSupported_of_collect h hplan
  | .or nodes, _, _, h, hplan => by
    simp only [collectCapabilities] at h
    simpa only [Node.Supported] using allSupported_of_collect h hplan
  | .not node, _, _, h, hplan => by
    simp only [collectCapabilities] at h
    simpa only [Node.Supported] using supported_of_collect h hplan
  | .implies left right, _, _, h, hplan => by
    simp only [collectCapabilities] at h
    obtain ⟨mid, hleft, hright⟩ := ByteCodec.bind_eq_ok.mp h
    obtain ⟨hmid, hr⟩ := supported_of_collect hright hplan
    obtain ⟨hs, hl⟩ := supported_of_collect hleft hmid
    exact ⟨hs, by simpa only [Node.Supported] using ⟨hl, hr⟩⟩
  | .require _, _, _, h, _ => by simp [collectCapabilities] at h
  | .verticalLayout _, _, _, h, _ => by simp [collectCapabilities] at h
  | .quantifier _ _ _, _, _, h, _ => by simp [collectCapabilities] at h

theorem allSupported_of_collect : ∀ {nodes : List Node} {s s' : PlanState},
    collectAllCapabilities nodes s = .ok s' → s'.2 = .inventory →
      s.2 = .inventory ∧ Node.AllSupported nodes
  | [], _, _, h, hplan => by
    simp only [collectAllCapabilities, Except.ok.injEq] at h
    exact ⟨h ▸ hplan, by simp only [Node.AllSupported]⟩
  | node :: nodes, _, _, h, hplan => by
    simp only [collectAllCapabilities] at h
    obtain ⟨mid, hnode, hnodes⟩ := ByteCodec.bind_eq_ok.mp h
    obtain ⟨hmid, hns⟩ := allSupported_of_collect hnodes hplan
    obtain ⟨hs, hn⟩ := supported_of_collect hnode hmid
    exact ⟨hs, by simpa only [Node.AllSupported] using ⟨hn, hns⟩⟩

end

theorem Node.InventoryPlan.supported {node : Node} (h : node.InventoryPlan) : node.Supported := by
  obtain ⟨capabilities, h⟩ := h
  exact (supported_of_collect h rfl).2

mutual

theorem Node.Supported.atom {a : Atom} : ∀ {node : Node}, node.Supported → a ∈ node.atoms →
    a.Supported
  | .atom b, hs, ha => by
    simp only [Node.Supported, atoms, mem_singleton] at hs ha
    exact ha ▸ hs
  | .and nodes, hs, ha | .or nodes, hs, ha => by
    simp only [Node.Supported, atoms] at hs ha
    exact Node.AllSupported.atom hs ha
  | .not node, hs, ha => by
    simp only [Node.Supported, atoms] at hs ha
    exact Node.Supported.atom hs ha
  | .implies left right, hs, ha => by
    simp only [Node.Supported, atoms, mem_append] at hs ha
    rcases ha with ha | ha
    · exact Node.Supported.atom hs.1 ha
    · exact Node.Supported.atom hs.2 ha
  | .require _, hs, _ | .verticalLayout _, hs, _ | .quantifier _ _ _, hs, _ => by
    simp only [Node.Supported] at hs

theorem Node.AllSupported.atom {a : Atom} : ∀ {nodes : List Node}, Node.AllSupported nodes →
    a ∈ atomsOf nodes → a.Supported
  | [], _, ha => by simp [atomsOf] at ha
  | node :: nodes, hs, ha => by
    simp only [Node.AllSupported, atomsOf, mem_append] at hs ha
    rcases ha with ha | ha
    · exact Node.Supported.atom hs.1 ha
    · exact Node.AllSupported.atom hs.2 ha

end

/-! ## What the parser leaves -/

inductive LhsProjectionKind where
  | text
  | number
  | moniker
  deriving DecidableEq

def Lhs.projectionKind : Lhs → LhsProjectionKind
  | .lines | .startLine | .endLine | .startByte | .endByte | .depth => .number
  | .moniker | .parentMoniker | .sourceMoniker | .sourceParentMoniker | .targetMoniker
  | .targetParentMoniker => .moniker
  | _ => .text

def Lhs.acceptsOp (lhs : Lhs) (op : Op) : Bool :=
  match lhs.projectionKind with
  | .text => op ∈ [Op.eq, .ne, .regexMatch, .regexNoMatch]
  | .number => op ∈ [Op.lt, .le, .gt, .ge, .eq, .ne]
  | .moniker => op ∈ [Op.eq, .ne, .ancestorOf, .descendantOf, .bindMatch, .pathMatch]

/-- The right sides that `parse_rhs` and `build_atom` make for an operator. -/
def Rhs.parsedFor : Op → Rhs → Option Regex → Bool
  | .regexMatch, .regexStr _, some _ | .regexNoMatch, .regexStr _, some _ => true
  | .regexMatch, _, _ | .regexNoMatch, _, _ => false
  | .pathMatch, .pathPattern _, none => true
  | .pathMatch, _, _ => false
  | .eq, .regexStr _, _ | .eq, .pathPattern _, _ | .eq, .collection _, _ => false
  | .ne, .regexStr _, _ | .ne, .pathPattern _, _ | .ne, .collection _, _ => false
  | _, _, regex => regex.isNone

/-- An atom over an attribute as the parser builds it. -/
def Atom.Parsed : Atom → Prop
  | .mk (.attr lhs) op rhs _ regex => lhs.acceptsOp op = true ∧ rhs.parsedFor op regex = true
  | _ => True

/-! ## Pointwise meaning -/

/-- A truth value for every expression at every record. Equality with a literal is equality of
the facet; any meaning will do for the other right sides and for what the inventory plan does
not cover. -/
structure Reading where
  equals : InventorySymbol → Lhs → Rhs → Bool
  other : InventorySymbol → Node → Bool
  literal : ∀ r lhs value, equals r lhs (.str value) = decide (r.exactValue lhs = some value)

namespace Reading

variable (m : Reading) (r : InventorySymbol)

def atomHolds (a : Atom) : Bool :=
  match a with
  | .mk (.attr lhs) .eq rhs _ _ => m.equals r lhs rhs
  | .mk (.attr lhs) .ne rhs _ _ => !m.equals r lhs rhs
  | .mk (.attr lhs) .regexMatch _ _ (some re) => (r.exactValue lhs).any re
  | .mk (.attr lhs) .regexNoMatch _ _ (some re) => !(r.exactValue lhs).any re
  | .mk (.attr _) .pathMatch (.pathPattern pattern) _ _ => pattern.matchesTextSegments r.segments
  | a => m.other r (.atom a)

mutual

def holds : Node → Bool
  | .atom a => m.atomHolds r a
  | .and nodes => allHold nodes
  | .or nodes => anyHolds nodes
  | .not node => !holds node
  | .implies left right => !holds left || holds right
  | .require pattern => m.other r (.require pattern)
  | .verticalLayout layout => m.other r (.verticalLayout layout)
  | .quantifier kind domain filter => m.other r (.quantifier kind domain filter)

def allHold : List Node → Bool
  | [] => true
  | node :: nodes => holds node && allHold nodes

def anyHolds : List Node → Bool
  | [] => false
  | node :: nodes => holds node || anyHolds nodes

end

end Reading

/-- An equality compares with a string literal. -/
def Atom.ComparesLiteral : Atom → Prop
  | .mk _ .eq rhs _ _ | .mk _ .ne rhs _ _ => ∃ value, rhs = .str value
  | _ => True

variable {m : Reading} {r : InventorySymbol}

theorem Reading.atomHolds_eq {a : Atom} (hs : a.Supported) (hp : a.Parsed)
    (hl : a.ComparesLiteral) : m.atomHolds r a = a.satisfiedBy r := by
  obtain ⟨lhs, op, rhs, raw, regex⟩ := a
  cases lhs with
  | attr lhs =>
    obtain ⟨-, hop, hpath⟩ := hs
    obtain ⟨haccepts, hparsed⟩ := hp
    cases op with
    | eq =>
      obtain ⟨value, rfl⟩ := hl
      simp [atomHolds, Atom.satisfiedBy, m.literal]
    | ne =>
      obtain ⟨value, rfl⟩ := hl
      simp [atomHolds, Atom.satisfiedBy, m.literal]
    | regexMatch | regexNoMatch =>
      have hne : lhs ≠ .moniker := by
        rintro rfl
        exact absurd haccepts (by decide)
      cases regex with
      | some re => simp [atomHolds, Atom.satisfiedBy, InventorySymbol.scannedValue, hne]
      | none => cases rhs <;> cases hparsed
    | pathMatch =>
      obtain rfl := hpath rfl
      cases rhs with
      | pathPattern pattern => simp [atomHolds, Atom.satisfiedBy]
      | _ => cases hparsed
    | _ => exact absurd rfl hop
  | _ => cases hs

open Reading

mutual

theorem Reading.holds_eq : ∀ {node : Node}, node.Supported →
    (∀ a ∈ node.atoms, a.Parsed ∧ a.ComparesLiteral) → m.holds r node = node.satisfiedBy r
  | .atom a, hs, ha => by
    obtain ⟨hp, hl⟩ := ha a (by simp [atoms])
    simp only [Node.Supported] at hs
    simpa only [holds, satisfiedBy] using atomHolds_eq hs hp hl
  | .and nodes, hs, ha => by
    simp only [Node.Supported, atoms] at hs ha
    simpa only [holds, satisfiedBy] using (holds_list hs ha).1
  | .or nodes, hs, ha => by
    simp only [Node.Supported, atoms] at hs ha
    simpa only [holds, satisfiedBy] using (holds_list hs ha).2
  | .not node, hs, ha => by
    simp only [Node.Supported, atoms] at hs ha
    simp only [holds, satisfiedBy, holds_eq hs ha]
  | .implies left right, hs, ha => by
    simp only [Node.Supported, atoms, mem_append] at hs ha
    simp only [holds, satisfiedBy, holds_eq hs.1 fun a h => ha a (Or.inl h),
      holds_eq hs.2 fun a h => ha a (Or.inr h)]
  | .require _, hs, _ | .verticalLayout _, hs, _ | .quantifier _ _ _, hs, _ => by
    simp only [Node.Supported] at hs

theorem Reading.holds_list : ∀ {nodes : List Node}, Node.AllSupported nodes →
    (∀ a ∈ atomsOf nodes, a.Parsed ∧ a.ComparesLiteral) →
      m.allHold r nodes = allSatisfiedBy r nodes ∧ m.anyHolds r nodes = anySatisfiedBy r nodes
  | [], _, _ => ⟨rfl, rfl⟩
  | node :: nodes, hs, ha => by
    simp only [Node.AllSupported, atomsOf, mem_append] at hs ha
    obtain ⟨hall, hany⟩ := holds_list hs.2 fun a h => ha a (Or.inr h)
    have hnode := holds_eq hs.1 fun a h => ha a (Or.inl h)
    simp only [allHold, anyHolds, allSatisfiedBy, anySatisfiedBy, hall, hany, hnode, and_self]

end

/-! ## Sets and points agree -/

section Agreement

variable {x : SymbolInventoryIndex} {u : SymbolSet}

theorem select_empty (p : InventorySymbol → Bool) : x.select ∅ p = ∅ := by
  ext o
  simp [SymbolInventoryIndex.mem_select]

/-- Without a literal on the right side, both operators select nothing. -/
theorem evalExact_of_not_literal {lhs : Lhs} {rhs : Rhs} (h : ∀ value, rhs ≠ .str value)
    (op : Op) : evalExact x u lhs rhs op = ∅ := by
  unfold evalExact
  split
  · next value => exact absurd rfl (h value)
  · rfl

theorem evalExact_ne_literal {lhs : Lhs} {value : String} :
    evalExact x u lhs (.str value) .ne = u \ evalExact x u lhs (.str value) .eq := by
  ext o
  simp only [evalExact, if_true, if_neg (by decide : Op.eq ≠ Op.ne), OrdSet.mem_sdiff,
    OrdSet.mem_inter]
  tauto

/-- A rule that is a negation violates where its operand holds, which is where it does not hold. -/
theorem symbolRuleSets_not (hu : x.Knows u) {atoms : List Atom}
    (ht : Textual atoms) {rule : CompiledWorkspaceSymbolRule} {node : Node}
    (hroot : rule.root = .not node) (hsub : ∀ a ∈ node.atoms, a ∈ atoms) {cache : AtomCache}
    (hc : cache.Answers x u atoms) :
    (symbolRuleSets x u rule cache).1.2 = u \ (evalNode x u (.not node) cache).1 := by
  have hsub' : ∀ a ∈ rule.root.atoms, a ∈ atoms := by
    simpa only [hroot, Node.atoms] using hsub
  rw [(symbolRuleSets_spec hu ht hsub' hc).1, ← violationSet_eq_sdiff hu, hroot,
    (nodePost hu ht (.not node) cache (by simpa only [Node.atoms] using hsub) hc).1]

theorem evalPath_eq_select (pattern : PathPattern) : evalPath x u .moniker (.pathPattern pattern) =
      x.select u fun r => pattern.matchesTextSegments r.segments := by
  ext o
  rw [mem_evalPath, SymbolInventoryIndex.mem_select]
  simp

/-- An equality of the inventory plan without a literal. -/
theorem exists_equality {a : Atom} (hs : a.Supported) (hl : ¬a.ComparesLiteral) :
    ∃ lhs op rhs raw regex, a = .mk (.attr lhs) op rhs raw regex ∧ (op = .eq ∨ op = .ne) ∧
      ∀ value, rhs ≠ .str value := by
  obtain ⟨lhs, op, rhs, raw, regex⟩ := a
  cases lhs with
  | attr lhs =>
    refine ⟨lhs, op, rhs, raw, regex, rfl, ?_, ?_⟩
    · by_contra hop
      obtain ⟨heq, hne⟩ := not_or.mp hop
      refine hl ?_
      cases op <;> first | exact absurd rfl heq | exact absurd rfl hne | exact trivial
    · rintro value rfl
      refine hl ?_
      cases op <;> first | exact ⟨value, rfl⟩ | exact trivial
  | _ => cases hs

/-- Set answers are pointwise answers. For an expression of the inventory plan, over symbols of
the inventory and with a cache that other expressions of the same parser may have filled : the
answer is the set of symbols at which the expression holds, and `!=` is the complement of `=`
at each of its equalities, if and only if the universe is empty or all its equalities compare
with string literals. The complement of a negated rule and the prefilter of a path pattern
agree with the plain definitions in any case. -/
theorem evalNode_pointwise_iff (x : SymbolInventoryIndex) (u : SymbolSet)
    (hu : ∀ o ∈ u, ∃ r, x.record o = some r) (node : Node) (hplan : node.InventoryPlan)
    (hparsed : ∀ a ∈ node.atoms, a.Parsed) (atoms : List Atom) (ht : Textual atoms)
    (hsub : ∀ a ∈ node.atoms, a ∈ atoms) (m : Reading) :
    ((∀ cache : AtomCache, cache.Answers x u atoms →
        (evalNode x u node cache).1 = x.select u fun r => m.holds r node) ∧
      (∀ lhs op rhs raw regex, .mk (.attr lhs) op rhs raw regex ∈ node.atoms →
        op = .eq ∨ op = .ne → evalExact x u lhs rhs .ne = u \ evalExact x u lhs rhs .eq) ∧
      (∀ (rule : CompiledWorkspaceSymbolRule) (cache : AtomCache), rule.root = .not node →
        cache.Answers x u atoms →
          (symbolRuleSets x u rule cache).1.2 = u \ (evalNode x u (.not node) cache).1) ∧
      ∀ pattern, evalPath x u .moniker (.pathPattern pattern) =
        x.select u fun r => pattern.matchesTextSegments r.segments) ↔
      u = ∅ ∨ ∀ a ∈ node.atoms, a.ComparesLiteral := by
  have hs := hplan.supported
  constructor
  · rintro ⟨-, hne, -⟩
    by_contra hcon
    obtain ⟨hempty, hlit⟩ := not_or.mp hcon
    obtain ⟨a, ha, hnot⟩ : ∃ a ∈ node.atoms, ¬a.ComparesLiteral := by simpa using hlit
    obtain ⟨lhs, op, rhs, raw, regex, rfl, hop, hrhs⟩ := exists_equality (hs.atom ha) hnot
    have hboth := hne lhs op rhs raw regex ha hop
    rw [evalExact_of_not_literal hrhs, evalExact_of_not_literal hrhs] at hboth
    apply hempty
    ext o
    have hmem : o ∈ (∅ : SymbolSet) ↔ o ∈ u \ ∅ := by rw [← hboth]
    simpa [OrdSet.mem_sdiff] using hmem.symm
  · intro hcase
    have hnode : ∀ cache : AtomCache, cache.Answers x u atoms →
        (evalNode x u node cache).1 = x.select u node.satisfiedBy := fun cache hc =>
      (nodePost hu ht node cache hsub hc).1
    refine ⟨fun cache hc => ?_, fun lhs op rhs raw regex ha hop => ?_,
      fun rule cache hroot hc => symbolRuleSets_not hu ht hroot hsub hc, evalPath_eq_select⟩
    · rw [hnode cache hc]
      rcases hcase with rfl | hlit
      · rw [select_empty, select_empty]
      · congr 1
        funext r
        exact (Reading.holds_eq hs fun a ha => ⟨hparsed a ha, hlit a ha⟩).symm
    · rcases hcase with rfl | hlit
      · ext o
        have hsel := evalAtom_eq_select hu (.mk (.attr lhs) .ne rhs raw regex)
        rw [select_empty] at hsel
        have hnone : evalExact x ∅ lhs rhs .ne = ∅ := hsel
        simp [hnone, OrdSet.mem_sdiff]
      · obtain ⟨value, rfl⟩ : ∃ value, rhs = .str value := by
          have hl := hlit _ ha
          rcases hop with rfl | rfl <;> exact hl
        exact evalExact_ne_literal

end Agreement

/-! ## A literal and a projection on the right side -/

/-- The function `f` of `app.rs` alone. -/
def oneFunction : SymbolInventoryIndex :=
  SymbolInventoryIndex.empty.insertRecord 0 zero_notMem_empty
    (PathRuleContext.appFunction 0 "f")

/-- The comparison of the name with a right side. -/
def nameIs (op : Op) (rhs : Rhs) (raw : String) : Node :=
  .atom (.mk (.attr .name) op rhs raw none)

/-- The comparison of facets, where the right side is a projection of one. -/
def facetReading : Reading where
  equals r lhs rhs :=
    match rhs with
    | .str value => r.exactValue lhs = some value
    | .projection other => r.exactValue lhs = r.exactValue other
    | _ => false
  other _ _ := false
  literal _ _ _ := rfl

theorem evalNode_pointwise_name :
    (evalNode oneFunction (.ofList [0]) (nameIs .ne (.str "g") "name != 'g'") ∅).1 =
      oneFunction.select (.ofList [0]) fun r =>
        facetReading.holds r (nameIs .ne (.str "g") "name != 'g'") := by
  refine ((evalNode_pointwise_iff oneFunction (.ofList [0]) ?_ _ ⟨{"name.exact"}, rfl⟩ ?_ _ ?_
    (fun a ha => ha) facetReading).mpr (Or.inr ?_)).1 ∅ AtomCache.answers_empty
  · intro o ho
    obtain rfl : o = 0 := by simpa [OrdSet.mem_ofList] using ho
    exact ⟨_, rfl⟩
  · intro a ha
    obtain rfl := mem_singleton.mp ha
    exact ⟨rfl, rfl⟩
  · intro a ha b hb _
    exact (mem_singleton.mp ha).trans (mem_singleton.mp hb).symm
  · intro a ha
    obtain rfl := mem_singleton.mp ha
    exact ⟨"g", rfl⟩

/-- The compiler accepts a projection on the right side of `!=`, but the answer is empty,
although the name `f` differs from the kind `fn`, and so is the answer to `=`. -/
theorem evalNode_name_ne_kind : (nameIs .ne (.projection .kind) "name != kind").InventoryPlan ∧
      (evalNode oneFunction (.ofList [0]) (nameIs .ne (.projection .kind) "name != kind") ∅).1 = ∅ ∧
      (evalNode oneFunction (.ofList [0]) (nameIs .eq (.projection .kind) "name = kind") ∅).1 = ∅ ∧
      (oneFunction.select (.ofList [0]) fun r =>
        facetReading.holds r (nameIs .ne (.projection .kind) "name != kind")) = .ofList [0] :=
  ⟨⟨{"name.exact"}, rfl⟩, rfl, rfl, by decide⟩

end CodeMoniker
