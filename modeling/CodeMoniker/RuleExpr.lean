import CodeMoniker.Kleene
import CodeMoniker.MonikerQuery

/-!
# Rule expressions

The syntax trees of the rule language, the values they compare and the three-valued
connectives of `walk_node`. An outcome that is not applicable is an open answer :
`truth` reads an outcome as one, and the connectives are then those of `Kleene`
(`truth_andOutcome`, `truth_orOutcome`, `truth_quantify`).
-/

namespace CodeMoniker

/-! ## Shapes -/

inductive Shape where
  | nameSpace
  | type
  | callable
  | value
  | annotations
  | ref
  deriving DecidableEq, Repr

namespace Shape

def asStr : Shape → String
  | .nameSpace => "namespace"
  | .type => "type"
  | .callable => "callable"
  | .value => "value"
  | .annotations => "annotation"
  | .ref => "ref"

def kindsOf : Shape → List String
  | .nameSpace =>
    ["module", "document", "section", "key", "item", "namespace", "schema", "impl"]
  | .type =>
    ["class", "struct", "interface", "trait", "enum", "record", "annotation_type", "table", "type",
      "view", "delegate"]
  | .callable =>
    ["function", "method", "constructor", "fn", "func", "macro", "procedure", "async_function",
      "test"]
  | .value =>
    ["code_block", "link_definition", "field", "column", "constraint", "index", "index_key",
      "index_include", "index_predicate", "constraint_column", "trigger", "property", "event",
      "enum_constant", "const", "static", "path", "var", "param", "local"]
  | .annotations => ["comment"]
  | .ref => []

/-- The table lists each kind once, so it may be read by shape. -/
def shapeOf (kind : String) : Option Shape :=
  [Shape.nameSpace, .type, .callable, .value, .annotations].find? fun s => kind ∈ s.kindsOf

def forKind (kind : String) : Shape := (shapeOf kind).getD .ref

end Shape

/-! ## Syntax -/

inductive Lhs where
  | name
  | signature
  | sourceSignature
  | targetSignature
  | lines
  | startLine
  | endLine
  | startByte
  | endByte
  | kind
  | shape
  | visibility
  | srcset
  | text
  | moniker
  | depth
  | parentMoniker
  | confidence
  | parentName
  | parentKind
  | parentShape
  | sourceName
  | sourceKind
  | sourceShape
  | sourceVisibility
  | sourceSrcset
  | sourceMoniker
  | sourceParentMoniker
  | targetName
  | targetKind
  | targetShape
  | targetVisibility
  | targetSrcset
  | targetMoniker
  | targetParentMoniker
  | segmentName
  | segmentKind
  deriving DecidableEq, Repr

def Lhs.fromProjectionName : String → Option Lhs
  | "name" => some .name
  | "signature" => some .signature
  | "source.signature" => some .sourceSignature
  | "target.signature" => some .targetSignature
  | "lines" => some .lines
  | "start_line" => some .startLine
  | "end_line" => some .endLine
  | "start_byte" => some .startByte
  | "end_byte" => some .endByte
  | "kind" => some .kind
  | "shape" => some .shape
  | "visibility" => some .visibility
  | "srcset" => some .srcset
  | "text" => some .text
  | "uri" | "moniker" | "self" => some .moniker
  | "depth" => some .depth
  | "parent" | "self.parent" => some .parentMoniker
  | "confidence" => some .confidence
  | "parent.name" => some .parentName
  | "parent.kind" => some .parentKind
  | "parent.shape" => some .parentShape
  | "source" => some .sourceMoniker
  | "source.name" => some .sourceName
  | "source.kind" => some .sourceKind
  | "source.shape" => some .sourceShape
  | "source.visibility" => some .sourceVisibility
  | "source.srcset" => some .sourceSrcset
  | "source.parent" => some .sourceParentMoniker
  | "target" => some .targetMoniker
  | "target.name" => some .targetName
  | "target.kind" => some .targetKind
  | "target.shape" => some .targetShape
  | "target.visibility" => some .targetVisibility
  | "target.srcset" => some .targetSrcset
  | "target.parent" => some .targetParentMoniker
  | "segment.name" => some .segmentName
  | "segment.kind" => some .segmentKind
  | _ => none

inductive Domain where
  | ast
  | children (kind : String)
  | childrenByShape (shape : String)
  | descendants (inner : Domain)
  | pairs (inner : Domain)
  | segments
  | outRefs
  | inRefs
  | sourceOutRefs
  | sourceInRefs
  | targetOutRefs
  | targetInRefs
  | sourceAncestorOutRefs
  | sourceAncestorInRefs
  deriving DecidableEq, Repr

inductive QuantKind where
  | any
  | all
  | none
  deriving DecidableEq, Repr

inductive Op where
  | eq
  | ne
  | lt
  | le
  | gt
  | ge
  | regexMatch
  | regexNoMatch
  | ancestorOf
  | descendantOf
  | bindMatch
  | pathMatch
  | subset
  | isPrefix
  deriving DecidableEq, Repr

inductive AggregateKind where
  | sum
  | max
  | min
  | avg
  | median
  | percentile
  | stddev
  | var
  | cv
  | gini
  deriving DecidableEq, Repr

inductive Binding where
  | self
  | each
  deriving DecidableEq, Repr

inductive MetricKind where
  | lcom4
  | cbo
  | rfc
  | wmc
  | dit
  | noc
  | fanIn
  | fanOut
  deriving DecidableEq, Repr

inductive CollectionOp where
  | intersect
  | union
  | difference
  deriving DecidableEq, Repr

inductive PairSide where
  | a
  | b
  deriving DecidableEq, Repr

structure PairProjection where
  side : PairSide
  lhs : Lhs
  deriving DecidableEq, Repr

inductive SegmentScope where
  | definition
  | source
  | target
  deriving DecidableEq, Repr

structure CollectionProjection where
  current : Bool
  domain : Domain
  path : List String
  deriving DecidableEq, Repr

structure PairCollectionProjection where
  side : PairSide
  domain : Domain
  path : List String
  deriving DecidableEq, Repr

inductive CollectionExpr where
  | projection (p : CollectionProjection)
  | pairProjection (p : PairCollectionProjection)
  | unique (inner : CollectionExpr)
  | binary (op : CollectionOp) (left right : CollectionExpr)
  deriving DecidableEq, Repr

structure VerticalLayout where
  domain : Domain
  publicFirst : Bool
  privateAfterFirstUse : Bool
  maxGap : ℕ
  raw : String
  deriving DecidableEq, Repr

-- Number literals are the rationals they denote; a count is a natural number among them.
mutual

inductive Node where
  | atom (a : Atom)
  | and (children : List Node)
  | or (children : List Node)
  | not (inner : Node)
  | implies (premise conclusion : Node)
  | require (pattern : String)
  | verticalLayout (layout : VerticalLayout)
  | quantifier (kind : QuantKind) (domain : Domain) (filter : Node)

inductive Atom where
  | mk (lhs : LhsExpr) (op : Op) (rhs : Rhs) (raw : String) (regex : Option Regex)

inductive LhsExpr where
  | attr (lhs : Lhs)
  | number (n : NumberExpr)
  | collection (c : CollectionExpr)
  | mode (e : DomainValueExpr)
  | pairProjection (p : PairProjection)
  | segmentOf (scope : SegmentScope) (kind : String)

inductive Rhs where
  | number (n : NumberExpr)
  | regexStr (s : String)
  | moniker (m : Moniker)
  | str (s : String)
  | pathPattern (p : PathPattern)
  | projection (lhs : Lhs)
  | currentProjection (lhs : Lhs)
  | pairProjection (p : PairProjection)
  | collection (c : CollectionExpr)

inductive NumberExpr where
  | literal (n : ℚ)
  | projection (lhs : Lhs)
  | count (domain : Domain) (filter : Option Node)
  | aggregate (kind : AggregateKind) (domain : Domain) (expr : NumberExpr) (percentile : Option ℚ)
  | metric (kind : MetricKind) (binding : Binding)
  | entropy (e : DomainValueExpr)
  | size (c : CollectionExpr)

inductive DomainValueExpr where
  | mk (domain : Domain) (expr : ValueExpr) (filter : Option Node)

inductive ValueExpr where
  | item
  | projection (lhs : Lhs)
  | number (n : NumberExpr)

end

/-! ## Outcomes -/

/-- A failure carries a description that no evaluation reads. -/
inductive NodeOutcome where
  | pass
  | fail
  | notApplicable
  deriving DecidableEq, Repr

abbrev AtomOutcome := NodeOutcome

namespace NodeOutcome

def ofBool (ok : Bool) : NodeOutcome := if ok then .pass else .fail

/-- A node that is not applicable has no value. -/
def truth : NodeOutcome → Option Bool
  | .pass => some true
  | .fail => some false
  | .notApplicable => none

/-- The loop of `walk_node` over the operands of a conjunction. -/
def andOutcome : (na : Bool) → List NodeOutcome → NodeOutcome
  | na, [] => if na then .notApplicable else .pass
  | na, .pass :: rest => andOutcome na rest
  | _, .fail :: _ => .fail
  | _, .notApplicable :: rest => andOutcome true rest

/-- The loop over the operands of a disjunction. Without any operand it is not applicable. -/
def orOutcome : (failed na : Bool) → List NodeOutcome → NodeOutcome
  | failed, na, [] => if na then .notApplicable else if failed then .fail else .notApplicable
  | _, _, .pass :: _ => .pass
  | _, na, .fail :: rest => orOutcome true na rest
  | failed, _, .notApplicable :: rest => orOutcome failed true rest

def notOutcome : NodeOutcome → NodeOutcome
  | .pass => .fail
  | .fail => .pass
  | .notApplicable => .notApplicable

def impliesOutcome (premise conclusion : NodeOutcome) : NodeOutcome :=
  match premise with
  | .pass => conclusion
  | .fail => .pass
  | .notApplicable => .notApplicable

/-- `and` is a strong Kleene conjunction. -/
theorem truth_andOutcome : ∀ (na : Bool) (os : List NodeOutcome),
    (andOutcome na os).truth = Kleene.fold false na (os.map truth)
  | na, [] => by cases na <;> rfl
  | na, .pass :: os => by
    rw [andOutcome, truth_andOutcome na os]
    rfl
  | _, .fail :: _ => rfl
  | _, .notApplicable :: os => by
    rw [andOutcome, truth_andOutcome true os]
    rfl

/-- `or` is a strong Kleene disjunction; an empty one is not applicable. -/
theorem truth_orOutcome : ∀ (failed na : Bool) (os : List NodeOutcome),
    (orOutcome failed na os).truth =
      if failed = false ∧ os = [] then none else Kleene.fold true na (os.map truth)
  | failed, na, [] => by cases failed <;> cases na <;> rfl
  | failed, na, .pass :: os => by simp [orOutcome, truth, Kleene.fold]
  | failed, na, .fail :: os => by
    rw [orOutcome, truth_orOutcome true na os]
    simp [truth, Kleene.fold]
  | failed, na, .notApplicable :: os => by
    rw [orOutcome, truth_orOutcome failed true os]
    cases os with
    | nil => cases failed <;> rfl
    | cons o os => simp [truth, Kleene.fold]

/-- The loop of a quantifier over the truths of its filter. -/
def quantify (kind : QuantKind) : (unknown : Bool) → List (Option Bool) → NodeOutcome
  | unknown, [] => if unknown then .notApplicable else if kind = .any then .fail else .pass
  | unknown, t :: rest =>
    match kind, t with
    | .any, some true => .pass
    | .all, some false | .none, some true => .fail
    | _, none => quantify kind true rest
    | _, _ => quantify kind unknown rest

theorem truth_quantify (kind : QuantKind) : ∀ (unknown : Bool) (ts : List (Option Bool)),
    (quantify kind unknown ts).truth = match kind with
      | .any => Kleene.fold true unknown ts
      | .all => Kleene.fold false unknown ts
      | .none => (Kleene.fold true unknown ts).map Bool.not
  | unknown, [] => by cases kind <;> cases unknown <;> rfl
  | unknown, t :: ts => by
    have hopen := truth_quantify kind true ts
    have hnext := truth_quantify kind unknown ts
    rcases t with _ | _ | _ <;> cases kind <;> first | rfl | exact hopen | exact hnext

end NodeOutcome

/-! ## Values -/

inductive Value where
  | str (s : String)
  | number (n : ℚ)
  | moniker (m : Moniker)
  deriving DecidableEq

def applyOpStrValues (lhs : String) (op : Op) (rhs : String) : AtomOutcome :=
  match op with
  | .eq => .ofBool (lhs = rhs)
  | .ne => .ofBool (lhs ≠ rhs)
  | _ => .notApplicable

def applyOpValues (lhs : Value) (op : Op) (rhs : Value) : AtomOutcome :=
  match lhs, op, rhs with
  | .str a, op, .str b => applyOpStrValues a op b
  | .number a, .eq, .number b => .ofBool (a = b)
  | .number a, .ne, .number b => .ofBool (a ≠ b)
  | .number a, .lt, .number b => .ofBool (a < b)
  | .number a, .le, .number b => .ofBool (a ≤ b)
  | .number a, .gt, .number b => .ofBool (b < a)
  | .number a, .ge, .number b => .ofBool (b ≤ a)
  | .moniker a, .eq, .moniker b => .ofBool (a = b)
  | .moniker a, .ne, .moniker b => .ofBool (a ≠ b)
  | .moniker a, .ancestorOf, .moniker b => .ofBool (a.isAncestorOf b)
  | .moniker a, .descendantOf, .moniker b => .ofBool (b.isAncestorOf a)
  | .moniker a, .bindMatch, .moniker b => .ofBool (a.bindMatch b)
  | _, _, _ => .notApplicable

def applyOpStr (value : String) (op : Op) (rhs : Rhs) (regex : Option Regex) : AtomOutcome :=
  match op, rhs with
  | .regexMatch, .regexStr _ => .ofBool (regex.any fun re => re value)
  | .regexNoMatch, .regexStr _ => .ofBool (regex.any fun re => !re value)
  | .eq, .str expected => .ofBool (value = expected)
  | .ne, .str expected => .ofBool (value ≠ expected)
  | _, _ => .notApplicable

def applyOp (value : Value) (op : Op) (rhs : Rhs) (regex : Option Regex) : AtomOutcome :=
  match value, op, rhs with
  | .str s, op, rhs => applyOpStr s op rhs regex
  | .moniker m, .eq, .moniker t => .ofBool (m = t)
  | .moniker m, .ne, .moniker t => .ofBool (m ≠ t)
  | .moniker m, .ancestorOf, .moniker t => .ofBool (m.isAncestorOf t)
  | .moniker m, .descendantOf, .moniker t => .ofBool (t.isAncestorOf m)
  | .moniker m, .bindMatch, .moniker t => .ofBool (m.bindMatch t)
  | .moniker m, .pathMatch, .pathPattern p => .ofBool (p.matches m)
  | _, _, _ => .notApplicable

/-! ## Collections of values -/

/-- The first occurrence of each value. -/
def uniqueValues (values : List Value) : List Value := values.eraseDups

/-- Each value as often as `merge` says. The code lists the values in the order of a hash map; here
they come in the order in which they occur. -/
def combineCounts (merge : ℕ → ℕ → ℕ) (left right : List Value) : List Value :=
  (left ++ right).eraseDups.flatMap fun v =>
    List.replicate (merge (left.count v) (right.count v)) v

def CollectionOp.apply (op : CollectionOp) (left right : List Value) : List Value :=
  match op with
  | .intersect => combineCounts min left right
  | .union => combineCounts max left right
  | .difference => combineCounts (· - ·) left right

def isSubset (left right : List Value) : Bool :=
  left.all fun v => left.count v ≤ right.count v

def isPrefixOf (left right : List Value) : Bool := left.isPrefixOf right

end CodeMoniker
