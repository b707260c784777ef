import CodeMoniker.RuleScopes

/-!
# Evaluating a rule expression

`walk_node` folds the outcomes of the operands, with an evaluator of atoms and of quantifiers
for each kind of scope. Here one function, `Scope.evalNode`, takes the scope as an argument
and `Scope.evalAtom` chooses the evaluator. A quantifier and a count see only whether their filter passes
at an item, so what is not applicable there is settled at once.
-/

namespace CodeMoniker

open ByteCodec

/-! ## Required symbols -/

namespace PathPattern

/-- The state of `split_outer` between two characters. -/
structure SplitState where
  out : List (List Char) := []
  buf : List Char := []
  inRegex : Bool := false
  prevWasColon : Bool := false
  prevWasBackslash : Bool := false
  justClosedRegex : Bool := false

def splitStep (st : SplitState) (c : Char) : SplitState :=
  let st := if st.justClosedRegex then
      { st with out := st.out ++ [st.buf], buf := [], justClosedRegex := false }
    else st
  if !st.inRegex && c = '/' && !st.prevWasColon then
    { st with out := st.out ++ [st.buf], buf := [], prevWasColon := false, prevWasBackslash := false }
  else
    let closes := st.inRegex && c = '/' && !st.prevWasBackslash
    let opens := !st.inRegex && c = '/' && st.prevWasColon
    { st with
      buf := st.buf ++ [c]
      inRegex := if closes then false else st.inRegex || opens
      justClosedRegex := closes
      prevWasColon := c = ':'
      prevWasBackslash := c = '\\' && !st.prevWasBackslash }

/-- Split at the slashes outside of a regular expression. -/
def splitOuter (s : List Char) : List (List Char) :=
  let st := s.foldl splitStep {}
  st.out ++ [st.buf]

/-- The text between the slashes of a regular expression. -/
def stripSlashes (name : List Char) : Option (List Char) :=
  match name with
  | '/' :: rest => if rest.getLast? = some '/' then some rest.dropLast else none
  | _ => none

def parseStep (regexNew : String → Option Regex) (s : List Char) : Option PatternStep :=
  if s = "**".toList then some .doubleStar
  else if s = "*".toList then some .anySegment
  else if ':' ∉ s then none
  else
    let kind := s.takeWhile (· ≠ ':')
    let name := (s.dropWhile (· ≠ ':')).drop 1
    if kind = [] ∨ name = [] then none
    else
      match stripSlashes name with
      | some re =>
        (regexNew (String.ofList re)).map fun re =>
          .regex (if kind = ['*'] then none else some (Utf8.encode kind)) re
      | none =>
        if kind = ['*'] then some (.nameWildcard (Utf8.encode name))
        else if name = ['*'] then some (.kindWildcard (Utf8.encode kind))
        else some (.literal (Utf8.encode kind) (Utf8.encode name))

def parse (regexNew : String → Option Regex) (input : String) : Option PathPattern :=
  if input.toList = [] then none
  else ((splitOuter input.toList).mapM (parseStep regexNew)).map fun steps => ⟨steps, input⟩

end PathPattern

def toSnakeCase (name : String) : String :=
  String.ofList (name.toList.zipIdx.flatMap fun ci =>
    if ci.1.isUpper then (if 0 < ci.2 then ['_', ci.1.toLower] else [ci.1.toLower]) else [ci.1])

def renderRequirementPattern (pattern : String) (d : DefRecord) : Option String :=
  (nameOf d.moniker).map fun name =>
    (pattern.replace "\x7bname\x7d" name).replace "\x7bname.snake\x7d" (toSnakeCase name)

def EvalCtx.localRequirementExists (ctx : EvalCtx) (pattern : String) : Bool :=
  match PathPattern.parse ctx.regexNew pattern with
  | some pattern => ctx.graph.defs.any fun d => pattern.matches d.moniker
  | none => false

def EvalCtx.evalRequire (ctx : EvalCtx) (pattern : String) (d : DefRecord) : NodeOutcome :=
  match renderRequirementPattern pattern d with
  | none => .notApplicable
  | some rendered =>
    .ofBool (ctx.localRequirementExists rendered ||
      ctx.requirements.any fun resolver => resolver.resolves rendered d)

/-! ## Quantifiers -/

namespace QuantKind

variable (kind : QuantKind)

def holds (total passes : ℕ) : Bool :=
  match kind with
  | .any => 0 < passes
  | .all => total = 0 || passes = total
  | .none => passes = 0

/-- The count of `eval_quantifier_def` and `eval_pair_quantifier`. -/
def ofCounts (outcomes : List NodeOutcome) : NodeOutcome :=
  .ofBool (kind.holds outcomes.length (outcomes.count .pass))

/-- `eval_def_domain_quantifier` stops at the first failure of `all`. -/
def ofDefDomain (outcomes : List NodeOutcome) : NodeOutcome :=
  if kind = .all ∧ .fail ∈ outcomes then .fail else kind.ofCounts outcomes

/-- The loop of `eval_quantifier_ref`. An item that is not applicable is passed over. -/
def refLoop (kind : QuantKind) : (matched : ℕ) → List NodeOutcome → NodeOutcome
  | matched, [] =>
    match kind with
    | .any => .fail
    | .all => .pass
    | .none => if matched = 0 then .pass else .fail
  | matched, .pass :: rest => if kind = .any then .pass else refLoop kind (matched + 1) rest
  | matched, .fail :: rest => if kind = .all then .fail else refLoop kind matched rest
  | matched, .notApplicable :: rest => refLoop kind matched rest

def ofRefDomain (outcomes : List NodeOutcome) : NodeOutcome :=
  if outcomes = [] then
    match kind with
    | .all | .none => .pass
    | .any => .fail
  else kind.refLoop 0 outcomes

end QuantKind

/-! ## Atoms -/

/-- The right side of an atom : a value of the scope, a literal that `apply_op` reads, or a
value that the scope does not have. -/
inductive RhsValue where
  | value (v : Value)
  | literal
  | missing

def RhsValue.ofOption : Option Value → RhsValue
  | some v => .value v
  | none => .missing

def RhsValue.orLiteral : Option Value → RhsValue
  | some v => .value v
  | none => .literal

/-- A missing value leaves the atom not applicable. -/
def compareValues (lhs : Option Value) (op : Op) (rhsValue : RhsValue) (rhs : Rhs)
    (regex : Option Regex) : AtomOutcome :=
  match lhs, rhsValue with
  | none, _ | _, .missing => .notApplicable
  | some v, .value w => applyOpValues v op w
  | some v, .literal => applyOp v op rhs regex

/-- The two sides of a comparison of collections. -/
def collectionSides : LhsExpr → Op → Rhs → Option (CollectionExpr × CollectionExpr)
  | .collection left, .subset, .collection right => some (left, right)
  | .collection left, .isPrefix, .collection right => some (left, right)
  | _, _, _ => none

def Value.asNumber : Value → Option ℚ
  | .number n => some n
  | _ => none

def NumberExpr.literalValue : NumberExpr → Option ℚ
  | .literal n => some n
  | _ => none

def NumberExpr.projected : NumberExpr → Option Lhs
  | .projection lhs => some lhs
  | _ => none

def NumberExpr.sized : NumberExpr → Option CollectionExpr
  | .size c => some c
  | _ => none

def segmentLhs (s : Segment) : Lhs → Option Value
  | .segmentKind => some (.str ((fromUtf8 s.kind).getD ""))
  | .segmentName => some (.str ((fromUtf8 s.name).getD ""))
  | _ => none

def segmentLhsValue (s : Segment) : LhsExpr → Option Value
  | .attr lhs => segmentLhs s lhs
  | _ => none

def segmentRhsValue (s : Segment) : Rhs → RhsValue
  | .projection other => .ofOption (segmentLhs s other)
  | .number n => .ofOption (n.literalValue.map .number)
  | _ => .literal

def evalAtomSegment (s : Segment) : Atom → AtomOutcome
  | .mk lhs op rhs _ regex =>
    compareValues (segmentLhsValue s lhs) op (segmentRhsValue s rhs) rhs regex

namespace AstNode

variable (node : AstNode)

def lhsValue : LhsExpr → Option Value
  | .attr lhs => node.projectLhsValue lhs
  | .number n => n.projected.bind node.projectLhsValue
  | _ => none

def rhsValue : Rhs → RhsValue
  | .projection other => .ofOption (node.projectLhsValue other)
  | .number n =>
    match n.literalValue with
    | some q => .value (.number q)
    | none => .ofOption (n.projected.bind node.projectLhsValue)
  | _ => .literal

/-- The kind, the text and the kind of the parent compare as strings. -/
def stringValue (source : Bytes) : LhsExpr → Option String
  | .attr lhs => node.projectString source lhs
  | _ => none

def compareString (source : Bytes) (value : String) (op : Op) (rhs : Rhs)
    (regex : Option Regex) : AtomOutcome :=
  match rhs with
  | .projection other =>
    match node.projectString source other with
    | some rhs => applyOpStrValues value op rhs
    | none => .notApplicable
  | rhs => applyOpStr value op rhs regex

end AstNode

namespace EvalCtx

variable (ctx : EvalCtx)

def evalAstAtom (node : AstNode) : Atom → AtomOutcome
  | .mk lhs op rhs _ regex =>
    match node.stringValue ctx.source lhs with
    | some value => node.compareString ctx.source value op rhs regex
    | none => compareValues (node.lhsValue lhs) op (node.rhsValue rhs) rhs regex

def externalLhsValue (d : DefRecord) : LhsExpr → Option Value
  | .attr lhs => ctx.projectExternalLhs lhs d
  | _ => none

def externalRhsValue (d : DefRecord) : Rhs → RhsValue
  | .projection other => .orLiteral (ctx.projectExternalLhs other d)
  | _ => .literal

def evalExternalDefAtom (d : DefRecord) : Atom → AtomOutcome
  | .mk lhs op rhs _ regex =>
    compareValues (ctx.externalLhsValue d lhs) op (ctx.externalRhsValue d rhs) rhs regex

def bindingIdx (binding : Binding) (i self : ctx.DefIdx) : ctx.DefIdx :=
  match binding with
  | .self => self
  | .each => i

def pairProjectionValue (p : PairProjection) (a b : DomainItem ctx) : Option Value :=
  (match p.side with | .a => a | .b => b).projectLhsValue p.lhs

end EvalCtx

/-! ## Expressions -/

namespace Scope

variable {ctx : EvalCtx}

-- Only definitions, references and pairs evaluate what stands inside an atom.
mutual

/-- `walk_node` in a scope. -/
def evalNode (s : Scope ctx) : Node → NodeOutcome
  | .atom a => evalAtom s a
  | .and children => .andOutcome false (evalNodes s children)
  | .or children => .orOutcome false false (evalNodes s children)
  | .not inner => (evalNode s inner).notOutcome
  | .implies premise conclusion => (evalNode s premise).impliesOutcome (evalNode s conclusion)
  | .require pattern =>
    match s with
    | .definition i _ => ctx.evalRequire pattern (ctx.defAt i)
    | _ => .notApplicable
  | .verticalLayout layout =>
    match s with
    | .definition i _ => ctx.verticalLayout layout i
    | _ => .notApplicable
  | .quantifier kind domain filter =>
    match s with
    | .definition i self =>
      match ctx.defScopes domain i self with
      | .error _ => .notApplicable
      | .ok scopes =>
        let outcomes := scopes.map fun item => evalNode item filter
        match domain with
        | .ast | .children _ | .childrenByShape _ | .descendants _ => kind.ofDefDomain outcomes
        | _ => kind.ofCounts outcomes
    | .ref r _ => kind.ofRefDomain ((ctx.refScopes domain r).map fun item => evalNode item filter)
    | _ => .notApplicable

def evalNodes (s : Scope ctx) : List Node → List NodeOutcome
  | [] => []
  | node :: nodes => evalNode s node :: evalNodes s nodes

def evalAtom (s : Scope ctx) : Atom → AtomOutcome
  | .mk lhs op rhs raw regex =>
    match s with
    | .ast node => ctx.evalAstAtom node (.mk lhs op rhs raw regex)
    | .external d => ctx.evalExternalDefAtom d (.mk lhs op rhs raw regex)
    | .segment s => evalAtomSegment s (.mk lhs op rhs raw regex)
    | .definition i self =>
      match collectionSides lhs op rhs with
      | some (left, right) =>
        if collectionHasPairBinding left || collectionHasPairBinding right then .notApplicable
        else .ofBool (compareCollections op (ctx.evalCollection i self left)
          (ctx.evalCollection i self right))
      | none => compareValues (defLhsValue i self lhs) op (defRhsValue i self rhs) rhs regex
    | .ref r current =>
      match collectionSides lhs op rhs with
      | some (left, right) =>
        if collectionHasPairBinding left || collectionHasPairBinding right then .notApplicable
        else .ofBool (compareCollections op
          (ctx.evalCollection (ctx.sourceOf r) (ctx.sourceOf current) left)
          (ctx.evalCollection (ctx.sourceOf r) (ctx.sourceOf current) right))
      | none => compareValues (refLhsValue r lhs) op (refRhsValue r current rhs) rhs regex
    | .pair a b i self =>
      match collectionSides lhs op rhs with
      | some (left, right) =>
        .ofBool (compareCollections op (ctx.evalPairCollection a b i left)
          (ctx.evalPairCollection a b i right))
      | none => compareValues (pairLhsValue a b i self lhs) op (pairRhsValue a b i self rhs) rhs regex

def defLhsValue (i self : ctx.DefIdx) : LhsExpr → Option Value
  | .attr lhs => ctx.resolveDefLhs lhs (ctx.defAt i)
  | .number n => (evalNumberExprDef i self n).map .number
  | .mode e => modeValue (collectDomainValues i self e)
  | .segmentOf .definition kind =>
    some (.str (firstSegmentName (ctx.defAt i).moniker (byteString kind)))
  | .segmentOf _ _ | .pairProjection _ | .collection _ => none

def defRhsValue (i self : ctx.DefIdx) : Rhs → RhsValue
  | .projection other => .ofOption (ctx.resolveDefLhs other (ctx.defAt i))
  | .currentProjection other => .ofOption (ctx.resolveDefLhs other (ctx.defAt self))
  | .number n => .ofOption ((evalNumberExprDef i self n).map .number)
  | _ => .literal

def refLhsValue (r : ctx.RefIdx) : LhsExpr → Option Value
  | .attr lhs => ctx.resolveRefLhs lhs r
  | .segmentOf .source kind =>
    some (.str (firstSegmentName (ctx.defAt (ctx.sourceOf r)).moniker (byteString kind)))
  | .segmentOf .target kind => some (.str (firstSegmentName (ctx.refAt r).target (byteString kind)))
  | .number n => (evalNumberExprRef r n).map .number
  | .segmentOf .definition _ | .collection _ | .mode _ | .pairProjection _ => none

def refRhsValue (r current : ctx.RefIdx) : Rhs → RhsValue
  | .projection other => .ofOption (ctx.resolveRefLhs other r)
  | .currentProjection other => .ofOption (ctx.resolveRefLhs other current)
  | .number n => .ofOption ((evalNumberExprRef r n).map .number)
  | _ => .literal

def pairLhsValue (a b : DomainItem ctx) (i self : ctx.DefIdx) :
    LhsExpr → Option Value
  | .pairProjection p => ctx.pairProjectionValue p a b
  | .attr lhs => ctx.resolveDefLhs lhs (ctx.defAt i)
  | .number n =>
    match n.sized with
    | some c => some (.number (ctx.evalPairCollection a b i c).length)
    | none => (evalNumberExprDef i self n).map .number
  | .mode e => modeValue (collectDomainValues i self e)
  | .collection _ | .segmentOf _ _ => none

def pairRhsValue (a b : DomainItem ctx) (i self : ctx.DefIdx) : Rhs → RhsValue
  | .pairProjection p => .orLiteral (ctx.pairProjectionValue p a b)
  | .projection other => .orLiteral (ctx.resolveDefLhs other (ctx.defAt i))
  | .number n =>
    .orLiteral (match n.sized with
      | some c => some (.number (ctx.evalPairCollection a b i c).length)
      | none => (evalNumberExprDef i self n).map .number)
  | _ => .literal

def evalNumberExprDef (i self : ctx.DefIdx) : NumberExpr → Option ℚ
  | .literal n => some n
  | .projection lhs => (ctx.resolveDefLhs lhs (ctx.defAt i)).bind Value.asNumber
  | .count domain filter =>
    -- children without a filter are counted in a table, see `parentCounts_eq`
    match ctx.defScopes domain i self with
    | .error _ => none
    | .ok scopes => some (scopes.filter fun item => passesFilter item filter).length
  | .aggregate kind domain expr percentile =>
    ctx.aggregate kind ((ctx.domainItems domain i).filterMap fun
      | .definition j => evalNumberExprDef j self expr
      | .ref r => evalNumberExprRef r expr
      | .ast node => (expr.projected.bind node.projectLhsValue).bind Value.asNumber
      | .segment _ => expr.literalValue
      | .external _ => none) percentile
  | .metric kind binding => some (ctx.metric kind (ctx.bindingIdx binding i self))
  | .entropy e => ctx.normalizedEntropy (collectDomainValues i self e)
  | .size c =>
    if collectionHasPairBinding c then none else some (ctx.evalCollection i self c).length

def evalNumberExprRef (r : ctx.RefIdx) : NumberExpr → Option ℚ
  | .literal n => some n
  | .projection lhs => (ctx.resolveRefLhs lhs r).bind Value.asNumber
  | .count domain filter =>
    some ((ctx.refScopes domain r).filter fun item => passesFilter item filter).length
  | .aggregate _ _ _ _ | .metric _ _ | .entropy _ | .size _ => none

/-- Without a filter every item counts. -/
def passesFilter (s : Scope ctx) : Option Node → Bool
  | none => true
  | some filter => evalNode s filter = .pass

def collectDomainValues (i self : ctx.DefIdx) : DomainValueExpr → List Value
  | .mk domain expr filter =>
    (ctx.domainItems domain i).filterMap fun item =>
      if passesFilter (item.defScope self) filter then evalDomainValueItem self item expr else none

def evalDomainValueItem (self : ctx.DefIdx) (item : DomainItem ctx) :
    ValueExpr → Option Value
  | .item => item.projectItemValue
  | .projection lhs => item.projectLhsValue lhs
  | .number expr =>
    (match item with
      | .definition j => evalNumberExprDef j self expr
      | .ref r => evalNumberExprRef r expr
      | .ast node => (expr.projected.bind node.projectLhsValue).bind Value.asNumber
      | .segment _ => expr.literalValue
      | .external _ => none).map .number

end

/-- The children of a kind are as many as the table says. -/
theorem parentCounts_eq (i self : ctx.DefIdx) (kind : String) :
    evalNumberExprDef i self (.count (.children kind) none) =
      some (ctx.parentCounts i (byteString kind) : ℚ) := by
  have hcount : ∀ p : DefRecord → Bool,
      (List.finRange ctx.graph.defs.length).countP (fun c => p (ctx.defAt c)) =
        ctx.graph.defs.countP p := fun p => by
    conv_rhs => rw [← List.map_get_finRange ctx.graph.defs, List.countP_map]
    rfl
  simp [evalNumberExprDef, EvalCtx.defScopes, EvalCtx.domainItems, passesFilter,
    EvalCtx.parentCounts, EvalCtx.childrenByParent, ← List.countP_eq_length_filter, ← hcount,
    Bool.and_comm]

end Scope

end CodeMoniker
