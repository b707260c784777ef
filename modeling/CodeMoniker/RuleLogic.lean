import CodeMoniker.RuleEval

/-!
# Laws of the rule language

`A => B` is documented as `(NOT A) OR B`. The two differ where `A` is not applicable and `B`
passes, and nowhere else (`Scope.evalNode_implies_iff`).

The connectives keep what they have settled. An atom that is not applicable may be replaced
(`Node.Settled`) without turning a definite outcome around, as long as it stands outside the
filters of quantifiers and counts; the operands of conjunctions and disjunctions may be
permuted anywhere, inside the filters as well (`Node.Reordered`,
`Scope.evalNode_monotone_reordered`).
-/

namespace CodeMoniker

open Kleene

/-! ## Connectives -/

namespace NodeOutcome

theorem truth_injective : Function.Injective truth := by
  intro o o' h
  cases o <;> cases o' <;> first | rfl | cases h

theorem truth_notOutcome (o : NodeOutcome) : o.notOutcome.truth = o.truth.map Bool.not := by
  cases o <;> rfl

theorem truth_impliesOutcome (p c : NodeOutcome) :
    (p.impliesOutcome c).truth = p.truth.bind fun t => if t then c.truth else some true := by
  cases p <;> rfl

/-- The order of the operands does not matter. -/
theorem andOutcome_perm {na : Bool} {os os' : List NodeOutcome} (h : os.Perm os') :
    andOutcome na os = andOutcome na os' := by
  apply truth_injective
  rw [truth_andOutcome, truth_andOutcome]
  exact fold_perm (h.map truth)

theorem orOutcome_perm {failed na : Bool} {os os' : List NodeOutcome} (h : os.Perm os') :
    orOutcome failed na os = orOutcome failed na os' := by
  apply truth_injective
  have hnil : os = [] ↔ os' = [] := by rw [← List.length_eq_zero_iff, h.length_eq,
    List.length_eq_zero_iff]
  rw [truth_orOutcome, truth_orOutcome, fold_perm (h.map truth)]
  simp only [hnil]

theorem andOutcome_extends {na : Bool} {os os' : List NodeOutcome}
    (h : List.Forall₂ Extends (os.map truth) (os'.map truth)) :
    Extends (andOutcome na os).truth (andOutcome na os').truth := by
  rw [truth_andOutcome, truth_andOutcome]
  exact fold_extends_forall₂ h

theorem orOutcome_extends {failed na : Bool} {os os' : List NodeOutcome}
    (h : List.Forall₂ Extends (os.map truth) (os'.map truth)) :
    Extends (orOutcome failed na os).truth (orOutcome failed na os').truth := by
  have hnil : os = [] ↔ os' = [] := by
    have hlen := h.length_eq
    rw [List.length_map, List.length_map] at hlen
    rw [← List.length_eq_zero_iff, hlen, List.length_eq_zero_iff]
  rw [truth_orOutcome, truth_orOutcome]
  simp only [hnil]
  split_ifs
  · exact Extends.refl _
  · exact fold_extends_forall₂ h

end NodeOutcome

namespace Scope

/-! ## Implication -/

/-- In every scope, `A => B` has the outcome of `(NOT A) OR B` if and only if it is not the case
that `A` is not applicable there and `B` passes. -/
theorem evalNode_implies_iff (ctx : EvalCtx) (s : Scope ctx) (a b : Node) :
    s.evalNode (.implies a b) = s.evalNode (.or [.not a, b]) ↔
      ¬(s.evalNode a = .notApplicable ∧ s.evalNode b = .pass) := by
  simp only [evalNode, evalNodes]
  cases s.evalNode a <;> cases s.evalNode b <;> decide

end Scope

/-! ## Replacing what is not applicable -/

mutual

/-- The second expression is the first with atoms replaced that are not applicable in the scope.
The filters of quantifiers and of counts are left alone : they are evaluated elsewhere. -/
inductive Node.Settled {ctx : EvalCtx} (s : Scope ctx) : Node → Node → Prop
  | refl (n : Node) : Node.Settled s n n
  | atom {a : Atom} (h : s.evalAtom a = .notApplicable) (n : Node) : Node.Settled s (.atom a) n
  | and {cs cs' : List Node} (h : Node.SettledList s cs cs') : Node.Settled s (.and cs) (.and cs')
  | or {cs cs' : List Node} (h : Node.SettledList s cs cs') : Node.Settled s (.or cs) (.or cs')
  | not {n n' : Node} (h : Node.Settled s n n') : Node.Settled s (.not n) (.not n')
  | implies {p p' c c' : Node} (hp : Node.Settled s p p') (hc : Node.Settled s c c') :
    Node.Settled s (.implies p c) (.implies p' c')

inductive Node.SettledList {ctx : EvalCtx} (s : Scope ctx) : List Node → List Node → Prop
  | nil : Node.SettledList s [] []
  | cons {n n' : Node} {cs cs' : List Node} (h : Node.Settled s n n')
    (hs : Node.SettledList s cs cs') : Node.SettledList s (n :: cs) (n' :: cs')

end

mutual

/-- A verdict that is reached stays. -/
theorem Node.Settled.truth_extends {ctx : EvalCtx} {s : Scope ctx} : ∀ {n n' : Node},
    Node.Settled s n n' → Extends (s.evalNode n).truth (s.evalNode n').truth
  | _, _, .refl n => Extends.refl _
  | _, _, .atom h n => by
    simp only [Scope.evalNode, h]
    exact extends_none _
  | _, _, .and h => by
    simp only [Scope.evalNode]
    exact NodeOutcome.andOutcome_extends h.truth_extends
  | _, _, .or h => by
    simp only [Scope.evalNode]
    exact NodeOutcome.orOutcome_extends h.truth_extends
  | _, _, .not h => by
    simp only [Scope.evalNode, NodeOutcome.truth_notOutcome]
    exact h.truth_extends.map _
  | _, _, .implies hp hc => by
    simp only [Scope.evalNode, NodeOutcome.truth_impliesOutcome]
    refine hp.truth_extends.bind fun t _ => ?_
    split_ifs
    · exact hc.truth_extends
    · exact Extends.refl _

theorem Node.SettledList.truth_extends {ctx : EvalCtx} {s : Scope ctx} : ∀ {cs cs' : List Node},
    Node.SettledList s cs cs' → List.Forall₂ Extends ((s.evalNodes cs).map NodeOutcome.truth)
      ((s.evalNodes cs').map NodeOutcome.truth)
  | _, _, .nil => .nil
  | _, _, .cons h hs => by
    simp only [Scope.evalNodes, List.map_cons]
    exact .cons h.truth_extends hs.truth_extends

end

/-! ## Permuting operands -/

mutual

/-- The two expressions differ in the order of the operands of conjunctions and disjunctions,
anywhere inside, and in the text an atom was written as. -/
inductive Node.Reordered : Node → Node → Prop
  | refl (n : Node) : Node.Reordered n n
  | atom {a a' : Atom} (h : Atom.Reordered a a') : Node.Reordered (.atom a) (.atom a')
  | and {cs cs' : List Node} (h : Node.ReorderedList cs cs') : Node.Reordered (.and cs) (.and cs')
  | or {cs cs' : List Node} (h : Node.ReorderedList cs cs') : Node.Reordered (.or cs) (.or cs')
  | not {n n' : Node} (h : Node.Reordered n n') : Node.Reordered (.not n) (.not n')
  | implies {p p' c c' : Node} (hp : Node.Reordered p p') (hc : Node.Reordered c c') :
    Node.Reordered (.implies p c) (.implies p' c')
  | quantifier (kind : QuantKind) (domain : Domain) {f f' : Node} (h : Node.Reordered f f') :
    Node.Reordered (.quantifier kind domain f) (.quantifier kind domain f')

inductive Node.ReorderedList : List Node → List Node → Prop
  | nil : Node.ReorderedList [] []
  | cons {n n' : Node} {cs cs' : List Node} (h : Node.Reordered n n')
    (hs : Node.ReorderedList cs cs') : Node.ReorderedList (n :: cs) (n' :: cs')
  | swap (n n' : Node) (cs : List Node) : Node.ReorderedList (n :: n' :: cs) (n' :: n :: cs)
  | trans {cs cs' cs'' : List Node} (h : Node.ReorderedList cs cs')
    (h' : Node.ReorderedList cs' cs'') : Node.ReorderedList cs cs''

inductive Atom.Reordered : Atom → Atom → Prop
  | mk {lhs lhs' : LhsExpr} {rhs rhs' : Rhs} (hl : LhsExpr.Reordered lhs lhs') (op : Op)
    (hr : Rhs.Reordered rhs rhs') (raw raw' : String) (regex : Option Regex) :
    Atom.Reordered (.mk lhs op rhs raw regex) (.mk lhs' op rhs' raw' regex)

inductive LhsExpr.Reordered : LhsExpr → LhsExpr → Prop
  | refl (lhs : LhsExpr) : LhsExpr.Reordered lhs lhs
  | number {n n' : NumberExpr} (h : NumberExpr.Reordered n n') :
    LhsExpr.Reordered (.number n) (.number n')
  | mode {e e' : DomainValueExpr} (h : DomainValueExpr.Reordered e e') :
    LhsExpr.Reordered (.mode e) (.mode e')

inductive Rhs.Reordered : Rhs → Rhs → Prop
  | refl (rhs : Rhs) : Rhs.Reordered rhs rhs
  | number {n n' : NumberExpr} (h : NumberExpr.Reordered n n') :
    Rhs.Reordered (.number n) (.number n')

inductive NumberExpr.Reordered : NumberExpr → NumberExpr → Prop
  | refl (n : NumberExpr) : NumberExpr.Reordered n n
  | count (domain : Domain) {f f' : Option Node} (h : Node.ReorderedFilter f f') :
    NumberExpr.Reordered (.count domain f) (.count domain f')
  | aggregate (kind : AggregateKind) (domain : Domain) {n n' : NumberExpr}
    (h : NumberExpr.Reordered n n') (percentile : Option ℚ) :
    NumberExpr.Reordered (.aggregate kind domain n percentile)
      (.aggregate kind domain n' percentile)
  | entropy {e e' : DomainValueExpr} (h : DomainValueExpr.Reordered e e') :
    NumberExpr.Reordered (.entropy e) (.entropy e')

inductive DomainValueExpr.Reordered : DomainValueExpr → DomainValueExpr → Prop
  | mk (domain : Domain) {e e' : ValueExpr} {f f' : Option Node} (he : ValueExpr.Reordered e e')
    (hf : Node.ReorderedFilter f f') : DomainValueExpr.Reordered (.mk domain e f) (.mk domain e' f')

inductive ValueExpr.Reordered : ValueExpr → ValueExpr → Prop
  | refl (e : ValueExpr) : ValueExpr.Reordered e e
  | number {n n' : NumberExpr} (h : NumberExpr.Reordered n n') :
    ValueExpr.Reordered (.number n) (.number n')

inductive Node.ReorderedFilter : Option Node → Option Node → Prop
  | none : Node.ReorderedFilter none none
  | some {f f' : Node} (h : Node.Reordered f f') : Node.ReorderedFilter (some f) (some f')

end

theorem NumberExpr.Reordered.shape {n n' : NumberExpr} (h : NumberExpr.Reordered n n') :
    n.literalValue = n'.literalValue ∧ n.projected = n'.projected ∧ n.sized = n'.sized := by
  cases h <;> exact ⟨rfl, rfl, rfl⟩

theorem collectionSides_reordered {lhs lhs' : LhsExpr} {rhs rhs' : Rhs} (op : Op)
    (hl : LhsExpr.Reordered lhs lhs') (hr : Rhs.Reordered rhs rhs') :
    collectionSides lhs op rhs = collectionSides lhs' op rhs' := by
  cases hl with
  | refl =>
    cases hr with
    | refl => rfl
    | number h => cases lhs <;> cases op <;> rfl
  | number h | mode h => cases op <;> rfl

/-- No literal comparison reads a number on the right side. -/
theorem applyOp_number (v : Value) (op : Op) (n : NumberExpr) (regex : Option Regex) :
    applyOp v op (.number n) regex = .notApplicable := by
  cases v <;> cases op <;> rfl

theorem applyOpStr_number (v : String) (op : Op) (n : NumberExpr) (regex : Option Regex) :
    applyOpStr v op (.number n) regex = .notApplicable := by
  cases op <;> rfl

theorem applyOp_reordered {rhs rhs' : Rhs} (h : Rhs.Reordered rhs rhs') (v : Value) (op : Op)
    (regex : Option Regex) : applyOp v op rhs regex = applyOp v op rhs' regex := by
  cases h with
  | refl => rfl
  | number h => rw [applyOp_number, applyOp_number]

theorem compareValues_reordered {lhs lhs' : Option Value} {rhsValue rhsValue' : RhsValue}
    {rhs rhs' : Rhs} (hr : Rhs.Reordered rhs rhs') (hlhs : lhs = lhs')
    (hrhs : rhsValue = rhsValue') (op : Op) (regex : Option Regex) :
    compareValues lhs op rhsValue rhs regex = compareValues lhs' op rhsValue' rhs' regex := by
  subst hlhs hrhs
  cases lhs <;> cases rhsValue <;> simp only [compareValues, applyOp_reordered hr]

theorem evalAtomSegment_reordered {a a' : Atom} (h : Atom.Reordered a a') (s : Segment) :
    evalAtomSegment s a = evalAtomSegment s a' := by
  obtain ⟨hl, op, hr, raw, raw', regex⟩ := h
  refine compareValues_reordered hr ?_ ?_ op regex
  · cases hl <;> rfl
  · cases hr with
    | refl => rfl
    | number h => rw [segmentRhsValue, h.shape.1, segmentRhsValue]

theorem evalExternalDefAtom_reordered {a a' : Atom} (h : Atom.Reordered a a') (ctx : EvalCtx)
    (d : DefRecord) : ctx.evalExternalDefAtom d a = ctx.evalExternalDefAtom d a' := by
  obtain ⟨hl, op, hr, raw, raw', regex⟩ := h
  refine compareValues_reordered hr ?_ ?_ op regex
  · cases hl <;> rfl
  · cases hr <;> rfl

theorem evalAstAtom_reordered {a a' : Atom} (h : Atom.Reordered a a') (ctx : EvalCtx)
    (node : AstNode) : ctx.evalAstAtom node a = ctx.evalAstAtom node a' := by
  cases h with
  | @mk lhs lhs' rhs rhs' hl op hr raw raw' regex =>
    have hstring : node.stringValue ctx.source lhs = node.stringValue ctx.source lhs' := by
      cases hl <;> rfl
    have hcompare : ∀ value, node.compareString ctx.source value op rhs regex =
        node.compareString ctx.source value op rhs' regex := by
      intro value
      cases hr with
      | refl => rfl
      | number h => simp only [AstNode.compareString, applyOpStr_number]
    have hlhs : node.lhsValue lhs = node.lhsValue lhs' := by
      cases hl with
      | number h => rw [AstNode.lhsValue, h.shape.2.1, AstNode.lhsValue]
      | refl | mode _ => rfl
    have hrhs : node.rhsValue rhs = node.rhsValue rhs' := by
      cases hr with
      | refl => rfl
      | number h => rw [AstNode.rhsValue, h.shape.1, h.shape.2.1, AstNode.rhsValue]
    simp only [EvalCtx.evalAstAtom, hstring, hcompare, compareValues_reordered hr hlhs hrhs]

-- The induction is on the derivation; a filter is evaluated in scopes of its own, so the
-- statements are about every scope.
mutual

/-- Reordered expressions have one outcome. -/
theorem Node.Reordered.evalNode_eq {ctx : EvalCtx} : ∀ {n n' : Node}, Node.Reordered n n' →
    ∀ s : Scope ctx, s.evalNode n = s.evalNode n'
  | _, _, .refl n, _ => rfl
  | _, _, .atom h, s => by simp only [Scope.evalNode, h.evalAtom_eq s]
  | _, _, .and h, s => by
    simp only [Scope.evalNode]
    exact NodeOutcome.andOutcome_perm (h.evalNodes_perm s)
  | _, _, .or h, s => by
    simp only [Scope.evalNode]
    exact NodeOutcome.orOutcome_perm (h.evalNodes_perm s)
  | _, _, .not h, s => by simp only [Scope.evalNode, h.evalNode_eq s]
  | _, _, .implies hp hc, s => by
    simp only [Scope.evalNode, hp.evalNode_eq s, hc.evalNode_eq s]
  | _, _, .quantifier kind domain h, s => by
    have hfilter := fun item : Scope ctx => h.evalNode_eq item
    simp only [Scope.evalNode, hfilter]

theorem Node.ReorderedList.evalNodes_perm {ctx : EvalCtx} : ∀ {cs cs' : List Node},
    Node.ReorderedList cs cs' → ∀ s : Scope ctx, (s.evalNodes cs).Perm (s.evalNodes cs')
  | _, _, .nil, _ => .nil
  | _, _, .cons h hs, s => by
    simp only [Scope.evalNodes, h.evalNode_eq s]
    exact (hs.evalNodes_perm s).cons _
  | _, _, .swap n n' cs, s => by
    simp only [Scope.evalNodes]
    exact .swap _ _ _
  | _, _, .trans h h', s => (h.evalNodes_perm s).trans (h'.evalNodes_perm s)

theorem Atom.Reordered.evalAtom_eq {ctx : EvalCtx} : ∀ {a a' : Atom}, Atom.Reordered a a' →
    ∀ s : Scope ctx, s.evalAtom a = s.evalAtom a'
  | _, _, .mk hl op hr raw raw' regex, s => by
    have hsides := collectionSides_reordered op hl hr
    obtain ⟨hdef, href, hpair⟩ := hl.values_eq ctx
    obtain ⟨hdef', href', hpair'⟩ := hr.values_eq ctx
    cases s with
    | ast node => exact evalAstAtom_reordered (.mk hl op hr raw raw' regex) ctx node
    | external d => exact evalExternalDefAtom_reordered (.mk hl op hr raw raw' regex) ctx d
    | segment s => exact evalAtomSegment_reordered (.mk hl op hr raw raw' regex) s
    | definition i self =>
      simp only [Scope.evalAtom, hsides, compareValues_reordered hr (hdef i self) (hdef' i self)]
    | ref r current =>
      simp only [Scope.evalAtom, hsides, compareValues_reordered hr (href r) (href' r current)]
    | pair a b i self =>
      simp only [Scope.evalAtom, hsides,
        compareValues_reordered hr (hpair a b i self) (hpair' a b i self)]

theorem LhsExpr.Reordered.values_eq {lhs lhs' : LhsExpr} : LhsExpr.Reordered lhs lhs' →
    ∀ ctx : EvalCtx,
      (∀ i self : ctx.DefIdx, Scope.defLhsValue i self lhs = Scope.defLhsValue i self lhs') ∧
      (∀ r : ctx.RefIdx, Scope.refLhsValue r lhs = Scope.refLhsValue r lhs') ∧
      ∀ (a b : DomainItem ctx) (i self : ctx.DefIdx),
        Scope.pairLhsValue a b i self lhs = Scope.pairLhsValue a b i self lhs'
  | .refl _, _ => ⟨fun _ _ => rfl, fun _ => rfl, fun _ _ _ _ => rfl⟩
  | .number h, ctx => by
    obtain ⟨hdef, href⟩ := h.eval_eq ctx
    simp only [Scope.defLhsValue, Scope.refLhsValue, Scope.pairLhsValue, hdef, href,
      h.shape.2.2, implies_true, and_self]
  | .mode h, ctx => by
    have hvalues := h.collect_eq ctx
    simp only [Scope.defLhsValue, Scope.refLhsValue, Scope.pairLhsValue, hvalues, implies_true,
      and_self]

theorem Rhs.Reordered.values_eq {rhs rhs' : Rhs} : Rhs.Reordered rhs rhs' → ∀ ctx : EvalCtx,
      (∀ i self : ctx.DefIdx, Scope.defRhsValue i self rhs = Scope.defRhsValue i self rhs') ∧
      (∀ r current : ctx.RefIdx,
        Scope.refRhsValue r current rhs = Scope.refRhsValue r current rhs') ∧
      ∀ (a b : DomainItem ctx) (i self : ctx.DefIdx),
        Scope.pairRhsValue a b i self rhs = Scope.pairRhsValue a b i self rhs'
  | .refl _, _ => ⟨fun _ _ => rfl, fun _ _ => rfl, fun _ _ _ _ => rfl⟩
  | .number h, ctx => by
    obtain ⟨hdef, href⟩ := h.eval_eq ctx
    simp only [Scope.defRhsValue, Scope.refRhsValue, Scope.pairRhsValue, hdef, href,
      h.shape.2.2, implies_true, and_self]

theorem NumberExpr.Reordered.eval_eq {n n' : NumberExpr} : NumberExpr.Reordered n n' →
    ∀ ctx : EvalCtx, (∀ i self : ctx.DefIdx,
        Scope.evalNumberExprDef i self n = Scope.evalNumberExprDef i self n') ∧
      ∀ r : ctx.RefIdx, Scope.evalNumberExprRef r n = Scope.evalNumberExprRef r n'
  | .refl _, _ => ⟨fun _ _ => rfl, fun _ => rfl⟩
  | .count domain h, ctx => by
    have hpasses := fun item : Scope ctx => h.passes_eq item
    simp only [Scope.evalNumberExprDef, Scope.evalNumberExprRef, hpasses, implies_true, and_self]
  | .aggregate kind domain h percentile, ctx => by
    obtain ⟨hdef, href⟩ := h.eval_eq ctx
    simp only [Scope.evalNumberExprDef, Scope.evalNumberExprRef, hdef, href, h.shape.1,
      h.shape.2.1, implies_true, and_self]
  | .entropy h, ctx => by
    have hvalues := h.collect_eq ctx
    simp only [Scope.evalNumberExprDef, Scope.evalNumberExprRef, hvalues, implies_true, and_self]

theorem DomainValueExpr.Reordered.collect_eq {e e' : DomainValueExpr} :
    DomainValueExpr.Reordered e e' → ∀ (ctx : EvalCtx) (i self : ctx.DefIdx),
      Scope.collectDomainValues i self e = Scope.collectDomainValues i self e'
  | .mk domain he hf, ctx, i, self => by
    have hpasses := fun item : Scope ctx => hf.passes_eq item
    have hvalue := fun item : DomainItem ctx => he.item_eq self item
    simp only [Scope.collectDomainValues, hpasses, hvalue]

theorem ValueExpr.Reordered.item_eq {ctx : EvalCtx} {e e' : ValueExpr} :
    ValueExpr.Reordered e e' → ∀ (self : ctx.DefIdx) (item : DomainItem ctx),
      Scope.evalDomainValueItem self item e = Scope.evalDomainValueItem self item e'
  | .refl _, _, _ => rfl
  | .number h, self, item => by
    obtain ⟨hdef, href⟩ := h.eval_eq ctx
    simp only [Scope.evalDomainValueItem, hdef, href, h.shape.1, h.shape.2.1]

theorem Node.ReorderedFilter.passes_eq {ctx : EvalCtx} {f f' : Option Node} :
    Node.ReorderedFilter f f' → ∀ s : Scope ctx, s.passesFilter f = s.passesFilter f'
  | .none, _ => rfl
  | .some h, s => by simp only [Scope.passesFilter, h.evalNode_eq s]

end

namespace Scope

/-- In every scope, a definite outcome stays as it is when atoms outside the filters are replaced
that are not applicable there, and no outcome changes when operands of conjunctions and
disjunctions are permuted, wherever they stand. -/
theorem evalNode_monotone_reordered (ctx : EvalCtx) (s : Scope ctx) (n n' : Node) :
    (Node.Settled s n n' → s.evalNode n ≠ .notApplicable → s.evalNode n' = s.evalNode n) ∧
      (Node.Reordered n n' → s.evalNode n' = s.evalNode n) := by
  refine ⟨fun h hdefinite => ?_, fun h => (h.evalNode_eq s).symm⟩
  apply NodeOutcome.truth_injective
  have hextends := h.truth_extends
  cases hn : s.evalNode n with
  | pass => exact hextends true (by rw [hn]; rfl)
  | fail => exact hextends false (by rw [hn]; rfl)
  | notApplicable => exact absurd hn hdefinite

end Scope

/-! ## A call of a function of another file -/

open CodeGraphEncoding

/-- The function `log` of the project `lib`. -/
def logFunction : Moniker :=
  .ofParts (byteString "lib") [⟨byteString "fn", byteString "log"⟩]
    ⟨by decide, by decide, by decide⟩ (by decide)

/-- A module that calls `log`. -/
def callsLog : CodeGraph :=
  CodeGraph.fromRecords
    [{ moniker := utilModule, kind := byteString "module", parent := none, position := none,
       visibility := [], signature := [], callName := [], callArity := none,
       binding := [], origin := [] }]
    [{ source := 0, target := logFunction, kind := byteString "calls", position := none,
       receiverHint := [], aliasName := [], confidence := [], callName := [], callArity := none,
       binding := [] }]

theorem parentOf_callsLog (i : ℕ) : callsLog.parentOf i = none := by
  match i with
  | 0 => rfl
  | _ + 1 => rfl

theorem closed_callsLog : callsLog.Closed where
  sources := by
    intro r hr
    obtain rfl := List.mem_singleton.mp hr
    decide
  parents := by
    intro i p hp
    cases (parentOf_callsLog i).symm.trans hp
  acyclic := by
    intro i hi
    obtain ⟨p, hp, -⟩ := Relation.TransGen.head'_iff.mp hi
    cases (parentOf_callsLog i).symm.trans hp

/-- The file of `callsLog`, without a syntax tree. -/
def callsLogCtx : EvalCtx where
  graph := callsLog
  closed := closed_callsLog
  source := []
  configSection := "rust"
  requirements := none
  astDomainItems _ := .error .documentUnavailable
  aggregate _ _ _ := none
  normalizedEntropy _ := none
  metric _ _ := 0
  verticalLayout _ _ := .pass
  regexNew _ := none

def callsLogModule : Scope callsLogCtx := .definition ⟨0, by decide⟩ ⟨0, by decide⟩

def logCall : Scope callsLogCtx := .ref ⟨0, by decide⟩ ⟨0, by decide⟩

def targetIsPublic : Atom :=
  .mk (.attr .targetVisibility) .eq (.str "public") "target.visibility = 'public'" none

def refCalls : Atom := .mk (.attr .kind) .eq (.str "calls") "kind = 'calls'" none

namespace Scope

/-- The visibility of a function of another file is not applicable, so the implication is not,
but the disjunction passes. -/
theorem evalNode_implies_logCall :
    logCall.evalNode (.implies (.atom targetIsPublic) (.atom refCalls)) = .notApplicable ∧
      logCall.evalNode (.or [.not (.atom targetIsPublic), .atom refCalls]) = .pass := by
  decide

theorem evalNode_monotone_reordered_logCall :
    logCall.evalNode (.or [.atom refCalls, .atom refCalls]) = .pass ∧
      logCall.evalNode (.or [.atom refCalls, .atom targetIsPublic]) = .pass := by
  have hpass : logCall.evalNode (.or [.atom targetIsPublic, .atom refCalls]) = .pass := by
    decide
  have hopen : logCall.evalAtom targetIsPublic = .notApplicable := by decide
  have hsettled := (evalNode_monotone_reordered callsLogCtx logCall
    (.or [.atom targetIsPublic, .atom refCalls]) (.or [.atom refCalls, .atom refCalls])).1
  have hreordered := (evalNode_monotone_reordered callsLogCtx logCall
    (.or [.atom targetIsPublic, .atom refCalls]) (.or [.atom refCalls, .atom targetIsPublic])).2
  refine ⟨?_, ?_⟩
  · rw [hsettled (.or (.cons (.atom hopen _) (.cons (.refl _) .nil))) (by rw [hpass]; decide)]
    exact hpass
  · rw [hreordered (.or (.swap _ _ _))]
    exact hpass

/-- Inside the filter of a quantifier what is not applicable counts as not passing : once the
atom is replaced by one that passes, the outcome turns around. -/
theorem evalNode_any_logCall :
    logCall.evalAtom targetIsPublic = .notApplicable ∧ logCall.evalAtom refCalls = .pass ∧
      callsLogModule.evalNode (.quantifier .any .outRefs (.atom targetIsPublic)) = .fail ∧
      callsLogModule.evalNode (.quantifier .any .outRefs (.atom refCalls)) = .pass := by
  decide

end Scope

end CodeMoniker
