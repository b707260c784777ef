import CodeMoniker.RuleLogic
import CodeMoniker.WorkspaceEval

/-!
# Violations and reports of a file

`evaluateWithCtx` goes over the definitions and the references of a file and emits a violation
wherever a rule fails. `ruleReportsWithCtx` goes over the rules and counts, for each of them, the
subjects it is evaluated on. The two passes agree : the violations are those of the rules that
are reported, each failing subject once (`evaluateWithCtx_perm`).

Nothing keeps two rules from having one id, so a single report does not have to account for all
the violations with its id; the reports with that id together do
(`reports_account_for_violations`).
-/

namespace CodeMoniker

open List StableSort

/-! ## Compiled rules -/

def Domain.containsAst : Domain → Bool
  | .ast => true
  | .descendants inner | .pairs inner => containsAst inner
  | _ => false

def CollectionExpr.usesAst : CollectionExpr → Bool
  | .projection p => p.domain.containsAst
  | .pairProjection p => p.domain.containsAst
  | .unique inner => usesAst inner
  | .binary _ left right => usesAst left || usesAst right

mutual

/-- Some domain of the expression is the syntax tree. -/
def Node.usesAst : Node → Bool
  | .atom a => Atom.usesAst a
  | .and children | .or children => Node.usesAstList children
  | .not inner => Node.usesAst inner
  | .implies premise conclusion => Node.usesAst premise || Node.usesAst conclusion
  | .require _ => false
  | .verticalLayout layout => layout.domain.containsAst
  | .quantifier _ domain filter => domain.containsAst || Node.usesAst filter

def Node.usesAstList : List Node → Bool
  | [] => false
  | node :: nodes => Node.usesAst node || Node.usesAstList nodes

def Node.usesAstFilter : Option Node → Bool
  | none => false
  | some filter => Node.usesAst filter

def Atom.usesAst : Atom → Bool
  | .mk lhs _ rhs _ _ => LhsExpr.usesAst lhs || Rhs.usesAst rhs

def LhsExpr.usesAst : LhsExpr → Bool
  | .number n => NumberExpr.usesAst n
  | .collection c => c.usesAst
  | .mode e => DomainValueExpr.usesAst e
  | .attr _ | .pairProjection _ | .segmentOf _ _ => false

def Rhs.usesAst : Rhs → Bool
  | .number n => NumberExpr.usesAst n
  | .collection c => c.usesAst
  | _ => false

def NumberExpr.usesAst : NumberExpr → Bool
  | .count domain filter => domain.containsAst || Node.usesAstFilter filter
  | .aggregate _ domain expr _ => domain.containsAst || NumberExpr.usesAst expr
  | .entropy e => DomainValueExpr.usesAst e
  | .size c => c.usesAst
  | .literal _ | .projection _ | .metric _ _ => false

def DomainValueExpr.usesAst : DomainValueExpr → Bool
  | .mk domain expr filter =>
    domain.containsAst || Node.usesAstFilter filter || ValueExpr.usesAst expr

def ValueExpr.usesAst : ValueExpr → Bool
  | .number n => NumberExpr.usesAst n
  | .item | .projection _ => false

end

/-- A rule that does not read the syntax tree, so evaluating it records no error of an
unavailable tree. -/
structure CompiledRule where
  id : String
  explicitId : Bool
  ruleId : String
  root : Node
  severity : RuleSeverity
  noAst : root.usesAst = false

structure CompiledKindRules where
  rules : List CompiledRule
  requireDocForVis : Option String
  requireDocRuleId : Option String

/-- The tables have the order of a hash map. -/
structure CompiledRules where
  byKind : AList fun _ : String => CompiledKindRules
  byShape : AList fun _ : String => CompiledKindRules
  refs : List CompiledRule

def CompiledKindRules.hasExplicitRuleId (rules : CompiledKindRules) (id : String) : Bool :=
  rules.rules.any fun rule => rule.explicitId && rule.id = id

namespace CompiledRules

def forKind (compiled : CompiledRules) (kind : String) : Option CompiledKindRules :=
  compiled.byKind.lookup kind

def forShape (compiled : CompiledRules) (shape : Shape) : Option CompiledKindRules :=
  compiled.byShape.lookup shape.asStr

end CompiledRules

def implicationPremise (rule : CompiledRule) : Option Node :=
  match rule.root with
  | .implies premise _ => some premise
  | _ => none

/-! ## Compiling -/

/-- An entry of a rule section, with its expression parsed. -/
structure RuleEntry where
  id : Option String
  root : Node
  severity : RuleSeverity
  noAst : root.usesAst = false

structure KindRules where
  rules : List RuleEntry
  requireDocComment : Option String

/-- The sections of a configuration that one language reads. -/
structure LangConfig where
  langKinds : AList fun _ : String => KindRules
  defaultKinds : AList fun _ : String => KindRules
  shape : AList fun _ : String => KindRules
  langShape : AList fun _ : String => KindRules
  refs : List RuleEntry
  allowedKinds : List String

def RuleEntry.fallbackId (entry : RuleEntry) (idx : ℕ) : String := entry.id.getD s!"where_{idx}"

def compileRuleEntry (entry : RuleEntry) (id ruleId : String) : CompiledRule where
  id := id
  explicitId := entry.id.isSome
  ruleId := ruleId
  root := entry.root
  severity := entry.severity
  noAst := entry.noAst

def compileEntries (entries : List RuleEntry) (path : String) : List CompiledRule :=
  entries.zipIdx.map fun e =>
    let id := e.1.fallbackId e.2
    compileRuleEntry e.1 id s!"{path}.{id}"

def compileKindRules (rules : KindRules) (sectionName kind : String) : CompiledKindRules where
  rules := compileEntries rules.rules s!"{sectionName}.{kind}"
  requireDocForVis := rules.requireDocComment
  requireDocRuleId := rules.requireDocComment.map fun _ =>
    s!"{sectionName}.{kind}.require_doc_comment"

/-- Only explicit ids replace, and only the first rule that has the id. -/
def mergeRule (base : List CompiledRule) (rule : CompiledRule) : List CompiledRule :=
  match base.findIdx? fun r => rule.explicitId && r.explicitId && r.id = rule.id with
  | some idx => base.set idx rule
  | none => base ++ [rule]

def mergeCompiledKindRules (base ov : CompiledKindRules) : CompiledKindRules where
  rules := ov.rules.foldl mergeRule base.rules
  requireDocForVis := if ov.requireDocForVis.isSome then ov.requireDocForVis
    else base.requireDocForVis
  requireDocRuleId := if ov.requireDocForVis.isSome then ov.requireDocRuleId
    else base.requireDocRuleId

def compileShapeRulesInto (dst : AList fun _ : String => CompiledKindRules)
    (src : AList fun _ : String => KindRules) (sectionName : String) :
    AList fun _ : String => CompiledKindRules :=
  src.entries.foldl (fun dst e =>
    let compiled := compileKindRules e.2 sectionName e.1
    match dst.lookup e.1 with
    | some existing => dst.insert e.1 (mergeCompiledKindRules existing compiled)
    | none => dst.insert e.1 compiled) dst

def compileRulesForLang (cfg : LangConfig) (sectionName : String) : CompiledRules :=
  let own := cfg.langKinds.entries.foldl (fun byKind e =>
    if e.1 = "refs" then byKind else byKind.insert e.1 (compileKindRules e.2 sectionName e.1))
    (∅ : AList fun _ : String => CompiledKindRules)
  let langRefs := cfg.langKinds.lookup "refs"
  { byKind := cfg.defaultKinds.entries.foldl (fun byKind e =>
      if e.1 = "refs" ∨ e.1 ∉ cfg.allowedKinds ∨ (byKind.lookup e.1).isSome then byKind
      else byKind.insert e.1 (compileKindRules e.2 "default" e.1)) own
    byShape := compileShapeRulesInto (compileShapeRulesInto ∅ cfg.shape "shape") cfg.langShape
      s!"{sectionName}.shape"
    refs := compileEntries cfg.refs "refs" ++
      compileEntries ((langRefs.map (·.rules)).getD []) s!"{sectionName}.refs" }

/-! ## Doc comments -/

namespace EvalCtx

variable (ctx : EvalCtx)

/-- Where the comments of the file end, in order. -/
def commentEnds : List ℕ :=
  stableSort id ((ctx.graph.defs.filter fun d => d.kind = byteString "comment").filterMap
    fun d => d.position.map (·.2.toNat))

/-- The first annotation of a definition. -/
def docAnchor (i : ctx.DefIdx) : Option ℕ :=
  ((ctx.refs.filter fun r => (ctx.refAt r).kind = byteString "annotates" ∧ (ctx.refAt r).source = i).filterMap
    fun r => (ctx.refAt r).position.map (·.1.toNat)).min?

def commentAttachesTo (commentEnd headerStart : ℕ) : Bool :=
  if headerStart < commentEnd then false
  else
    let commentLine := (lineRange ctx.source (commentEnd - 1) (commentEnd - 1 + 1)).1
    let headerLine := (lineRange ctx.source headerStart (headerStart + 1)).1
    headerLine = commentLine || headerLine = commentLine + 1

def evalRequireDocComment (i : ctx.DefIdx) (rules : CompiledKindRules) : Option Bool :=
  let d := ctx.defAt i
  match rules.requireDocForVis, d.position with
  | some filter, some (start, _) =>
    if filter ≠ "any" ∧ filter ≠ (fromUtf8 d.visibility).getD "" then none
    else
      let headerStart := (ctx.docAnchor i).elim start.toNat fun anchor => min anchor start.toNat
      -- the comments up to `partition_point`
      match (ctx.commentEnds.takeWhile (· ≤ headerStart)).getLast? with
      | some commentEnd => some (ctx.commentAttachesTo commentEnd headerStart)
      | none => some false
  | _, _ => none

end EvalCtx

def docOutcome : Option Bool → NodeOutcome
  | none => .notApplicable
  | some hasDoc => .ofBool hasDoc

/-! ## Violations -/

inductive Subject (ctx : EvalCtx) where
  | definition (i : ctx.DefIdx)
  | ref (r : ctx.RefIdx)
  deriving DecidableEq

structure RuleViolation (ctx : EvalCtx) where
  ruleId : String
  severity : RuleSeverity
  subject : Subject ctx
  deriving DecidableEq

/-- A failure is a violation. -/
def violationAt {ctx : EvalCtx} (ruleId : String) (severity : RuleSeverity) (subject : Subject ctx) :
    NodeOutcome → List (RuleViolation ctx)
  | .fail => [⟨ruleId, severity, subject⟩]
  | .pass | .notApplicable => []

namespace EvalCtx

variable (ctx : EvalCtx)

def ruleId (kind rule : String) : String := s!"{ctx.configSection}.{kind}.{rule}"

def evalCompiledRule (node : Node) (i : ctx.DefIdx) : NodeOutcome :=
  (Scope.definition i i).evalNode node

def evalRefRule (node : Node) (r : ctx.RefIdx) : NodeOutcome := (Scope.ref r r).evalNode node

/-- A shape rule leaves a definition to the rule of its kind that has the same explicit id. -/
def shapeRuleSkips (kindRules : Option CompiledKindRules) (rule : CompiledRule) : Bool :=
  kindRules.any fun kindRules => rule.explicitId && kindRules.hasExplicitRuleId rule.id

/-- A kind that asks for doc comments itself answers for its definitions. -/
def shapeDocSkips (kindRules : Option CompiledKindRules) : Bool :=
  kindRules.any fun kindRules => kindRules.requireDocForVis.isSome

def kindViolations (i : ctx.DefIdx) (kind : String) (rules : CompiledKindRules) :
    List (RuleViolation ctx) :=
  (rules.rules.flatMap fun rule =>
    violationAt (ctx.ruleId kind rule.id) rule.severity (.definition i)
      (ctx.evalCompiledRule rule.root i)) ++
  violationAt (ctx.ruleId kind "require_doc_comment") .error (.definition i)
    (docOutcome (ctx.evalRequireDocComment i rules))

def shapeViolations (i : ctx.DefIdx) (kindRules : Option CompiledKindRules)
    (rules : CompiledKindRules) : List (RuleViolation ctx) :=
  (rules.rules.flatMap fun rule =>
    if shapeRuleSkips kindRules rule then []
    else violationAt rule.ruleId rule.severity (.definition i)
      (ctx.evalCompiledRule rule.root i)) ++
  match rules.requireDocRuleId with
  | some ruleId =>
    if shapeDocSkips kindRules then []
    else violationAt ruleId .error (.definition i) (docOutcome (ctx.evalRequireDocComment i rules))
  | none => []

def defViolations (compiled : CompiledRules) (i : ctx.DefIdx) : List (RuleViolation ctx) :=
  match fromUtf8 (ctx.defAt i).kind with
  | none => []
  | some kind =>
    let kindRules := compiled.forKind kind
    let shapeRules := (ctx.defAt i).shape.bind compiled.forShape
    kindRules.elim [] (ctx.kindViolations i kind) ++
      shapeRules.elim [] (ctx.shapeViolations i kindRules)

def evaluateWithCtx (compiled : CompiledRules) : List (RuleViolation ctx) :=
  ((List.finRange ctx.graph.defs.length).flatMap (ctx.defViolations compiled)) ++
    ctx.refs.flatMap fun r => compiled.refs.flatMap fun rule =>
      violationAt rule.ruleId rule.severity (.ref r) (ctx.evalRefRule rule.root r)

end EvalCtx

/-! ## Reports -/

def RuleReport.record (report : RuleReport) (outcome : NodeOutcome)
    (premise : Option NodeOutcome) : RuleReport :=
  let report := if premise = some .pass then
      { report with antecedentMatches := some (report.antecedentMatches.getD 0 + 1) }
    else report
  match outcome with
  | .pass =>
    if premise.isNone ∨ premise = some .pass then { report with matched := report.matched + 1 }
    else report
  | .fail => { report with violations := report.violations + 1 }
  | .notApplicable => report

/-- A rule with the subjects it is reported on. -/
structure ReportedRule (ctx : EvalCtx) where
  ruleId : String
  severity : RuleSeverity
  domain : String
  subjects : List (Subject ctx)
  outcome : Subject ctx → NodeOutcome
  premise : Option (Subject ctx → NodeOutcome)

namespace ReportedRule

variable {ctx : EvalCtx}

/-- The report of a rule, one subject after the other. -/
def report (rule : ReportedRule ctx) : RuleReport :=
  rule.subjects.foldl (fun (report : RuleReport) (s : Subject ctx) =>
    { report with evaluated := report.evaluated + 1 }.record (rule.outcome s)
      (rule.premise.map fun (premise : Subject ctx → NodeOutcome) => premise s))
    { ruleId := rule.ruleId, severity := rule.severity, domain := rule.domain, evaluated := 0,
      matched := 0, violations := 0, antecedentMatches := rule.premise.map fun _ => 0 }

/-- The subjects at which a rule has an outcome. -/
def withOutcome (rule : ReportedRule ctx) (outcome : NodeOutcome) : List (Subject ctx) :=
  rule.subjects.filter fun s => rule.outcome s = outcome

def violations (rule : ReportedRule ctx) : List (RuleViolation ctx) :=
  rule.subjects.flatMap fun s => violationAt rule.ruleId rule.severity s (rule.outcome s)

end ReportedRule

namespace EvalCtx

variable (ctx : EvalCtx)

/-- The outcome of an expression at a subject of either kind. -/
def subjectOutcome (node : Node) : Subject ctx → NodeOutcome
  | .definition i => ctx.evalCompiledRule node i
  | .ref r => ctx.evalRefRule node r

def docSubjectOutcome (rules : CompiledKindRules) : Subject ctx → NodeOutcome
  | .definition i => docOutcome (ctx.evalRequireDocComment i rules)
  | .ref _ => .notApplicable

/-- `RuleReport::new` with the subjects of the loop that follows. -/
def reportedRule (ruleId domain : String) (rule : CompiledRule) (subjects : List (Subject ctx)) :
    ReportedRule ctx where
  ruleId := ruleId
  severity := rule.severity
  domain := domain
  subjects := subjects
  outcome := ctx.subjectOutcome rule.root
  premise := (implicationPremise rule).map ctx.subjectOutcome

/-- `RuleReport::new_require_doc` with the subjects of the loop that follows. -/
def reportedDoc (ruleId domain : String) (rules : CompiledKindRules)
    (subjects : List (Subject ctx)) : ReportedRule ctx where
  ruleId := ruleId
  severity := .error
  domain := domain
  subjects := subjects
  outcome := ctx.docSubjectOutcome rules
  premise := none

def defSubjects (p : ctx.DefIdx → Bool) : List (Subject ctx) :=
  ((List.finRange ctx.graph.defs.length).filter p).map .definition

/-- The rules of a kind. -/
def kindReports (kind : String) (rules : CompiledKindRules) : List (ReportedRule ctx) :=
  let subjects := ctx.defSubjects fun i => (ctx.defAt i).kind = byteString kind
  (rules.rules.map fun rule => ctx.reportedRule (ctx.ruleId kind rule.id) kind rule subjects) ++
  if rules.requireDocForVis.isSome then
    [ctx.reportedDoc (ctx.ruleId kind "require_doc_comment") kind rules subjects]
  else []

variable (compiled : CompiledRules)

/-- The definitions of a shape that a rule of the shape is not told to skip. -/
def shapeSubjects (shape : String)
    (skips : Option CompiledKindRules → Bool) : List (Subject ctx) :=
  ctx.defSubjects fun i => defHasShape (ctx.defAt i) shape &&
    (fromUtf8 (ctx.defAt i).kind).any fun kind => !skips (compiled.forKind kind)

def shapeReports (shape : String) (rules : CompiledKindRules) :
    List (ReportedRule ctx) :=
  (rules.rules.map fun rule => ctx.reportedRule rule.ruleId s!"shape:{shape} defs" rule
    (ctx.shapeSubjects compiled shape (shapeRuleSkips · rule))) ++
  match rules.requireDocRuleId with
  | some ruleId =>
    [ctx.reportedDoc ruleId s!"shape:{shape} defs" rules
      (ctx.shapeSubjects compiled shape shapeDocSkips)]
  | none => []

def refReports : List (ReportedRule ctx) :=
  compiled.refs.map fun rule => ctx.reportedRule rule.ruleId "refs" rule (ctx.refs.map .ref)

def reportedRules : List (ReportedRule ctx) :=
  (compiled.byKind.entries.flatMap fun e => ctx.kindReports e.1 e.2) ++
    (compiled.byShape.entries.flatMap fun e => ctx.shapeReports compiled e.1 e.2) ++
    ctx.refReports compiled

def ruleReportsWithCtx : List RuleReport :=
  stableSort (·.ruleId) ((ctx.reportedRules compiled).map (·.report))

end EvalCtx

/-! ## Changing the order of the loops -/

section Loops

variable {α β γ : Type}

theorem flatMap_swap_perm (xs : List α) (ys : List β) (f : α → β → List γ) :
    (xs.flatMap fun x => ys.flatMap (f x)).Perm (ys.flatMap fun y => xs.flatMap (f · y)) := by
  induction xs with
  | nil => simp
  | cons x xs ih =>
    simp only [flatMap_cons]
    exact (ih.append_left _).trans (flatMap_append_perm ys (f x) _)

theorem flatMap_filter (p : α → Bool) (f : α → List β) (xs : List α) :
    (xs.filter p).flatMap f = xs.flatMap fun x => if p x then f x else [] := by
  induction xs with
  | nil => rfl
  | cons x xs ih =>
    simp only [filter_cons, flatMap_cons]
    split_ifs <;> simp [ih]

/-- Looking a key up, and going over the table for it. -/
theorem elim_lookup_eq_flatMap (m : AList fun _ : String => α) (key : String)
    (f : String → α → List β) : (m.lookup key).elim [] (f key) =
      m.entries.flatMap fun e => if e.1 = key then f e.1 e.2 else [] := by
  have hall : ∀ entries : List (Sigma fun _ : String => α), entries.NodupKeys →
      (entries.dlookup key).elim [] (f key) =
        entries.flatMap fun e => if e.1 = key then f e.1 e.2 else [] := by
    intro entries hnodup
    induction entries with
    | nil => rfl
    | cons e entries ih =>
      obtain ⟨k, v⟩ := e
      obtain ⟨hnew, hnodup⟩ := nodupKeys_cons.mp hnodup
      by_cases hk : k = key
      · subst hk
        have hrest : entries.flatMap (fun e => if e.1 = k then f e.1 e.2 else []) = [] := by
          rw [← ih hnodup, dlookup_eq_none.mpr hnew]
          rfl
        rw [dlookup_cons_eq, flatMap_cons, hrest]
        simp
      · rw [dlookup_cons_ne _ _ fun h => hk h.symm, ih hnodup, flatMap_cons, if_neg hk]
        rfl
  exact hall m.entries m.nodupKeys

end Loops

theorem fromUtf8_eq_some_iff {bytes : Utf8.Bytes} {s : String} :
    fromUtf8 bytes = some s ↔ bytes = byteString s := by
  simp only [fromUtf8, Option.map_eq_some_iff, Utf8.decode?_eq_some_iff, byteString]
  constructor
  · rintro ⟨cs, rfl, rfl⟩
    rw [String.toList_ofList]
  · rintro rfl
    exact ⟨s.toList, rfl, String.ofList_toList⟩

namespace ReportedRule

variable {ctx : EvalCtx}

theorem violations_reportedRule (id domain : String) (rule : CompiledRule) (p : ctx.DefIdx → Bool) :
    (ctx.reportedRule id domain rule (ctx.defSubjects p)).violations =
      (finRange ctx.graph.defs.length).flatMap fun i =>
        if p i then violationAt id rule.severity (.definition i) (ctx.evalCompiledRule rule.root i)
        else [] := by
  rw [violations, EvalCtx.reportedRule, EvalCtx.defSubjects, flatMap_map, flatMap_filter]
  rfl

theorem violations_reportedDoc (id domain : String) (rules : CompiledKindRules)
    (p : ctx.DefIdx → Bool) : (ctx.reportedDoc id domain rules (ctx.defSubjects p)).violations =
      (finRange ctx.graph.defs.length).flatMap fun i => if p i then
          violationAt id .error (.definition i) (docOutcome (ctx.evalRequireDocComment i rules))
        else [] := by
  rw [violations, EvalCtx.reportedDoc, EvalCtx.defSubjects, flatMap_map, flatMap_filter]
  rfl

end ReportedRule

/-! ## The two passes agree -/

namespace EvalCtx

variable (ctx : EvalCtx)

theorem evalRequireDocComment_of_isNone {rules : CompiledKindRules}
    (h : rules.requireDocForVis.isSome = false) (i : ctx.DefIdx) :
    ctx.evalRequireDocComment i rules = none := by
  rw [Option.isSome_eq_false_iff, Option.isNone_iff_eq_none] at h
  rw [evalRequireDocComment, h]

theorem kindViolations_perm (kind : String) (rules : CompiledKindRules) :
    ((finRange ctx.graph.defs.length).flatMap fun i =>
      if (ctx.defAt i).kind = byteString kind then ctx.kindViolations i kind rules else []).Perm
      ((ctx.kindReports kind rules).flatMap (·.violations)) := by
  have hsplit : ∀ i, (if (ctx.defAt i).kind = byteString kind then ctx.kindViolations i kind rules
      else []) = (rules.rules.flatMap fun rule =>
        if (ctx.defAt i).kind = byteString kind then violationAt (ctx.ruleId kind rule.id)
          rule.severity (.definition i) (ctx.evalCompiledRule rule.root i) else []) ++
        if (ctx.defAt i).kind = byteString kind then
          violationAt (ctx.ruleId kind "require_doc_comment") .error (.definition i)
            (docOutcome (ctx.evalRequireDocComment i rules)) else [] := by
    intro i
    rw [kindViolations]
    split_ifs <;> simp
  simp only [hsplit]
  refine (flatMap_append_perm _ _ _).symm.trans ?_
  rw [kindReports, flatMap_append, flatMap_map]
  refine Perm.append ?_ ?_
  · simp only [ReportedRule.violations_reportedRule, decide_eq_true_eq]
    exact flatMap_swap_perm _ _ _
  · cases hdoc : rules.requireDocForVis.isSome with
    | true => simp [ReportedRule.violations_reportedDoc]
    | false => simp [ctx.evalRequireDocComment_of_isNone hdoc, docOutcome, violationAt]

variable (compiled : CompiledRules)

/-- A definition of a shape, as the rules of the shape see it. -/
theorem shapeViolations_eq (shape : String) (rules : CompiledKindRules) (i : ctx.DefIdx) :
    (if defHasShape (ctx.defAt i) shape then (fromUtf8 (ctx.defAt i).kind).elim [] fun kind =>
        ctx.shapeViolations i (compiled.forKind kind) rules
      else []) = (rules.rules.flatMap fun rule =>
        if defHasShape (ctx.defAt i) shape && (fromUtf8 (ctx.defAt i).kind).any fun kind =>
            !shapeRuleSkips (compiled.forKind kind) rule then
          violationAt rule.ruleId rule.severity (.definition i) (ctx.evalCompiledRule rule.root i)
        else []) ++ rules.requireDocRuleId.elim [] fun ruleId =>
        if defHasShape (ctx.defAt i) shape && (fromUtf8 (ctx.defAt i).kind).any fun kind =>
            !shapeDocSkips (compiled.forKind kind) then
          violationAt ruleId .error (.definition i) (docOutcome (ctx.evalRequireDocComment i rules))
        else [] := by
  cases defHasShape (ctx.defAt i) shape with
  | false => cases rules.requireDocRuleId <;> simp
  | true =>
    cases fromUtf8 (ctx.defAt i).kind with
    | none => cases rules.requireDocRuleId <;> simp
    | some kind =>
      simp only [if_true, Option.elim_some, Bool.true_and, Option.any_some, shapeViolations,
        Bool.not_eq_true', ← Bool.not_eq_true, ite_not]
      cases rules.requireDocRuleId <;> rfl

theorem shapeViolations_perm (shape : String) (rules : CompiledKindRules) :
    ((finRange ctx.graph.defs.length).flatMap fun i =>
      if defHasShape (ctx.defAt i) shape then (fromUtf8 (ctx.defAt i).kind).elim [] fun kind =>
          ctx.shapeViolations i (compiled.forKind kind) rules
      else []).Perm ((ctx.shapeReports compiled shape rules).flatMap (·.violations)) := by
  simp only [shapeViolations_eq]
  refine (flatMap_append_perm _ _ _).symm.trans ?_
  rw [shapeReports, flatMap_append, flatMap_map]
  refine Perm.append ?_ ?_
  · simp only [shapeSubjects, ReportedRule.violations_reportedRule]
    exact flatMap_swap_perm _ _ _
  · cases rules.requireDocRuleId with
    | none => simp
    | some ruleId =>
      simp only [shapeSubjects, Option.elim_some, flatMap_singleton,
        ReportedRule.violations_reportedDoc]
      exact Perm.refl _

theorem refViolations_perm : (ctx.refs.flatMap fun r => compiled.refs.flatMap fun rule =>
      violationAt rule.ruleId rule.severity (.ref r) (ctx.evalRefRule rule.root r)).Perm
      ((ctx.refReports compiled).flatMap (·.violations)) := by
  refine (flatMap_swap_perm _ _ _).trans ?_
  simp only [refReports, flatMap_map, ReportedRule.violations, reportedRule]
  exact Perm.refl _

/-- At one definition the rules are looked up by its kind and its shape. -/
theorem defViolations_eq (i : ctx.DefIdx) : ctx.defViolations compiled i =
      (compiled.byKind.entries.flatMap fun e =>
        if (ctx.defAt i).kind = byteString e.1 then ctx.kindViolations i e.1 e.2 else []) ++
      compiled.byShape.entries.flatMap fun e =>
        if defHasShape (ctx.defAt i) e.1 then (fromUtf8 (ctx.defAt i).kind).elim [] fun kind =>
            ctx.shapeViolations i (compiled.forKind kind) e.2 else [] := by
  cases hkind : fromUtf8 (ctx.defAt i).kind with
  | none =>
    have hne : ∀ kind, (ctx.defAt i).kind ≠ byteString kind := by
      intro kind h
      rw [fromUtf8_eq_some_iff.mpr h] at hkind
      cases hkind
    rw [defViolations, hkind]
    simp [hne]
  | some kind =>
    have hbytes := fromUtf8_eq_some_iff.mp hkind
    have hkey : ∀ k, (ctx.defAt i).kind = byteString k ↔ k = kind := by
      intro k
      rw [← fromUtf8_eq_some_iff, hkind, Option.some.injEq, eq_comm]
    rw [defViolations, hkind]
    simp only [hkey, Option.elim_some]
    congr 1
    · exact elim_lookup_eq_flatMap compiled.byKind kind (ctx.kindViolations i)
    · cases hshape : (ctx.defAt i).shape with
      | none => simp [defHasShape, hshape]
      | some shape =>
        simp only [defHasShape, hshape, Option.bind_some, Option.any_some, decide_eq_true_eq,
          CompiledRules.forShape]
        simpa only [eq_comm] using elim_lookup_eq_flatMap compiled.byShape shape.asStr
          fun _ rules => ctx.shapeViolations i (compiled.forKind kind) rules

/-- The violations are those of the reported rules, up to order. -/
theorem evaluateWithCtx_perm : (ctx.evaluateWithCtx compiled).Perm
      ((ctx.reportedRules compiled).flatMap (·.violations)) := by
  rw [evaluateWithCtx, reportedRules, flatMap_append, flatMap_append]
  refine Perm.append ?_ (ctx.refViolations_perm compiled)
  rw [funext (ctx.defViolations_eq compiled)]
  refine (flatMap_append_perm _ _ _).symm.trans (Perm.append ?_ ?_)
  · refine (flatMap_swap_perm _ _ _).trans ?_
    rw [flatMap_assoc]
    exact Perm.flatMap_left _ fun e _ => ctx.kindViolations_perm e.1 e.2
  · refine (flatMap_swap_perm _ _ _).trans ?_
    rw [flatMap_assoc]
    exact Perm.flatMap_left _ fun e _ => ctx.shapeViolations_perm compiled e.1 e.2

end EvalCtx

/-! ## What a report counts -/

namespace ReportedRule

variable {ctx : EvalCtx} (rule : ReportedRule ctx)

/-- A pass counts as a match unless the premise of an implication did not pass. -/
def isMatch (s : Subject ctx) : Bool :=
  rule.outcome s = .pass && rule.premise.all fun premise => premise s = .pass

theorem record_counts (report : RuleReport) (s : Subject ctx) :
    let next := report.record (rule.outcome s) (rule.premise.map fun premise => premise s)
    next.ruleId = report.ruleId ∧ next.evaluated = report.evaluated ∧
      next.violations = report.violations + (if rule.outcome s = .fail then 1 else 0) ∧
      next.matched = report.matched + (if rule.isMatch s then 1 else 0) := by
  rw [isMatch]
  rcases rule.premise with _ | premise
  · cases rule.outcome s <;> exact ⟨rfl, rfl, rfl, rfl⟩
  · cases hp : premise s <;> cases rule.outcome s <;> simp [RuleReport.record, hp]

theorem report_counts :
    rule.report.ruleId = rule.ruleId ∧ rule.report.evaluated = rule.subjects.length ∧
      rule.report.violations = (rule.withOutcome .fail).length ∧
      rule.report.matched = (rule.subjects.filter rule.isMatch).length := by
  have hall : ∀ (subjects : List (Subject ctx)) (init : RuleReport),
      let final := subjects.foldl (fun (report : RuleReport) (s : Subject ctx) =>
        { report with evaluated := report.evaluated + 1 }.record (rule.outcome s)
          (rule.premise.map fun (premise : Subject ctx → NodeOutcome) => premise s)) init
      final.ruleId = init.ruleId ∧ final.evaluated = init.evaluated + subjects.length ∧
        final.violations = init.violations +
          (subjects.filter fun s => rule.outcome s = .fail).length ∧
        final.matched = init.matched + (subjects.filter rule.isMatch).length := by
    intro subjects
    induction subjects with
    | nil => exact fun _ => ⟨rfl, rfl, rfl, rfl⟩
    | cons s subjects ih =>
      intro init
      obtain ⟨hid, heval, hviol, hmatch⟩ := ih
        ({ init with evaluated := init.evaluated + 1 }.record (rule.outcome s)
          (rule.premise.map fun (premise : Subject ctx → NodeOutcome) => premise s))
      obtain ⟨hid', heval', hviol', hmatch'⟩ :=
        rule.record_counts { init with evaluated := init.evaluated + 1 } s
      simp only [foldl_cons, filter_cons, length_cons, decide_eq_true_eq]
      refine ⟨hid.trans hid', ?_, ?_, ?_⟩
      · rw [heval, heval']
        change init.evaluated + 1 + subjects.length = _
        omega
      · rw [hviol, hviol']
        split_ifs <;> simp only [length_cons] <;> omega
      · rw [hmatch, hmatch']
        split_ifs <;> simp only [length_cons] <;> omega
  obtain ⟨hid, heval, hviol, hmatch⟩ := hall rule.subjects
    { ruleId := rule.ruleId, severity := rule.severity, domain := rule.domain, evaluated := 0,
      matched := 0, violations := 0, antecedentMatches := rule.premise.map fun _ => 0 }
  exact ⟨hid, heval.trans (Nat.zero_add _), hviol.trans (Nat.zero_add _),
    hmatch.trans (Nat.zero_add _)⟩

theorem subjects_perm :
    (rule.withOutcome .pass ++ rule.withOutcome .fail ++ rule.withOutcome .notApplicable).Perm
      rule.subjects := by
  have hrest := filter_append_perm (fun s => decide (rule.outcome s = .fail))
    (rule.subjects.filter fun s => !decide (rule.outcome s = .pass))
  have hall := filter_append_perm (fun s => decide (rule.outcome s = .pass)) rule.subjects
  refine Perm.trans ?_ ((hrest.append_left _).trans hall)
  rw [append_assoc]
  refine Perm.append_left _ (Perm.append (Perm.of_eq ?_) (Perm.of_eq ?_))
  all_goals
    rw [filter_filter]
    refine filter_congr fun s _ => ?_
    cases rule.outcome s <;> rfl

/-- The violations of a rule carry its id, one for each subject that fails. -/
theorem countP_violations (id : String) : rule.violations.countP (fun v => v.ruleId = id) =
      if rule.ruleId = id then (rule.withOutcome .fail).length else 0 := by
  rw [violations, withOutcome]
  induction rule.subjects with
  | nil => simp
  | cons s subjects ih =>
    rw [flatMap_cons, countP_append, ih, filter_cons]
    cases rule.outcome s <;> simp [violationAt]
    split_ifs <;> omega

end ReportedRule

namespace EvalCtx

variable (ctx : EvalCtx)

theorem nodup_defSubjects (p : ctx.DefIdx → Bool) : (ctx.defSubjects p).Nodup :=
  ((nodup_finRange _).filter _).map fun _ _ h => by
    injection h

theorem nodup_subjects {compiled : CompiledRules} {rule : ReportedRule ctx}
    (h : rule ∈ ctx.reportedRules compiled) : rule.subjects.Nodup := by
  simp only [reportedRules, mem_append, mem_flatMap] at h
  rcases h with (⟨e, -, h⟩ | ⟨e, -, h⟩) | h
  · simp only [kindReports, mem_append, mem_map] at h
    rcases h with ⟨r, -, rfl⟩ | h
    · exact ctx.nodup_defSubjects _
    · split_ifs at h
      · obtain rfl := mem_singleton.mp h
        exact ctx.nodup_defSubjects _
      · cases h
  · simp only [shapeReports, mem_append, mem_map] at h
    rcases h with ⟨r, -, rfl⟩ | h
    · exact ctx.nodup_defSubjects _
    · split at h
      · obtain rfl := mem_singleton.mp h
        exact ctx.nodup_defSubjects _
      · cases h
  · simp only [refReports, mem_map] at h
    obtain ⟨r, -, rfl⟩ := h
    exact (nodup_finRange _).map fun _ _ h => by injection h

/-- The reports and the violations of a file agree. For each rule id, the violation counts of
the reports with that id add up to the number of violations emitted with it. The reports are
those of the reported rules and the violations are their failing subjects, up to order. The
subjects of a rule are distinct, all of them are evaluated, and they are those that pass, those
that fail and those to which the rule does not apply; the failing ones are the violations of its
report. -/
theorem reports_account_for_violations (compiled : CompiledRules) : (∀ id : String,
      (((ctx.ruleReportsWithCtx compiled).filter (·.ruleId = id)).map (·.violations)).sum =
        ((ctx.evaluateWithCtx compiled).filter (·.ruleId = id)).length) ∧
      (ctx.ruleReportsWithCtx compiled).Perm ((ctx.reportedRules compiled).map (·.report)) ∧
      (ctx.evaluateWithCtx compiled).Perm ((ctx.reportedRules compiled).flatMap (·.violations)) ∧
      ∀ rule ∈ ctx.reportedRules compiled, rule.subjects.Nodup ∧
        rule.report.evaluated = rule.subjects.length ∧
        rule.report.violations = (rule.withOutcome .fail).length ∧
        rule.report.matched = (rule.subjects.filter rule.isMatch).length ∧
        (rule.withOutcome .pass ++ rule.withOutcome .fail ++
          rule.withOutcome .notApplicable).Perm rule.subjects := by
  have hreports : (ctx.ruleReportsWithCtx compiled).Perm
      ((ctx.reportedRules compiled).map (·.report)) := perm_insertionSort _ _
  refine ⟨fun id => ?_, hreports, ctx.evaluateWithCtx_perm compiled, fun rule hrule => ?_⟩
  · rw [← countP_eq_length_filter, (ctx.evaluateWithCtx_perm compiled).countP_eq,
      countP_flatMap, ((hreports.filter _).map _).sum_eq]
    induction ctx.reportedRules compiled with
    | nil => rfl
    | cons rule rules ih =>
      obtain ⟨hid, -, hviol, -⟩ := rule.report_counts
      simp only [map_cons, filter_cons, sum_cons, Function.comp_apply,
        rule.countP_violations, hid, decide_eq_true_eq]
      split_ifs
      · rw [map_cons, sum_cons, ih, hviol]
      · rw [ih, Nat.zero_add]
  · obtain ⟨-, heval, hviol, hmatch⟩ := rule.report_counts
    exact ⟨ctx.nodup_subjects hrule, heval, hviol, hmatch, rule.subjects_perm⟩

end EvalCtx

/-! ## Two rules with one id -/

/-- The rule `named` : modules have the given name. -/
def namedEntry (name : String) : RuleEntry where
  id := some "named"
  root := .atom (.mk (.attr .name) .eq (.str name) "name" none)
  severity := .error
  noAst := rfl

/-- A section for modules that gives two rules the id `named`. -/
def twiceNamed : LangConfig where
  langKinds := AList.singleton "module" ⟨[namedEntry "util", namedEntry "main"], none⟩
  defaultKinds := ∅
  shape := ∅
  langShape := ∅
  refs := []
  allowedKinds := ["module"]

/-- The module `util` passes the one rule and fails the other. The report of the first counts no
violation, but one is emitted with its id. -/
theorem EvalCtx.reports_twiceNamed :
    (callsLogCtx.ruleReportsWithCtx (compileRulesForLang twiceNamed "rust")).map
        (fun report => (report.ruleId, report.violations)) =
        [("rust.module.named", 0), ("rust.module.named", 1)] ∧
      ((callsLogCtx.evaluateWithCtx (compileRulesForLang twiceNamed "rust")).filter
        (·.ruleId = "rust.module.named")).length = 1 := by
  decide +kernel

end CodeMoniker
