import CodeMoniker.Pagination
import CodeMoniker.QueryFields

/-!
# Requests of the query language

A request is built from the bag of a text (`parseQuery`), or comes from a client as it is. The
limits of a request are checked in both cases, by `buildQuery` while it is built and by
`validateQueryRequest` before it is served.
-/

set_option linter.dupNamespace false

namespace CodeMoniker.Query

open Fragments (trimChars)

def syntaxTreeDefaultMaxDepth : ℕ := 6

def syntaxTreeDefaultMaxNodes : ℕ := 100

def syntaxTreeDefaultMaxTextChars : ℕ := 80

def maxGraphDepth : ℕ := 64

def maxGraphSymbols : ℕ := 100000

def maxGraphEdges : ℕ := 500000

def maxGraphScopeValues : ℕ := 16

def maxGraphScopeValueChars : ℕ := 256

def maxGraphRelations : ℕ := 16

def maxGraphRelationChars : ℕ := 64

def maxBoundedResultItems : ℕ := 500

def defaultChangeContextItems : ℕ := 20

def maxChangeContextItems : ℕ := 100

/-! ## The requests -/

/-- The texts of a request. -/
abbrev Text := List Char

def UsageDirection.fromStr (value : Text) : Except QueryParseError UsageDirection :=
  match String.ofList value with
  | "incoming" => .ok .incoming
  | "outgoing" => .ok .outgoing
  | "both" => .ok .both
  | _ => .error (.invalidValue "direction".toList value)

inductive GraphPathExpectation
  | reachable
  | noPath
  deriving DecidableEq, Repr

def GraphPathExpectation.fromStr (value : Text) : Except QueryParseError GraphPathExpectation :=
  match String.ofList value with
  | "reachable" => .ok .reachable
  | "no_path" => .ok .noPath
  | _ => .error (.invalidValue "expect".toList value)

inductive NotesAction
  | list
  | get
  | create
  | update
  | transition
  | delete
  deriving DecidableEq, Repr

def parseNotesAction (value : Text) : Except QueryParseError NotesAction :=
  match String.ofList value with
  | "list" => .ok .list
  | "get" => .ok .get
  | "create" => .ok .create
  | "update" => .ok .update
  | "transition" => .ok .transition
  | "delete" => .ok .delete
  | _ => .error (.invalidValue "action".toList value)

structure QueryDescribeQuery where
  verb : Option Text
  deriving DecidableEq

structure TreeChildrenQuery where
  workspace : Option Text
  path : List Text
  depth : ℕ
  lang : List Text
  projection : List Text
  deriving DecidableEq

structure SymbolSearchQuery where
  workspace : Option Text
  text : Option Text
  path : List Text
  lang : List Text
  kind : List Text
  shape : List Text
  name : Option Text
  includeNonNavigable : Bool
  includeCode : Bool
  contextLines : ℕ
  projection : List Text
  deriving DecidableEq

structure SymbolDetailQuery where
  workspace : Option Text
  uri : Text
  contextLines : ℕ
  deriving DecidableEq

structure SyntaxTreeQuery where
  workspace : Option Text
  focus : Text
  maxDepth : ℕ
  maxNodes : ℕ
  namedOnly : Bool
  includeText : Bool
  maxTextChars : ℕ
  deriving DecidableEq

structure SyntaxParseQuery where
  language : Text
  source : Text
  uri : Option Text
  maxDepth : ℕ
  maxNodes : ℕ
  namedOnly : Bool
  includeText : Bool
  maxTextChars : ℕ
  deriving DecidableEq

structure SymbolUsagesQuery where
  workspace : Option Text
  uri : Text
  direction : UsageDirection
  path : List Text
  lang : List Text
  includeDescendants : Bool
  projection : List Text
  deriving DecidableEq

structure ViewReadQuery where
  uri : Text
  scheme : Option Text
  contextLines : ℕ
  includeCode : Bool
  deriving DecidableEq

structure RulesListQuery where
  workspace : Option Text
  profile : Option Text
  rules : Option Text
  lang : List Text
  severity : List Text
  deriving DecidableEq

structure RulesCheckQuery where
  inlineRules : List Text
  workspace : Option Text
  profile : Option Text
  rules : Option Text
  file : List Text
  report : Bool
  deriving DecidableEq

structure RulesApplicableQuery where
  workspace : Option Text
  focus : Text
  profile : Option Text
  rules : Option Text
  deriving DecidableEq

structure ChangeReviewQuery where
  workspace : Option Text
  deriving DecidableEq

structure ChangeContextQuery where
  workspace : Option Text
  focus : Text
  profile : Option Text
  maxItems : ℕ
  deriving DecidableEq

structure SymbolGraphQuery where
  workspace : Option Text
  focus : Text
  direction : UsageDirection
  relation : List Text
  minCount : ℕ
  includeInternal : Bool
  limit : ℕ
  deriving DecidableEq

structure GraphLimits where
  maxDepth : ℕ
  maxSymbols : ℕ
  maxEdges : ℕ
  minCoverage : ℕ
  deriving DecidableEq

structure GraphPathQuery where
  workspace : Option Text
  from_ : Text
  to_ : Text
  expect : GraphPathExpectation
  relation : List Text
  maxDepth : ℕ
  maxSymbols : ℕ
  maxEdges : ℕ
  minCoverage : ℕ
  deriving DecidableEq

def GraphPathQuery.limits (query : GraphPathQuery) : GraphLimits :=
  ⟨query.maxDepth, query.maxSymbols, query.maxEdges, query.minCoverage⟩

structure GraphSymbolScope where
  path : List Text
  lang : List Text
  kind : List Text
  shape : List Text
  srcset : List Text
  deriving DecidableEq

structure GraphCorridorQuery where
  workspace : Option Text
  from_ : Text
  to_ : Text
  scope : GraphSymbolScope
  relation : List Text
  maxDepth : ℕ
  maxSymbols : ℕ
  maxEdges : ℕ
  minCoverage : ℕ
  deriving DecidableEq

def GraphCorridorQuery.limits (query : GraphCorridorQuery) : GraphLimits :=
  ⟨query.maxDepth, query.maxSymbols, query.maxEdges, query.minCoverage⟩

structure IdentityChildrenQuery where
  workspace : Option Text
  prefix_ : Text
  limit : ℕ
  deriving DecidableEq

structure IdentityGraphQuery where
  workspace : Option Text
  prefix_ : Text
  path : List Text
  minCount : ℕ
  deriving DecidableEq

structure MetricsCouplingQuery where
  workspace : Option Text
  from_ : Text
  to_ : Text
  relation : List Text
  snapshot : Option Text
  export_ : Bool
  deriving DecidableEq

structure ResolutionAuditQuery where
  workspace : Option Text
  prefix_ : Text
  limit : ℕ
  cluster : Option Text
  deriving DecidableEq

structure NotesQuery where
  action : NotesAction
  id : Option Text
  moniker : Option Text
  kind : Option Text
  status : Option Text
  title : Option Text
  body : Option Text
  createdBy : Option Text
  orphan : Option Bool
  includeDone : Bool
  deriving DecidableEq

/-- The requests that a text can make. -/
inductive Query
  | queryDescribe (query : QueryDescribeQuery)
  | workspaceStatus
  | treeChildren (query : TreeChildrenQuery)
  | symbolSearch (query : SymbolSearchQuery)
  | symbolInsights (query : SymbolSearchQuery)
  | symbolDetail (query : SymbolDetailQuery)
  | syntaxTree (query : SyntaxTreeQuery)
  | syntaxParse (query : SyntaxParseQuery)
  | symbolUsages (query : SymbolUsagesQuery)
  | viewRead (query : ViewReadQuery)
  | rulesList (query : RulesListQuery)
  | rulesCheck (query : RulesCheckQuery)
  | rulesApplicable (query : RulesApplicableQuery)
  | changeReview (query : ChangeReviewQuery)
  | changeContext (query : ChangeContextQuery)
  | symbolGraph (query : SymbolGraphQuery)
  | graphPath (query : GraphPathQuery)
  | graphCorridor (query : GraphCorridorQuery)
  | identityChildren (query : IdentityChildrenQuery)
  | identityGraph (query : IdentityGraphQuery)
  | metricsCoupling (query : MetricsCouplingQuery)
  | resolutionAudit (query : ResolutionAuditQuery)
  | notes (query : NotesQuery)
  deriving DecidableEq

def Query.capability : Query → String
  | queryDescribe _ => "query.describe"
  | workspaceStatus => "workspace.status"
  | treeChildren _ => "tree.children"
  | symbolSearch _ => "symbol.search"
  | symbolInsights _ => "symbol.insights"
  | symbolDetail _ => "symbol.detail"
  | syntaxTree _ => "syntax.tree"
  | syntaxParse _ => "syntax.parse"
  | symbolUsages _ => "symbol.usages"
  | viewRead _ => "view.read"
  | rulesList _ => "rules.list"
  | rulesCheck _ => "rules.check"
  | rulesApplicable _ => "rules.applicable"
  | changeReview _ => "change.review"
  | changeContext _ => "change.context"
  | symbolGraph _ => "symbol.graph"
  | graphPath _ => "graph.path"
  | graphCorridor _ => "graph.corridor"
  | identityChildren _ => "identity.children"
  | identityGraph _ => "identity.graph"
  | metricsCoupling _ => "metrics.coupling"
  | resolutionAudit _ => "resolution.audit"
  | notes _ => "notes"

structure QueryRequest where
  query : Query
  consistency : Consistency
  page : Page
  deriving DecidableEq

/-! ## Checks of a request -/

structure GraphLimitError where
  field : String
  value : ℕ
  deriving DecidableEq

def GraphLimits.validate (limits : GraphLimits) : Except GraphLimitError Unit :=
  if ¬ limits.maxDepth ≤ maxGraphDepth then .error ⟨"max_depth", limits.maxDepth⟩
  else if ¬ (1 ≤ limits.maxSymbols ∧ limits.maxSymbols ≤ maxGraphSymbols) then
    .error ⟨"max_symbols", limits.maxSymbols⟩
  else if ¬ (1 ≤ limits.maxEdges ∧ limits.maxEdges ≤ maxGraphEdges) then
    .error ⟨"max_edges", limits.maxEdges⟩
  else if ¬ limits.minCoverage ≤ 100 then .error ⟨"min_coverage", limits.minCoverage⟩
  else .ok ()

structure GraphScopeError where
  code : String
  field : String
  message : String
  deriving DecidableEq

def validateScopeValues (code field : String) (values : List Text) (maxValues maxChars : ℕ) :
    Except GraphScopeError Unit :=
  if values.length > maxValues then .error ⟨code, field, "too many values in this facet"⟩
  else if values.any fun value => trimChars value = [] ∨ value.length > maxChars then
    .error ⟨code, field, "values must be non-empty and within the supported size bound"⟩
  else .ok ()

def validateRelations (relations : List Text) : Except GraphScopeError Unit :=
  if relations = [] then
    .error ⟨"invalid_graph_relations", "relation", "at least one relation is required"⟩
  else
    validateScopeValues "invalid_graph_relations" "relation" relations maxGraphRelations
      maxGraphRelationChars

namespace GraphSymbolScope

def isEmpty (scope : GraphSymbolScope) : Bool :=
  scope.path.isEmpty && scope.lang.isEmpty && scope.kind.isEmpty && scope.shape.isEmpty &&
    scope.srcset.isEmpty

def facets (scope : GraphSymbolScope) : List (String × List Text) :=
  [("path", scope.path), ("lang", scope.lang), ("kind", scope.kind), ("shape", scope.shape),
    ("srcset", scope.srcset)]

end GraphSymbolScope

def GraphCorridorQuery.validateScope (query : GraphCorridorQuery) :
    Except GraphScopeError Unit := do
  validateRelations query.relation
  if query.scope.isEmpty then
    .error ⟨"invalid_graph_scope", "scope",
      "at least one semantic scope is required: path, lang, kind, shape, or srcset"⟩
  query.scope.facets.forM fun facet =>
    validateScopeValues "invalid_graph_scope" facet.1 facet.2 maxGraphScopeValues
      maxGraphScopeValueChars

/-- An error of a scope as the error of a request. -/
def GraphScopeError.toQueryError (error : GraphScopeError) (missing : Bool) : QueryError :=
  ⟨if missing then "missing_required" else error.code, error.field ++ ": " ++ error.message⟩

def boundedResultError (operation : String) (limit : ℕ) : QueryError :=
  ⟨"invalid_result_limit", operation ++ " limit=" ++ toString limit ++ " is outside 1..=" ++
    toString maxBoundedResultItems⟩

def validateGraphLimits (limits : GraphLimits) : Except QueryError Unit :=
  limits.validate.mapError fun error => ⟨"invalid_graph_limits", error.field ++ "=" ++
    toString error.value ++ " is outside the supported graph bounds"⟩

def validateCorridorPage (page : Page) : Except QueryError Unit :=
  if page.cursor.isSome then
    .error ⟨"graph_corridor_not_paginated", "graph.corridor is stateless and returns one " ++
      "complete bounded result; narrow its semantic scope or bounds instead of using a cursor"⟩
  else if page.limit ≠ ({} : Page).limit then
    .error ⟨"graph_corridor_not_paginated", "graph.corridor does not accept a page limit; " ++
      "narrow its semantic scope or graph bounds instead"⟩
  else .ok ()

/-- The bounds of a query, checked before it runs. -/
def validateQueryRequest (request : QueryRequest) : Except QueryError Unit :=
  match request.query with
  | .symbolGraph query =>
    if ¬ (1 ≤ query.limit ∧ query.limit ≤ maxBoundedResultItems) then
      .error (boundedResultError "symbol.graph" query.limit)
    else .ok ()
  | .identityChildren query =>
    if ¬ (1 ≤ query.limit ∧ query.limit ≤ maxBoundedResultItems) then
      .error (boundedResultError "identity.children" query.limit)
    else .ok ()
  | .changeContext query =>
    if ¬ (1 ≤ query.maxItems ∧ query.maxItems ≤ maxChangeContextItems) then
      .error ⟨"invalid_result_limit", "change.context max_items=" ++ toString query.maxItems ++
        " is outside 1..=" ++ toString maxChangeContextItems⟩
    else .ok ()
  | .graphPath query => do
    validateGraphLimits query.limits
    (validateRelations query.relation).mapError (·.toQueryError query.relation.isEmpty)
  | .graphCorridor query => do
    validateGraphLimits query.limits
    query.validateScope.mapError fun error =>
      error.toQueryError (error.message.startsWith "at least one")
    validateCorridorPage request.page
  | _ => .ok ()

def QueryRequest.validate (request : QueryRequest) : Except QueryError Unit :=
  validateQueryRequest request

/-! ## Building a request -/

section Build

variable (fields : FieldBag)

def required (key : String) (value : Option Text) : Except QueryParseError Text :=
  match value with
  | some value => .ok value
  | none => .error (.missingRequired key.toList)

/-- The named value of a field, or else the positional argument. -/
def oneOrPositional (key : String) : Option Text := (fields.one key).or fields.positional.head?

def symbolSearchQuery : Except QueryParseError SymbolSearchQuery := do
  let includeNonNavigable ← fields.bool "include_non_navigable"
  let includeCode ← fields.bool "include_code"
  let contextLines ← fields.usize "context_lines"
  return {
    workspace := fields.one "workspace"
    text := fields.positional.head?
    path := fields.many "path"
    lang := fields.many "lang"
    kind := fields.many "kind"
    shape := fields.many "shape"
    name := fields.one "name"
    includeNonNavigable := includeNonNavigable.getD false
    includeCode := includeCode.getD false
    contextLines := contextLines.getD 0
    projection := fields.projection }

def symbolInsightsQuery : Except QueryParseError SymbolSearchQuery := do
  let query ← symbolSearchQuery fields
  return { query with text := none, includeCode := false, contextLines := 0 }

def symbolUsagesQuery : Except QueryParseError SymbolUsagesQuery := do
  let uri ← required "uri" (oneOrPositional fields "uri")
  let direction ← UsageDirection.fromStr ((fields.one "direction").getD "incoming".toList)
  let includeDescendants ← fields.bool "include_descendants"
  return {
    workspace := fields.one "workspace"
    uri
    direction
    path := fields.many "path"
    lang := fields.many "lang"
    includeDescendants := includeDescendants.getD false
    projection := fields.projection }

def syntaxTreeQuery : Except QueryParseError SyntaxTreeQuery := do
  let focus ← required "focus" (oneOrPositional fields "focus")
  let maxDepth ← fields.usize "max_depth"
  let maxNodes ← fields.usize "max_nodes"
  let namedOnly ← fields.bool "named_only"
  let includeText ← fields.bool "include_text"
  let maxTextChars ← fields.usize "max_text_chars"
  return {
    workspace := fields.one "workspace"
    focus
    maxDepth := maxDepth.getD syntaxTreeDefaultMaxDepth
    maxNodes := maxNodes.getD syntaxTreeDefaultMaxNodes
    namedOnly := namedOnly.getD true
    includeText := includeText.getD false
    maxTextChars := maxTextChars.getD syntaxTreeDefaultMaxTextChars }

def syntaxParseQuery : Except QueryParseError SyntaxParseQuery := do
  let language ← required "language" (fields.one "language")
  let source ← required "source" (fields.one "source")
  let maxDepth ← fields.usize "max_depth"
  let maxNodes ← fields.usize "max_nodes"
  let namedOnly ← fields.bool "named_only"
  let includeText ← fields.bool "include_text"
  let maxTextChars ← fields.usize "max_text_chars"
  return {
    language
    source
    uri := fields.one "uri"
    maxDepth := maxDepth.getD syntaxTreeDefaultMaxDepth
    maxNodes := maxNodes.getD syntaxTreeDefaultMaxNodes
    namedOnly := namedOnly.getD true
    includeText := includeText.getD false
    maxTextChars := maxTextChars.getD syntaxTreeDefaultMaxTextChars }

def notesQuery : Except QueryParseError NotesQuery := do
  let action ← parseNotesAction ((fields.one "action").getD "list".toList)
  let orphan ← fields.bool "orphan"
  let includeDone ← fields.bool "include_done"
  return {
    action
    id := fields.one "id"
    moniker := fields.one "moniker"
    kind := fields.one "kind"
    status := fields.one "status"
    title := fields.one "title"
    body := fields.one "body"
    createdBy := fields.one "created_by"
    orphan
    includeDone := includeDone.getD false }

def validateBoundedResultLimit (operation : String) (limit : ℕ) : Except QueryParseError Unit :=
  if 1 ≤ limit ∧ limit ≤ maxBoundedResultItems then .ok ()
  else
    .error (.invalidValue "limit".toList (toString limit ++ " is outside " ++ operation ++
      "'s supported range 1..=" ++ toString maxBoundedResultItems).toList)

def validateChangeContextItems (maxItems : ℕ) : Except QueryParseError Unit :=
  if 1 ≤ maxItems ∧ maxItems ≤ maxChangeContextItems then .ok ()
  else
    .error (.invalidValue "max_items".toList (toString maxItems ++
      " is outside change.context's supported range 1..=" ++
        toString maxChangeContextItems).toList)

def identityChildrenQuery : Except QueryParseError IdentityChildrenQuery := do
  let limit := (← fields.usize "limit").getD 80
  validateBoundedResultLimit "identity.children" limit
  return {
    workspace := fields.one "workspace"
    prefix_ := (oneOrPositional fields "prefix").getD []
    limit }

def identityGraphQuery : Except QueryParseError IdentityGraphQuery := do
  let minCount ← fields.usize "min_count"
  return {
    workspace := fields.one "workspace"
    prefix_ := (oneOrPositional fields "prefix").getD []
    path := fields.many "path"
    minCount := max (minCount.getD 1) 1 }

def symbolGraphQuery : Except QueryParseError SymbolGraphQuery := do
  let focus ← required "focus" (oneOrPositional fields "focus")
  let direction ← UsageDirection.fromStr ((fields.one "direction").getD "both".toList)
  let minCount ← fields.usize "min_count"
  let includeInternal ← fields.bool "include_internal"
  let limit := (← fields.usize "limit").getD 40
  validateBoundedResultLimit "symbol.graph" limit
  return {
    workspace := fields.one "workspace"
    focus
    direction
    relation := fields.many "relation"
    minCount := max (minCount.getD 1) 1
    includeInternal := includeInternal.getD true
    limit }

def changeContextQuery : Except QueryParseError ChangeContextQuery := do
  let maxItems := (← fields.usize "max_items").getD defaultChangeContextItems
  validateChangeContextItems maxItems
  let focus ← required "focus" (oneOrPositional fields "focus")
  return {
    workspace := fields.one "workspace"
    focus
    profile := fields.one "profile"
    maxItems }

def validateGraphQuery (limits : GraphLimits) : Except QueryParseError Unit :=
  limits.validate.mapError fun error =>
    .invalidValue error.field.toList (toString error.value).toList

def graphPathQuery : Except QueryParseError GraphPathQuery := do
  let maxDepth ← fields.usize "max_depth"
  let minCoverage ← fields.usize "min_coverage"
  let maxSymbols ← fields.usize "max_symbols"
  let maxEdges ← fields.usize "max_edges"
  let relation := fields.many "relation"
  let from_ ← required "from" (fields.one "from")
  let to_ ← required "to" (fields.one "to")
  let expect ← GraphPathExpectation.fromStr ((fields.one "expect").getD "reachable".toList)
  let query : GraphPathQuery := {
    workspace := fields.one "workspace"
    from_
    to_
    expect
    relation := if relation = [] then ["calls".toList, "method_call".toList] else relation
    maxDepth := maxDepth.getD 12
    maxSymbols := maxSymbols.getD 10000
    maxEdges := maxEdges.getD 50000
    minCoverage := minCoverage.getD 100 }
  validateGraphQuery query.limits
  (validateRelations query.relation).mapError fun error =>
    .invalidValue error.field.toList error.message.toList
  return query

def graphCorridorQuery : Except QueryParseError GraphCorridorQuery := do
  let maxDepth ← fields.usize "max_depth"
  let minCoverage ← fields.usize "min_coverage"
  let maxSymbols ← fields.usize "max_symbols"
  let maxEdges ← fields.usize "max_edges"
  let from_ ← required "from" (fields.one "from")
  let to_ ← required "to" (fields.one "to")
  let query : GraphCorridorQuery := {
    workspace := fields.one "workspace"
    from_
    to_
    scope := {
      path := fields.many "path"
      lang := fields.many "lang"
      kind := fields.many "kind"
      shape := fields.many "shape"
      srcset := fields.many "srcset" }
    relation := fields.many "relation"
    maxDepth := maxDepth.getD 12
    maxSymbols := maxSymbols.getD 256
    maxEdges := maxEdges.getD 1024
    minCoverage := minCoverage.getD 100 }
  validateGraphQuery query.limits
  query.validateScope.mapError fun error =>
    if error.message.startsWith "at least one" then .missingSemanticScope
    else .invalidValue error.field.toList error.message.toList
  return query

def treeChildrenQuery : Except QueryParseError TreeChildrenQuery := do
  let depth ← fields.usize "depth"
  return {
    workspace := fields.one "workspace"
    path := fields.many "path"
    depth := depth.getD 1
    lang := fields.many "lang"
    projection := fields.projection }

def symbolDetailQuery : Except QueryParseError SymbolDetailQuery := do
  let uri ← required "uri" (oneOrPositional fields "uri")
  let contextLines ← fields.usize "context_lines"
  return { workspace := fields.one "workspace", uri, contextLines := contextLines.getD 2 }

def viewReadQuery : Except QueryParseError ViewReadQuery := do
  let uri ← required "uri" (oneOrPositional fields "uri")
  let contextLines ← fields.usize "context_lines"
  let includeCode ← fields.bool "include_code"
  return {
    uri
    scheme := fields.one "scheme"
    contextLines := contextLines.getD 2
    includeCode := includeCode.getD false }

def rulesListQuery : RulesListQuery where
  workspace := fields.one "workspace"
  profile := fields.one "profile"
  rules := fields.one "rules"
  lang := fields.many "lang"
  severity := fields.many "severity"

def rulesCheckQuery : Except QueryParseError RulesCheckQuery := do
  let report ← fields.bool "report"
  return {
    inlineRules := fields.many "inline_rules"
    workspace := fields.one "workspace"
    profile := fields.one "profile"
    rules := fields.one "rules"
    file := fields.many "file"
    report := report.getD true }

def rulesApplicableQuery : Except QueryParseError RulesApplicableQuery := do
  let focus ← required "focus" (oneOrPositional fields "focus")
  return {
    workspace := fields.one "workspace"
    focus
    profile := fields.one "profile"
    rules := fields.one "rules" }

def metricsCouplingQuery : Except QueryParseError MetricsCouplingQuery := do
  let from_ ← required "from" (fields.one "from")
  let to_ ← required "to" (fields.one "to")
  let export_ ← fields.bool "export"
  return {
    workspace := fields.one "workspace"
    from_
    to_
    relation := fields.many "relation"
    snapshot := fields.one "snapshot"
    export_ := export_.getD false }

def resolutionAuditQuery : Except QueryParseError ResolutionAuditQuery := do
  let limit ← fields.usize "limit"
  return {
    workspace := fields.one "workspace"
    prefix_ := (oneOrPositional fields "prefix").getD []
    limit := limit.getD 20
    cluster := fields.one "cluster" }

/-- The query of an operation, from its fields. -/
def buildQuery (op : String) : Except QueryParseError Query :=
  match op with
  | "query.describe" => .ok (.queryDescribe ⟨oneOrPositional fields "verb"⟩)
  | "workspace.status" => .ok .workspaceStatus
  | "tree.children" => .treeChildren <$> treeChildrenQuery fields
  | "symbol.search" => .symbolSearch <$> symbolSearchQuery fields
  | "symbol.insights" => .symbolInsights <$> symbolInsightsQuery fields
  | "symbol.detail" => .symbolDetail <$> symbolDetailQuery fields
  | "syntax.tree" => .syntaxTree <$> syntaxTreeQuery fields
  | "syntax.parse" => .syntaxParse <$> syntaxParseQuery fields
  | "symbol.usages" => .symbolUsages <$> symbolUsagesQuery fields
  | "view.read" => .viewRead <$> viewReadQuery fields
  | "rules.list" => .ok (.rulesList (rulesListQuery fields))
  | "rules.check" => .rulesCheck <$> rulesCheckQuery fields
  | "rules.applicable" => .rulesApplicable <$> rulesApplicableQuery fields
  | "change.review" => .ok (.changeReview ⟨fields.one "workspace"⟩)
  | "change.context" => .changeContext <$> changeContextQuery fields
  | "symbol.graph" => .symbolGraph <$> symbolGraphQuery fields
  | "graph.path" => .graphPath <$> graphPathQuery fields
  | "graph.corridor" => .graphCorridor <$> graphCorridorQuery fields
  | "identity.children" => .identityChildren <$> identityChildrenQuery fields
  | "identity.graph" => .identityGraph <$> identityGraphQuery fields
  | "metrics.coupling" => .metricsCoupling <$> metricsCouplingQuery fields
  | "resolution.audit" => .resolutionAudit <$> resolutionAuditQuery fields
  | "notes" => .notes <$> notesQuery fields
  | _ => .error (.unknownOperation op.toList)

end Build

/-- The request of a verb and its bag. -/
def requestOf (op : String) (fields : FieldBag) : Except QueryParseError QueryRequest := do
  match queryCapabilitySpec op with
  | none => .error (.unknownOperation op.toList)
  | some spec =>
    let fields := normalizeFieldAliases spec fields
    validateFields op spec fields
    let consistency ← fields.readConsistency
    let page ← fields.page
    let query ← buildQuery fields op
    return ⟨query, consistency, page⟩

def parseQuery (input : Text) : Except QueryParseError QueryRequest := do
  let (op, fields) ← collectText input
  requestOf op fields

end CodeMoniker.Query
