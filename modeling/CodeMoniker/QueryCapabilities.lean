import CodeMoniker.QueryText

/-!
# What each verb of a query takes

Each verb of the query language has a specification : the fields that it takes, those that it
requires, how many positional arguments it takes, whether it takes a projection and whether it
is paginated. A field that a verb does not take is refused with the nearest field that it does.
-/

namespace CodeMoniker.Query

structure QueryCapabilitySpec where
  name : String
  fields : List String
  requiredFields : List String := []
  positionals : ℕ := 0
  projection : Bool := false
  paginated : Bool := false
  deriving DecidableEq

def alwaysRequestFields : List String := ["consistency"]

def paginationFields : List String := ["limit", "cursor"]

def boundedResultFields : List String := ["limit"]

def queryCapabilitySpecs : List QueryCapabilitySpec :=
  [{ name := "query.describe"
     fields := ["verb"]
     positionals := 1 },
   { name := "workspace.status"
     fields := [] },
   { name := "tree.children"
     fields := ["workspace", "path", "depth", "lang"]
     projection := true
     paginated := true },
   { name := "symbol.search"
     fields := ["workspace", "path", "lang", "kind", "shape", "name", "include_non_navigable",
       "include_code", "context_lines"]
     positionals := 1
     projection := true
     paginated := true },
   { name := "symbol.insights"
     fields := ["workspace", "path", "lang", "kind", "shape", "name", "include_non_navigable"]
     projection := true },
   { name := "symbol.detail"
     fields := ["workspace", "uri", "context_lines"]
     requiredFields := ["uri"]
     positionals := 1 },
   { name := "syntax.tree"
     fields := ["workspace", "focus", "max_depth", "max_nodes", "named_only", "include_text",
       "max_text_chars"]
     requiredFields := ["focus"]
     positionals := 1 },
   { name := "syntax.parse"
     fields := ["language", "source", "uri", "max_depth", "max_nodes", "named_only",
       "include_text", "max_text_chars"]
     requiredFields := ["language", "source"] },
   { name := "symbol.usages"
     fields := ["workspace", "uri", "direction", "path", "lang", "include_descendants"]
     requiredFields := ["uri"]
     positionals := 1
     projection := true
     paginated := true },
   { name := "view.read"
     fields := ["uri", "scheme", "context_lines", "include_code"]
     requiredFields := ["uri"]
     positionals := 1 },
   { name := "rules.list"
     fields := ["workspace", "profile", "rules", "lang", "severity"]
     paginated := true },
   { name := "rules.check"
     fields := ["workspace", "profile", "rules", "inline_rules", "file", "report"]
     paginated := true },
   { name := "rules.applicable"
     fields := ["workspace", "focus", "profile", "rules"]
     requiredFields := ["focus"]
     positionals := 1
     paginated := true },
   { name := "change.review"
     fields := ["workspace"] },
   { name := "change.context"
     fields := ["workspace", "focus", "profile", "max_items"]
     requiredFields := ["focus"]
     positionals := 1 },
   { name := "symbol.graph"
     fields := ["workspace", "focus", "direction", "relation", "min_count", "include_internal"]
     requiredFields := ["focus"]
     positionals := 1 },
   { name := "graph.path"
     fields := ["workspace", "from", "to", "expect", "relation", "max_depth", "max_symbols",
       "max_edges", "min_coverage"]
     requiredFields := ["from", "to"] },
   { name := "graph.corridor"
     fields := ["workspace", "from", "to", "path", "lang", "kind", "shape", "srcset", "relation",
       "max_depth", "max_symbols", "max_edges", "min_coverage"]
     requiredFields := ["from", "to", "relation"] },
   { name := "identity.children"
     fields := ["workspace", "prefix"]
     positionals := 1 },
   { name := "identity.graph"
     fields := ["workspace", "prefix", "path", "min_count"]
     positionals := 1
     paginated := true },
   { name := "metrics.coupling"
     fields := ["workspace", "from", "to", "relation", "snapshot", "export"]
     requiredFields := ["from", "to"] },
   { name := "resolution.audit"
     fields := ["workspace", "prefix", "cluster"]
     positionals := 1
     paginated := true },
   { name := "notes"
     fields := ["action", "id", "moniker", "kind", "status", "title", "body", "created_by",
       "orphan", "include_done"]
     paginated := true }]

def queryCapabilitySpec (name : String) : Option QueryCapabilitySpec :=
  queryCapabilitySpecs.find? fun spec => spec.name = name

def queryProjectionFields (name : String) : List String :=
  match name with
  | "tree.children" =>
    ["root", "path", "kind", "language", "defs", "refs", "change_count"]
  | "symbol.search" =>
    ["root", "uri", "id", "name", "kind", "visibility", "signature", "file", "language",
      "line_range", "navigable", "score", "match_reason", "source"]
  | "symbol.insights" =>
    ["files", "symbols", "references", "navigable_symbols", "non_navigable_symbols", "languages",
      "kinds", "shapes", "top_files_by_symbols", "top_files_by_refs"]
  | "symbol.usages" =>
    ["root", "direction", "reference", "kind", "actor", "context", "endpoint", "file", "prefix",
      "location", "line_range", "via"]
  | _ => []

def supportsBoundedResult (op : String) : Bool := op = "symbol.graph" || op = "identity.children"

def requestFieldAllowed (spec : QueryCapabilitySpec) (field : String) : Bool :=
  decide (field ∈ spec.fields) || decide (field ∈ alwaysRequestFields) ||
    (spec.paginated && decide (field ∈ paginationFields)) ||
    (supportsBoundedResult spec.name && decide (field ∈ boundedResultFields))

/-- The named field that the positional argument of a verb stands for. -/
def positionalField (op : String) : Option String :=
  match op with
  | "query.describe" => some "verb"
  | "symbol.detail" | "symbol.usages" | "view.read" => some "uri"
  | "syntax.tree" | "rules.applicable" | "change.context" | "symbol.graph" => some "focus"
  | "identity.children" | "identity.graph" | "resolution.audit" => some "prefix"
  | _ => none

/-! ## Hints -/

/-- The rest of a row of the edit distance : `left` was computed last, `diagonal` is the old
value above it. -/
def levenshteinRow (ca : Char) : ℕ → ℕ → List Char → List ℕ → List ℕ
  | left, diagonal, cb :: b, above :: row =>
    let substitution := diagonal + (if ca = cb then 0 else 1)
    let value := min (min substitution (above + 1)) (left + 1)
    value :: levenshteinRow ca value above b row
  | _, _, _, _ => []

def levenshtein (a b : List Char) : ℕ :=
  let row := a.zipIdx.foldl
    (fun row (ca, i) => (i + 1) :: levenshteinRow ca (i + 1) (row.head?.getD 0) b row.tail)
    (List.range (b.length + 1))
  row.getLast?.getD 0

/-- The nearest of the candidates, the first one among equals, when it is near enough. -/
def nearest (text : String) (candidates : List String) : Option String :=
  (candidates.filter fun c => levenshtein text.toList c.toList ≤ 2).argmin
    fun c => levenshtein text.toList c.toList

/-- The fields that a request may have. -/
def requestFields (spec : QueryCapabilitySpec) : List String :=
  spec.fields ++ alwaysRequestFields ++ (if spec.paginated then paginationFields else []) ++
    (if supportsBoundedResult spec.name then boundedResultFields else [])

def fieldAliases : List (String × String) :=
  [("text", "name"), ("query", "name"), ("filename", "path")]

def suggestField (key : String) (spec : QueryCapabilitySpec) : Option String :=
  match fieldAliases.find? fun (name, target) => name = key ∧ target ∈ spec.fields with
  | some (_, target) => some target
  | none => nearest key (requestFields spec)

def fieldHint (key : String) (spec : QueryCapabilitySpec) : String :=
  match suggestField key spec with
  | some suggestion => ", did you mean `" ++ suggestion ++ "`?"
  | none =>
    " (valid fields: " ++
      ", ".intercalate ((requestFields spec).mergeSort fun a b => decide (a ≤ b)) ++ ")"

def projectionFieldHint (field : String) (allowed : List String) : String :=
  match nearest field allowed with
  | some suggestion => ", did you mean `" ++ suggestion ++ "`?"
  | none => " (valid projection fields: " ++ ", ".intercalate allowed ++ ")"

end CodeMoniker.Query
