import CodeMoniker.QueryCapabilities

/-!
# The fields of a query text

The tokens of a text are collected in a bag : the values of its fields as they were written,
its positional arguments, its projection and its consistency. The bag is checked against the
specification of the verb (`validateFields`) before a request is built from it. The check
compares the values of a scalar field with one another, and takes every field with several
values for one that is not scalar.
-/

namespace CodeMoniker

open Query (QueryParseError)

namespace Consistency

def fromStr (value : List Char) : Except QueryParseError Consistency :=
  match String.ofList value with
  | "current" => .ok .current
  | "refresh-if-stale" => .ok .refreshIfStale
  | "stale-ok" => .ok .staleOk
  | _ => .error (.invalidValue "consistency".toList value)

end Consistency

namespace Query

structure FieldBag where
  values : List (String × List Char) := []
  positional : List (List Char) := []
  projection : List (List Char) := []
  consistency : Consistency := .current
  deriving DecidableEq

namespace FieldBag

variable (fields : FieldBag) (key : String)

def one : Option (List Char) :=
  (fields.values.find? fun entry => entry.1 = key).map fun entry => scalarValue entry.2

def many : List (List Char) :=
  (fields.values.filter fun entry => entry.1 = key).flatMap fun entry => listValues key entry.2

def bool : Except QueryParseError (Option Bool) :=
  match fields.one key with
  | none => .ok none
  | some value =>
    match String.ofList value with
    | "true" => .ok (some true)
    | "false" => .ok (some false)
    | _ => .error (.invalidValue key.toList value)

def usize : Except QueryParseError (Option ℕ) :=
  match fields.one key with
  | none => .ok none
  | some value =>
    match parseUnsigned maxU64 value with
    | some n => .ok (some n)
    | none => .error (.invalidValue key.toList value)

/-- The named consistency, or else that of the last consistency line. -/
def readConsistency : Except QueryParseError Consistency :=
  match fields.one "consistency" with
  | some value => Consistency.fromStr value
  | none => .ok fields.consistency

def page : Except QueryParseError Page := do
  let limit ← fields.usize "limit"
  match fields.one "cursor" with
  | none => return ⟨none, limit.getD 80⟩
  | some value => return ⟨some (← parseCursor value), limit.getD 80⟩

end FieldBag

/-! ## Collecting the tokens -/

def collectToken (fields : FieldBag) (token : List Char) : FieldBag :=
  match splitOnce ':' token with
  | some (key, value) => { fields with values := fields.values ++ [(String.ofList key, value)] }
  | none =>
    { fields with
      positional := fields.positional ++ [scalarValue (token.rdropWhile (· = ','))] }

def collectTokens (tokens : List (List Char)) (fields : FieldBag) : FieldBag :=
  tokens.foldl collectToken fields

/-- A line after the first one : a section word and its tokens, or fields. -/
def collectLine (fields : FieldBag) (line : List Char) : Except QueryParseError FieldBag := do
  match ← tokenize line with
  | [] => return fields
  | heading :: tokens =>
    if ':' ∈ heading then return collectTokens (heading :: tokens) fields
    match String.ofList heading with
    | "filter" | "page" => return collectTokens tokens fields
    | "project" =>
      let names := (tokens.map fun token => token.rdropWhile (· = ',')).filter (· ≠ [])
      return { fields with projection := fields.projection ++ names }
    | "consistency" =>
      match tokens with
      | [] => .error (.missingRequired "consistency value".toList)
      | value :: _ => return { fields with consistency := ← Consistency.fromStr value }
    | "direction" =>
      match tokens with
      | [] => .error (.missingRequired "direction value".toList)
      | value :: _ => return { fields with values := fields.values ++ [("direction", value)] }
    | _ => .error (.invalidToken heading)

/-- The verb of a text, and what the tokens after it collect. -/
def collectText (input : List Char) : Except QueryParseError (String × FieldBag) := do
  match queryLines input with
  | [] => .error .empty
  | first :: rest =>
    match ← tokenize first with
    | [] => .error .empty
    | op :: tokens => return (String.ofList op, ← rest.foldlM collectLine (collectTokens tokens {}))

/-! ## Checking the bag -/

variable (spec : QueryCapabilitySpec)

/-- `max_items` and `limit` are the names of one field, by the name that the verb has for it. -/
def normalizeKey (key : String) : String :=
  if key = "max_items" ∧ ("limit" ∈ spec.fields ∨ supportsBoundedResult spec.name) then "limit"
  else if key = "limit" ∧ "max_items" ∈ spec.fields then "max_items"
  else key

def normalizeFieldAliases (fields : FieldBag) : FieldBag :=
  { fields with values := fields.values.map fun entry => (normalizeKey spec entry.1, entry.2) }

def conflictText (kind : String) (first second : List Char) : List Char :=
  ("conflicting " ++ kind ++ " values `").toList ++ first ++ "` and `".toList ++ second ++ ['`']

/-- The loop over the named values. -/
def validateValues (op : String) (spec : QueryCapabilitySpec) :
    List (String × List Char) → Except QueryParseError Unit
  | [] => .ok ()
  | (key, value) :: rest =>
    if !requestFieldAllowed spec key then
      .error (.unknownField op.toList key.toList (fieldHint key spec).toList)
    else if key ∈ multiValueFields then
      if decide (value.head? = some '[') ≠ decide (value.getLast? = some ']') then
        .error (.invalidValue key.toList value)
      else validateValues op spec rest
    else
      match rest.find? fun entry => entry.1 = key ∧ scalarValue entry.2 ≠ scalarValue value with
      | some conflicting =>
        .error (.invalidValue key.toList
          (conflictText "repeated scalar" (scalarValue value) (scalarValue conflicting.2)))
      | none => validateValues op spec rest

/-- The first positional argument and the field that it stands for agree. -/
def validatePositional (op : String) (fields : FieldBag) : Except QueryParseError Unit :=
  match positionalField op with
  | none => .ok ()
  | some key =>
    match fields.positional.head?, fields.one key with
    | some positional, some named =>
      if positional ≠ named then
        .error (.invalidValue key.toList (conflictText "positional and named" positional named))
      else .ok ()
    | _, _ => .ok ()

def validateRequired (fields : FieldBag) :
    Except QueryParseError Unit :=
  match spec.requiredFields.zipIdx.find? fun (required, index) =>
      fields.one required = none ∧
        ¬ (index < spec.positionals ∧ (fields.positional[index]?).isSome) with
  | some (required, _) => .error (.missingRequired required.toList)
  | none => .ok ()

def validateArguments (op : String) (spec : QueryCapabilitySpec) (fields : FieldBag) :
    Except QueryParseError Unit :=
  match fields.positional[spec.positionals]? with
  | some extra => .error (.unexpectedArgument op.toList extra)
  | none => .ok ()

def validateProjection (op : String) (spec : QueryCapabilitySpec) (fields : FieldBag) :
    Except QueryParseError Unit :=
  if !spec.projection ∧ fields.projection ≠ [] then .error (.unsupportedProjection op.toList)
  else
    match fields.projection.find? fun field =>
        String.ofList field ∉ queryProjectionFields op with
    | some field =>
      .error (.unknownProjectionField op.toList field
        (projectionFieldHint (String.ofList field) (queryProjectionFields op)).toList)
    | none => .ok ()

def validateFields (op : String) (spec : QueryCapabilitySpec) (fields : FieldBag) :
    Except QueryParseError Unit := do
  validateValues op spec fields.values
  validatePositional op fields
  validateRequired spec fields
  validateArguments op spec fields
  validateProjection op spec fields

end Query

end CodeMoniker
