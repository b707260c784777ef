import CodeMoniker.QueryRequests

/-!
# The contract of a parsed query

A text is a verb and a list of statements : named values, positional arguments, names of a
projection and consistency lines (`textStatements`). The bag that the parser collects is what
the statements leave behind (`collectText_eq_ok`), so what a text gives to a field can be
compared with what the request holds.

Every request that is parsed passes `QueryRequest.validate`, is of the verb that was written,
and has no field outside its specification. Two fields escape the check for conflicting values :
a consistency line replaces the one before it and loses to the named field, and the kind of a
note is compared by no check because other verbs take lists of kinds
(`parseQuery_contract_iff`).
-/

namespace CodeMoniker.Query

open List

open ByteCodec (bind_eq_ok mapError_eq_ok)

section Results

variable {σ α β : Type}

theorem map_eq_ok {f : α → β} {x : Except σ α} {b : β} :
    f <$> x = .ok b ↔ ∃ a, x = .ok a ∧ f a = b := by
  cases x with
  | error e => simp [Functor.map, Except.map]
  | ok a => simp [Functor.map, Except.map]

theorem filterMap_single (f : α → Option β) (a : α) : [a].filterMap f = (f a).toList := by
  cases h : f a <;> simp [h]

end Results

/-! ## Statements -/

/-- What a piece of a text says. -/
inductive Statement
  | field (key : String) (value : Text)
  | argument (value : Text)
  | projection (name : Text)
  | consistency (value : Text)
  deriving DecidableEq

def tokenStatement (token : List Char) : Statement :=
  match splitOnce ':' token with
  | some (key, value) => .field (String.ofList key) value
  | none => .argument (scalarValue (token.rdropWhile (· = ',')))

/-- The statements of a line after the first one. -/
def lineStatements (line : List Char) : Except QueryParseError (List Statement) := do
  match ← tokenize line with
  | [] => return []
  | heading :: tokens =>
    if ':' ∈ heading then return (heading :: tokens).map tokenStatement
    match String.ofList heading with
    | "filter" | "page" => return tokens.map tokenStatement
    | "project" =>
      let names := (tokens.map fun token => token.rdropWhile (· = ',')).filter (· ≠ [])
      return names.map .projection
    | "consistency" =>
      match tokens with
      | [] => .error (.missingRequired "consistency value".toList)
      | value :: _ => return [.consistency value]
    | "direction" =>
      match tokens with
      | [] => .error (.missingRequired "direction value".toList)
      | value :: _ => return [.field "direction" value]
    | _ => .error (.invalidToken heading)

/-- The verb of a text and its statements. -/
def textStatements (input : List Char) : Except QueryParseError (String × List Statement) := do
  match queryLines input with
  | [] => .error .empty
  | first :: rest =>
    match ← tokenize first with
    | [] => .error .empty
    | op :: tokens =>
      let further ← rest.mapM lineStatements
      return (String.ofList op, tokens.map tokenStatement ++ further.flatten)

namespace Statement

def value? : Statement → Option (String × Text)
  | field key value => some (key, value)
  | _ => none

def argument? : Statement → Option Text
  | argument value => some value
  | _ => none

def name? : Statement → Option Text
  | projection name => some name
  | _ => none

variable {statements : List Statement}

theorem mem_filterMap_value? {key : String} {value : Text} :
    (key, value) ∈ statements.filterMap value? ↔ field key value ∈ statements := by
  rw [mem_filterMap]
  refine ⟨fun ⟨statement, hmem, heq⟩ => ?_, fun h => ⟨_, h, rfl⟩⟩
  cases statement <;> simp only [value?, Option.some.injEq, Prod.mk.injEq, reduceCtorEq] at heq
  obtain ⟨rfl, rfl⟩ := heq
  exact hmem

theorem mem_filterMap_argument? {value : Text} :
    value ∈ statements.filterMap argument? ↔ argument value ∈ statements := by
  rw [mem_filterMap]
  refine ⟨fun ⟨statement, hmem, heq⟩ => ?_, fun h => ⟨_, h, rfl⟩⟩
  cases statement <;> simp only [argument?, Option.some.injEq, reduceCtorEq] at heq
  exact heq ▸ hmem

theorem mem_filterMap_name? {name : Text} :
    name ∈ statements.filterMap name? ↔ projection name ∈ statements := by
  rw [mem_filterMap]
  refine ⟨fun ⟨statement, hmem, heq⟩ => ?_, fun h => ⟨_, h, rfl⟩⟩
  cases statement <;> simp only [name?, Option.some.injEq, reduceCtorEq] at heq
  exact heq ▸ hmem

end Statement

/-- What a statement leaves in the bag. -/
def Statement.collect (fields : FieldBag) : Statement → Except QueryParseError FieldBag
  | field key value => .ok { fields with values := fields.values ++ [(key, value)] }
  | argument value => .ok { fields with positional := fields.positional ++ [value] }
  | projection name => .ok { fields with projection := fields.projection ++ [name] }
  | consistency value => do return { fields with consistency := ← Consistency.fromStr value }

theorem collect_tokenStatement (fields : FieldBag) (token : List Char) :
    (tokenStatement token).collect fields = .ok (collectToken fields token) := by
  rw [tokenStatement, collectToken]
  cases splitOnce ':' token <;> rfl

open Statement

theorem collect_tokens : ∀ (tokens : List (List Char)) (fields : FieldBag),
    (tokens.map tokenStatement).foldlM collect fields = .ok (collectTokens tokens fields)
  | [], _ => rfl
  | token :: tokens, fields => by
    rw [map_cons, foldlM_cons, collect_tokenStatement]
    exact collect_tokens tokens (collectToken fields token)

theorem collect_projection : ∀ (names : List Text) (fields : FieldBag),
    (names.map projection).foldlM collect fields =
      .ok { fields with projection := fields.projection ++ names }
  | [], fields => by simp
  | name :: names, fields => by
    rw [map_cons, foldlM_cons, collect, ByteCodec.ok_bind, collect_projection names]
    simp

/-- The bag of a line is what its statements leave. -/
theorem collectLine_eq (fields : FieldBag) (line : List Char) :
    collectLine fields line = (lineStatements line >>= fun s => s.foldlM collect fields) := by
  rw [collectLine, lineStatements]
  cases tokenize line with
  | error e => rfl
  | ok tokens =>
    cases tokens with
    | nil => rfl
    | cons heading tokens =>
      simp only [ByteCodec.ok_bind]
      by_cases hcolon : ':' ∈ heading
      · rw [if_pos hcolon, if_pos hcolon]
        exact (collect_tokens (heading :: tokens) fields).symm
      · rw [if_neg hcolon, if_neg hcolon]
        generalize String.ofList heading = word
        split
        · exact (collect_tokens tokens fields).symm
        · exact (collect_tokens tokens fields).symm
        · exact (collect_projection _ fields).symm
        · cases tokens with
          | nil => rfl
          | cons value tokens => simp [collect]
        · cases tokens <;> rfl
        · simp [bind, Except.bind]

theorem collectLines_eq_ok : ∀ {lines : List (List Char)} {fields bag : FieldBag},
    lines.foldlM collectLine fields = .ok bag → ∃ further, lines.mapM lineStatements = .ok further ∧
        further.flatten.foldlM collect fields = .ok bag
  | [], fields, bag, h => ⟨[], rfl, h⟩
  | line :: lines, fields, bag, h => by
    rw [foldlM_cons] at h
    obtain ⟨mid, hline, h⟩ := bind_eq_ok.mp h
    rw [collectLine_eq] at hline
    obtain ⟨first, hfirst, hcollect⟩ := bind_eq_ok.mp hline
    obtain ⟨further, hfurther, hrest⟩ := collectLines_eq_ok h
    refine ⟨first :: further, ?_, ?_⟩
    · rw [mapM_cons, hfirst, hfurther]
      rfl
    · rw [flatten_cons, foldlM_append, hcollect]
      exact hrest

/-- A bag that is collected is what the statements of the text leave. -/
theorem collectText_eq_ok {input : List Char} {op : String} {bag : FieldBag}
    (h : collectText input = .ok (op, bag)) :
    ∃ statements, textStatements input = .ok (op, statements) ∧
      statements.foldlM collect {} = .ok bag := by
  rw [collectText] at h
  rw [textStatements]
  cases hlines : queryLines input with
  | nil => simp [hlines] at h
  | cons first rest =>
    simp only [hlines] at h ⊢
    obtain ⟨tokens, htokens, h⟩ := bind_eq_ok.mp h
    cases tokens with
    | nil => simp at h
    | cons word tokens =>
      obtain ⟨bag', hrest, h⟩ := bind_eq_ok.mp h
      simp only [ByteCodec.pure_eq_ok, Except.ok.injEq, Prod.mk.injEq] at h
      obtain ⟨rfl, rfl⟩ := h
      obtain ⟨further, hfurther, hcollect⟩ := collectLines_eq_ok hrest
      refine ⟨tokens.map tokenStatement ++ further.flatten, ?_, ?_⟩
      · rw [htokens, ByteCodec.ok_bind, hfurther]
        rfl
      · rw [foldlM_append, collect_tokens]
        exact hcollect

/-! ## What the statements leave behind -/

/-- The bag holds what the statements say. -/
structure Leaves (statements : List Statement) (bag : FieldBag) : Prop where
  values : bag.values = statements.filterMap Statement.value?
  positional : bag.positional = statements.filterMap Statement.argument?
  projection : bag.projection = statements.filterMap Statement.name?

theorem Leaves.concat {statements : List Statement} {fields bag : FieldBag} {statement : Statement}
    (h : Leaves statements fields) (hstep : statement.collect fields = .ok bag) :
    Leaves (statements ++ [statement]) bag := by
  have hone : bag.values = fields.values ++ statement.value?.toList ∧
      bag.positional = fields.positional ++ statement.argument?.toList ∧
      bag.projection = fields.projection ++ statement.name?.toList := by
    cases statement with
    | field key value => cases hstep; simp [value?, argument?, name?]
    | argument value => cases hstep; simp [value?, argument?, name?]
    | projection name => cases hstep; simp [value?, argument?, name?]
    | consistency value =>
      obtain ⟨c, -, hc⟩ := bind_eq_ok.mp hstep
      cases hc
      simp [value?, argument?, name?]
  obtain ⟨hvalues, hpositional, hprojection⟩ := hone
  refine ⟨?_, ?_, ?_⟩
  · rw [hvalues, h.values, filterMap_append, filterMap_single]
  · rw [hpositional, h.positional, filterMap_append, filterMap_single]
  · rw [hprojection, h.projection, filterMap_append, filterMap_single]

theorem Leaves.append : ∀ {further statements : List Statement} {fields bag : FieldBag},
    Leaves statements fields → further.foldlM collect fields = .ok bag →
      Leaves (statements ++ further) bag
  | [], statements, fields, bag, h, hcollect => by
    obtain rfl : fields = bag := by simpa using hcollect
    rwa [append_nil]
  | statement :: further, statements, fields, bag, h, hcollect => by
    rw [foldlM_cons] at hcollect
    obtain ⟨mid, hstep, hrest⟩ := bind_eq_ok.mp hcollect
    rw [append_cons]
    exact (h.concat hstep).append hrest

theorem leaves_of_collect {statements : List Statement} {bag : FieldBag}
    (h : statements.foldlM collect {} = .ok bag) : Leaves statements bag :=
  (show Leaves [] {} from ⟨rfl, rfl, rfl⟩).append h

/-! ## What the checks of the bag say -/

variable {fields : FieldBag}

theorem one_eq_some {key : String} {named : Text} (h : fields.one key = some named) :
    ∃ value, (key, value) ∈ fields.values ∧ scalarValue value = named := by
  rw [FieldBag.one, Option.map_eq_some_iff] at h
  obtain ⟨⟨k, value⟩, hfind, hvalue⟩ := h
  have hkey : k = key := by simpa using find?_some hfind
  exact ⟨value, hkey ▸ mem_of_find?_eq_some hfind, hvalue⟩

theorem one_isSome {key : String} {value : Text}
    (h : (key, value) ∈ fields.values) : (fields.one key).isSome := by
  rw [FieldBag.one, Option.isSome_map, find?_isSome]
  exact ⟨(key, value), h, by simp⟩

theorem one_eq_none {key : String} (h : ∀ value, (key, value) ∉ fields.values) :
    fields.one key = none := by
  rw [Option.eq_none_iff_forall_ne_some]
  intro named hnamed
  obtain ⟨value, hvalue, -⟩ := one_eq_some hnamed
  exact h value hvalue

theorem validateValues_eq_ok {op : String} {spec : QueryCapabilitySpec} :
    ∀ {values : List (String × Text)}, validateValues op spec values = .ok () →
      (∀ key value, (key, value) ∈ values → requestFieldAllowed spec key = true) ∧
      ∀ key, key ∉ multiValueFields → ∀ v w, (key, v) ∈ values → (key, w) ∈ values →
        scalarValue v = scalarValue w
  | [], _ => by simp
  | (first, text) :: rest, h => by
    rw [validateValues] at h
    split_ifs at h with hallowed hmulti hbrackets
    · obtain ⟨ihallowed, ihagree⟩ := validateValues_eq_ok h
      refine ⟨fun key value hmem => ?_, fun key hkey v w hv hw => ?_⟩
      · obtain ⟨rfl, rfl⟩ | hmem : (key = first ∧ value = text) ∨ (key, value) ∈ rest := by
          simpa using hmem
        · simpa using hallowed
        · exact ihallowed key value hmem
      · have hne : key ≠ first := fun heq => hkey (heq ▸ hmulti)
        exact ihagree key hkey v w (by simpa [hne] using hv) (by simpa [hne] using hw)
    · split at h
      · cases h
      · rename_i hnone
        obtain ⟨ihallowed, ihagree⟩ := validateValues_eq_ok h
        rw [find?_eq_none] at hnone
        -- The first value is compared with all the later ones.
        have hfirst : ∀ v, (first, v) ∈ rest → scalarValue v = scalarValue text := fun v hv => by
          simpa using hnone (first, v) hv
        refine ⟨fun key value hmem => ?_, fun key hkey v w hv hw => ?_⟩
        · obtain ⟨rfl, rfl⟩ | hmem : (key = first ∧ value = text) ∨ (key, value) ∈ rest := by
            simpa using hmem
          · simpa using hallowed
          · exact ihallowed key value hmem
        · rw [mem_cons, Prod.mk.injEq] at hv hw
          obtain ⟨rfl, rfl⟩ | hv := hv
          · obtain ⟨-, rfl⟩ | hw := hw
            · rfl
            · exact (hfirst w hw).symm
          · obtain ⟨rfl, rfl⟩ | hw := hw
            · exact hfirst v hv
            · exact ihagree key hkey v w hv hw

/-- A bag that passes `validateFields`. -/
structure Checked (op : String) (spec : QueryCapabilitySpec) (fields : FieldBag) : Prop where
  allowed : ∀ key value, (key, value) ∈ fields.values → requestFieldAllowed spec key = true
  agree : ∀ key, key ∉ multiValueFields → ∀ v w, (key, v) ∈ fields.values →
    (key, w) ∈ fields.values → scalarValue v = scalarValue w
  positional : ∀ key, positionalField op = some key → ∀ v, fields.positional.head? = some v →
    ∀ named, fields.one key = some named → v = named
  arguments : fields.positional.length ≤ spec.positionals
  projection : ∀ name ∈ fields.projection, spec.projection = true ∧
    String.ofList name ∈ queryProjectionFields op

theorem checked_of_validateFields {op : String} {spec : QueryCapabilitySpec} {fields : FieldBag}
    (h : validateFields op spec fields = .ok ()) : Checked op spec fields := by
  obtain ⟨⟨⟩, hvalues, h⟩ := bind_eq_ok.mp h
  obtain ⟨⟨⟩, hpositional, h⟩ := bind_eq_ok.mp h
  obtain ⟨⟨⟩, -, h⟩ := bind_eq_ok.mp h
  obtain ⟨⟨⟩, harguments, hprojection⟩ := bind_eq_ok.mp h
  obtain ⟨hallowed, hagree⟩ := validateValues_eq_ok hvalues
  refine ⟨hallowed, hagree, fun key hkey v hv named hnamed => ?_, ?_, fun name hname => ?_⟩
  · rw [validatePositional, hkey] at hpositional
    simp only [hv, hnamed] at hpositional
    by_contra hne
    simp [hne] at hpositional
  · rw [validateArguments] at harguments
    by_contra hlong
    rw [getElem?_eq_getElem (by omega)] at harguments
    cases harguments
  · rw [validateProjection] at hprojection
    split_ifs at hprojection with hunsupported
    · split at hprojection
      · cases hprojection
      · rename_i hnone
        rw [find?_eq_none] at hnone
        refine ⟨?_, by simpa using hnone name hname⟩
        by_contra hoff
        exact hunsupported ⟨by simpa using hoff, ne_nil_of_mem hname⟩

/-! ## What is built is valid -/

theorem validateBoundedResultLimit_eq_ok {operation : String} {limit : ℕ}
    (h : validateBoundedResultLimit operation limit = .ok ()) :
    1 ≤ limit ∧ limit ≤ maxBoundedResultItems := by
  by_contra hout
  rw [validateBoundedResultLimit, if_neg hout] at h
  cases h

theorem validateChangeContextItems_eq_ok {maxItems : ℕ}
    (h : validateChangeContextItems maxItems = .ok ()) :
    1 ≤ maxItems ∧ maxItems ≤ maxChangeContextItems := by
  by_contra hout
  rw [validateChangeContextItems, if_neg hout] at h
  cases h

variable {fields : FieldBag}

theorem symbolGraphQuery_limit {query : SymbolGraphQuery} (h : symbolGraphQuery fields = .ok query) :
    1 ≤ query.limit ∧ query.limit ≤ maxBoundedResultItems := by
  simp only [symbolGraphQuery, bind_eq_ok] at h
  obtain ⟨focus, -, direction, -, minCount, -, includeInternal, -, limit, -, ⟨⟩, hlimit, h⟩ := h
  cases h
  exact validateBoundedResultLimit_eq_ok hlimit

theorem identityChildrenQuery_limit {query : IdentityChildrenQuery}
    (h : identityChildrenQuery fields = .ok query) :
    1 ≤ query.limit ∧ query.limit ≤ maxBoundedResultItems := by
  simp only [identityChildrenQuery, bind_eq_ok] at h
  obtain ⟨limit, -, ⟨⟩, hlimit, h⟩ := h
  cases h
  exact validateBoundedResultLimit_eq_ok hlimit

theorem changeContextQuery_maxItems {query : ChangeContextQuery}
    (h : changeContextQuery fields = .ok query) :
    1 ≤ query.maxItems ∧ query.maxItems ≤ maxChangeContextItems := by
  simp only [changeContextQuery, bind_eq_ok] at h
  obtain ⟨maxItems, -, ⟨⟩, hitems, focus, -, h⟩ := h
  cases h
  exact validateChangeContextItems_eq_ok hitems

theorem graphPathQuery_checks {query : GraphPathQuery} (h : graphPathQuery fields = .ok query) :
    query.limits.validate = .ok () ∧ validateRelations query.relation = .ok () := by
  simp only [graphPathQuery, bind_eq_ok] at h
  obtain ⟨maxDepth, -, minCoverage, -, maxSymbols, -, maxEdges, -, from_, -, to_, -, expect, -,
    ⟨⟩, hlimits, ⟨⟩, hrelations, h⟩ := h
  cases h
  exact ⟨mapError_eq_ok.mp hlimits, mapError_eq_ok.mp hrelations⟩

theorem graphCorridorQuery_checks {query : GraphCorridorQuery}
    (h : graphCorridorQuery fields = .ok query) :
    query.limits.validate = .ok () ∧ query.validateScope = .ok () := by
  simp only [graphCorridorQuery, bind_eq_ok] at h
  obtain ⟨maxDepth, -, minCoverage, -, maxSymbols, -, maxEdges, -, from_, -, to_, -,
    ⟨⟩, hlimits, ⟨⟩, hscope, h⟩ := h
  cases h
  exact ⟨mapError_eq_ok.mp hlimits, mapError_eq_ok.mp hscope⟩

theorem validateGraphLimits_of_validate {limits : GraphLimits} (h : limits.validate = .ok ()) :
    validateGraphLimits limits = .ok () := mapError_eq_ok.mpr h

/-- What is built is of the verb and valid, on the page that a corridor takes. -/
theorem buildQuery_valid {op : String} {query : Query} (h : buildQuery fields op = .ok query)
    (consistency : Consistency) {page : Page} (hpage : op = "graph.corridor" → page = {}) :
    query.capability = op ∧ validateQueryRequest ⟨query, consistency, page⟩ = .ok () := by
  unfold buildQuery at h
  split at h
  case h_15 =>
    obtain ⟨query, hquery, rfl⟩ := map_eq_ok.mp h
    exact ⟨rfl, if_neg (not_not.2 (changeContextQuery_maxItems hquery))⟩
  case h_16 =>
    obtain ⟨query, hquery, rfl⟩ := map_eq_ok.mp h
    exact ⟨rfl, if_neg (not_not.2 (symbolGraphQuery_limit hquery))⟩
  case h_17 =>
    obtain ⟨query, hquery, rfl⟩ := map_eq_ok.mp h
    obtain ⟨hlimits, hrelations⟩ := graphPathQuery_checks hquery
    exact ⟨rfl, bind_eq_ok.mpr
      ⟨(), validateGraphLimits_of_validate hlimits, mapError_eq_ok.mpr hrelations⟩⟩
  case h_18 =>
    obtain ⟨query, hquery, rfl⟩ := map_eq_ok.mp h
    obtain ⟨hlimits, hscope⟩ := graphCorridorQuery_checks hquery
    obtain rfl := hpage rfl
    have hpaged : validateCorridorPage {} = .ok () := rfl
    exact ⟨rfl, bind_eq_ok.mpr ⟨(), validateGraphLimits_of_validate hlimits,
      bind_eq_ok.mpr ⟨(), mapError_eq_ok.mpr hscope, hpaged⟩⟩⟩
  case h_19 =>
    obtain ⟨query, hquery, rfl⟩ := map_eq_ok.mp h
    exact ⟨rfl, if_neg (not_not.2 (identityChildrenQuery_limit hquery))⟩
  case h_24 => cases h
  -- The other verbs have nothing to check.
  all_goals first
    | (obtain ⟨query, -, rfl⟩ := map_eq_ok.mp h; exact ⟨rfl, rfl⟩)
    | (cases h; exact ⟨rfl, rfl⟩)

/-! ## What a text gives to a field -/

/-- The field has one value in the request. The requests of `notes` have one kind, where the
other verbs take lists. -/
def scalarField (op field : String) : Bool :=
  decide (field ∉ multiValueFields) || decide (op = "notes")

section Given

variable (op : String) (spec : QueryCapabilitySpec)

def Statement.gives (field : String) : Statement → List Text
  | .field key value => if normalizeKey spec key = field then [scalarValue value] else []
  | .argument value => if positionalField op = some field then [value] else []
  | .projection _ => []
  | .consistency value => if field = "consistency" then [value] else []

/-- All the values that a text gives to a field. -/
def given (statements : List Statement) (field : String) : List Text :=
  statements.flatMap (Statement.gives op spec field)

/-- A text gives no two values to a field. -/
def Agree (statements : List Statement) (field : String) : Prop :=
  ∀ v ∈ given op spec statements field, ∀ w ∈ given op spec statements field, v = w

instance (statements : List Statement) (field : String) :
    Decidable (Agree op spec statements field) :=
  inferInstanceAs (Decidable (∀ v ∈ given op spec statements field,
    ∀ w ∈ given op spec statements field, v = w))

/-- The contract of a request with the text that it was parsed from. -/
structure MeetsContract (statements : List Statement) (request : QueryRequest) : Prop where
  valid : request.validate = .ok ()
  verb : request.query.capability = op
  allowed : ∀ key value, .field key value ∈ statements →
    requestFieldAllowed spec (normalizeKey spec key) = true
  arguments : (statements.filterMap Statement.argument?).length ≤ spec.positionals
  projection : ∀ name, .projection name ∈ statements →
    spec.projection = true ∧ String.ofList name ∈ queryProjectionFields op
  unambiguous : ∀ field, scalarField op field = true → Agree op spec statements field

variable {op spec} {statements : List Statement} {field : String} {bag : FieldBag}

theorem mem_given {v : Text} : v ∈ given op spec statements field ↔
    (∃ key value, .field key value ∈ statements ∧ normalizeKey spec key = field ∧
      v = scalarValue value) ∨ (positionalField op = some field ∧ .argument v ∈ statements) ∨
    (field = "consistency" ∧ .consistency v ∈ statements) := by
  rw [given, mem_flatMap]
  constructor
  · rintro ⟨statement, hmem, hv⟩
    cases statement with
    | field key value =>
      obtain ⟨hkey, rfl⟩ : normalizeKey spec key = field ∧ v = scalarValue value := by
        simpa [gives] using hv
      exact Or.inl ⟨key, value, hmem, hkey, rfl⟩
    | argument value =>
      obtain ⟨hkey, rfl⟩ : positionalField op = some field ∧ v = value := by
        simpa [gives] using hv
      exact Or.inr (Or.inl ⟨hkey, hmem⟩)
    | projection name => simp [gives] at hv
    | consistency value =>
      obtain ⟨hkey, rfl⟩ : field = "consistency" ∧ v = value := by
        simpa [gives] using hv
      exact Or.inr (Or.inr ⟨hkey, hmem⟩)
  · rintro (⟨key, value, hmem, hkey, rfl⟩ | ⟨hkey, hmem⟩ | ⟨hkey, hmem⟩)
    · exact ⟨_, hmem, by simp [gives, hkey]⟩
    · exact ⟨_, hmem, by simp [gives, hkey]⟩
    · exact ⟨_, hmem, by simp [gives, hkey]⟩

end Given

/-! ## The contract -/

section Contract

variable {op : String} {spec : QueryCapabilitySpec} {statements : List Statement}
  {bag : FieldBag} {input : Text} {request : QueryRequest}

theorem spec_of_queryCapabilitySpec (h : queryCapabilitySpec op = some spec) :
    spec ∈ queryCapabilitySpecs ∧ spec.name = op :=
  ⟨mem_of_find?_eq_some h, by simpa using find?_some h⟩

theorem positionals_le_one (h : spec ∈ queryCapabilitySpecs) : spec.positionals ≤ 1 :=
  (by decide : ∀ spec ∈ queryCapabilitySpecs, spec.positionals ≤ 1) spec h

theorem requestOf_eq_ok (h : requestOf op bag = .ok request) :
    ∃ spec, queryCapabilitySpec op = some spec ∧ Checked op spec (normalizeFieldAliases spec bag) ∧
      (normalizeFieldAliases spec bag).page = .ok request.page ∧
      buildQuery (normalizeFieldAliases spec bag) op = .ok request.query := by
  rw [requestOf] at h
  cases hspec : queryCapabilitySpec op with
  | none => simp [hspec] at h
  | some spec =>
    simp only [hspec] at h
    obtain ⟨⟨⟩, hfields, h⟩ := bind_eq_ok.mp h
    obtain ⟨consistency, -, h⟩ := bind_eq_ok.mp h
    obtain ⟨page, hpage, h⟩ := bind_eq_ok.mp h
    obtain ⟨query, hquery, h⟩ := bind_eq_ok.mp h
    cases h
    exact ⟨spec, rfl, checked_of_validateFields hfields, hpage, hquery⟩

/-- Without a limit and a cursor the page is the default one. -/
theorem page_eq_default (hlimit : bag.one "limit" = none) (hcursor : bag.one "cursor" = none) :
    bag.page = .ok {} := by
  rw [FieldBag.page, FieldBag.usize, hlimit, hcursor]
  rfl

theorem mem_normalized (h : Leaves statements bag) {key : String} {value : Text} :
    (key, value) ∈ (normalizeFieldAliases spec bag).values ↔
      ∃ written, .field written value ∈ statements ∧ normalizeKey spec written = key := by
  simp only [normalizeFieldAliases, h.values, mem_map, Prod.exists, Prod.mk.injEq,
    mem_filterMap_value?]
  exact ⟨fun ⟨written, _, hmem, hkey, hvalue⟩ => ⟨written, hvalue ▸ hmem, hkey⟩,
    fun ⟨written, hmem, hkey⟩ => ⟨written, value, hmem, hkey, rfl⟩⟩

/-- The checks compare all the values of a scalar field but the consistency and the kind of a
note. -/
theorem agree_of_checked (hspec : spec ∈ queryCapabilitySpecs) (hleaves : Leaves statements bag)
    (h : Checked op spec (normalizeFieldAliases spec bag)) {field : String}
    (hmulti : field ∉ multiValueFields) (hconsistency : field ≠ "consistency") :
    Agree op spec statements field := by
  have hpositional : (normalizeFieldAliases spec bag).positional = bag.positional := rfl
  have hlength : bag.positional.length ≤ 1 := h.arguments.trans (positionals_le_one hspec)
  have hnamed : ∀ {key value}, .field key value ∈ statements → normalizeKey spec key = field →
      (field, value) ∈ (normalizeFieldAliases spec bag).values :=
    fun hmem hkey => (mem_normalized hleaves).mpr ⟨_, hmem, hkey⟩
  -- A positional argument is the first one, and is compared with the first named value.
  have hmixed : ∀ {key value v}, .field key value ∈ statements → normalizeKey spec key = field →
      positionalField op = some field → .argument v ∈ statements → v = scalarValue value := by
    intro key value v hmem hkey hfield hargument
    rw [← mem_filterMap_argument?, ← hleaves.positional] at hargument
    have hhead : bag.positional.head? = some v := by
      match hlist : bag.positional, hargument, hlength with
      | [_], hargument, _ => simpa using (mem_singleton.mp hargument).symm
    obtain ⟨named, hone⟩ := Option.isSome_iff_exists.mp (one_isSome (hnamed hmem hkey))
    obtain ⟨text, htext, rfl⟩ := one_eq_some hone
    exact (h.positional field hfield v hhead _ hone).trans
      (h.agree field hmulti text value htext (hnamed hmem hkey))
  intro v hv w hw
  rw [mem_given] at hv hw
  rcases hv with ⟨key, value, hmem, hkey, rfl⟩ | ⟨hfield, hargument⟩ | ⟨hfield, -⟩
  · rcases hw with ⟨key', value', hmem', hkey', rfl⟩ | ⟨hfield', hargument'⟩ | ⟨hfield', -⟩
    · exact h.agree field hmulti value value' (hnamed hmem hkey) (hnamed hmem' hkey')
    · exact (hmixed hmem hkey hfield' hargument').symm
    · exact absurd hfield' hconsistency
  · rcases hw with ⟨key', value', hmem', hkey', rfl⟩ | ⟨-, hargument'⟩ | ⟨hfield', -⟩
    · exact hmixed hmem' hkey' hfield hargument
    · rw [← mem_filterMap_argument?, ← hleaves.positional] at hargument hargument'
      match hlist : bag.positional, hargument, hargument', hlength with
      | [_], hargument, hargument', _ =>
        exact (mem_singleton.mp hargument).trans (mem_singleton.mp hargument').symm
    · exact absurd hfield' hconsistency
  · exact absurd hfield hconsistency

theorem notes_multi : ∀ spec ∈ queryCapabilitySpecs, spec.name = "notes" →
    ∀ field ∈ multiValueFields, requestFieldAllowed spec field = true → field = "kind" := by
  decide

/-- The kind is the only field of a note that other verbs have several values of. -/
theorem agree_of_notes (hspec : queryCapabilitySpec op = some spec) (hop : op = "notes")
    (hleaves : Leaves statements bag) (h : Checked op spec (normalizeFieldAliases spec bag))
    {field : String} (hmulti : field ∈ multiValueFields) (hkind : field ≠ "kind") :
    Agree op spec statements field := by
  intro v hv
  rw [mem_given] at hv
  rcases hv with ⟨key, value, hmem, hkey, -⟩ | ⟨hfield, -⟩ | ⟨hfield, -⟩
  · have hallowed := h.allowed field value ((mem_normalized hleaves).mpr ⟨key, hmem, hkey⟩)
    obtain ⟨hspecs, hname⟩ := spec_of_queryCapabilitySpec hspec
    exact absurd (notes_multi spec hspecs (hname.trans hop) field hmulti hallowed) hkind
  · simp [hop, positionalField] at hfield
  · simp [hfield, multiValueFields] at hmulti

theorem corridor_not_paginated : ∀ spec ∈ queryCapabilitySpecs, spec.name = "graph.corridor" →
    requestFieldAllowed spec "limit" = false ∧ requestFieldAllowed spec "cursor" = false := by
  decide

/-- A request for a corridor has the default page. -/
theorem page_of_corridor (hspec : queryCapabilitySpec op = some spec) (hop : op = "graph.corridor")
    {fields : FieldBag} (h : Checked op spec fields) : fields.page = .ok {} := by
  obtain ⟨hspecs, hname⟩ := spec_of_queryCapabilitySpec hspec
  obtain ⟨hlimit, hcursor⟩ := corridor_not_paginated spec hspecs (hname.trans hop)
  refine page_eq_default (one_eq_none fun value hmem => ?_) (one_eq_none fun value hmem => ?_)
  · rw [h.allowed _ _ hmem] at hlimit
    cases hlimit
  · rw [h.allowed _ _ hmem] at hcursor
    cases hcursor

/-- A request meets the contract with the text that it was parsed from. -/
def FulfilsContract (input : Text) (request : QueryRequest) : Prop :=
  ∃ op statements spec, textStatements input = .ok (op, statements) ∧
    queryCapabilitySpec op = some spec ∧ MeetsContract op spec statements request

/-- The consistency lines of a text agree with one another and with the named consistency, and
the kinds of a note agree. -/
def Unequivocal (input : Text) : Prop :=
  ∃ op statements spec, textStatements input = .ok (op, statements) ∧
    queryCapabilitySpec op = some spec ∧ Agree op spec statements "consistency" ∧
      (op = "notes" → Agree op spec statements "kind")

theorem parseQuery_contract_iff (h : parseQuery input = .ok request) :
    FulfilsContract input request ↔ Unequivocal input := by
  obtain ⟨⟨op, bag⟩, hcollect, h⟩ := bind_eq_ok.mp h
  obtain ⟨statements, hstatements, hfold⟩ := collectText_eq_ok hcollect
  obtain ⟨spec, hspec, hchecked, hpage, hquery⟩ := requestOf_eq_ok h
  have hleaves := leaves_of_collect hfold
  have hspecs := (spec_of_queryCapabilitySpec hspec).1
  constructor
  · rintro ⟨op, statements, spec, hstatements, hspec, hmeets⟩
    exact ⟨op, statements, spec, hstatements, hspec, hmeets.unambiguous "consistency" rfl,
      fun hop => hmeets.unambiguous "kind" (by simp [scalarField, hop])⟩
  · rintro ⟨op', statements', spec', hstatements', hspec', hconsistency, hkind⟩
    obtain ⟨rfl, rfl⟩ : op = op' ∧ statements = statements' := by
      simpa using hstatements.symm.trans hstatements'
    obtain rfl : spec = spec' := by simpa using hspec.symm.trans hspec'
    have hcorridor : op = "graph.corridor" → request.page = {} := fun hop => by
      rw [page_of_corridor hspec hop hchecked] at hpage
      exact (Except.ok.inj hpage).symm
    obtain ⟨hverb, hvalid⟩ := buildQuery_valid hquery request.consistency hcorridor
    refine ⟨op, statements, spec, hstatements, hspec, hvalid, hverb, fun key value hmem => ?_, ?_,
      fun name hmem => ?_, fun field hscalar => ?_⟩
    · exact hchecked.allowed _ value ((mem_normalized hleaves).mpr ⟨key, hmem, rfl⟩)
    · rw [← hleaves.positional]
      exact hchecked.arguments
    · refine hchecked.projection name ?_
      rw [normalizeFieldAliases, hleaves.projection]
      exact Statement.mem_filterMap_name?.mpr hmem
    · by_cases hfield : field = "consistency"
      · exact hfield ▸ hconsistency
      by_cases hmulti : field ∈ multiValueFields
      · have hop : op = "notes" := by simpa [scalarField, hmulti] using hscalar
        by_cases hfield' : field = "kind"
        · exact hfield' ▸ hkind hop
        · exact agree_of_notes hspec hop hleaves hchecked hmulti hfield'
      · exact agree_of_checked hspecs hleaves hchecked hmulti hfield

/-- A note with one kind, given twice. -/
theorem parseQuery_contract_note : FulfilsContract "notes kind:todo\nfilter kind:\"todo\"".toList
      ⟨.notes ⟨.list, none, none, some "todo".toList, none, none, none, none, none, false⟩,
        .current, {}⟩ :=
  (parseQuery_contract_iff (by simp only [String.reduceToList]; decide)).mpr
    ⟨"notes", [.field "kind" "todo".toList, .field "kind" "\"todo\"".toList],
      (queryCapabilitySpec "notes").get (by decide), by simp only [String.reduceToList]; decide,
      (Option.some_get _).symm, by simp only [String.reduceToList]; decide,
      by simp only [String.reduceToList]; decide⟩

/-- Two consistency lines and two kinds of a note are accepted. -/
theorem parseQuery_breaks_contract :
    (parseQuery "workspace.status\nconsistency current\nconsistency stale-ok".toList =
        .ok ⟨.workspaceStatus, .staleOk, {}⟩ ∧
      ¬ FulfilsContract "workspace.status\nconsistency current\nconsistency stale-ok".toList
        ⟨.workspaceStatus, .staleOk, {}⟩) ∧ parseQuery "notes kind:todo kind:note".toList =
        .ok ⟨.notes ⟨.list, none, none, some "todo".toList, none, none, none, none, none, false⟩,
          .current, {}⟩ ∧ ¬ FulfilsContract "notes kind:todo kind:note".toList
        ⟨.notes ⟨.list, none, none, some "todo".toList, none, none, none, none, none, false⟩,
          .current, {}⟩ := by
  refine ⟨⟨by simp only [String.reduceToList]; decide, ?_⟩,
    by simp only [String.reduceToList]; decide, ?_⟩
  · rintro ⟨op, statements, spec, hstatements, hspec, hmeets⟩
    have htext : textStatements
        "workspace.status\nconsistency current\nconsistency stale-ok".toList =
          .ok ("workspace.status",
            [.consistency "current".toList, .consistency "stale-ok".toList]) := by
      simp only [String.reduceToList]
      decide
    obtain ⟨rfl, rfl⟩ : op = "workspace.status" ∧ statements =
        [.consistency "current".toList, .consistency "stale-ok".toList] := by
      simpa using hstatements.symm.trans htext
    have hsame := hmeets.unambiguous "consistency" rfl "current".toList
      (mem_given.mpr (by simp)) "stale-ok".toList (mem_given.mpr (by simp))
    exact absurd hsame (by simp only [String.reduceToList]; decide)
  · rintro ⟨op, statements, spec, hstatements, hspec, hmeets⟩
    have htext : textStatements "notes kind:todo kind:note".toList =
        .ok ("notes", [.field "kind" "todo".toList, .field "kind" "note".toList]) := by
      simp only [String.reduceToList]
      decide
    obtain ⟨rfl, rfl⟩ : op = "notes" ∧ statements =
        [.field "kind" "todo".toList, .field "kind" "note".toList] := by
      simpa using hstatements.symm.trans htext
    have hkinds : ∀ value ∈ ["todo".toList, "note".toList], scalarValue value ∈
        given "notes" spec [.field "kind" "todo".toList, .field "kind" "note".toList] "kind" :=
      fun value hvalue => mem_given.mpr (Or.inl
        ⟨"kind", value, by simpa using hvalue, by simp [normalizeKey], rfl⟩)
    have hsame := hmeets.unambiguous "kind" rfl _ (hkinds "todo".toList (by simp)) _
      (hkinds "note".toList (by simp))
    exact absurd hsame (by simp only [String.reduceToList]; decide)

end Contract

end CodeMoniker.Query
