import CodeMoniker.RuleConfigs

/-!
# Rule fragments

A fragment file declares rules and aliases next to the code they are about. Parsing moves
its aliases to a namespace, `ui_panels` for `panels` in the fragment `ui`, and rewrites the
references of its rules and aliases; its rule ids are qualified by the fragment.

`mergeInto` adds the enabled fragments to a configuration in order. An alias may be
neither shadowed nor redefined and no rule key may be taken, so each fragment adds its
rules and aliases and changes none (`Extends`).
-/

namespace CodeMoniker.Fragments

open ByteCodec RefText

/-! ## Ids -/

variable (id : Bytes)

def isSimpleId : Bool :=
  !id.isEmpty && id.all fun b => isAsciiAlphanumeric b || b == 0x5f || b == 0x2d

/-- Every `@` stands between two ASCII letters or digits. -/
def wellFormedScopeMarkers : Bool :=
  id.zipIdx.all fun (b, index) =>
    b != 0x40 || (decide (0 < index) && id[index - 1]?.any isAsciiAlphanumeric &&
      id[index + 1]?.any isAsciiAlphanumeric)

def isRuleId : Bool :=
  !id.isEmpty &&
    id.all (fun b => isAsciiAlphanumeric b || b == 0x5f || b == 0x2d || b == 0x40) &&
    wellFormedScopeMarkers id

def isStableGroupRuleId : Bool := isRuleId id

def isAliasId : Bool := !id.isEmpty && id.all isAliasByte

def isWhitespace (c : Char) : Bool :=
  (9 ≤ c.toNat && c.toNat ≤ 13) || (0x2000 ≤ c.toNat && c.toNat ≤ 0x200a) ||
    c.toNat ∈ [0x20, 0x85, 0xa0, 0x1680, 0x2028, 0x2029, 0x202f, 0x205f, 0x3000]

def trimChars (cs : List Char) : List Char :=
  ((cs.dropWhile isWhitespace).reverse.dropWhile isWhitespace).reverse

def trim (text : Bytes) : Bytes :=
  ((Utf8.decode? text).map fun cs => Utf8.encode (trimChars cs)).getD text

/-! ## The structure of a configuration -/

/-- The kinds and the visibilities of the language extractors. -/
structure Vocabulary where
  allowedKinds : Option Lang → List Bytes
  allowedDocVis : Option Lang → List Bytes

def joinNames (names : List Bytes) : Bytes := List.intercalate (byteString ", ") names

def allowedDefShapeNames : List Bytes :=
  ["namespace", "type", "callable", "value", "annotation"].map byteString

variable (voc : Vocabulary)

def validateDocVis (section_ name : Bytes) (lang : Option Lang)
    (kr : KindRules) : Except ConfigError Unit :=
  match kr.requireDocComment with
  | none => .ok ()
  | some value =>
    if value ∈ voc.allowedDocVis lang then .ok ()
    else .error (.unknownDocVisibility section_ name value (joinNames (voc.allowedDocVis lang)))

def validateShapeSection (section_ : Bytes) (lang : Option Lang)
    (table : AList fun _ : Bytes => KindRules) : Except ConfigError Unit :=
  table.entries.forM fun ⟨shape, kr⟩ =>
    if shape ∉ allowedDefShapeNames then
      .error (.unknownShape section_ shape (joinNames allowedDefShapeNames))
    else validateDocVis voc section_ shape lang kr

/-- The kinds of `refs` are not checked, and visibilities only for one language. -/
def validateLangSection (lang : Option Lang) (lr : LangRules) :
    Except ConfigError Unit := do
  validateShapeSection voc (langSection lang ++ byteString ".shape") lang lr.shape
  lr.kinds.entries.forM fun ⟨kind, kr⟩ =>
    if kind = byteString "refs" then .ok ()
    else if kind ∉ voc.allowedKinds lang then
      .error (.unknownKind (langSection lang) kind (joinNames (voc.allowedKinds lang)))
    else if lang.isNone then .ok ()
    else validateDocVis voc (langSection lang) kind lang kr

def validateWorkspaceGroup (rule : WorkspaceGroupRuleEntry) (index : ℕ) :
    Except ConfigError Unit :=
  match rule.id with
  | none =>
    .error (.invalidWorkspaceGroup (byteString s!"workspace.group.where_{index}")
      (byteString "`id` is required because it is part of the stable ScopeKey"))
  | some id =>
    if isStableGroupRuleId id then .ok ()
    else
      .error (.invalidWorkspaceGroup (byteString "workspace.group." ++ id)
        (byteString ("`id` may contain ASCII letters, digits, `_`, `-`, and well-formed `@` " ++
          "component scopes")))

def isBlank (text : Bytes) : Bool := (trim text).isEmpty

/-- What is wrong with the fields of a path rule. -/
def invalidPathField (rule : WorkspacePathRuleEntry) : Option String :=
  if isBlank rule.from_ then some "`from` must not be empty"
  else if isBlank rule.to_ then some "`to` must not be empty"
  else if rule.expect = .allPathsVia ∧ rule.via.all isBlank then
    some "`via` is required and must not be empty for `all_paths_via`"
  else if rule.expect ≠ .allPathsVia ∧ rule.via.isSome then
    some "`via` is only valid for `all_paths_via`"
  else if 64 < rule.maxDepth then some "`max_depth` must be at most 64"
  else if ¬(1 ≤ rule.maxSymbols ∧ rule.maxSymbols ≤ 100000) then
    some "`max_symbols` must be between 1 and 100000"
  else if ¬(1 ≤ rule.maxEdges ∧ rule.maxEdges ≤ 500000) then
    some "`max_edges` must be between 1 and 500000"
  else if ¬(1 ≤ rule.maxPairs ∧ rule.maxPairs ≤ 100000) then
    some "`max_pairs` must be between 1 and 100000"
  else if rule.minCoverage.any (100 < ·) then
    some "`min_coverage` must be between 0 and 100"
  else none

def validateWorkspacePath (rule : WorkspacePathRuleEntry) (index : ℕ) :
    Except ConfigError Unit :=
  match rule.id with
  | none =>
    .error (.invalidWorkspacePath (byteString s!"workspace.path.where_{index}")
      (byteString "`id` is required for stable diagnostics"))
  | some id =>
    if isStableGroupRuleId id then
      match invalidPathField rule with
      | none => .ok ()
      | some message =>
        .error (.invalidWorkspacePath (byteString "workspace.path." ++ id) (byteString message))
    else
      .error (.invalidWorkspacePath (byteString "workspace.path." ++ id)
        (byteString ("`id` may contain ASCII letters, digits, `_`, `-`, and well-formed `@` " ++
          "component scopes")))

/-- A fragment has no rule taxonomy, so none is checked. -/
def validateStructure (cfg : Config) : Except ConfigError Unit := do
  cfg.minLinkageCoverage.toList.forM fun value =>
    if 100 < value then .error (.invalidWorkspaceCoverage value) else .ok ()
  if cfg.symbol.requireDocComment.isSome then .error .workspaceRequireDocUnsupported
  cfg.group.zipIdx.forM fun (rule, index) => validateWorkspaceGroup rule index
  cfg.path.zipIdx.forM fun (rule, index) => validateWorkspacePath rule index
  validateShapeSection voc (byteString "shape") none cfg.shape
  if !cfg.default.shape.entries.isEmpty then .error .defaultShapeUnsupported
  (none :: allLangs.map some).forM fun lang => validateLangSection voc lang (cfg.langRules lang)

/-! ## Namespaces -/

def aliasNamespace (fragment : Bytes) : Bytes :=
  fragment.map fun b => if isAliasByte b then b else 0x5f

def effectiveAliasId (ns name : Bytes) : Bytes := ns ++ byteString "_" ++ name

variable (localAliases : List Bytes)

/-- The name that a reference of a fragment is rewritten to. -/
def effectiveName (ns name : Bytes) : Bytes :=
  if name ∈ localAliases then effectiveAliasId ns name else name

def rewriteLocalAliasRefs (ns input : Bytes) : Bytes :=
  renameText aliasGrammar (effectiveName localAliases ns) input

/-- The rewritten fields. `rewrite_path_rules` rewrites no `via`. -/
def rewriteRuleAliasRefs (ns : Bytes) : RuleMap where
  rule r := { r with expr := rewriteLocalAliasRefs localAliases ns r.expr }
  group r :=
    { r with
      members := rewriteLocalAliasRefs localAliases ns r.members
      expr := rewriteLocalAliasRefs localAliases ns r.expr }
  path r :=
    { r with
      from_ := rewriteLocalAliasRefs localAliases ns r.from_
      to_ := rewriteLocalAliasRefs localAliases ns r.to_ }

/-- `namespace_rules` and its siblings, on ids that were checked. -/
def qualifyId (fragment id : Bytes) : Bytes := fragment ++ byteString "." ++ id

def qualifyRuleIds (fragment : Bytes) : RuleMap where
  rule r := { r with id := r.id.map (qualifyId fragment) }
  group r := { r with id := r.id.map (qualifyId fragment) }
  path r := { r with id := r.id.map (qualifyId fragment) }

/-- The aliases under their effective ids. -/
def namespacedAliases (ns : Bytes) (aliases : Aliases) : Aliases :=
  (aliases.entries.map fun e =>
    (⟨effectiveAliasId ns e.1, rewriteLocalAliasRefs localAliases ns e.2⟩ :
      Sigma fun _ : Bytes => Bytes)).toAList

def validateAliasId (path fragment name : Bytes) : Except ConfigError Unit :=
  if isAliasId name then .ok () else .error (.invalidFragmentAliasId path fragment name)

def sortedNames (names : List Bytes) : List Bytes :=
  StableSort.stableSort (fun name => name.map UInt8.toNat) names

variable (cfg : Config)

/-- The rewritten configuration and the names of its aliases. -/
def namespaceAliases (path fragment : Bytes) :
    Except ConfigError (Config × List Bytes) :=
  if cfg.aliases.keys.isEmpty then .ok (cfg, [])
  else do
    let localAliases := sortedNames cfg.aliases.keys
    localAliases.forM (validateAliasId path fragment)
    let ns := aliasNamespace fragment
    let aliases := namespacedAliases localAliases ns cfg.aliases
    return ((rewriteRuleAliasRefs localAliases ns).apply { cfg with aliases }, localAliases)

/-- The tables of rules that may ask for doc comments, each with its section. -/
def kindTables : List (Bytes × KindRules) :=
  (byteString "workspace.symbol", cfg.symbol) ::
    cfg.shape.entries.map (fun e => ((Section.shape e.1).label, e.2)) ++
    (none :: allLangs.map some).flatMap fun lang =>
      (cfg.langRules lang).shape.entries.map (fun e => ((Section.langShape lang e.1).label, e.2)) ++
      (cfg.langRules lang).kinds.entries.map fun e => ((Section.langKind lang e.1).label, e.2)

def ensureNoRequireDoc (path fragment : Bytes) : Except ConfigError Unit :=
  (kindTables cfg).forM fun (at_, kr) =>
    if kr.requireDocComment.isSome then .error (.fragmentRequireDocUnsupported path fragment at_)
    else .ok ()

def validateRuleId (path fragment at_ : Bytes) (id : Option Bytes) : Except ConfigError Unit :=
  match id with
  | none => .error (.fragmentRuleMissingId path fragment at_)
  | some id => if isRuleId id then .ok () else .error (.invalidFragmentRuleId path fragment id)

def namespaceRuleIds (path fragment : Bytes) : Except ConfigError Config := do
  cfg.sections.forM fun s => (cfg.rulesAt s).forM fun r => validateRuleId path fragment s.label r.id
  return (qualifyRuleIds fragment).apply cfg

/-! ## Fragment files -/

/-- A fragment as it is read. The configuration has the sections of the file. -/
structure RawFragmentConfig where
  fragment : Bytes
  enabled : Bool := true
  sourceGroups : ℕ := 0
  config : Config

structure FragmentFile where
  id : Bytes
  path : Bytes
  enabled : Bool
  config : Config
  localAliases : List Bytes

namespace FragmentFile

def rules (f : FragmentFile) : ℕ := f.config.countRules

def ruleKeys (f : FragmentFile) : List Bytes := sortedNames (f.config.ruleKeys.map (·.1))

def aliasKeys (f : FragmentFile) : List Bytes := sortedNames f.config.aliases.keys

end FragmentFile

def validateFragmentId (path id : Bytes) : Except ConfigError Unit :=
  if isSimpleId id then .ok () else .error (.invalidFragmentId path id)

/-- `ensure_source_groups_owned_by_project_root`, away from the project root. -/
def ensureNoSourceGroups (path : Bytes) (raw : RawFragmentConfig) : Except ConfigError Unit :=
  if raw.sourceGroups = 0 then .ok () else .error (.sourceGroupOutsideProjectRoot path)

/-- `parse_fragment` after the file is read. The rules are counted before their ids are
qualified, which keeps their number. -/
def parseFragment (path : Bytes) (raw : RawFragmentConfig) :
    Except ConfigError FragmentFile := do
  let fragment := trim raw.fragment
  validateFragmentId path fragment
  ensureNoSourceGroups path raw
  let (config, localAliases) ← namespaceAliases raw.config path fragment
  ensureNoRequireDoc config path fragment
  validateStructure voc config
  let config ← namespaceRuleIds config path fragment
  return ⟨fragment, path, raw.enabled, config, localAliases⟩

/-! ## Merging -/

/-- The origin of each rule key. -/
abbrev RuleIndex := AList fun _ : Bytes => Bytes

namespace RuleIndex

/-- `or_insert_with`. -/
def orInsert (origin : Bytes) (index : RuleIndex) (key : Bytes × List Bytes) : RuleIndex :=
  if key.1 ∈ index then index else index.insert key.1 origin

def fromConfig (origin : Bytes) : RuleIndex := cfg.ruleKeys.foldl (orInsert origin) ∅

def insertNew (origin : Bytes) (index : RuleIndex) (key : Bytes × List Bytes) :
    Except ConfigError RuleIndex :=
  match index.lookup key.1 with
  | some existing => .error (.fragmentRuleCollision key.1 origin existing)
  | none => .ok (index.insert key.1 origin)

def insertConfig (index : RuleIndex) (cfg : Config) (origin : Bytes) :
    Except ConfigError RuleIndex :=
  cfg.ruleKeys.foldlM (insertNew origin) index

end RuleIndex

structure MergeState where
  config : Config
  index : RuleIndex
  aliasOrigins : AList fun _ : Bytes => Bytes

variable (f : FragmentFile)

def validateAliasBoundaries (aliasOrigins : AList fun _ : Bytes => Bytes) :
    Except ConfigError Unit := do
  f.localAliases.forM fun name =>
    if name ∈ aliasOrigins then .error (.fragmentAliasShadowsExisting f.path f.id name) else .ok ()
  f.aliasKeys.forM fun name =>
    match aliasOrigins.lookup name with
    | some existing => .error (.fragmentAliasCollision name f.path existing)
    | none => .ok ()

def validateAliasReferences (aliases : Aliases) : Except ConfigError Unit :=
  f.config.ruleKeys.forM fun (ruleId, expressions) =>
    expressions.forM fun expression => do
      let _ ← substituteAliases expression aliases (f.path ++ byteString ":" ++ ruleId)

def FragmentFile.info : FragmentInfo where
  id := f.id
  path := f.path
  enabled := f.enabled
  declaredRules := f.rules
  activeRules := if f.enabled then f.rules else 0
  ruleKeys := f.ruleKeys

/-- The configuration of the fragment, with the fragment as the source of its rules. -/
def FragmentFile.seeded : Config :=
  (RuleMap.markSources ⟨.fragment, some f.path, some f.id, f.localAliases⟩).apply f.config

/-- One fragment. The boundaries of a disabled fragment are checked too. -/
def mergeFragment (globalAliases : Aliases) (st : MergeState) (f : FragmentFile) :
    Except ConfigError MergeState := do
  let config := { st.config with fragments := st.config.fragments ++ [f.info] }
  validateAliasBoundaries f st.aliasOrigins
  if f.enabled then
    let aliases ← resolveAliases (mergeAliases globalAliases f.config.aliases)
    validateAliasReferences f aliases
    let index ← st.index.insertConfig f.config f.path
    let aliasOrigins := f.aliasKeys.foldl (fun origins name => origins.insert name f.path)
      st.aliasOrigins
    return ⟨mergeConfig config f.seeded, index, aliasOrigins⟩
  else return { st with config }

def effectiveConfig : Bytes := byteString "<effective config>"

def MergeState.start (base : Config) : MergeState where
  config := base
  index := RuleIndex.fromConfig base effectiveConfig
  aliasOrigins := base.aliases.keys.foldl (fun origins name => origins.insert name effectiveConfig) ∅

/-- `fragments::merge_into`. -/
def mergeInto (base : Config) (files : List FragmentFile) : Except ConfigError Config := do
  let st ← files.foldlM (mergeFragment base.aliases) (MergeState.start base)
  return st.config

end CodeMoniker.Fragments
