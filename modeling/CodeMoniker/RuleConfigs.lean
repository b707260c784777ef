import CodeMoniker.AliasResolution
import CodeMoniker.CodeIndexDiff

/-!
# Rule configurations and their merge

A configuration holds rules in sections : references, symbols, groups and paths of the
workspace, shapes, and for each language its shapes and kinds. Every traversal of the
source visits the sections in one order, each with its prefix (`Config.sections`), and reads
a rule as an id with its expressions (`RuleView`). A pass over every rule of a configuration
is a `RuleMap`.

`mergeConfig` lays a configuration over another one. A rule replaces the rule of its section
with its id. When no id is there yet, merging appends (`rulesAt_mergeConfig`).
-/

namespace CodeMoniker.Fragments

open List ByteCodec

/-! ## Rules -/

/-- What the traversals read of a rule : the expressions that are checked when fragments are
merged, and those that only the compiler expands. -/
structure RuleView where
  id : Option Bytes
  checked : List Bytes
  unchecked : List Bytes
  deriving DecidableEq

/-- The expressions that the compiler expands. -/
def RuleView.compiled (r : RuleView) : List Bytes := r.checked ++ r.unchecked

inductive RuleSeverity where
  | warn
  | error
  deriving DecidableEq, Repr

inductive RuleSourceKind where
  | embeddedDefault
  | project
  | fragment
  | external
  | inlineRules
  deriving DecidableEq, Repr

structure RuleSourceMarker where
  kind : RuleSourceKind
  source : Option Bytes
  fragment : Option Bytes
  localAliases : List Bytes
  deriving DecidableEq

/-- What a file leaves out has the default of the source. No file sets `source`. -/
structure RuleEntry where
  id : Option Bytes
  expr : Bytes
  severity : RuleSeverity := .error
  message : Option Bytes := none
  rationale : Option Bytes := none
  source : Option RuleSourceMarker := none
  deriving DecidableEq

structure WorkspaceGroupRuleEntry where
  id : Option Bytes
  members : Bytes
  groupBy : List Bytes
  expr : Bytes
  severity : RuleSeverity := .error
  message : Option Bytes := none
  rationale : Option Bytes := none
  suppress : List (List Bytes) := []
  source : Option RuleSourceMarker := none
  deriving DecidableEq

inductive WorkspacePathExpectation where
  | reachable
  | noPath
  | allPathsVia
  deriving DecidableEq

def defaultPathRelations : List Bytes := [byteString "calls", byteString "method_call"]

structure WorkspacePathRuleEntry where
  id : Option Bytes
  from_ : Bytes
  to_ : Bytes
  expect : WorkspacePathExpectation
  via : Option Bytes := none
  requireNonEmpty : Bool := false
  relation : List Bytes := defaultPathRelations
  maxDepth : ℕ := 12
  maxSymbols : ℕ := 10000
  maxEdges : ℕ := 50000
  maxPairs : ℕ := 10000
  minCoverage : Option ℕ := none
  severity : RuleSeverity := .error
  message : Option Bytes := none
  rationale : Option Bytes := none
  source : Option RuleSourceMarker := none
  deriving DecidableEq

def RuleEntry.view (r : RuleEntry) : RuleView := ⟨r.id, [r.expr], []⟩

def WorkspaceGroupRuleEntry.view (r : WorkspaceGroupRuleEntry) : RuleView :=
  ⟨r.id, [r.members, r.expr], []⟩

/-- `for_each_path_rule_list` passes on `from` and `to`, and no `via`. -/
def WorkspacePathRuleEntry.view (r : WorkspacePathRuleEntry) : RuleView :=
  ⟨r.id, [r.from_, r.to_], r.via.toList⟩

/-! ## Configurations -/

structure KindRules where
  rules : List RuleEntry
  requireDocComment : Option Bytes

/-- The rules of a table, none under a name that is not there. -/
def tableRules (table : AList fun _ : Bytes => KindRules) (name : Bytes) : List RuleEntry :=
  ((table.lookup name).map (·.rules)).getD []

structure LangRules where
  shape : AList fun _ : Bytes => KindRules
  kinds : AList fun _ : Bytes => KindRules

structure FragmentInfo where
  id : Bytes
  path : Bytes
  enabled : Bool
  declaredRules : ℕ
  activeRules : ℕ
  ruleKeys : List Bytes

/-- The tables have the order of a hash map. -/
structure Config where
  aliases : Aliases
  refs : List RuleEntry
  minLinkageCoverage : Option ℕ
  symbol : KindRules
  group : List WorkspaceGroupRuleEntry
  path : List WorkspacePathRuleEntry
  shape : AList fun _ : Bytes => KindRules
  default : LangRules
  lang : Lang → LangRules
  fragments : List FragmentInfo

def allLangs : List Lang :=
  [.ts, .tsx, .js, .jsx, .rs, .java, .python, .go, .c, .cs, .sql, .markdown, .json, .yaml]

def configSection : Lang → Bytes
  | .rs => byteString "rust"
  | other => byteString other.tag

/-- A section of rules. The default of all languages has no language. -/
inductive Section where
  | refs
  | symbol
  | group
  | path
  | shape (name : Bytes)
  | langShape (lang : Option Lang) (name : Bytes)
  | langKind (lang : Option Lang) (name : Bytes)
  deriving DecidableEq

def langSection (lang : Option Lang) : Bytes := (lang.map configSection).getD (byteString "default")

/-- The prefix of the rules of a section. -/
def Section.label : Section → Bytes
  | refs => byteString "refs"
  | symbol => byteString "workspace.symbol"
  | group => byteString "workspace.group"
  | path => byteString "workspace.path"
  | shape name => byteString "shape." ++ name
  | langShape lang name => langSection lang ++ byteString ".shape." ++ name
  | langKind lang name => langSection lang ++ byteString "." ++ name

namespace Config

variable (cfg : Config)

def langRules : Option Lang → LangRules
  | none => cfg.default
  | some lang => cfg.lang lang

def rulesAt : Section → List RuleView
  | .refs => cfg.refs.map (·.view)
  | .symbol => cfg.symbol.rules.map (·.view)
  | .group => cfg.group.map (·.view)
  | .path => cfg.path.map (·.view)
  | .shape name => (tableRules cfg.shape name).map (·.view)
  | .langShape lang name => (tableRules (cfg.langRules lang).shape name).map (·.view)
  | .langKind lang name => (tableRules (cfg.langRules lang).kinds name).map (·.view)

def langSections (lang : Option Lang) : List Section :=
  (cfg.langRules lang).shape.keys.map (.langShape lang) ++
    (cfg.langRules lang).kinds.keys.map (.langKind lang)

/-- The sections in the order of every traversal. -/
def sections : List Section :=
  [.refs, .symbol, .group, .path] ++ cfg.shape.keys.map .shape ++
    (none :: allLangs.map some).flatMap cfg.langSections

/-- `for_each_rule_key` : the key and the checked expressions of each rule with an id. -/
def ruleKeys : List (Bytes × List Bytes) :=
  cfg.sections.flatMap fun s =>
    (cfg.rulesAt s).filterMap fun r =>
      r.id.map fun id => (s.label ++ byteString "." ++ id, r.checked)

def countRules : ℕ := (cfg.sections.map fun s => (cfg.rulesAt s).length).sum

end Config

theorem mem_allLangs (lang : Lang) : lang ∈ allLangs := by cases lang <;> decide

open Config

/-- A section with rules is visited. -/
theorem mem_sections {cfg : Config} {s : Section} {r : RuleView} (h : r ∈ cfg.rulesAt s) :
    s ∈ cfg.sections := by
  have hkey : ∀ {table : AList fun _ : Bytes => KindRules} {name : Bytes},
      r ∈ (tableRules table name).map (·.view) → name ∈ table.keys := by
    intro table name hr
    by_contra hname
    have hnone : table.lookup name = none :=
      AList.lookup_eq_none.mpr fun hmem => hname (AList.mem_keys.mp hmem)
    rw [tableRules, hnone] at hr
    simp at hr
  have hlang : ∀ lang : Option Lang, lang ∈ none :: allLangs.map some := by
    rintro (_ | lang)
    · simp
    · simp [mem_allLangs]
  cases s with
  | refs | symbol | group | path => simp [Config.sections]
  | shape name => simp [Config.sections, hkey h]
  | langShape lang name =>
    refine mem_append_right _ (mem_flatMap.mpr ⟨lang, hlang lang, ?_⟩)
    simp [langSections, hkey h]
  | langKind lang name =>
    refine mem_append_right _ (mem_flatMap.mpr ⟨lang, hlang lang, ?_⟩)
    simp [langSections, hkey h]

/-! ## Rewriting -/

def mapTable (f : KindRules → KindRules) (table : AList fun _ : Bytes => KindRules) :
    AList fun _ : Bytes => KindRules where
  entries := table.entries.map fun e => ⟨e.1, f e.2⟩
  nodupKeys := by
    have hkeys : (table.entries.map fun e => (⟨e.1, f e.2⟩ : Sigma fun _ : Bytes => KindRules)).keys =
        table.entries.keys := by
      simp [List.keys, Function.comp_def]
    rw [List.NodupKeys, hkeys]
    exact table.nodupKeys

theorem dlookup_map {f : KindRules → KindRules} {k : Bytes} :
    ∀ l : List (Sigma fun _ : Bytes => KindRules),
      (l.map fun e => (⟨e.1, f e.2⟩ : Sigma fun _ : Bytes => KindRules)).dlookup k =
        (l.dlookup k).map f
  | [] => rfl
  | ⟨k', v⟩ :: l => by
    rw [map_cons]
    by_cases hk : k = k'
    · subst hk
      rw [dlookup_cons_eq, dlookup_cons_eq, Option.map_some]
    · rw [dlookup_cons_ne _ _ hk, dlookup_cons_ne _ _ hk, dlookup_map l]

theorem lookup_mapTable {f : KindRules → KindRules} {table : AList fun _ : Bytes => KindRules}
    {k : Bytes} : (mapTable f table).lookup k = (table.lookup k).map f := dlookup_map table.entries

/-- What a pass does with the rules of each kind. -/
structure RuleMap where
  rule : RuleEntry → RuleEntry
  group : WorkspaceGroupRuleEntry → WorkspaceGroupRuleEntry
  path : WorkspacePathRuleEntry → WorkspacePathRuleEntry

namespace RuleMap

def kindRules (m : RuleMap) (kr : KindRules) : KindRules := { kr with rules := kr.rules.map m.rule }

def langRules (m : RuleMap) (lr : LangRules) : LangRules where
  shape := mapTable m.kindRules lr.shape
  kinds := mapTable m.kindRules lr.kinds

/-- A pass over every rule of a configuration. -/
def apply (m : RuleMap) (cfg : Config) : Config :=
  { cfg with
    refs := cfg.refs.map m.rule
    symbol := m.kindRules cfg.symbol
    group := cfg.group.map m.group
    path := cfg.path.map m.path
    shape := mapTable m.kindRules cfg.shape
    default := m.langRules cfg.default
    lang := fun lang => m.langRules (cfg.lang lang) }

/-- The pass as a function of what the traversals read. -/
structure Views (m : RuleMap) (v : RuleView → RuleView) : Prop where
  rule : ∀ r, (m.rule r).view = v r.view
  group : ∀ r, (m.group r).view = v r.view
  path : ∀ r, (m.path r).view = v r.view

theorem tableRules_mapTable (m : RuleMap) (table : AList fun _ : Bytes => KindRules)
    (name : Bytes) : tableRules (mapTable m.kindRules table) name = (tableRules table name).map m.rule := by
  rw [tableRules, tableRules, lookup_mapTable]
  cases table.lookup name <;> rfl

/-- A pass changes the rules of each section one by one. -/
theorem rulesAt_apply {m : RuleMap} {v : RuleView → RuleView} (h : m.Views v) (cfg : Config)
    (s : Section) : (m.apply cfg).rulesAt s = (cfg.rulesAt s).map v := by
  have hrule : ∀ rules : List RuleEntry,
      (rules.map m.rule).map (·.view) = (rules.map (·.view)).map v := by
    intro rules
    simp only [map_map]
    exact map_congr_left fun r _ => h.rule r
  cases s with
  | refs => exact hrule _
  | symbol => exact hrule _
  | group =>
    simp only [rulesAt, apply, map_map]
    exact map_congr_left fun r _ => h.group r
  | path =>
    simp only [rulesAt, apply, map_map]
    exact map_congr_left fun r _ => h.path r
  | shape name =>
    simp only [rulesAt, apply, tableRules_mapTable]
    exact hrule _
  | langShape lang name =>
    have htable : ((m.apply cfg).langRules lang).shape =
        mapTable m.kindRules (cfg.langRules lang).shape := by cases lang <;> rfl
    simp only [rulesAt, htable, tableRules_mapTable]
    exact hrule _
  | langKind lang name =>
    have htable : ((m.apply cfg).langRules lang).kinds =
        mapTable m.kindRules (cfg.langRules lang).kinds := by cases lang <;> rfl
    simp only [rulesAt, htable, tableRules_mapTable]
    exact hrule _

variable (marker : RuleSourceMarker)

/-- `mark_rule_sources`. -/
def markSources : RuleMap where
  rule r := { r with source := some marker }
  group r := { r with source := some marker }
  path r := { r with source := some marker }

theorem views_markSources : (markSources marker).Views id :=
  ⟨fun _ => rfl, fun _ => rfl, fun _ => rfl⟩

theorem rulesAt_markSources (cfg : Config) (s : Section) :
    ((markSources marker).apply cfg).rulesAt s = cfg.rulesAt s := by
  rw [rulesAt_apply (views_markSources marker), map_id]

end RuleMap

/-! ## Merging -/

/-- A rule replaces the first rule with its id, or is added. `merge_refs`, `merge_group`,
`merge_path` and the rules of `merge_kind` are this loop. -/
def mergeRules {R : Type} (idOf : R → Option Bytes) (base ov : List R) : List R :=
  ov.foldl
    (fun base r =>
      match (idOf r).bind fun id => base.findIdx? fun b => idOf b = some id with
      | some index => base.set index r
      | none => base ++ [r])
    base

def mergeKind (base ov : KindRules) : KindRules where
  rules := mergeRules (·.id) base.rules ov.rules
  requireDocComment := ov.requireDocComment.or base.requireDocComment

section Tables

variable {V : Type}

/-- Every entry of `ov` goes in under its key, combined with what is there. -/
def mergeTable (combine : Option V → V → V) (base ov : AList fun _ : Bytes => V) :
    AList fun _ : Bytes => V :=
  ov.entries.foldl (fun base e => base.insert e.1 (combine (base.lookup e.1) e.2)) base

theorem lookup_foldl_merge {combine : Option V → V → V} {k : Bytes} :
    ∀ {l : List (Sigma fun _ : Bytes => V)} {base : AList fun _ : Bytes => V}, l.NodupKeys →
      (l.foldl (fun base e => base.insert e.1 (combine (base.lookup e.1) e.2)) base).lookup k =
        match l.dlookup k with
        | some v => some (combine (base.lookup k) v)
        | none => base.lookup k
  | [], _, _ => by simp
  | ⟨k', v⟩ :: l, base, h => by
    obtain ⟨hk', hl⟩ := nodupKeys_cons.mp h
    rw [foldl_cons, lookup_foldl_merge hl]
    by_cases hk : k = k'
    · subst hk
      have hnone : l.dlookup k = none := dlookup_eq_none.mpr hk'
      rw [hnone, AList.lookup_insert, dlookup_cons_eq]
    · rw [AList.lookup_insert_ne hk, dlookup_cons_ne _ _ hk]

theorem lookup_mergeTable {combine : Option V → V → V} {base ov : AList fun _ : Bytes => V}
    {k : Bytes} : (mergeTable combine base ov).lookup k = match ov.lookup k with
      | some v => some (combine (base.lookup k) v)
      | none => base.lookup k :=
  lookup_foldl_merge ov.nodupKeys

end Tables

/-- `merge_shape_map`, and the loop over the kinds of a language. -/
def mergeKinds (base ov : AList fun _ : Bytes => KindRules) : AList fun _ : Bytes => KindRules :=
  mergeTable (fun
    | some baseRules => mergeKind baseRules
    | none => id) base ov

def mergeLang (base ov : LangRules) : LangRules where
  shape := mergeKinds base.shape ov.shape
  kinds := mergeKinds base.kinds ov.kinds

def mergeAliases (base ov : Aliases) : Aliases := mergeTable (fun _ body => body) base ov

/-- `config::merge_into`. -/
def mergeConfig (base ov : Config) : Config where
  aliases := mergeAliases base.aliases ov.aliases
  refs := mergeRules (·.id) base.refs ov.refs
  minLinkageCoverage := ov.minLinkageCoverage.or base.minLinkageCoverage
  symbol := mergeKind base.symbol ov.symbol
  group := mergeRules (·.id) base.group ov.group
  path := mergeRules (·.id) base.path ov.path
  shape := mergeKinds base.shape ov.shape
  default := mergeLang base.default ov.default
  lang lang := mergeLang (base.lang lang) (ov.lang lang)
  fragments := base.fragments

theorem lookup_mergeAliases {base ov : Aliases} {name : Bytes} :
    (mergeAliases base ov).lookup name = (ov.lookup name).or (base.lookup name) := by
  rw [mergeAliases, lookup_mergeTable]
  cases ov.lookup name <;> rfl

def ruleIds (rules : List RuleView) : List Bytes := rules.filterMap (·.id)

/-- The rules of `ov` have ids of their own. -/
structure Fresh (base ov : List RuleView) : Prop where
  nodup : (ruleIds ov).Nodup
  new : ∀ id ∈ ruleIds ov, id ∉ ruleIds base

theorem mergeRules_eq_append {R : Type} {idOf : R → Option Bytes} : ∀ {ov base : List R},
    (ov.filterMap idOf).Nodup → (∀ id ∈ ov.filterMap idOf, id ∉ base.filterMap idOf) →
      mergeRules idOf base ov = base ++ ov
  | [], base, _, _ => by simp [mergeRules]
  | r :: ov, base, hnodup, hnew => by
    have hstep : mergeRules idOf base (r :: ov) = mergeRules idOf (base ++ [r]) ov := by
      rw [mergeRules, foldl_cons]
      cases hid : idOf r with
      | none => rfl
      | some id =>
        have hnone : base.findIdx? (fun b => idOf b = some id) = none := by
          rw [findIdx?_eq_none_iff]
          intro b hb
          have hid' : id ∉ base.filterMap idOf := hnew id (by simp [hid])
          have hne : idOf b ≠ some id := fun heq => hid' (mem_filterMap.mpr ⟨b, hb, heq⟩)
          simpa using hne
        rw [Option.bind_some, hnone]
        rfl
    rw [hstep, @mergeRules_eq_append R idOf ov]
    · rw [append_assoc, singleton_append]
    · exact (Sublist.filterMap idOf (sublist_cons_self r ov)).nodup hnodup
    · intro id hid hbase
      rw [filterMap_append, mem_append] at hbase
      rcases hbase with hbase | hbase
      · refine hnew id ?_ hbase
        exact (Sublist.filterMap idOf (sublist_cons_self r ov)).subset hid
      · obtain ⟨r', hr', heq⟩ := mem_filterMap.mp hbase
        obtain rfl := mem_singleton.mp hr'
        rw [filterMap_cons, heq] at hnodup
        exact (nodup_cons.mp hnodup).1 hid

/-- The rules of a table after a merge. -/
theorem tableRules_mergeKinds {base ov : AList fun _ : Bytes => KindRules} {name : Bytes}
    (hnodup : ((tableRules ov name).filterMap (·.id)).Nodup)
    (hnew : ∀ id ∈ (tableRules ov name).filterMap (·.id),
      id ∉ (tableRules base name).filterMap (·.id)) :
    tableRules (mergeKinds base ov) name = tableRules base name ++ tableRules ov name := by
  unfold tableRules at hnodup hnew ⊢
  rw [mergeKinds, lookup_mergeTable]
  cases hov : ov.lookup name with
  | none => simp
  | some ovRules =>
    rw [hov] at hnodup hnew
    cases hbase : base.lookup name with
    | none => simp
    | some baseRules =>
      rw [hbase] at hnew
      exact mergeRules_eq_append hnodup hnew

theorem ruleIds_map {R : Type} (view : R → RuleView) (rules : List R) :
    ruleIds (rules.map view) = rules.filterMap fun r => (view r).id :=
  filterMap_map

/-- Merging appends rules with ids of their own. -/
theorem rulesAt_mergeConfig {base ov : Config} {s : Section}
    (h : Fresh (base.rulesAt s) (ov.rulesAt s)) :
    (mergeConfig base ov).rulesAt s = base.rulesAt s ++ ov.rulesAt s := by
  obtain ⟨hnodup, hnew⟩ := h
  cases s with
  | refs | group | path =>
    simp only [rulesAt, ruleIds_map] at hnodup hnew
    simp only [rulesAt, mergeConfig, ← map_append]
    exact congrArg _ (mergeRules_eq_append hnodup hnew)
  | symbol =>
    simp only [rulesAt, ruleIds_map] at hnodup hnew
    simp only [rulesAt, mergeConfig, mergeKind, ← map_append]
    exact congrArg _ (mergeRules_eq_append hnodup hnew)
  | shape name =>
    simp only [rulesAt, ruleIds_map] at hnodup hnew
    simp only [rulesAt, mergeConfig, ← map_append]
    exact congrArg _ (tableRules_mergeKinds hnodup hnew)
  | langShape lang name =>
    simp only [rulesAt, ruleIds_map] at hnodup hnew
    have htable : ((mergeConfig base ov).langRules lang).shape =
        mergeKinds (base.langRules lang).shape (ov.langRules lang).shape := by cases lang <;> rfl
    simp only [rulesAt, htable, ← map_append]
    exact congrArg _ (tableRules_mergeKinds hnodup hnew)
  | langKind lang name =>
    simp only [rulesAt, ruleIds_map] at hnodup hnew
    have htable : ((mergeConfig base ov).langRules lang).kinds =
        mergeKinds (base.langRules lang).kinds (ov.langRules lang).kinds := by cases lang <;> rfl
    simp only [rulesAt, htable, ← map_append]
    exact congrArg _ (tableRules_mergeKinds hnodup hnew)

end CodeMoniker.Fragments
