import CodeMoniker.PositionalNames
import CodeMoniker.RuleMerging

/-!
# What a profile selects

A profile keeps the rules whose full ids its patterns select. The ids are read before anything is
removed, so the rules that stay are the selected ones (`applyProfile_cases`). A rule without an id
is named by its position, and every rule is reported under the name it has after the filter : when a
rule is removed, the ones below it without an id move up and get other names. `applyProfile_iff`
says for which configurations no name changes and a second call changes nothing. The rule of
`require_doc_comment` is never removed.
-/

namespace CodeMoniker.Fragments

open List ByteCodec Upserts PositionalNames Config

/-! ## Names of rules -/

/-- The id of a rule that has none. `fallback_id` is `nameAt` with it. -/
def whereId (idx : ℕ) : Bytes := byteString s!"where_{idx}"

theorem whereId_injective : Function.Injective whereId := by
  intro i j h
  have hrepr : "where_" ++ Nat.repr i = "where_" ++ Nat.repr j :=
    String.toList_inj.mp (Utf8.encode_injective h)
  have hlist := congrArg String.toList hrepr
  rw [String.toList_append, String.toList_append, Nat.toList_repr, Nat.toList_repr] at hlist
  have hdigits := congrArg (Nat.ofDigitChars 10 · 0) (append_cancel_left hlist)
  rwa [Nat.ofDigitChars_ten_toDigits, Nat.ofDigitChars_ten_toDigits] at hdigits

/-- The id a rule is reported under in the section of a prefix. -/
def fullId (label id : Bytes) : Bytes := label ++ byteString "." ++ id

/-! ## Profiles -/

structure Profile where
  enable : List Bytes
  disable : List Bytes

structure RuleSource where
  kind : RuleSourceKind
  source : Option Bytes
  fragment : Option Bytes
  declaredId : Bytes
  localAliases : List Bytes

/-- A configuration with what a profile reads and writes. `requireDocSource` has the field of that
name of each section. -/
structure ProfiledConfig extends Config where
  profiles : AList fun _ : Bytes => Profile
  requireDocSource : Section → Option RuleSourceMarker
  ruleSources : AList fun _ : Bytes => RuleSource

/-- The crate for regular expressions. -/
structure PatternCrate where
  Regex : Type
  Error : Type
  new : Bytes → Except Error Regex
  isMatch : Regex → Bytes → Bool

inductive ProfileError (crate : PatternCrate) where
  | unknownProfile (name known : Bytes)
  | badProfileRegex (profile field pattern : Bytes) (error : crate.Error)

variable (crate : PatternCrate)

def compilePatterns (patterns : List Bytes) (profile field : Bytes) :
    Except (ProfileError crate) (List crate.Regex) :=
  patterns.mapM fun p => (crate.new p).mapError (.badProfileRegex profile field p)

variable {crate}

/-- What the filters keep. -/
def keeps (enable disable : List crate.Regex) (id : Bytes) : Bool :=
  (enable.isEmpty || enable.any (crate.isMatch · id)) && !disable.any (crate.isMatch · id)

/-- The loop of the three filters. -/
def filterRulesBy {R : Type} (idOf : R → Option Bytes) (label : Bytes)
    (enable disable : List crate.Regex) (rules : List R) : List R :=
  if rules.isEmpty || (enable.isEmpty && disable.isEmpty) then rules
  else retain idOf whereId (fun id => keeps enable disable (fullId label id)) rules

def filterRules (label : Bytes) (enable disable : List crate.Regex) (kr : KindRules) : KindRules :=
  { kr with rules := filterRulesBy RuleEntry.id label enable disable kr.rules }

def filterGroupRules (enable disable : List crate.Regex) (rules : List WorkspaceGroupRuleEntry) :
    List WorkspaceGroupRuleEntry :=
  filterRulesBy WorkspaceGroupRuleEntry.id (byteString "workspace.group") enable disable rules

def filterPathRules (enable disable : List crate.Regex) (rules : List WorkspacePathRuleEntry) :
    List WorkspacePathRuleEntry :=
  filterRulesBy WorkspacePathRuleEntry.id (byteString "workspace.path") enable disable rules

/-- A pass over a table that knows the keys. -/
def mapEntries (f : Bytes → KindRules → KindRules) (table : AList fun _ : Bytes => KindRules) :
    AList fun _ : Bytes => KindRules where
  entries := table.entries.map fun e => ⟨e.1, f e.1 e.2⟩
  nodupKeys := by
    have hkeys : (table.entries.map fun e =>
        (⟨e.1, f e.1 e.2⟩ : Sigma fun _ : Bytes => KindRules)).keys = table.entries.keys := by
      simp [List.keys, Function.comp_def]
    rw [List.NodupKeys, hkeys]
    exact table.nodupKeys

def filterShapeMap (table : AList fun _ : Bytes => KindRules) (label : Bytes)
    (enable disable : List crate.Regex) : AList fun _ : Bytes => KindRules :=
  mapEntries (fun shape => filterRules (fullId label shape) enable disable) table

def filterLang (lr : LangRules) (label : Bytes) (enable disable : List crate.Regex) :
    LangRules where
  shape := filterShapeMap lr.shape (label ++ byteString ".shape") enable disable
  kinds := mapEntries (fun kind => filterRules (fullId label kind) enable disable) lr.kinds

/-- The filters of `apply_profile`. -/
def filterConfig (enable disable : List crate.Regex) (cfg : Config) : Config :=
  { cfg with
    refs := filterRulesBy RuleEntry.id (byteString "refs") enable disable cfg.refs
    symbol := filterRules (byteString "workspace.symbol") enable disable cfg.symbol
    group := filterGroupRules enable disable cfg.group
    path := filterPathRules enable disable cfg.path
    shape := filterShapeMap cfg.shape (byteString "shape") enable disable
    default := filterLang cfg.default (byteString "default") enable disable
    lang := fun lang => filterLang (cfg.lang lang) (configSection lang) enable disable }

/-! ## Declarations -/

/-- What a section declares : its rules, and that documentation is required. -/
inductive Declared where
  | rule (r : SectionRule)
  | requireDocComment (visibility : Bytes)

def requireDocOfTable (table : AList fun _ : Bytes => KindRules) (name : Bytes) : Option Bytes :=
  (table.lookup name).bind (·.requireDocComment)

namespace Config

def requireDocIn (cfg : Config) : Section → Option Bytes
  | .refs | .group | .path => none
  | .symbol => cfg.symbol.requireDocComment
  | .shape name => requireDocOfTable cfg.shape name
  | .langShape lang name => requireDocOfTable (cfg.langRules lang).shape name
  | .langKind lang name => requireDocOfTable (cfg.langRules lang).kinds name

/-- The rules of a section with the ids they are reported under. -/
def reportedRules (cfg : Config) (s : Section) : List (Bytes × SectionRule) :=
  (named SectionRule.id whereId (cfg.mergedRules s)).map fun e => (fullId s.label e.1, e.2)

def requireDocId (s : Section) : Bytes := fullId s.label (byteString "require_doc_comment")

/-- The rule of `require_doc_comment` with the id it is reported under. -/
def reportedDoc (cfg : Config) (s : Section) : Option (Bytes × Bytes) :=
  (cfg.requireDocIn s).map fun visibility => (requireDocId s, visibility)

/-- The ids of a section as they are declared. -/
def declarationsIn (cfg : Config) (s : Section) : List (Bytes × Declared) :=
  (named SectionRule.id whereId (cfg.mergedRules s)).map (fun e => (e.1, .rule e.2)) ++
    ((cfg.requireDocIn s).map fun visibility =>
      (byteString "require_doc_comment", .requireDocComment visibility)).toList

/-- `collect_rule_keys`. -/
def ruleDeclarationKeys (cfg : Config) : List Bytes :=
  cfg.sections.flatMap fun s => (cfg.declarationsIn s).map fun d => fullId s.label d.1

def refreshFragmentActiveRules (cfg : Config) : Config :=
  if cfg.fragments.isEmpty then cfg
  else
    { cfg with
      fragments := cfg.fragments.map fun f =>
        { f with
          activeRules :=
            if f.enabled then (f.ruleKeys.filter (· ∈ cfg.ruleDeclarationKeys)).length else 0 } }

end Config

def SectionRule.source : SectionRule → Option RuleSourceMarker
  | entry r => r.source
  | group r => r.source
  | path r => r.source

def ruleSourceOf (marker : RuleSourceMarker) (declaredId : Bytes) : RuleSource where
  kind := marker.kind
  source := marker.source
  fragment := marker.fragment
  declaredId := (marker.fragment.bind fun fragment =>
    declaredId.dropPrefix? (fragment ++ byteString ".")).getD declaredId
  localAliases := marker.localAliases

namespace ProfiledConfig

def marker (cfg : ProfiledConfig) (s : Section) : Declared → Option RuleSourceMarker
  | .rule r => r.source
  | .requireDocComment _ => cfg.requireDocSource s

/-- The marked declarations in their order. -/
def markedDeclarations (cfg : ProfiledConfig) : List (Bytes × RuleSource) :=
  cfg.sections.flatMap fun s => (cfg.declarationsIn s).filterMap fun d =>
    (cfg.marker s d.2).map fun marker => (fullId s.label d.1, ruleSourceOf marker d.1)

def rebuildRuleSources (cfg : ProfiledConfig) : ProfiledConfig :=
  { cfg with
    ruleSources := cfg.markedDeclarations.foldl (fun sources e => sources.insert e.1 e.2) ∅ }

def knownProfiles (cfg : ProfiledConfig) : Bytes := joinNames (sortedNames cfg.profiles.keys)

variable (crate)

def profileNamed (cfg : ProfiledConfig) (name : Bytes) : Except (ProfileError crate) Profile :=
  match cfg.profiles.lookup name with
  | some profile => .ok profile
  | none => .error (.unknownProfile name cfg.knownProfiles)

def applyProfile (cfg : ProfiledConfig) (name : Bytes) :
    Except (ProfileError crate) ProfiledConfig := do
  let profile ← cfg.profileNamed crate name
  let enable ← compilePatterns crate profile.enable name (byteString "enable")
  let disable ← compilePatterns crate profile.disable name (byteString "disable")
  let filtered := (filterConfig enable disable cfg.toConfig).refreshFragmentActiveRules
  return rebuildRuleSources { cfg with toConfig := filtered }

end ProfiledConfig

/-! ## The filters -/

theorem filterRulesBy_eq {R : Type} (idOf : R → Option Bytes) (label : Bytes)
    (enable disable : List crate.Regex) (rules : List R) :
    filterRulesBy idOf label enable disable rules =
      retain idOf whereId (fun id => keeps enable disable (fullId label id)) rules := by
  unfold filterRulesBy
  split_ifs with h
  · rw [Bool.or_eq_true, Bool.and_eq_true] at h
    refine (retainFrom_eq_self_iff.mpr fun e he => ?_).symm
    rcases h with h | ⟨henable, hdisable⟩
    · rw [List.isEmpty_iff.mp h] at he
      cases he
    · rw [List.isEmpty_iff.mp henable, List.isEmpty_iff.mp hdisable]
      rfl
  · rfl

variable {f : Bytes → KindRules → KindRules}

theorem lookup_mapEntries {table : AList fun _ : Bytes => KindRules} {k : Bytes} :
    (mapEntries f table).lookup k = (table.lookup k).map (f k) := by
  change (table.entries.map fun e => (⟨e.1, f e.1 e.2⟩ : Sigma fun _ : Bytes => KindRules)).dlookup
    k = (table.entries.dlookup k).map (f k)
  induction table.entries with
  | nil => rfl
  | cons e l ih =>
    obtain ⟨k', v⟩ := e
    rw [map_cons]
    by_cases hk : k = k'
    · subst hk
      rw [dlookup_cons_eq, dlookup_cons_eq, Option.map_some]
    · rw [dlookup_cons_ne _ _ hk, dlookup_cons_ne _ _ hk, ih]

/-- What is kept of the rules of a section. -/
def retainIn (enable disable : List crate.Regex) (s : Section) (rules : List SectionRule) :
    List SectionRule :=
  retain SectionRule.id whereId (fun id => keeps enable disable (fullId s.label id)) rules

variable (enable disable : List crate.Regex)

theorem rulesOfTable_mapEntries {s : Section}
    {name label : Bytes} (hlabel : label = s.label) (table : AList fun _ : Bytes => KindRules)
    {f : Bytes → KindRules → KindRules} (hf : f name = filterRules label enable disable) :
    rulesOfTable (mapEntries f table) name =
      (rulesOfTable table name).map (retainIn enable disable s) := by
  unfold rulesOfTable
  rw [lookup_mapEntries, hf]
  cases table.lookup name with
  | none => rfl
  | some kr =>
    simp only [Option.map_some, filterRules, filterRulesBy_eq, retainIn, retain_map, hlabel]
    rfl

theorem requireDocOfTable_mapEntries {name label : Bytes}
    (table : AList fun _ : Bytes => KindRules) {f : Bytes → KindRules → KindRules}
    (hf : f name = filterRules label enable disable) :
    requireDocOfTable (mapEntries f table) name = requireDocOfTable table name := by
  unfold requireDocOfTable
  rw [lookup_mapEntries, hf]
  cases table.lookup name <;> rfl

theorem fullId_assoc (a b c : Bytes) (h : b ++ byteString "." = c) (name : Bytes) :
    fullId (a ++ b) name = a ++ c ++ name := by
  rw [fullId, append_assoc a, h]

variable (cfg : Config)

theorem langRules_filterConfig (lang : Option Lang) :
    (filterConfig enable disable cfg).langRules lang =
      filterLang (cfg.langRules lang) (langSection lang) enable disable := by
  cases lang <;> rfl

variable (s : Section)

theorem rulesIn_filterConfig : (filterConfig enable disable cfg).rulesIn s =
      (cfg.rulesIn s).map (retainIn enable disable s) := by
  cases s with
  | refs | symbol | group | path =>
    simp only [rulesIn, filterConfig, filterRules, filterGroupRules, filterPathRules,
      filterRulesBy_eq, retainIn, retain_map, Option.map_some]
    rfl
  | shape name => exact rulesOfTable_mapEntries enable disable rfl cfg.shape rfl
  | langShape lang name =>
    rw [rulesIn, langRules_filterConfig]
    exact rulesOfTable_mapEntries enable disable
      (fullId_assoc _ (byteString ".shape") (byteString ".shape.") (by decide) name) _ rfl
  | langKind lang name =>
    rw [rulesIn, langRules_filterConfig]
    exact rulesOfTable_mapEntries enable disable rfl _ rfl

theorem mergedRules_filterConfig : (filterConfig enable disable cfg).mergedRules s =
      retainIn enable disable s (cfg.mergedRules s) := by
  unfold mergedRules
  rw [rulesIn_filterConfig]
  cases cfg.rulesIn s <;> rfl

theorem requireDocIn_filterConfig :
    (filterConfig enable disable cfg).requireDocIn s = cfg.requireDocIn s := by
  cases s with
  | refs | symbol | group | path => rfl
  | shape name => exact requireDocOfTable_mapEntries enable disable cfg.shape rfl
  | langShape lang name =>
    rw [requireDocIn, langRules_filterConfig]
    exact requireDocOfTable_mapEntries enable disable _ rfl
  | langKind lang name =>
    rw [requireDocIn, langRules_filterConfig]
    exact requireDocOfTable_mapEntries enable disable _ rfl

/-! ## The selection rule -/

section Selection

variable (crate)

/-- A pattern that is no regular expression matches nothing. -/
def patternMatches (pattern id : Bytes) : Bool :=
  match crate.new pattern with
  | .ok regex => crate.isMatch regex id
  | .error _ => false

/-- Some `enable` pattern matches, or there is none, and no `disable` pattern matches. -/
def Profile.selects (profile : Profile) (id : Bytes) : Bool :=
  (profile.enable.isEmpty || profile.enable.any (patternMatches crate · id)) &&
    !profile.disable.any (patternMatches crate · id)

def Profile.Compiles (profile : Profile) : Prop :=
  ∀ pattern ∈ profile.enable ++ profile.disable, (crate.new pattern).isOk = true

instance (profile : Profile) : Decidable (profile.Compiles crate) :=
  inferInstanceAs (Decidable (∀ pattern ∈ _, _ = true))

variable {crate}

theorem any_of_compilePatterns {patterns : List Bytes} {name field : Bytes}
    {regexes : List crate.Regex} (h : compilePatterns crate patterns name field = .ok regexes) :
    regexes.isEmpty = patterns.isEmpty ∧
      ∀ id, regexes.any (crate.isMatch · id) = patterns.any (patternMatches crate · id) := by
  induction patterns generalizing regexes with
  | nil =>
    obtain rfl := Except.ok.inj h
    exact ⟨rfl, fun _ => rfl⟩
  | cons p patterns ih =>
    rw [compilePatterns, mapM_cons] at h
    obtain ⟨regex, hregex, h⟩ := bind_eq_ok.mp h
    obtain ⟨rest, hrest, h⟩ := bind_eq_ok.mp h
    obtain rfl := Except.ok.inj h
    refine ⟨rfl, fun id => ?_⟩
    have hnew : crate.new p = .ok regex := by
      cases hp : crate.new p with
      | error e => rw [hp] at hregex; cases hregex
      | ok r => rw [hp] at hregex; rw [Except.ok.inj hregex]
    have hmatch : patternMatches crate p id = crate.isMatch regex id := by
      rw [patternMatches, hnew]
    rw [any_cons, any_cons, (ih hrest).2 id, hmatch]

theorem compilePatterns_isOk {patterns : List Bytes} {name field : Bytes} :
    (∃ regexes, compilePatterns crate patterns name field = .ok regexes) ↔
      ∀ pattern ∈ patterns, (crate.new pattern).isOk = true := by
  induction patterns with
  | nil => exact iff_of_true ⟨[], rfl⟩ fun _ h => nomatch h
  | cons p patterns ih =>
    rw [forall_mem_cons, ← ih]
    constructor
    · rintro ⟨regexes, h⟩
      rw [compilePatterns, mapM_cons] at h
      obtain ⟨regex, hregex, h⟩ := bind_eq_ok.mp h
      obtain ⟨rest, hrest, -⟩ := bind_eq_ok.mp h
      refine ⟨?_, rest, hrest⟩
      cases hp : crate.new p with
      | error e => rw [hp] at hregex; cases hregex
      | ok r => rfl
    · rintro ⟨hp, rest, hrest⟩
      cases hnew : crate.new p with
      | error e => rw [hnew] at hp; cases hp
      | ok regex =>
        refine ⟨regex :: rest, ?_⟩
        rw [compilePatterns, mapM_cons]
        refine bind_eq_ok.mpr ⟨regex, by rw [hnew]; rfl, bind_eq_ok.mpr ⟨rest, hrest, rfl⟩⟩

end Selection

/-! ## A call -/

/-- A call with these expressions. -/
def selectWith (enable disable : List crate.Regex) (cfg : ProfiledConfig) : ProfiledConfig :=
  ProfiledConfig.rebuildRuleSources
    { cfg with
      toConfig := (filterConfig enable disable cfg.toConfig).refreshFragmentActiveRules }

theorem profileNamed_eq_ok {cfg : ProfiledConfig} {name : Bytes} {profile : Profile} :
    cfg.profileNamed crate name = .ok profile ↔ cfg.profiles.lookup name = some profile := by
  unfold ProfiledConfig.profileNamed
  cases cfg.profiles.lookup name with
  | none => exact iff_of_false (fun h => nomatch h) fun h => nomatch h
  | some p => exact ⟨fun h => congrArg some (Except.ok.inj h), fun h => Option.some.inj h ▸ rfl⟩

theorem applyProfile_eq_ok {cfg cfg' : ProfiledConfig} {name : Bytes} :
    cfg.applyProfile crate name = .ok cfg' ↔ ∃ profile enable disable,
      cfg.profiles.lookup name = some profile ∧
      compilePatterns crate profile.enable name (byteString "enable") = .ok enable ∧
      compilePatterns crate profile.disable name (byteString "disable") = .ok disable ∧
      cfg' = selectWith enable disable cfg := by
  unfold ProfiledConfig.applyProfile
  constructor
  · intro h
    obtain ⟨profile, hprofile, h⟩ := bind_eq_ok.mp h
    obtain ⟨enable, henable, h⟩ := bind_eq_ok.mp h
    obtain ⟨disable, hdisable, h⟩ := bind_eq_ok.mp h
    refine ⟨profile, enable, disable, ?_, henable, hdisable, (Except.ok.inj h).symm⟩
    exact profileNamed_eq_ok.mp hprofile
  · rintro ⟨profile, enable, disable, hprofile, henable, hdisable, rfl⟩
    exact bind_eq_ok.mpr ⟨profile, profileNamed_eq_ok.mpr hprofile, bind_eq_ok.mpr ⟨enable, henable,
      bind_eq_ok.mpr ⟨disable, hdisable, rfl⟩⟩⟩

variable {profile : Profile} {name : Bytes}

theorem keeps_eq_selects {enable disable : List crate.Regex}
    (henable : compilePatterns crate profile.enable name (byteString "enable") = .ok enable)
    (hdisable : compilePatterns crate profile.disable name (byteString "disable") = .ok disable)
    (id : Bytes) : keeps enable disable id = profile.selects crate id := by
  rw [keeps, Profile.selects, (any_of_compilePatterns henable).1,
    (any_of_compilePatterns henable).2, (any_of_compilePatterns hdisable).2]

theorem mergedRules_refresh : cfg.refreshFragmentActiveRules.mergedRules s = cfg.mergedRules s := by
  unfold refreshFragmentActiveRules
  split_ifs
  · rfl
  · cases s <;> rfl

theorem requireDocIn_refresh :
    cfg.refreshFragmentActiveRules.requireDocIn s = cfg.requireDocIn s := by
  unfold refreshFragmentActiveRules
  split_ifs
  · rfl
  · cases s <;> rfl

theorem mergedRules_selectWith (cfg : ProfiledConfig)
    (s : Section) : (selectWith enable disable cfg).mergedRules s =
      retainIn enable disable s (cfg.mergedRules s) :=
  (mergedRules_refresh _ s).trans (mergedRules_filterConfig enable disable cfg.toConfig s)

theorem requireDocIn_selectWith (cfg : ProfiledConfig)
    (s : Section) : (selectWith enable disable cfg).requireDocIn s = cfg.requireDocIn s :=
  (requireDocIn_refresh _ s).trans (requireDocIn_filterConfig enable disable cfg.toConfig s)

/-! ## Calling twice -/

theorem mapEntries_eq_self {table : AList fun _ : Bytes => KindRules}
    (h : ∀ name kr, table.lookup name = some kr → f name kr = kr) : mapEntries f table = table := by
  refine AList.ext ?_
  have hentry : ∀ e ∈ table.entries, (⟨e.1, f e.1 e.2⟩ : Sigma fun _ : Bytes => KindRules) = e := by
    rintro ⟨name, kr⟩ he
    rw [h name kr (AList.mem_lookup_iff.mpr he)]
  exact (map_congr_left hentry).trans (map_id _)

/-- Rules that stay in a section stay in its list. -/
theorem filterRulesBy_eq_self {R : Type} {idOf : R → Option Bytes} {f : R → SectionRule}
    (hf : Function.Injective f) (hid : SectionRule.id ∘ f = idOf) {s : Section}
    {enable disable : List crate.Regex} {rules : List R}
    (h : retainIn enable disable s (rules.map f) = rules.map f) :
    filterRulesBy idOf s.label enable disable rules = rules := by
  rw [retainIn, retain_map, hid] at h
  rw [filterRulesBy_eq]
  exact map_injective_iff.mpr hf h

theorem filterRules_eq_self {s : Section} {label : Bytes} {enable disable : List crate.Regex}
    {kr : KindRules} (hlabel : label = s.label)
    (h : retainIn enable disable s (kr.rules.map .entry) = kr.rules.map .entry) :
    filterRules label enable disable kr = kr := by
  have hrules : filterRulesBy RuleEntry.id s.label enable disable kr.rules = kr.rules :=
    filterRulesBy_eq_self (fun _ _ => SectionRule.entry.inj) rfl h
  rw [filterRules, hlabel, hrules]

variable {enable disable : List crate.Regex}

/-- The filters change nothing where every section stays as it is. -/
theorem filterConfig_eq_self {cfg : Config}
    (h : ∀ s, retainIn enable disable s (cfg.mergedRules s) = cfg.mergedRules s) :
    filterConfig enable disable cfg = cfg := by
  have hlang : ∀ lang : Option Lang,
      filterLang (cfg.langRules lang) (langSection lang) enable disable = cfg.langRules lang := by
    intro lang
    have hshape : filterShapeMap (cfg.langRules lang).shape
        (langSection lang ++ byteString ".shape") enable disable =
          (cfg.langRules lang).shape := by
      refine mapEntries_eq_self fun name kr hkr => ?_
      have hsection := h (.langShape lang name)
      rw [mergedRules, rulesIn, rulesOfTable, hkr] at hsection
      exact filterRules_eq_self (fullId_assoc _ (byteString ".shape") (byteString ".shape.")
        (by decide) name) hsection
    have hkinds : mapEntries (fun kind => filterRules (fullId (langSection lang) kind) enable
        disable) (cfg.langRules lang).kinds = (cfg.langRules lang).kinds := by
      refine mapEntries_eq_self fun name kr hkr => ?_
      have hsection := h (.langKind lang name)
      rw [mergedRules, rulesIn, rulesOfTable, hkr] at hsection
      exact filterRules_eq_self (s := .langKind lang name) rfl hsection
    rw [filterLang, hshape, hkinds]
  have hshape : filterShapeMap cfg.shape (byteString "shape") enable disable = cfg.shape := by
    refine mapEntries_eq_self fun name kr hkr => ?_
    have hsection := h (.shape name)
    rw [mergedRules, rulesIn, rulesOfTable, hkr] at hsection
    exact filterRules_eq_self (s := .shape name) rfl hsection
  have hrefs : filterRulesBy RuleEntry.id (byteString "refs") enable disable cfg.refs = cfg.refs :=
    filterRulesBy_eq_self (fun _ _ => SectionRule.entry.inj) rfl (h .refs)
  have hsymbol : filterRules (byteString "workspace.symbol") enable disable cfg.symbol =
      cfg.symbol := filterRules_eq_self (s := .symbol) rfl (h .symbol)
  have hgroup : filterGroupRules enable disable cfg.group = cfg.group :=
    filterRulesBy_eq_self (fun _ _ => SectionRule.group.inj) rfl (h .group)
  have hpath : filterPathRules enable disable cfg.path = cfg.path :=
    filterRulesBy_eq_self (fun _ _ => SectionRule.path.inj) rfl (h .path)
  have hdefault : filterLang cfg.default (byteString "default") enable disable = cfg.default :=
    hlang none
  have hlangs : (fun lang => filterLang (cfg.lang lang) (configSection lang) enable disable) =
      cfg.lang := funext fun lang => hlang (some lang)
  rw [filterConfig, hrefs, hsymbol, hgroup, hpath, hshape, hdefault, hlangs]

theorem refresh_refresh :
    cfg.refreshFragmentActiveRules.refreshFragmentActiveRules = cfg.refreshFragmentActiveRules := by
  by_cases h : cfg.fragments.isEmpty
  · have hself : cfg.refreshFragmentActiveRules = cfg := if_pos h
    rw [hself, hself]
  · have hkeys : cfg.refreshFragmentActiveRules.ruleDeclarationKeys = cfg.ruleDeclarationKeys := by
      rw [refreshFragmentActiveRules, if_neg h]
      rfl
    have hne : ¬cfg.refreshFragmentActiveRules.fragments.isEmpty := by
      rw [refreshFragmentActiveRules, if_neg h]
      simpa using h
    conv_lhs => rw [refreshFragmentActiveRules, if_neg hne, hkeys]
    rw [refreshFragmentActiveRules, if_neg h]
    simp [Function.comp_def]

/-- A second call changes nothing if every section stays as the first call leaves it. -/
theorem selectWith_selectWith {cfg : ProfiledConfig}
    (h : ∀ s, retainIn enable disable s (retainIn enable disable s (cfg.mergedRules s)) =
      retainIn enable disable s (cfg.mergedRules s)) :
    selectWith enable disable (selectWith enable disable cfg) = selectWith enable disable cfg := by
  have hfilter : filterConfig enable disable (selectWith enable disable cfg).toConfig =
      (selectWith enable disable cfg).toConfig := by
    refine filterConfig_eq_self fun s => ?_
    rw [mergedRules_selectWith]
    exact h s
  have hrefresh : (selectWith enable disable cfg).toConfig.refreshFragmentActiveRules =
      (selectWith enable disable cfg).toConfig := refresh_refresh _
  conv_lhs => rw [selectWith, hfilter, hrefresh]
  rfl

/-! ## Selecting by the reported ids -/

section Claims

variable (crate)

/-- After a call, the rules of every section are the selected ones, with the ids they had before,
and a second call changes nothing. -/
def SelectsReportedRules (cfg : ProfiledConfig) (name : Bytes) : Prop :=
  ∀ profile cfg', cfg.profiles.lookup name = some profile → cfg.applyProfile crate name = .ok cfg' →
    (∀ s, cfg'.reportedRules s = (cfg.reportedRules s).filter fun e => profile.selects crate e.1) ∧
      cfg'.applyProfile crate name = .ok cfg'

/-- In every section, a selected rule without an id has no rule above it that is not selected. -/
def SteadyProfile (cfg : ProfiledConfig) (name : Bytes) : Prop :=
  ∀ profile, cfg.profiles.lookup name = some profile → profile.Compiles crate →
    ∀ s, Steady SectionRule.id whereId (fun id => profile.selects crate (fullId s.label id))
      (cfg.mergedRules s)

/-- The same for the rules of `require_doc_comment`. -/
def SelectsReportedDocs (cfg : ProfiledConfig) (name : Bytes) : Prop :=
  ∀ profile cfg', cfg.profiles.lookup name = some profile → cfg.applyProfile crate name = .ok cfg' →
    ∀ s, cfg'.reportedDoc s = (cfg.reportedDoc s).filter fun e => profile.selects crate e.1

def DocsSelected (cfg : ProfiledConfig) (name : Bytes) : Prop :=
  ∀ profile, cfg.profiles.lookup name = some profile → profile.Compiles crate →
    ∀ s, (cfg.requireDocIn s).isSome → profile.selects crate (Config.requireDocId s) = true

variable {crate}

theorem fullId_injective (label : Bytes) : Function.Injective (fullId label) :=
  fun _ _ h => append_cancel_left h

/-- A call that succeeds, read off the patterns. -/
theorem applyProfile_cases {cfg : ProfiledConfig} {name : Bytes} {profile : Profile}
    (hprofile : cfg.profiles.lookup name = some profile) {cfg' : ProfiledConfig}
    (h : cfg.applyProfile crate name = .ok cfg') : ∃ enable disable : List crate.Regex,
      compilePatterns crate profile.enable name (byteString "enable") = .ok enable ∧
      compilePatterns crate profile.disable name (byteString "disable") = .ok disable ∧
      (∀ id, keeps enable disable id = profile.selects crate id) ∧
      cfg' = selectWith enable disable cfg := by
  obtain ⟨profile', enable, disable, hprofile', henable, hdisable, hcfg'⟩ :=
    applyProfile_eq_ok.mp h
  obtain rfl := Option.some.inj (hprofile.symm.trans hprofile')
  exact ⟨enable, disable, henable, hdisable, keeps_eq_selects henable hdisable, hcfg'⟩

theorem compiles_iff : profile.Compiles crate ↔
    (∃ enable, compilePatterns crate profile.enable name (byteString "enable") = .ok enable) ∧
      ∃ disable, compilePatterns crate profile.disable name (byteString "disable") =
        .ok disable := by
  rw [compilePatterns_isOk, compilePatterns_isOk]
  exact forall_mem_append

theorem reportedRules_iff {cfg cfg' : Config} {s : Section} {selects : Bytes → Bool}
    (h : cfg'.mergedRules s = retain SectionRule.id whereId (fun id => selects (fullId s.label id))
      (cfg.mergedRules s)) :
    cfg'.reportedRules s = (cfg.reportedRules s).filter (fun e => selects e.1) ↔
      Steady SectionRule.id whereId (fun id => selects (fullId s.label id))
        (cfg.mergedRules s) := by
  have hinj : Function.Injective fun e : Bytes × SectionRule => (fullId s.label e.1, e.2) := by
    rintro ⟨id, r⟩ ⟨id', r'⟩ heq
    obtain ⟨hid, hr⟩ := Prod.mk.inj heq
    exact Prod.ext (fullId_injective s.label hid) hr
  rw [reportedRules, reportedRules, filter_map, (map_injective_iff.mpr hinj).eq_iff, h]
  exact named_retain_iff whereId_injective

theorem selectsReportedRules_iff (cfg : ProfiledConfig) (name : Bytes) :
    SelectsReportedRules crate cfg name ↔ SteadyProfile crate cfg name := by
  constructor
  · intro hselects profile hprofile hcompiles s
    obtain ⟨⟨enable, henable⟩, disable, hdisable⟩ := compiles_iff.mp hcompiles
    have hcall : cfg.applyProfile crate name = .ok (selectWith enable disable cfg) :=
      applyProfile_eq_ok.mpr ⟨profile, enable, disable, hprofile, henable, hdisable, rfl⟩
    have hmerged := mergedRules_selectWith enable disable cfg s
    rw [retainIn] at hmerged
    simp only [keeps_eq_selects henable hdisable] at hmerged
    exact (reportedRules_iff hmerged).mp ((hselects profile _ hprofile hcall).1 s)
  · intro hsteady profile cfg' hprofile hcall
    obtain ⟨enable, disable, henable, hdisable, hkeeps, rfl⟩ := applyProfile_cases hprofile hcall
    have hsections := hsteady profile hprofile (compiles_iff.mpr ⟨⟨_, henable⟩, _, hdisable⟩)
    refine ⟨fun s => ?_, ?_⟩
    · have hmerged := mergedRules_selectWith enable disable cfg s
      rw [retainIn] at hmerged
      simp only [hkeeps] at hmerged
      exact (reportedRules_iff hmerged).mpr (hsections s)
    · have htwice : selectWith enable disable (selectWith enable disable cfg) =
          selectWith enable disable cfg := by
        refine selectWith_selectWith fun s => ?_
        simp only [retainIn, hkeeps]
        exact retain_retain whereId_injective (hsections s)
      exact applyProfile_eq_ok.mpr ⟨profile, enable, disable, hprofile, henable, hdisable,
        htwice.symm⟩

theorem selectsReportedDocs_iff (cfg : ProfiledConfig) (name : Bytes) :
    SelectsReportedDocs crate cfg name ↔ DocsSelected crate cfg name := by
  have hdoc : ∀ (profile : Profile) (cfg' : ProfiledConfig) (s : Section),
      cfg'.requireDocIn s = cfg.requireDocIn s →
        (cfg'.reportedDoc s = (cfg.reportedDoc s).filter (fun e => profile.selects crate e.1) ↔
          ((cfg.requireDocIn s).isSome → profile.selects crate (requireDocId s) = true)) := by
    intro profile cfg' s hsame
    rw [reportedDoc, reportedDoc, hsame]
    cases cfg.requireDocIn s with
    | none => simp
    | some visibility => simp [Option.filter]
  constructor
  · intro hselects profile hprofile hcompiles s
    obtain ⟨⟨enable, henable⟩, disable, hdisable⟩ := compiles_iff.mp hcompiles
    have hcall : cfg.applyProfile crate name = .ok (selectWith enable disable cfg) :=
      applyProfile_eq_ok.mpr ⟨profile, enable, disable, hprofile, henable, hdisable, rfl⟩
    exact (hdoc profile _ s (requireDocIn_selectWith enable disable cfg s)).mp
      (hselects profile _ hprofile hcall s)
  · intro hselected profile cfg' hprofile hcall s
    obtain ⟨enable, disable, henable, hdisable, -, rfl⟩ := applyProfile_cases hprofile hcall
    exact (hdoc profile _ s (requireDocIn_selectWith enable disable cfg s)).mpr
      (hselected profile hprofile (compiles_iff.mpr ⟨⟨_, henable⟩, _, hdisable⟩) s)

/-- A profile selects by the reported ids exactly where no rule that stays moves up without an id
of its own, and the rules of `require_doc_comment` exactly where it selects all of them. -/
theorem applyProfile_iff (cfg : ProfiledConfig) (name : Bytes) :
    (SelectsReportedRules crate cfg name ↔ SteadyProfile crate cfg name) ∧
      (SelectsReportedDocs crate cfg name ↔ DocsSelected crate cfg name) :=
  ⟨selectsReportedRules_iff cfg name, selectsReportedDocs_iff cfg name⟩

end Claims

/-! ## Two rules without an id -/

/-- The text of an expression without operators : letters and escaped dots, up to the end mark. -/
def literalText : Bytes → Option Bytes
  | [0x24] => some []
  | 0x5c :: 0x2e :: rest => (literalText rest).map (0x2e :: ·)
  | b :: rest =>
    if isAsciiAlphanumeric b || b == 0x5f then (literalText rest).map (b :: ·) else none
  | [] => none

/-- Expressions between `^` and `$` without operators, which match the text they spell. -/
def literalCrate : PatternCrate where
  Regex := Bytes
  Error := Unit
  new
    | 0x5e :: rest => ((literalText rest).map .ok).getD (.error ())
    | _ => .error ()
  isMatch regex text := decide (regex = text)

def classSection : Section := .langKind (some .ts) (byteString "class")

def firstRuleDisabled : Profile := ⟨[], [byteString "^ts\\.class\\.where_0$"]⟩

/-- Two rules without an id for the classes of TypeScript and the profile. -/
def twoClassRules : ProfiledConfig where
  toConfig :=
    { emptyConfig with
      lang := fun
        | .ts =>
          { shape := ∅
            kinds := AList.insert (byteString "class")
              ⟨[⟨none, byteString "lines <= 99", .error, none, none, none⟩,
                ⟨none, byteString "lines <= 120", .error, none, none, none⟩], none⟩ ∅ }
        | _ => ⟨∅, ∅⟩ }
  profiles := AList.insert (byteString "p") firstRuleDisabled ∅
  requireDocSource _ := none
  ruleSources := ∅

/-- The second rule is left under the id of the first one, and a second call removes it too. -/
theorem not_selectsReportedRules : ¬SelectsReportedRules literalCrate twoClassRules
      (byteString "p") ∧
    ∃ once twice, twoClassRules.applyProfile literalCrate (byteString "p") = .ok once ∧
      once.applyProfile literalCrate (byteString "p") = .ok twice ∧
      (twoClassRules.reportedRules classSection).map Prod.fst =
        [byteString "ts.class.where_0", byteString "ts.class.where_1"] ∧
      (once.reportedRules classSection).map Prod.fst = [byteString "ts.class.where_0"] ∧
      twice.reportedRules classSection = [] := by
  constructor
  · rw [selectsReportedRules_iff]
    intro hsteady
    have hclass := hsteady firstRuleDisabled rfl (by decide) classSection
    revert hclass
    decide
  · exact ⟨_, _, rfl, rfl, by decide, by decide, by decide⟩

end CodeMoniker.Fragments
