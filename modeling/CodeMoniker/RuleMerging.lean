import CodeMoniker.FragmentHygiene
import CodeMoniker.Upserts

/-!
# When rules are merged by id

`merge_into` is meant to replace the rules of a section by id and to append the others, one for
each id. A section that is there is merged rule by rule (`mergeRules_eq_merge`). A section of a
table that is not there yet is taken over as it stands, with the ids it repeats, and of a repeated
id only the first rule is ever replaced again. `mergedRules_iff`, `loadWithProject_iff` and
`mergeConfig_assoc_iff` say for which configurations that makes no difference, `ruleMerging_iff`
all three together.
-/

namespace CodeMoniker.Fragments

open List hiding merge
open ByteCodec Upserts Config

/-! ## The rules of a section -/

/-- A rule of any section. -/
inductive SectionRule where
  | entry (r : RuleEntry)
  | group (r : WorkspaceGroupRuleEntry)
  | path (r : WorkspacePathRuleEntry)
  deriving DecidableEq

def SectionRule.id : SectionRule → Option Bytes
  | entry r => r.id
  | group r => r.id
  | path r => r.id

/-- The rules of a section of a table. -/
def rulesOfTable (table : AList fun _ : Bytes => KindRules) (name : Bytes) :
    Option (List SectionRule) :=
  (table.lookup name).map fun kr => kr.rules.map .entry

variable (cfg : Config)

/-- The rules of a section, if it is there. -/
def Config.rulesIn : Section → Option (List SectionRule)
  | .refs => some (cfg.refs.map .entry)
  | .symbol => some (cfg.symbol.rules.map .entry)
  | .group => some (cfg.group.map .group)
  | .path => some (cfg.path.map .path)
  | .shape name => rulesOfTable cfg.shape name
  | .langShape lang name => rulesOfTable (cfg.langRules lang).shape name
  | .langKind lang name => rulesOfTable (cfg.langRules lang).kinds name

/-- A section that is not there is taken over. -/
def mergeSection : Option (List SectionRule) → Option (List SectionRule) → Option (List SectionRule)
  | some base, some ov => some (merge SectionRule.id base ov)
  | none, ov => ov
  | base, none => base

theorem mergeSection_none (base : Option (List SectionRule)) : mergeSection base none = base := by
  cases base <;> rfl

/-- One turn of the loops of `merge_into` puts the rule into the section. -/
theorem upsert_eq {R : Type} (idOf : R → Option Bytes) (base : List R) (r : R) :
    (match (idOf r).bind fun id => base.findIdx? fun b => idOf b = some id with
      | some index => base.set index r
      | none => base ++ [r]) = upsert idOf r base := by
  cases hr : idOf r with
  | none =>
    have hend : upsert idOf r base = base ++ [r] := by
      induction base with
      | nil => rfl
      | cons b bs ih => simp [upsert, hr, ih]
    rw [hend]
    rfl
  | some id =>
    rw [Option.bind_some]
    induction base with
    | nil => rfl
    | cons b bs ih =>
      rw [findIdx?_cons, upsert, hr]
      by_cases hb : idOf b = some id
      · simp [hb]
      · rw [if_neg (by simp [hb]), ← ih]
        simp only [hb]
        cases bs.findIdx? (fun b => decide (idOf b = some id)) <;> rfl

theorem mergeRules_eq_merge {R : Type} (idOf : R → Option Bytes) (base ov : List R) :
    mergeRules idOf base ov = merge idOf base ov := by
  unfold mergeRules merge
  congr 1
  funext base r
  exact upsert_eq idOf base r

theorem rulesOfTable_mergeKinds (base ov : AList fun _ : Bytes => KindRules) (name : Bytes) :
    rulesOfTable (mergeKinds base ov) name =
      mergeSection (rulesOfTable base name) (rulesOfTable ov name) := by
  unfold rulesOfTable
  rw [mergeKinds, lookup_mergeTable]
  cases ov.lookup name with
  | none => exact (mergeSection_none _).symm
  | some ovRules =>
    cases base.lookup name with
    | none => rfl
    | some baseRules =>
      simp only [Option.map_some, mergeSection, mergeKind, mergeRules_eq_merge]
      rw [merge_map]
      rfl

variable (base ov : Config)

theorem rulesIn_mergeConfig (s : Section) :
    (mergeConfig base ov).rulesIn s = mergeSection (base.rulesIn s) (ov.rulesIn s) := by
  cases s with
  | refs | symbol | group | path =>
    simp only [rulesIn, mergeConfig, mergeKind, mergeSection, mergeRules_eq_merge, merge_map]
    rfl
  | shape name => exact rulesOfTable_mergeKinds base.shape ov.shape name
  | langShape lang name =>
    have htable : ((mergeConfig base ov).langRules lang).shape =
        mergeKinds (base.langRules lang).shape (ov.langRules lang).shape := by cases lang <;> rfl
    rw [rulesIn, htable, rulesOfTable_mergeKinds]
    rfl
  | langKind lang name =>
    have htable : ((mergeConfig base ov).langRules lang).kinds =
        mergeKinds (base.langRules lang).kinds (ov.langRules lang).kinds := by cases lang <;> rfl
    rw [rulesIn, htable, rulesOfTable_mergeKinds]
    rfl

/-! ## Replacing by id -/

/-- The rules of a section, none if it is not there. -/
def Config.mergedRules (s : Section) : List SectionRule := (cfg.rulesIn s).getD []

/-- A section that is there has no repeated id that the overlay would replace again, and one that
is not there gets no repeated id. -/
def MergesById (s : Section) : Prop :=
  (∀ rules, base.rulesIn s = some rules → RepeatsSettled SectionRule.id rules (ov.mergedRules s)) ∧
  (base.rulesIn s = none → (keys SectionRule.id (ov.mergedRules s)).Nodup)

theorem replaceAll_nil_left (ov : List SectionRule) :
    replaceAll SectionRule.id [] ov = onePerKey SectionRule.id ov := by
  rw [← merge_nil_left]
  exact (merge_eq_replaceAll_iff.mpr List.Pairwise.nil).symm

theorem mergedRules_iff (s : Section) : (mergeConfig base ov).mergedRules s =
        replaceAll SectionRule.id (base.mergedRules s) (ov.mergedRules s) ↔
      MergesById base ov s := by
  unfold MergesById mergedRules
  rw [rulesIn_mergeConfig]
  cases hbase : base.rulesIn s with
  | none =>
    have hsection : mergeSection none (ov.rulesIn s) = ov.rulesIn s := by
      cases ov.rulesIn s <;> rfl
    rw [hsection, Option.getD_none, replaceAll_nil_left, eq_comm, onePerKey_eq_self_iff]
    simp
  | some rules =>
    have hmerge : (mergeSection (some rules) (ov.rulesIn s)).getD [] =
        merge SectionRule.id rules ((ov.rulesIn s).getD []) := by
      cases ov.rulesIn s <;> rfl
    rw [hmerge, Option.getD_some, merge_eq_replaceAll_iff]
    simp

/-! ## Loading -/

structure LoadedConfig where
  config : Config
  sourceKind : RuleSourceKind
  source : Option Bytes

structure ProjectConfig where
  root : Option LoadedConfig
  fragments : List FragmentFile

def seedRuleSources (kind : RuleSourceKind) (source fragment : Option Bytes) :
    Config :=
  (RuleMap.markSources ⟨kind, source, fragment, []⟩).apply cfg

def inlineRulesLabel (index : ℕ) : Bytes := byteString s!"<inline rules #{index + 1}>"

/-- The root configuration and the inline ones, as they are merged. -/
def LoadedConfig.seeded (user : LoadedConfig) : Config :=
  seedRuleSources user.config user.sourceKind user.source none

def seededInline (inline : List Config) : List Config :=
  inline.zipIdx.map fun e => seedRuleSources e.1 .inlineRules (some (inlineRulesLabel e.2)) none

/-- `preset` is the embedded configuration. -/
def firstConfig (preset : Except ConfigError Config) (includeDefaults : Bool) :
    Except ConfigError Config :=
  if includeDefaults then preset else .ok emptyConfig

/-- The last check only reads the ids with an `@` and the taxonomy. -/
def loadWithProject (preset : Except ConfigError Config)
    (validateScopedRuleIds : Config → Except ConfigError Unit) (project : ProjectConfig)
    (includeDefaults : Bool) (inline : List Config) : Except ConfigError Config := do
  let cfg ← firstConfig preset includeDefaults
  let cfg := (project.root.map (·.seeded)).toList.foldl mergeConfig cfg
  let cfg ← mergeInto cfg project.fragments
  let cfg := (seededInline inline).foldl mergeConfig cfg
  validateScopedRuleIds cfg
  return cfg

/-- What is merged into the first configuration, in order. -/
def overlays (project : ProjectConfig) (inline : List Config) : List Config :=
  (project.root.map (·.config)).toList ++
    (project.fragments.filter (·.enabled)).map (·.config) ++ inline

/-- The ids of a section, if it is there. -/
def Config.idsIn (s : Section) : Option (List Bytes) :=
  (cfg.rulesIn s).map (Upserts.keys SectionRule.id)

def NoRepeats (ids : Option (List Bytes)) : Prop := ∀ l, ids = some l → l.Nodup

/-- Two sections that are both there or not, and both repeat an id or not. -/
structure Alike (ids ids' : Option (List Bytes)) : Prop where
  isSome : ids.isSome = ids'.isSome
  noRepeats : NoRepeats ids ↔ NoRepeats ids'

theorem Alike.or {ids ids' rest rest' : Option (List Bytes)} (h : Alike ids ids')
    (hrest : Alike rest rest') : Alike (ids.or rest) (ids'.or rest') := by
  cases ids with
  | none =>
    have hnone : ids' = none := Option.not_isSome_iff_eq_none.mp (by simp [← h.isSome])
    rw [hnone]
    exact hrest
  | some l =>
    obtain ⟨l', rfl⟩ := Option.isSome_iff_exists.mp h.isSome.symm
    exact h

theorem Alike.refl (ids : Option (List Bytes)) : Alike ids ids := ⟨rfl, Iff.rfl⟩

theorem Alike.trans {ids ids' ids'' : Option (List Bytes)} (h : Alike ids ids')
    (h' : Alike ids' ids'') : Alike ids ids'' :=
  ⟨h.isSome.trans h'.isSome, h.noRepeats.trans h'.noRepeats⟩

/-- A merge repeats an id if the section does where it comes from. -/
theorem alike_mergeConfig (s : Section) :
    Alike ((mergeConfig base ov).idsIn s) ((base.idsIn s).or (ov.idsIn s)) := by
  unfold idsIn
  rw [rulesIn_mergeConfig]
  cases base.rulesIn s with
  | none =>
    cases ov.rulesIn s with
    | none => exact Alike.refl _
    | some ovRules => exact Alike.refl _
  | some rules =>
    cases ov.rulesIn s with
    | none => exact Alike.refl _
    | some ovRules => exact ⟨rfl, by simp [NoRepeats, mergeSection, nodup_keys_merge]⟩

theorem findSome?_cons_eq_or (cfgs : List Config) (s : Section) :
    (cfg :: cfgs).findSome? (·.idsIn s) = (cfg.idsIn s).or (cfgs.findSome? (·.idsIn s)) := by
  rw [findSome?_cons]
  cases cfg.idsIn s <;> rfl

/-- The section repeats an id if it does in the first configuration that has it. -/
theorem alike_foldl_mergeConfig (cfgs : List Config) (cfg : Config) (s : Section) :
    Alike ((cfgs.foldl mergeConfig cfg).idsIn s) ((cfg :: cfgs).findSome? (·.idsIn s)) := by
  induction cfgs generalizing cfg with
  | nil =>
    rw [findSome?_cons_eq_or, findSome?_nil, Option.or_none]
    exact Alike.refl _
  | cons next cfgs ih =>
    rw [foldl_cons]
    refine (ih (mergeConfig cfg next)).trans ?_
    rw [findSome?_cons_eq_or, findSome?_cons_eq_or, findSome?_cons_eq_or, ← Option.or_assoc]
    exact (alike_mergeConfig cfg next s).or (Alike.refl _)

open RuleMap

/-- Marking the source of the rules keeps their ids. -/
theorem idsIn_markSources (marker : RuleSourceMarker) (cfg : Config) (s : Section) :
    ((markSources marker).apply cfg).idsIn s = cfg.idsIn s := by
  have htable : ∀ (table : AList fun _ : Bytes => KindRules) (name : Bytes),
      (rulesOfTable (mapTable (markSources marker).kindRules table) name).map
          (Upserts.keys SectionRule.id) =
        (rulesOfTable table name).map (Upserts.keys SectionRule.id) := by
    intro table name
    unfold rulesOfTable
    rw [lookup_mapTable]
    cases table.lookup name with
    | none => rfl
    | some kr => simp [kindRules, Upserts.keys, filterMap_map]; rfl
  cases s with
  | refs | symbol | group | path =>
    simp only [idsIn, rulesIn, apply, kindRules, Upserts.keys, Option.map_some, filterMap_map]
    rfl
  | shape name => exact htable cfg.shape name
  | langShape lang name =>
    have hlang : (((markSources marker).apply cfg).langRules lang).shape =
        mapTable (markSources marker).kindRules (cfg.langRules lang).shape := by
      cases lang <;> rfl
    rw [idsIn, rulesIn, hlang]
    exact htable _ name
  | langKind lang name =>
    have hlang : (((markSources marker).apply cfg).langRules lang).kinds =
        mapTable (markSources marker).kindRules (cfg.langRules lang).kinds := by
      cases lang <;> rfl
    rw [idsIn, rulesIn, hlang]
    exact htable _ name

theorem rulesIn_foldl_congr {cfg cfg' : Config} {s : Section} (h : cfg.rulesIn s = cfg'.rulesIn s)
    (cfgs : List Config) :
    (cfgs.foldl mergeConfig cfg).rulesIn s = (cfgs.foldl mergeConfig cfg').rulesIn s := by
  induction cfgs generalizing cfg cfg' with
  | nil => exact h
  | cons c cfgs ih =>
    refine ih ?_
    rw [rulesIn_mergeConfig, rulesIn_mergeConfig, h]

/-- The fragments are merged in order. -/
theorem rulesIn_mergeRun {globalAliases : Aliases} (s : Section) :
    ∀ {files : List FragmentFile} {st st' : MergeState},
      files.foldlM (mergeFragment globalAliases) st = .ok st' →
        st'.config.rulesIn s = (((files.filter (·.enabled)).map (·.seeded)).foldl mergeConfig
          st.config).rulesIn s
  | [], st, st', h => by
    obtain rfl := Except.ok.inj h
    rfl
  | f :: files, st, st', h => by
    rw [foldlM_cons] at h
    obtain ⟨one, hone, h⟩ := bind_eq_ok.mp h
    rw [rulesIn_mergeRun s h]
    rcases mergeFragment_eq_ok hone with ⟨henabled, hentered⟩ | ⟨hdisabled, rfl⟩
    · rw [filter_cons_of_pos henabled, map_cons, foldl_cons]
      refine rulesIn_foldl_congr ?_ _
      rw [hentered.config, rulesIn_mergeConfig, rulesIn_mergeConfig]
      cases s <;> rfl
    · rw [filter_cons_of_neg (by simp [hdisabled])]
      refine rulesIn_foldl_congr ?_ _
      cases s <;> rfl

/-- What is merged has the ids of what was read. -/
theorem findSome?_seeded (project : ProjectConfig) (inline : List Config) (s : Section) :
    ((project.root.map (·.seeded)).toList ++
        (project.fragments.filter (·.enabled)).map (·.seeded) ++
          seededInline inline).findSome? (·.idsIn s) =
      (overlays project inline).findSome? (·.idsIn s) := by
  have hroot : (project.root.map (·.seeded)).toList.findSome? (·.idsIn s) =
      (project.root.map (·.config)).toList.findSome? (·.idsIn s) := by
    cases project.root with
    | none => rfl
    | some root =>
      have hids : root.seeded.idsIn s = root.config.idsIn s := idsIn_markSources _ _ s
      simp [hids]
  have hfragment : ∀ f : FragmentFile, f.seeded.idsIn s = f.config.idsIn s :=
    fun f => idsIn_markSources _ f.config s
  have hinline : (seededInline inline).findSome? (·.idsIn s) = inline.findSome? (·.idsIn s) := by
    have hids : ∀ e : Config × ℕ,
        (seedRuleSources e.1 .inlineRules (some (inlineRulesLabel e.2)) none).idsIn s =
          e.1.idsIn s := fun e => idsIn_markSources _ e.1 s
    conv_rhs => rw [← zipIdx_map_fst 0 inline]
    rw [seededInline, findSome?_map, findSome?_map]
    simp only [Function.comp_def, hids]
  rw [overlays, findSome?_append, findSome?_append, findSome?_append,
    findSome?_append, hroot, hinline, findSome?_map, findSome?_map]
  simp only [Function.comp_def, hfragment]

/-- A loaded section repeats an id exactly if it does in the first configuration that has it. -/
theorem loadWithProject_iff {preset : Except ConfigError Config}
    {validateScopedRuleIds : Config → Except ConfigError Unit} {project : ProjectConfig}
    {includeDefaults : Bool} {inline : List Config} {cfg : Config}
    (h : loadWithProject preset validateScopedRuleIds project includeDefaults inline = .ok cfg) :
    ∃ start, firstConfig preset includeDefaults = .ok start ∧ ∀ s, NoRepeats (cfg.idsIn s) ↔
        NoRepeats ((start :: overlays project inline).findSome? (·.idsIn s)) := by
  unfold loadWithProject at h
  obtain ⟨start, hstart, h⟩ := bind_eq_ok.mp h
  obtain ⟨merged, hmerged, h⟩ := bind_eq_ok.mp h
  obtain ⟨_, -, h⟩ := bind_eq_ok.mp h
  obtain rfl := Except.ok.inj h
  obtain ⟨st, hrun, hst⟩ := bind_eq_ok.mp hmerged
  obtain rfl := Except.ok.inj hst
  refine ⟨start, hstart, fun s => ?_⟩
  have hids : ((seededInline inline).foldl mergeConfig st.config).idsIn s =
      (((project.root.map (·.seeded)).toList ++
        (project.fragments.filter (·.enabled)).map (·.seeded) ++
          seededInline inline).foldl mergeConfig start).idsIn s := by
    unfold idsIn
    rw [foldl_append, foldl_append, rulesIn_foldl_congr (rulesIn_mergeRun s hrun)]
    rfl
  rw [hids]
  refine (alike_foldl_mergeConfig _ start s).noRepeats.trans ?_
  rw [findSome?_cons_eq_or, findSome?_cons_eq_or, findSome?_seeded]

/-! ## Three configurations -/

/-- Where the second configuration repeats an id of the third, both end with the same rule. -/
def RepeatsAgreeIn (second third : Config) (s : Section) : Prop :=
  ∀ rules, second.rulesIn s = some rules → ∀ rules', third.rulesIn s = some rules' →
    RepeatsAgree SectionRule.id rules rules'

/-- Without the section, there is nothing to put together. -/
theorem mergeConfig_assoc_iff {a b c : Config} {s : Section} (ha : (a.rulesIn s).isSome) :
    (mergeConfig (mergeConfig a b) c).mergedRules s =
        (mergeConfig a (mergeConfig b c)).mergedRules s ↔ RepeatsAgreeIn b c s := by
  obtain ⟨rulesA, hrulesA⟩ := Option.isSome_iff_exists.mp ha
  unfold RepeatsAgreeIn mergedRules
  rw [rulesIn_mergeConfig, rulesIn_mergeConfig, rulesIn_mergeConfig, rulesIn_mergeConfig, hrulesA]
  cases b.rulesIn s with
  | none =>
    cases c.rulesIn s <;> simp [mergeSection]
  | some rulesB =>
    cases c.rulesIn s with
    | none => simp [mergeSection]
    | some rulesC => simp [mergeSection, merge_assoc_iff]

theorem mergeConfig_assoc_of_none {a : Config} {s : Section} (ha : a.rulesIn s = none)
    (b c : Config) : (mergeConfig (mergeConfig a b) c).mergedRules s =
      (mergeConfig a (mergeConfig b c)).mergedRules s := by
  have hnone : ∀ rules, mergeSection none rules = rules := by rintro (_ | _) <;> rfl
  unfold mergedRules
  rw [rulesIn_mergeConfig, rulesIn_mergeConfig, rulesIn_mergeConfig, rulesIn_mergeConfig, ha,
    hnone, hnone]

/-- Each part of the merge contract holds exactly where no repeated id is taken over. -/
theorem ruleMerging_iff (s : Section) : (∀ base ov, (mergeConfig base ov).mergedRules s =
        replaceAll SectionRule.id (base.mergedRules s) (ov.mergedRules s) ↔ MergesById base ov s) ∧
    (∀ preset validateScopedRuleIds project includeDefaults inline cfg,
      loadWithProject preset validateScopedRuleIds project includeDefaults inline = .ok cfg →
        ∃ start, firstConfig preset includeDefaults = .ok start ∧ (NoRepeats (cfg.idsIn s) ↔
            NoRepeats ((start :: overlays project inline).findSome? (·.idsIn s)))) ∧
    ∀ a b c, (mergeConfig (mergeConfig a b) c).mergedRules s =
        (mergeConfig a (mergeConfig b c)).mergedRules s ↔
      ((a.rulesIn s).isSome → RepeatsAgreeIn b c s) := by
  refine ⟨fun base ov => mergedRules_iff base ov s, fun _ _ _ _ _ _ hload => ?_, fun a b c => ?_⟩
  · obtain ⟨start, hstart, hiff⟩ := loadWithProject_iff hload
    exact ⟨start, hstart, hiff s⟩
  · cases ha : a.rulesIn s with
    | none => exact iff_of_true (mergeConfig_assoc_of_none ha b c) fun h => nomatch h
    | some rules =>
      have hsome : (a.rulesIn s).isSome := by rw [ha]; rfl
      exact (mergeConfig_assoc_iff hsome).trans ⟨fun h _ => h, fun h => h rfl⟩

/-! ## A section that is taken over -/

def callableSection : Section := .shape (byteString "callable")

/-- Rules for the shape `callable`, all with the id `short`. -/
def shortRules (exprs : List String) : Config :=
  { emptyConfig with
    shape := AList.insert (byteString "callable")
      ⟨exprs.map fun expr => ⟨some (byteString "short"), byteString expr, .error, none, none, none⟩,
        none⟩ ∅ }

/-- A project file with these rules and without the embedded ones. -/
def loadShortRules (exprs : List String) : Except ConfigError Config :=
  loadWithProject (.ok emptyConfig) (fun _ => .ok ())
    ⟨some ⟨shortRules exprs, .project, none⟩, []⟩ false []

/-- Rules without an id repeated load as they are. -/
theorem loadWithProject_shortRules : ∃ cfg, loadShortRules ["lines < 60"] = .ok cfg ∧
    NoRepeats (cfg.idsIn callableSection) := by
  refine ⟨_, rfl, ?_⟩
  obtain ⟨start, hstart, hiff⟩ := (ruleMerging_iff callableSection).2.1 (.ok emptyConfig)
    (fun _ => .ok ()) ⟨some ⟨shortRules ["lines < 60"], .project, none⟩, []⟩ false [] _ rfl
  obtain rfl := Except.ok.inj hstart
  refine hiff.mpr fun ids hids => ?_
  have hone : ids = [byteString "short"] := (Option.some.inj hids).symm
  rw [hone]
  exact nodup_singleton _

/-- Two rules with one id in a table that is not there yet both stay, and only the first of them
is ever replaced. -/
theorem not_replacesById :
    (mergeConfig emptyConfig (shortRules ["lines < 60", "lines < 80"])).mergedRules
        callableSection ≠ replaceAll SectionRule.id (emptyConfig.mergedRules callableSection)
        ((shortRules ["lines < 60", "lines < 80"]).mergedRules callableSection) ∧
    (∃ cfg, loadShortRules ["lines < 60", "lines < 80"] = .ok cfg ∧
      ¬NoRepeats (cfg.idsIn callableSection)) ∧
    (mergeConfig (mergeConfig (shortRules ["lines < 90"])
        (shortRules ["lines < 60", "lines < 80"])) (shortRules ["lines < 70"])).mergedRules
          callableSection ≠ (mergeConfig (shortRules ["lines < 90"]) (mergeConfig
        (shortRules ["lines < 60", "lines < 80"]) (shortRules ["lines < 70"]))).mergedRules
          callableSection := by
  have hrepeat : ¬[byteString "short", byteString "short"].Nodup := by decide
  refine ⟨fun h => ?_, ⟨_, rfl, fun h => hrepeat (h _ rfl)⟩, by decide⟩
  exact hrepeat ((mergedRules_iff _ _ _).mp h |>.2 rfl)

end CodeMoniker.Fragments
