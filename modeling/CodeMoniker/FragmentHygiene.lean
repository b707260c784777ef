import CodeMoniker.FragmentMerge

/-!
# Hygiene of fragment aliases

An expression of a fragment should mean what it means with the fragment's aliases laid over
those of the configuration (`overlay`), whatever other fragments are merged (`Hygienic`).
Merging renames the local aliases, and the expansions of a renamed table are the same, so
every rewritten expression keeps its text.

The `via` of a path rule is neither rewritten nor checked. A fragment is hygienic in every
merge exactly when its `via` expressions need no rewriting and no other text names one of the
effective ids (`Covered`).
-/

namespace CodeMoniker.Fragments

open List Option ByteCodec RefText AList

/-! ## Texts -/

/-- The aliases of a fragment laid over those of the configuration. -/
def overlay (base : Config) (raw : RawFragmentConfig) : Aliases :=
  mergeAliases base.aliases raw.config.aliases

/-- The expansion that the compiler uses. -/
def expandWith (aliases : Aliases) (text at_ : Bytes) : Except ConfigError Bytes := do
  let resolved ← resolveAliases aliases
  substituteAliases text resolved at_

/-- Both texts are expanded, each over its table, and to the same text. -/
def SameText (aliases aliases' : Aliases) (text text' : Bytes) : Prop :=
  ∃ out, ∀ at_, expandWith aliases text at_ = .ok out ∧ expandWith aliases' text' at_ = .ok out

/-- The names a fragment writes in its aliases and in the expressions that are checked. -/
def CheckedName (raw : RawFragmentConfig) (name : Bytes) : Prop :=
  (∃ s, ∃ r ∈ raw.config.rulesAt s, ∃ text ∈ r.checked, name ∈ names aliasGrammar text) ∨
    ∃ n body, raw.config.aliases.lookup n = some body ∧ name ∈ names aliasGrammar body

/-- The expressions that merging does not look at. -/
def UncheckedText (raw : RawFragmentConfig) (text : Bytes) : Prop :=
  ∃ s, ∃ r ∈ raw.config.rulesAt s, text ∈ r.unchecked

/-- The names a fragment writes. -/
def WrittenName (raw : RawFragmentConfig) (name : Bytes) : Prop :=
  CheckedName raw name ∨ ∃ text, UncheckedText raw text ∧ name ∈ names aliasGrammar text

/-- A fragment in a merged configuration : each of its rules is there once, each expression
is expanded as over the fragment's own aliases, and every name it writes is defined. -/
structure Hygienic (base : Config) (raw : RawFragmentConfig) (fragment : Bytes)
    (merged : Config) : Prop where
  rules : ∀ s, ∀ r ∈ raw.config.rulesAt s, ∃ id m, r.id = some id ∧
    (merged.rulesAt s).filter (·.id = some (qualifyId fragment id)) = [m] ∧
      List.Forall₂ (SameText (overlay base raw) merged.aliases) r.compiled m.compiled
  defined : ∀ name, WrittenName raw name → name ∈ overlay base raw

/-- The effective id of an alias of the fragment. -/
def Effective (raw : RawFragmentConfig) (fragment name : Bytes) : Prop :=
  ∃ n ∈ raw.config.aliases, effectiveAliasId (aliasNamespace fragment) n = name

/-- An effective id is read as the alias it is the id of. -/
def localName (raw : RawFragmentConfig) (fragment name : Bytes) : Bytes :=
  (raw.config.aliases.keys.find? fun n =>
    effectiveAliasId (aliasNamespace fragment) n = name).getD name

/-- No alias and no checked expression names an effective id, unless this is a local name too.
A name in a `via` is an alias of the configuration, or a local name that is an effective id
too and stands for the same text. -/
structure Covered (base : Config) (raw : RawFragmentConfig) (fragment : Bytes) : Prop where
  checked : ∀ name, CheckedName raw name → Effective raw fragment name → name ∈ raw.config.aliases
  unchecked : ∀ text, UncheckedText raw text → ∀ name ∈ names aliasGrammar text,
    name ∈ base.aliases ∨ name ∈ raw.config.aliases ∧ Effective raw fragment name
  uncheckedText : ∀ text, UncheckedText raw text →
    aliasText (overlay base raw) (renameText aliasGrammar (localName raw fragment) text) =
      aliasText (overlay base raw) text

/-! ## Resolvable tables -/

/-- Every alias of the table has an expansion. -/
def Resolves (aliases : Aliases) : Prop := ∀ name ∈ aliases, (aliasExpansion aliases name).isSome

variable {aliases : Aliases}

theorem expandWith_eq_ok_iff (h : Resolves aliases) {text at_ out : Bytes} :
    expandWith aliases text at_ = .ok out ↔ aliasText aliases text = some out := by
  obtain ⟨resolved, hresolved⟩ := resolveAliases_ok_iff.mpr h
  rw [expandWith, hresolved]
  exact substituteAliases_eq_ok_iff hresolved

theorem sameText_iff {aliases aliases' : Aliases} (h : Resolves aliases) (h' : Resolves aliases')
    {text text' : Bytes} : SameText aliases aliases' text text' ↔
      ∃ out, aliasText aliases text = some out ∧ aliasText aliases' text' = some out := by
  simp only [SameText, expandWith_eq_ok_iff h, expandWith_eq_ok_iff h', forall_const]

/-- A name with an expansion is an alias. -/
theorem mem_of_aliasExpansion {name : Bytes}
    (h : (aliasExpansion aliases name).isSome) : name ∈ aliases := by
  rw [aliasExpansion, expansion_eq, isSome_bind] at h
  rw [← lookup_isSome]
  by_contra hnone
  rw [not_isSome_iff_eq_none] at hnone
  simp [hnone] at h

/-- An expanded text names aliases only. -/
theorem mem_of_aliasText {text name : Bytes}
    (h : (aliasText aliases text).isSome) (hname : name ∈ names aliasGrammar text) :
    name ∈ aliases :=
  mem_of_aliasExpansion ((isSome_expandText aliasGrammar aliasOutput).mp h name hname)

theorem Resolves.isSome_aliasText (h : Resolves aliases) {text : Bytes} :
    (aliasText aliases text).isSome ↔ ∀ name ∈ names aliasGrammar text, name ∈ aliases :=
  ⟨fun htext _ hname => mem_of_aliasText htext hname, fun hnames =>
    (isSome_expandText aliasGrammar aliasOutput).mpr fun name hname => h name (hnames name hname)⟩

/-- The aliases of a resolvable table name aliases only. -/
theorem Resolves.mem_of_body (h : Resolves aliases) {name body n : Bytes}
    (hbody : aliases.lookup name = some body) (hn : n ∈ names aliasGrammar body) : n ∈ aliases := by
  have hname := h name (lookup_isSome.mp (isSome_of_mem hbody))
  rw [aliasExpansion, expansion_eq, hbody] at hname
  exact mem_of_aliasText hname hn

/-- The rule with an id, where ids are distinct. -/
theorem filter_ruleIds : ∀ {rules : List RuleView} {r : RuleView} {id : Bytes},
    (ruleIds rules).Nodup → r ∈ rules → r.id = some id → rules.filter (·.id = some id) = [r]
  | r' :: rules, r, id, hnodup, hr, hid => by
    have hrest : (ruleIds rules).Nodup :=
      (Sublist.filterMap _ (sublist_cons_self r' rules)).nodup hnodup
    rcases mem_cons.mp hr with rfl | hr
    · rw [ruleIds, filterMap_cons, hid] at hnodup
      have hnone : rules.filter (·.id = some id) = [] := by
        refine filter_eq_nil_iff.mpr fun b hb heq => (nodup_cons.mp hnodup).1 ?_
        exact mem_filterMap.mpr ⟨b, hb, by simpa using heq⟩
      rw [filter_cons_of_pos (by simpa using hid), hnone]
    · have hne : r'.id ≠ some id := fun heq => by
        rw [ruleIds, filterMap_cons, heq] at hnodup
        exact (nodup_cons.mp hnodup).1 (mem_filterMap.mpr ⟨r, hr, hid⟩)
      rw [filter_cons_of_neg (by simpa using hne)]
      exact filter_ruleIds hrest hr hid

/-! ## An enabled fragment -/

/-- The aliases an enabled fragment is checked with. -/
def scope (base : Config) (f : FragmentFile) : Aliases :=
  mergeAliases base.aliases f.config.aliases

/-- A parsed fragment enters a sound state. -/
structure Enters (base : Config) (raw : RawFragmentConfig) (f : FragmentFile)
    (before after : MergeState) : Prop where
  valid : Resolves base.aliases
  parsed : Parsed raw f
  sound : Sound base before
  entered : Entered base.aliases before f after

/-- A table with the aliases of the fragment's scope. -/
def InTable (base : Config) (f : FragmentFile) (table : Aliases) : Prop :=
  ∀ name body, (scope base f).lookup name = some body → table.lookup name = some body

/-- The name that a reference of the fragment is rewritten to. -/
def FragmentFile.rename (f : FragmentFile) : Bytes → Bytes :=
  effectiveName f.localAliases (aliasNamespace f.id)

variable {raw : RawFragmentConfig} {f : FragmentFile}

theorem mem_effective (h : Parsed raw f)
    {name : Bytes} : name ∈ f.config.aliases ↔ Effective raw f.id name := by
  rw [h.aliases, mem_namespacedAliases, Effective]

theorem rename_local (h : Parsed raw f) {name : Bytes} (hname : name ∈ raw.config.aliases) :
    f.rename name = effectiveAliasId (aliasNamespace f.id) name :=
  if_pos ((h.localAliases name).mpr hname)

theorem rename_other (h : Parsed raw f) {name : Bytes}
    (hname : name ∉ raw.config.aliases) : f.rename name = name :=
  if_neg fun hlocal => hname ((h.localAliases name).mp hlocal)

theorem isName_rename (f : FragmentFile) {name : Bytes} (h : IsName aliasGrammar name) :
    IsName aliasGrammar (f.rename name) := by
  unfold FragmentFile.rename effectiveName
  split_ifs with hlocal
  · exact isName_effectiveAliasId f.id h
  · exact h

theorem isName_localName (h : Parsed raw f) {name : Bytes} (hname : IsName aliasGrammar name) :
    IsName aliasGrammar (localName raw f.id name) := by
  unfold localName
  cases hfind : raw.config.aliases.keys.find? fun n =>
      effectiveAliasId (aliasNamespace f.id) n = name with
  | some n => exact h.isName n (mem_keys.mpr (mem_of_find?_eq_some hfind))
  | none => exact hname

/-- The alias of an effective id. -/
theorem lookup_effective (h : Parsed raw f)
    {name : Bytes} : f.config.aliases.lookup (effectiveAliasId (aliasNamespace f.id) name) =
      (raw.config.aliases.lookup name).map (renameText aliasGrammar f.rename) := by
  rw [h.aliases, lookup_namespacedAliases]
  rfl

namespace Enters

variable {base : Config} {raw : RawFragmentConfig} {f : FragmentFile} {before after : MergeState}
  {table : Aliases} {name body text : Bytes}

theorem inTable_scope : InTable base f (scope base f) := fun _ _ hbody => hbody

variable (h : Enters base raw f before after)

include h

theorem mem_origins (hname : name ∈ base.aliases) : name ∈ before.aliasOrigins :=
  (h.sound.origins name).mpr (h.sound.keeps.mem_aliases hname)

theorem effective_notMem (hname : name ∈ f.config.aliases) : name ∉ base.aliases :=
  fun hbase => h.entered.noCollision name hname (h.mem_origins hbase)

theorem local_notMem (hname : name ∈ raw.config.aliases) : name ∉ base.aliases :=
  fun hbase => h.entered.noShadow name ((h.parsed.localAliases name).mpr hname)
    (h.mem_origins hbase)

/-- A checked name is in scope under the name it is rewritten to. -/
theorem rename_mem_scope (hname : CheckedName raw name) : f.rename name ∈ scope base f := by
  have hrewritten : ∀ {text : Bytes}, name ∈ names aliasGrammar text →
      (aliasText (scope base f) (renameText aliasGrammar f.rename text)).isSome →
        f.rename name ∈ scope base f := by
    intro text hmem htext
    refine mem_of_aliasText htext ?_
    exact (mem_names_renameText aliasGrammar fun _ => isName_rename f).mpr ⟨name, hmem, rfl⟩
  rcases hname with ⟨s, r, hr, text, htext, hmem⟩ | ⟨n, body, hbody, hmem⟩
  · have hr' : qualifyView f.id (rewriteView f.localAliases (aliasNamespace f.id) r) ∈
        f.config.rulesAt s := by
      rw [h.parsed.rules]
      exact List.mem_map_of_mem hr
    refine hrewritten hmem (h.entered.references s _ hr' ?_ _ (List.mem_map_of_mem htext))
    rw [qualifyView, isSome_map]
    exact h.parsed.ids s r hr
  · have hlookup : (scope base f).lookup (effectiveAliasId (aliasNamespace f.id) n) =
        some (renameText aliasGrammar f.rename body) := by
      rw [scope, lookup_mergeAliases, lookup_effective h.parsed, hbody]
      rfl
    refine Resolves.mem_of_body h.entered.resolves hlookup ?_
    exact (mem_names_renameText aliasGrammar fun _ => isName_rename f).mpr ⟨name, hmem, rfl⟩

/-- A checked name that is no effective id is defined in the overlay. -/
theorem mem_overlay
    (hcovered : ∀ name, CheckedName raw name → Effective raw f.id name → name ∈ raw.config.aliases)
    (hname : CheckedName raw name) : name ∈ overlay base raw := by
  rw [overlay, mem_mergeAliases]
  by_cases hlocal : name ∈ raw.config.aliases
  · exact Or.inl hlocal
  · have hscope := h.rename_mem_scope hname
    rw [rename_other h.parsed hlocal, scope, mem_mergeAliases] at hscope
    refine hscope.imp_left fun heffective => ?_
    exact hcovered name hname ((mem_effective h.parsed).mp heffective)

/-- A table with the scope of a fragment is a renamed copy of the overlay. -/
theorem renames (htable : InTable base f table)
    (hcovered : ∀ name, CheckedName raw name → Effective raw f.id name → name ∈ raw.config.aliases) :
    Renames aliasGrammar f.rename {name | name ∈ overlay base raw}
      (fun name => (overlay base raw).lookup name) fun name => table.lookup name where
  isName _ := isName_rename f
  table name hname := by
    have hlookup : (overlay base raw).lookup name =
        (raw.config.aliases.lookup name).or (base.aliases.lookup name) := lookup_mergeAliases
    by_cases hlocal : name ∈ raw.config.aliases
    · obtain ⟨body, hbody⟩ := isSome_iff_exists.mp (lookup_isSome.mpr hlocal)
      rw [hlookup, hbody, rename_local h.parsed hlocal]
      refine htable _ _ ?_
      rw [scope, lookup_mergeAliases, lookup_effective h.parsed, hbody]
      rfl
    · have hbase : name ∈ base.aliases := (mem_mergeAliases.mp hname).resolve_left hlocal
      obtain ⟨body, hbody⟩ := isSome_iff_exists.mp (lookup_isSome.mpr hbase)
      have heffective : name ∉ f.config.aliases := fun hmem => h.effective_notMem hmem hbase
      have hself : renameText aliasGrammar f.rename body = body := by
        refine renameText_eq_self _ fun n hn => rename_other h.parsed fun hlocal => ?_
        exact h.local_notMem hlocal (h.valid.mem_of_body hbody hn)
      rw [hlookup, lookup_eq_none.mpr hlocal, rename_other h.parsed hlocal, none_or,
        hbody, map_some, hself]
      refine htable _ _ ?_
      rw [scope, lookup_mergeAliases, lookup_eq_none.mpr heffective, hbody]
      rfl
  closed name hname text htext n hn := by
    have hlookup : (raw.config.aliases.lookup name).or (base.aliases.lookup name) = some text :=
      lookup_mergeAliases.symm.trans htext
    rcases or_eq_some_iff.mp hlookup with hbody | ⟨-, hbody⟩
    · exact h.mem_overlay hcovered (Or.inr ⟨name, text, hbody, hn⟩)
    · exact mem_mergeAliases.mpr (Or.inr (h.valid.mem_of_body hbody hn))

theorem inTable_of_extends {merged : Config}
    (hmerged : Extends after.config merged) : InTable base f merged.aliases :=
  fun name body hbody => hmerged.aliases name body (h.entered.lookup_scope h.sound name body hbody)

/-- A rewritten text has the expansion that the written one has in the overlay. -/
theorem aliasText_rename (htable : InTable base f table)
    (hcovered : ∀ name, CheckedName raw name → Effective raw f.id name → name ∈ raw.config.aliases)
    (htext : ∀ name ∈ names aliasGrammar text, name ∈ overlay base raw) :
    aliasText table (renameText aliasGrammar f.rename text) = aliasText (overlay base raw) text :=
  expandText_rename aliasGrammar aliasOutput (h.renames htable hcovered) htext

theorem resolves_overlay
    (hcovered : ∀ name, CheckedName raw name → Effective raw f.id name → name ∈ raw.config.aliases) :
    Resolves (overlay base raw) := by
  intro name hname
  have hrename := expansion_rename aliasGrammar aliasOutput (h.renames inTable_scope hcovered) hname
  rw [aliasExpansion, ← hrename]
  refine h.entered.resolves (f.rename name) ?_
  rw [mem_mergeAliases]
  by_cases hlocal : name ∈ raw.config.aliases
  · left
    rw [mem_effective h.parsed, rename_local h.parsed hlocal]
    exact ⟨name, hlocal, rfl⟩
  · rw [rename_other h.parsed hlocal]
    exact Or.inr ((mem_mergeAliases.mp hname).resolve_left hlocal)

/-- Names that the fragment's renaming gives are read back. -/
theorem rename_localName (hname : name ∈ base.aliases ∨ Effective raw f.id name) :
    localName raw f.id name ∈ overlay base raw ∧ f.rename (localName raw f.id name) = name := by
  unfold localName
  cases hfind : raw.config.aliases.keys.find? fun n =>
      effectiveAliasId (aliasNamespace f.id) n = name with
  | some n =>
    have hn : n ∈ raw.config.aliases := mem_keys.mpr (mem_of_find?_eq_some hfind)
    have heq : effectiveAliasId (aliasNamespace f.id) n = name := by
      simpa using find?_some hfind
    exact ⟨mem_mergeAliases.mpr (Or.inl hn), (rename_local h.parsed hn).trans heq⟩
  | none =>
    have hbase : name ∈ base.aliases := by
      refine hname.resolve_right fun ⟨n, hn, heq⟩ => ?_
      have hnot := find?_eq_none.mp hfind n (mem_keys.mp hn)
      exact hnot (decide_eq_true heq)
    exact ⟨mem_mergeAliases.mpr (Or.inr hbase),
      rename_other h.parsed fun hlocal => h.local_notMem hlocal hbase⟩

/-- A text that is not rewritten is expanded as if its effective ids were read back. -/
theorem aliasText_unchecked (htable : InTable base f table)
    (hcovered : ∀ name, CheckedName raw name → Effective raw f.id name → name ∈ raw.config.aliases)
    (htext : ∀ name ∈ names aliasGrammar text, name ∈ base.aliases ∨ Effective raw f.id name) :
    aliasText table text =
      aliasText (overlay base raw) (renameText aliasGrammar (localName raw f.id) text) := by
  have hback : renameText aliasGrammar f.rename
      (renameText aliasGrammar (localName raw f.id) text) = text := by
    rw [renameText_renameText aliasGrammar fun _ => isName_localName h.parsed]
    exact renameText_eq_self _ fun name hname => (h.rename_localName (htext name hname)).2
  have hnames : ∀ name ∈ names aliasGrammar (renameText aliasGrammar (localName raw f.id) text),
      name ∈ overlay base raw := by
    intro name hname
    rw [mem_names_renameText aliasGrammar fun _ => isName_localName h.parsed] at hname
    obtain ⟨n, hn, rfl⟩ := hname
    exact (h.rename_localName (htext n hn)).1
  rw [← h.aliasText_rename htable hcovered hnames, hback]

/-! ### Where the rules are -/

variable {merged : Config} (hmerged : Extends after.config merged)

include hmerged

/-- A rule of a fragment as it is merged. -/
theorem filter_rulesAt {s : Section} {r : RuleView} {id : Bytes}
    (hr : r ∈ raw.config.rulesAt s) (hid : r.id = some id) :
    (merged.rulesAt s).filter (·.id = some (qualifyId f.id id)) =
      [qualifyView f.id (rewriteView f.localAliases (aliasNamespace f.id) r)] := by
  have hview : qualifyView f.id (rewriteView f.localAliases (aliasNamespace f.id) r) ∈
      f.config.rulesAt s := by
    rw [h.parsed.rules]
    exact List.mem_map_of_mem hr
  have hviewId : (qualifyView f.id (rewriteView f.localAliases (aliasNamespace f.id) r)).id =
      some (qualifyId f.id id) := by
    rw [qualifyView, rewriteView, hid]
    rfl
  have hmem : qualifyId f.id id ∈ ruleIds (f.config.rulesAt s) :=
    mem_filterMap.mpr ⟨_, hview, hviewId⟩
  have hfresh := fresh_of_keys h.sound.index h.entered.nodup h.entered.newKeys s
  have hbefore : (before.config.rulesAt s).filter (·.id = some (qualifyId f.id id)) = [] := by
    refine filter_eq_nil_iff.mpr fun b hb heq => hfresh.new _ hmem ?_
    exact mem_filterMap.mpr ⟨b, hb, by simpa using heq⟩
  have hafter : qualifyId f.id id ∈ ruleIds (after.config.rulesAt s) := by
    rw [h.entered.rulesAt h.sound, ruleIds, filterMap_append]
    exact mem_append_right _ hmem
  rw [hmerged.filter_rulesAt hafter, h.entered.rulesAt h.sound, filter_append, hbefore, nil_append]
  exact filter_ruleIds hfresh.nodup hview hviewId

/-! ### The criterion -/

/-- A covered fragment is hygienic in every configuration that extends the one it entered. -/
theorem hygienic (hresolves : Resolves merged.aliases)
    (hcovered : Covered base raw f.id) : Hygienic base raw f.id merged := by
  have hoverlay := h.resolves_overlay hcovered.checked
  have htable := h.inTable_of_extends hmerged
  have hunchecked : ∀ {text name : Bytes}, UncheckedText raw text →
      name ∈ names aliasGrammar text → name ∈ overlay base raw := by
    intro text name htext hname
    refine mem_mergeAliases.mpr ((hcovered.unchecked text htext name hname).symm.imp_left ?_)
    exact And.left
  constructor
  · intro s r hr
    obtain ⟨id, hid⟩ := isSome_iff_exists.mp (h.parsed.ids s r hr)
    refine ⟨id, _, hid, h.filter_rulesAt hmerged hr hid, rel_append ?_ ?_⟩
    · refine List.forall₂_map_right_iff.mpr (List.forall₂_same.mpr fun text htext => ?_)
      have hnames : ∀ name ∈ names aliasGrammar text, name ∈ overlay base raw :=
        fun name hname => h.mem_overlay hcovered.checked (Or.inl ⟨s, r, hr, text, htext, hname⟩)
      obtain ⟨out, hout⟩ := isSome_iff_exists.mp (hoverlay.isSome_aliasText.mpr hnames)
      refine (sameText_iff hoverlay hresolves).mpr ⟨out, hout, ?_⟩
      exact (h.aliasText_rename htable hcovered.checked hnames).trans hout
    · refine List.forall₂_same.mpr fun text htext => ?_
      have htext' : UncheckedText raw text := ⟨s, r, hr, htext⟩
      have hnames := fun name => @hunchecked text name htext'
      obtain ⟨out, hout⟩ := isSome_iff_exists.mp (hoverlay.isSome_aliasText.mpr hnames)
      refine (sameText_iff hoverlay hresolves).mpr ⟨out, hout, ?_⟩
      rw [h.aliasText_unchecked htable hcovered.checked fun name hname =>
        (hcovered.unchecked text htext' name hname).imp_right And.right,
        hcovered.uncheckedText text htext', hout]
  · rintro name (hchecked | ⟨text, htext, hname⟩)
    · exact h.mem_overlay hcovered.checked hchecked
    · exact hunchecked htext hname

/-- A fragment that is hygienic alone is covered. -/
theorem covered (hresolves : Resolves merged.aliases)
    (halone : ∀ name ∈ merged.aliases, name ∈ f.config.aliases ∨ name ∈ base.aliases)
    (hhygienic : Hygienic base raw f.id merged) : Covered base raw f.id := by
  have hchecked : ∀ name, CheckedName raw name → Effective raw f.id name →
      name ∈ raw.config.aliases := by
    intro name hname heffective
    refine (mem_mergeAliases.mp (hhygienic.defined name (Or.inl hname))).resolve_right ?_
    exact h.effective_notMem ((mem_effective h.parsed).mpr heffective)
  have hoverlay := h.resolves_overlay hchecked
  have hsame : ∀ {text : Bytes}, UncheckedText raw text →
      ∃ out, aliasText (overlay base raw) text = some out ∧
        aliasText merged.aliases text = some out := by
    rintro text ⟨s, r, hr, htext⟩
    obtain ⟨id, m, hid, hfilter, htexts⟩ := hhygienic.rules s r hr
    rw [h.filter_rulesAt hmerged hr hid, singleton_inj] at hfilter
    rw [← hfilter] at htexts
    have hdrop := List.forall₂_drop r.checked.length htexts
    simp only [RuleView.compiled, qualifyView, rewriteView] at hdrop
    rw [drop_left, drop_left' (by simp)] at hdrop
    exact (sameText_iff hoverlay hresolves).mp (List.forall₂_same.mp hdrop text htext)
  have hunchecked : ∀ text, UncheckedText raw text → ∀ name ∈ names aliasGrammar text,
      name ∈ base.aliases ∨ name ∈ raw.config.aliases ∧ Effective raw f.id name := by
    intro text htext name hname
    obtain ⟨out, hout, hout'⟩ := hsame htext
    have hdefined := mem_of_aliasText (isSome_of_mem hout) hname
    rcases mem_mergeAliases.mp hdefined with hlocal | hbase
    · right
      have hmem := halone name (mem_of_aliasText (isSome_of_mem hout') hname)
      exact ⟨hlocal, (mem_effective h.parsed).mp (hmem.resolve_right (h.local_notMem hlocal))⟩
    · exact Or.inl hbase
  refine ⟨hchecked, hunchecked, fun text htext => ?_⟩
  obtain ⟨out, hout, hout'⟩ := hsame htext
  rw [← h.aliasText_unchecked (h.inTable_of_extends hmerged) hchecked fun name hname =>
    (hunchecked text htext name hname).imp_right And.right, hout, hout']

end Enters

/-- A fragment is covered when each name it writes is defined and its `via` expressions name
aliases of the configuration only. -/
theorem covered_of_global {base : Config} {raw : RawFragmentConfig} {fragment : Bytes}
    (hbase : ∀ name ∈ base.aliases, ¬Effective raw fragment name)
    (hchecked : ∀ name, CheckedName raw name → name ∈ overlay base raw)
    (hunchecked : ∀ text, UncheckedText raw text → ∀ name ∈ names aliasGrammar text,
      name ∈ base.aliases) : Covered base raw fragment where
  checked name hname heffective :=
    (mem_mergeAliases.mp (hchecked name hname)).resolve_right fun h => hbase name h heffective
  unchecked text htext name hname := Or.inl (hunchecked text htext name hname)
  uncheckedText text htext := by
    refine congrArg _ (renameText_eq_self _ fun name hname => ?_)
    have hnone : raw.config.aliases.keys.find?
        (fun n => effectiveAliasId (aliasNamespace fragment) n = name) = none := by
      refine find?_eq_none.mpr fun n hn heq => ?_
      exact hbase name (hunchecked text htext name hname)
        ⟨n, mem_keys.mpr hn, of_decide_eq_true heq⟩
    rw [localName, hnone]
    rfl

/-! ## Fragments with a `via` -/

def internalVocabulary : Vocabulary where
  allowedKinds _ := ["module", "local", "param", "comment"].map byteString
  allowedDocVis _ := []

def emptyConfig : Config where
  aliases := ∅
  refs := []
  minLinkageCoverage := none
  symbol := ⟨[], none⟩
  group := []
  path := []
  shape := ∅
  default := ⟨∅, ∅⟩
  lang _ := ⟨∅, ∅⟩
  fragments := []

/-- A fragment with one alias and one path rule, which names it in `from`. -/
def serviceFragment (via : String) : RawFragmentConfig where
  fragment := byteString "ui"
  config :=
    { emptyConfig with
      aliases := AList.insert (byteString "service") (byteString "kind = 'class'") ∅
      path := [{
        id := some (byteString "layered")
        from_ := byteString "$service"
        to_ := byteString "kind = 'table'"
        expect := .allPathsVia
        via := some (byteString via) }] }

def fragmentPath : Bytes := byteString "ui/code-moniker.fragment.toml"

/-- A fragment that is parsed. -/
def parsedFragment (raw : RawFragmentConfig)
    (h : (parseFragment internalVocabulary fragmentPath raw).toOption.isSome) : FragmentFile :=
  (parseFragment internalVocabulary fragmentPath raw).toOption.get h

theorem parseFragment_parsedFragment
    (h : (parseFragment internalVocabulary fragmentPath raw).toOption.isSome) :
    parseFragment internalVocabulary fragmentPath raw = .ok (parsedFragment raw h) := by
  have hget : (parseFragment internalVocabulary fragmentPath raw).toOption =
      some (parsedFragment raw h) := (some_get h).symm
  cases hparse : parseFragment internalVocabulary fragmentPath raw with
  | error e =>
    rw [hparse] at hget
    cases hget
  | ok f =>
    rw [hparse] at hget
    exact congrArg _ (some.inj hget)

/-- A fragment that is accepted on its own. -/
theorem mergeInto_single {base : Config} {f : FragmentFile} (henabled : f.enabled = true)
    (hboundaries : validateAliasBoundaries f (MergeState.start base).aliasOrigins = .ok ())
    (hscope : ∀ name ∈ (scope base f).keys, (aliasExpandAt (scope base f) 2 name).isSome)
    (hreferences : ∀ key ∈ f.config.ruleKeys, ∀ text ∈ key.2, ∀ name ∈ names aliasGrammar text,
      name ∈ scope base f)
    (hindex : ((MergeState.start base).index.insertConfig f.config f.path).toOption.isSome) :
    ∃ merged, mergeInto base [f] = .ok merged := by
  have hindex' : ∃ index, (MergeState.start base).index.insertConfig f.config f.path = .ok index := by
    cases hinsert : (MergeState.start base).index.insertConfig f.config f.path with
    | error e =>
      rw [hinsert] at hindex
      cases hindex
    | ok index => exact ⟨index, rfl⟩
  have hresolves : Resolves (scope base f) := by
    intro name hname
    obtain ⟨v, hv⟩ := isSome_iff_exists.mp (hscope name (mem_keys.mp hname))
    exact isSome_of_mem (aliasExpansion_of_expandAt hv)
  obtain ⟨st, hst⟩ := mergeFragment_accepts henabled hboundaries hresolves hreferences hindex'
  refine ⟨st.config, ?_⟩
  rw [mergeInto, foldlM_cons, hst]
  rfl

/-- The `via` of a path rule names a local alias. -/
def localVia : FragmentFile := parsedFragment (serviceFragment "$service") (by decide +kernel)

/-- The `via` of a path rule names no alias. -/
def plainVia : FragmentFile := parsedFragment (serviceFragment "kind = 'fn'") (by decide +kernel)

/-- The criterion for every list of fragments that is accepted. A disabled fragment changes
nothing but the list of fragments. -/
theorem fragment_hygienic_iff {voc : Vocabulary} {path : Bytes} {base : Config}
    {raw : RawFragmentConfig} {f : FragmentFile}
    (hbase : ∃ resolved, resolveAliases base.aliases = .ok resolved)
    (hparse : parseFragment voc path raw = .ok f) (henabled : f.enabled = true)
    (halone : ∃ merged, mergeInto base [f] = .ok merged) :
    (∀ files merged, f ∈ files → mergeInto base files = .ok merged → Hygienic base raw f.id merged ∧
        ∃ merged', mergeInto base (files.filter (·.enabled)) = .ok merged' ∧
          merged = merged'.withFragments merged.fragments) ↔ Covered base raw f.id := by
  have hresolves : Resolves base.aliases := resolveAliases_ok_iff.mp hbase
  have hparsed := parseFragment_eq_ok hparse
  have hstart := sound_start hresolves
  constructor
  · intro hall
    obtain ⟨merged, hmerged⟩ := halone
    have hhygienic := (hall [f] merged mem_cons_self hmerged).1
    obtain ⟨st, hrun, hconfig⟩ := bind_eq_ok.mp hmerged
    obtain rfl := Except.ok.inj hconfig
    rw [foldlM_cons] at hrun
    obtain ⟨one, hone, hrun⟩ := bind_eq_ok.mp hrun
    obtain rfl := Except.ok.inj hrun
    rcases mergeFragment_eq_ok hone with ⟨-, hentered⟩ | ⟨hdisabled, -⟩
    · refine (Enters.mk hresolves hparsed hstart hentered).covered (Extends.refl _)
        (hentered.sound hstart).resolves (fun name hname => ?_) hhygienic
      rw [← lookup_isSome, hentered.lookup_aliases, isSome_or, Bool.or_eq_true] at hname
      exact hname.imp lookup_isSome.mp lookup_isSome.mp
    · rw [henabled] at hdisabled
      cases hdisabled
  · intro hcovered files merged hf hmerged
    refine ⟨?_, mergeInto_enabled hmerged⟩
    obtain ⟨st, hrun, hconfig⟩ := bind_eq_ok.mp hmerged
    obtain rfl := Except.ok.inj hconfig
    obtain ⟨before, after, hsound, hentered, hextends⟩ :=
      mergeRun_entered hstart hrun hf henabled
    exact (Enters.mk hresolves hparsed hsound hentered).hygienic hextends
      (mergeRun_sound hstart hrun).1.resolves hcovered

theorem plainVia_hygienic :
    parseFragment internalVocabulary fragmentPath (serviceFragment "kind = 'fn'") = .ok plainVia ∧
      ∀ files merged, plainVia ∈ files → mergeInto emptyConfig files = .ok merged →
        Hygienic emptyConfig (serviceFragment "kind = 'fn'") plainVia.id merged ∧
          ∃ merged', mergeInto emptyConfig (files.filter (·.enabled)) = .ok merged' ∧
            merged = merged'.withFragments merged.fragments := by
  refine ⟨parseFragment_parsedFragment _, ?_⟩
  refine (fragment_hygienic_iff ⟨∅, rfl⟩ (parseFragment_parsedFragment _) (by decide +kernel)
    (mergeInto_single (by decide +kernel) (by decide +kernel) (by decide +kernel)
      (by decide +kernel) (by decide +kernel))).mpr (covered_of_global ?_ ?_ ?_)
  · exact fun name hname => absurd hname (notMem_empty name)
  · rintro name (⟨s, r, hr, text, htext, hname⟩ | ⟨n, body, hbody, hname⟩)
    · have hall : ∀ s ∈ (serviceFragment "kind = 'fn'").config.sections,
          ∀ r ∈ (serviceFragment "kind = 'fn'").config.rulesAt s, ∀ text ∈ r.checked,
            ∀ name ∈ names aliasGrammar text,
              name ∈ overlay emptyConfig (serviceFragment "kind = 'fn'") := by decide +kernel
      exact hall s (mem_sections hr) r hr text htext name hname
    · have hall : ∀ e ∈ (serviceFragment "kind = 'fn'").config.aliases.entries,
          ∀ name ∈ names aliasGrammar e.2,
            name ∈ overlay emptyConfig (serviceFragment "kind = 'fn'") := by decide +kernel
      exact hall ⟨n, body⟩ (mem_lookup_iff.mp hbody) name hname
  · rintro text ⟨s, r, hr, htext⟩ name hname
    have hall : ∀ s ∈ (serviceFragment "kind = 'fn'").config.sections,
        ∀ r ∈ (serviceFragment "kind = 'fn'").config.rulesAt s, ∀ text ∈ r.unchecked,
          names aliasGrammar text = [] := by decide +kernel
    rw [hall s (mem_sections hr) r hr text htext] at hname
    cases hname

/-- A local alias in a `via` is accepted, and undefined in the merged configuration. -/
theorem localVia_not_hygienic :
    parseFragment internalVocabulary fragmentPath (serviceFragment "$service") = .ok localVia ∧
      ∃ merged, mergeInto emptyConfig [localVia] = .ok merged ∧
        merged.path.map (·.via) = [some (byteString "$service")] ∧
        byteString "service" ∉ merged.aliases ∧
        ¬Hygienic emptyConfig (serviceFragment "$service") localVia.id merged := by
  have hparse := parseFragment_parsedFragment
    (show (parseFragment internalVocabulary fragmentPath
      (serviceFragment "$service")).toOption.isSome from by decide +kernel)
  refine ⟨hparse, ?_⟩
  have hresolves : Resolves emptyConfig.aliases :=
    fun name hname => absurd hname (notMem_empty name)
  have hstart := sound_start hresolves
  obtain ⟨merged, hmerged⟩ := @mergeInto_single emptyConfig localVia (by decide +kernel)
    (by decide +kernel) (by decide +kernel) (by decide +kernel) (by decide +kernel)
  refine ⟨merged, hmerged, ?_⟩
  obtain ⟨st, hrun, hconfig⟩ := bind_eq_ok.mp hmerged
  obtain rfl := Except.ok.inj hconfig
  rw [foldlM_cons] at hrun
  obtain ⟨one, hone, hrun⟩ := bind_eq_ok.mp hrun
  obtain rfl := Except.ok.inj hrun
  rcases mergeFragment_eq_ok hone with ⟨-, hentered⟩ | ⟨hdisabled, -⟩
  · have halone : ∀ name ∈ one.config.aliases,
        name ∈ localVia.config.aliases ∨ name ∈ emptyConfig.aliases := by
      intro name hname
      rw [← lookup_isSome, hentered.lookup_aliases, isSome_or, Bool.or_eq_true] at hname
      exact hname.imp lookup_isSome.mp lookup_isSome.mp
    have hservice : byteString "service" ∉ localVia.config.aliases := by decide +kernel
    refine ⟨?_, fun hname => ?_, fun hhygienic => ?_⟩
    · rw [hentered.config]
      decide +kernel
    · exact (halone _ hname).elim hservice (notMem_empty _)
    · have henters := Enters.mk hresolves (parseFragment_eq_ok hparse) hstart hentered
      have hcovered := henters.covered (Extends.refl _) (hentered.sound hstart).resolves halone
        hhygienic
      have htext : UncheckedText (serviceFragment "$service") (byteString "$service") :=
        ⟨.path, _, mem_cons_self, mem_cons_self⟩
      have hname : byteString "service" ∈ names aliasGrammar (byteString "$service") := by
        decide +kernel
      rcases hcovered.unchecked _ htext _ hname with hbase | ⟨-, heffective⟩
      · exact notMem_empty _ hbase
      · exact hservice ((mem_effective henters.parsed).mpr heffective)
  · have henabled : localVia.enabled = true := by decide +kernel
    rw [henabled] at hdisabled
    cases hdisabled

end CodeMoniker.Fragments
